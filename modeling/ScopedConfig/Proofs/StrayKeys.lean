import ScopedConfig.Proofs.Listings

/-!
# Keys that are no entries

Under the prefix of a property in a scope there may be keys that have no revision behind it, and so are
none of the store's. A history leaves them out one by one, and is the same with and without them
(`Table.Strewn.historyOf_run`). A look-up as of a revision asks for a single row, the last one up to the
key of the revision. Where a stray key is that row there is nothing to be found, whatever entries come
before it (`Table.Strewn.entryAsOf_of_covered`); everywhere else stray keys make no difference
(`Table.Strewn.entryAsOf_of_not_covered`).
-/

namespace ScopedConfig

open Layout Store

variable {pre key name : String} {s : Scope} {n m : Revision} {t t' : Table} {rows : List Row}

/-- A key under a prefix with no revision behind the prefix. -/
structure Layout.Stray (pre key : String) : Prop where
  start : startsWith pre key
  revision?_eq : revision? pre key = none

theorem Layout.stray_append_iff {rest : String} :
    Stray pre (pre ++ rest) ↔ revisionOf? rest.toList = none := by
  have read : revision? pre (pre ++ rest) = revisionOf? rest.toList := by
    rw [revision?, dropPrefix?_eq_some_iff.mpr (String.toList_append ..), Option.bind_some]
  constructor
  · intro stray
    rw [← read, stray.revision?_eq]
  · intro unread
    exact ⟨startsWith_iff_exists.mpr ⟨rest, rfl⟩, read.trans unread⟩

/-- An entry has its revision behind the prefix. -/
theorem Layout.not_stray_entryKey : ¬ Stray (entryPrefix name s.id) (entryKey name s.id n) := by
  intro stray
  have unread := stray.revision?_eq
  rw [revision?_entryKey] at unread
  cases unread

/-! ## Rows that hold entries

Reading a history skips a row whose key has no revision. Hence rows with such keys may be left out
beforehand. -/

/-- Whether there is a revision behind the prefix in the key of a row. -/
def Layout.isEntry (pre : String) (row : Row) : Bool := (revision? pre row.1).isSome

theorem Store.decodeEntries_filter (pre : String) (rows : List Row) :
    decodeEntries pre (rows.filter (isEntry pre)) = decodeEntries pre rows := by
  induction rows with
  | nil => rfl
  | cons row rows ih =>
      by_cases entry : (revision? pre row.1).isSome
      · rw [List.filter_cons_of_pos (by simpa [isEntry] using entry), decodeEntries, decodeEntries, ih]
      · rw [List.filter_cons_of_neg (by simpa [isEntry] using entry), ih, decodeEntries, if_neg entry]

theorem Store.entryOf_of_stray {row : Row} (h : revision? pre row.1 = none) :
    entryOf pre (some row) = .ok none := by
  simp [entryOf, h]

namespace Table

/-! ## Stray keys in a table

`Table.Strewn` relates a table to itself with stray keys put in. Under the prefix the rows of the
one are among those of the other; what is new has no revision in its key. -/

/-- The second table is the first one with stray keys under a prefix besides. -/
structure Strewn (pre : String) (t t' : Table) : Prop where
  kept : ∀ k stored, t.get? k = some stored → t'.get? k = some stored
  stray : ∀ k, t'.get? k ≠ none → t.get? k ≠ none ∨ Stray pre k

/-- A key that only the second table has comes last of all under a prefix up to a key. -/
def Covered (t t' : Table) (pre key : String) : Prop :=
  ∃ k, t.get? k = none ∧ t'.get? k ≠ none ∧ k ≤ key ∧
    ∀ k', startsWith pre k' → t.get? k' ≠ none → k' ≤ key → k' < k

theorem mem_scan_of_get? {stored : Versioned} (found : t.get? key = some stored)
    (start : startsWith pre key) : (key, stored) ∈ t.scan pre :=
  mem_scan_iff.mpr ⟨mem_rows_iff.mpr found, start⟩

/-- What comes up to a key is found from there, if nothing behind it is. -/
theorem exists_floor (start : startsWith pre key) {row : Row} (mem : row ∈ t.scan pre)
    (le : row.1 ≤ key) : ∃ found, t.floor pre key = some found := by
  cases floor : t.floor pre key with
  | some found => exact ⟨found, rfl⟩
  | none =>
      rw [t.floor_eq_getLast? start, List.getLast?_eq_none_iff, List.filter_eq_nil_iff] at floor
      exact absurd le (by simpa using floor row mem)

theorem get?_ne_none_of_mem_scan {row : Row} (mem : row ∈ t.scan pre) : t.get? row.1 ≠ none := by
  rw [mem_rows_iff.mp (mem_scan_iff.mp mem).1]
  exact Option.some_ne_none _

namespace Strewn

/-- A row of the first table is one of the second. -/
theorem scan_subset (h : t.Strewn pre t') : t.scan pre ⊆ t'.scan pre := by
  intro row mem
  obtain ⟨mem, start⟩ := mem_scan_iff.mp mem
  exact mem_scan_iff.mpr ⟨mem_rows_iff.mpr (h.kept _ _ (mem_rows_iff.mp mem)), start⟩

/-- A row of the second table whose key the first one has is a row of the first. -/
theorem mem_scan (h : t.Strewn pre t') {row : Row} (mem : row ∈ t'.scan pre)
    (present : t.get? row.1 ≠ none) : row ∈ t.scan pre := by
  obtain ⟨mem, start⟩ := mem_scan_iff.mp mem
  obtain ⟨stored, found⟩ := Option.ne_none_iff_exists'.mp present
  have same := h.kept _ _ found
  rw [mem_rows_iff.mp mem] at same
  refine mem_scan_iff.mpr ⟨mem_rows_iff.mpr ?_, start⟩
  rw [found, Option.some.inj same]

/-! ### Histories

The rows that hold entries are those of the first table, in the same order, since both lists are in
the order of their keys. -/

/-- The rows that hold entries are the same. -/
theorem filter_scan_eq (h : t.Strewn pre t') :
    (t'.scan pre).filter (isEntry pre) = (t.scan pre).filter (isEntry pre) := by
  refine rows_eq_of_mem_iff ((t'.sorted_scan pre).filter _) ((t.sorted_scan pre).filter _) fun row => ?_
  rw [List.mem_filter, List.mem_filter]
  refine and_congr_left fun entry => ⟨fun mem => ?_, fun mem => h.scan_subset mem⟩
  rcases h.stray _ (get?_ne_none_of_mem_scan mem) with present | stray
  · exact h.mem_scan mem present
  · simp [isEntry, stray.revision?_eq] at entry

/-- **A history leaves stray keys out.** -/
theorem historyOf_run (h : t.Strewn (entryPrefix name s.id) t') :
    (historyOf name s).run t' = (((historyOf name s).run t).1, t') := by
  show (decodeEntries _ (t'.scan _), t') = (decodeEntries _ (t.scan _), t')
  rw [← decodeEntries_filter, h.filter_scan_eq, decodeEntries_filter]

/-! ### Look-ups

Of the rows up to a key the last is found. If a key that only the second table has is behind all
those of the first one, the row found is new and no entry; otherwise the row found is the one that
was found without stray keys. -/

/-- What the second table has of its own under the prefix is stray. -/
theorem stray_of_get?_eq_none (h : t.Strewn pre t') {k : String} (absent : t.get? k = none)
    (present : t'.get? k ≠ none) : Stray pre k :=
  (h.stray k present).resolve_left (not_not.mpr absent)

/-- **A stray key that comes last is what the look-up finds**, or one behind it. -/
theorem floor_of_covered (h : t.Strewn pre t') (start : startsWith pre key)
    (covered : t.Covered t' pre key) :
    ∃ row, t'.floor pre key = some row ∧ t.get? row.1 = none := by
  obtain ⟨k, absent, present, le, last⟩ := covered
  obtain ⟨stored, found⟩ := Option.ne_none_iff_exists'.mp present
  have mem := mem_scan_of_get? found (h.stray_of_get?_eq_none absent present).start
  obtain ⟨row, floor⟩ := exists_floor start mem le
  obtain ⟨-, under, upTo, greatest⟩ := floor_eq_some_iff.mp floor
  refine ⟨row, floor, ?_⟩
  -- a row of the first table comes before the key that covers it, which is among those found
  by_contra old
  have before := last row.1 (mem_scan_iff.mp under).2 old upTo
  exact Std.not_le.mpr before (greatest _ mem le)

/-- **Elsewhere the look-up finds what it found.** -/
theorem floor_of_not_covered (h : t.Strewn pre t') (clear : ¬ t.Covered t' pre key) :
    t'.floor pre key = t.floor pre key := by
  have old {row : Row} (floor : t'.floor pre key = some row) : t.floor pre key = some row := by
    obtain ⟨start, mem, le, greatest⟩ := floor_eq_some_iff.mp floor
    have present : t.get? row.1 ≠ none := by
      intro absent
      -- a row found that only the second table has would cover the key
      refine clear ⟨row.1, absent, get?_ne_none_of_mem_scan mem, le, fun k start present le => ?_⟩
      obtain ⟨stored, hk⟩ := Option.ne_none_iff_exists'.mp present
      refine Std.lt_of_le_of_ne (greatest _ (mem_scan_of_get? (h.kept _ _ hk) start) le) ?_
      rintro rfl
      exact present absent
    exact floor_eq_some_iff.mpr
      ⟨start, h.mem_scan mem present, le, fun r hr => greatest r (h.scan_subset hr)⟩
  cases floor : t'.floor pre key with
  | some row => rw [old floor]
  | none =>
      cases before : t.floor pre key with
      | none => rfl
      | some row =>
          obtain ⟨start, mem, le, -⟩ := floor_eq_some_iff.mp before
          obtain ⟨found, floor'⟩ := exists_floor start (h.scan_subset mem) le
          cases floor.symm.trans floor'

/-- **Behind a stray key nothing is found.** -/
theorem entryAsOf_of_covered (h : t.Strewn (entryPrefix name s.id) t')
    (covered : t.Covered t' (entryPrefix name s.id) (entryKey name s.id n)) :
    (entryAsOf name s n).run t' = (.ok none, t') := by
  obtain ⟨row, floor, absent⟩ := h.floor_of_covered (startsWith_entryPrefix_entryKey name s.id n) covered
  obtain ⟨-, mem, -⟩ := floor_eq_some_iff.mp floor
  have stray := h.stray_of_get?_eq_none absent (get?_ne_none_of_mem_scan mem)
  rw [entryAsOf_run, floor, entryOf_of_stray stray.revision?_eq]

theorem entryAsOf_of_not_covered (h : t.Strewn (entryPrefix name s.id) t')
    (clear : ¬ t.Covered t' (entryPrefix name s.id) (entryKey name s.id n)) :
    (entryAsOf name s n).run t' = (((entryAsOf name s n).run t).1, t') := by
  rw [entryAsOf_run, entryAsOf_run, h.floor_of_not_covered clear]

/-! ### The last entry

The same in terms of the entry that ought to be found. -/

/-- Stray keys do not touch the entries. -/
theorem get?_entryKey (h : t.Strewn (entryPrefix name s.id) t') (k : Revision) :
    t'.get? (entryKey name s.id k) = t.get? (entryKey name s.id k) := by
  cases old : t.get? (entryKey name s.id k) with
  | some stored => exact h.kept _ _ old
  | none =>
      by_contra present
      exact not_stray_entryKey (h.stray_of_get?_eq_none old present)

/-- The look-up lands on the last entry, or on a stray key behind it. -/
theorem floor_of_lastEntry (h : t.Strewn (entryPrefix name s.id) t')
    (keyed : ∀ k, t.get? k ≠ none → (revision? (entryPrefix name s.id) k).isSome →
      ∃ r, k = entryKey name s.id r) {e : Entry} (last : t.LastEntry name s.id n m e) :
    ∃ row, t'.floor (entryPrefix name s.id) (entryKey name s.id n) = some row ∧
      (row.1 = entryKey name s.id m ∨
        Stray (entryPrefix name s.id) row.1 ∧ entryKey name s.id m < row.1) := by
  obtain ⟨stored, found, -⟩ := last.stored
  have mem := mem_scan_of_get? (h.kept _ _ found) (startsWith_entryPrefix_entryKey name s.id m)
  obtain ⟨row, floor⟩ := exists_floor (startsWith_entryPrefix_entryKey name s.id n) mem
    (entryKey_le_iff.mpr last.le)
  obtain ⟨-, under, le, greatest⟩ := floor_eq_some_iff.mp floor
  have behind := greatest _ mem (entryKey_le_iff.mpr last.le)
  refine ⟨row, floor, ?_⟩
  by_cases unread : revision? (entryPrefix name s.id) row.1 = none
  · have stray : Stray (entryPrefix name s.id) row.1 := ⟨(mem_scan_iff.mp under).2, unread⟩
    refine .inr ⟨stray, Std.lt_of_le_of_ne behind fun same => ?_⟩
    exact not_stray_entryKey (same ▸ stray)
  · -- what is no stray key was there before, and so is not behind the last entry
    have old := (h.stray _ (get?_ne_none_of_mem_scan under)).resolve_right fun stray =>
      unread stray.revision?_eq
    obtain ⟨r, key⟩ := keyed _ old (Option.isSome_iff_ne_none.mpr unread)
    rw [key] at old le behind ⊢
    exact .inl (String.le_antisymm (entryKey_le_iff.mpr (last.last r (entryKey_le_iff.mp le) old)) behind)

/-- **The last entry up to a revision is found if no stray key comes between it and the revision.** -/
theorem entryAsOf_of_lastEntry_iff (h : t.Strewn (entryPrefix name s.id) t')
    (keyed : ∀ k, t.get? k ≠ none → (revision? (entryPrefix name s.id) k).isSome →
      ∃ r, k = entryKey name s.id r) {e : Entry} (last : t.LastEntry name s.id n m e) :
    (entryAsOf name s n).run t' = (.ok (some e), t') ↔
      ¬ ∃ k, Stray (entryPrefix name s.id) k ∧ t'.get? k ≠ none ∧ entryKey name s.id m < k ∧
        k < entryKey name s.id n := by
  obtain ⟨row, floor, landed⟩ := h.floor_of_lastEntry keyed last
  obtain ⟨-, under, le, greatest⟩ := floor_eq_some_iff.mp floor
  rw [entryAsOf_run, floor]
  rcases landed with key | ⟨stray, behind⟩
  · -- the look-up lands on the entry, and a stray key behind it would have been found instead
    obtain ⟨stored, found, unpack⟩ := last.stored
    have same : some row.2 = some stored := by
      rw [← mem_rows_iff.mp (mem_scan_iff.mp under).1, key, h.get?_entryKey, found]
    rw [entryOf, key, revision?_entryKey, if_pos Option.isSome_some, Option.some.inj same,
      decodeEntry_eq_ok_iff.mpr unpack]
    refine iff_of_true rfl ?_
    rintro ⟨k, stray, present, behind, before⟩
    obtain ⟨other, hk⟩ := Option.ne_none_iff_exists'.mp present
    have le := greatest _ (mem_scan_of_get? hk stray.start) (Std.le_of_lt before)
    exact Std.not_le.mpr behind (key ▸ le)
  · rw [entryOf_of_stray stray.revision?_eq]
    have before : row.1 < entryKey name s.id n :=
      Std.lt_of_le_of_ne le fun same => not_stray_entryKey (same ▸ stray)
    exact iff_of_false (by simp)
      (not_not.mpr ⟨row.1, stray, get?_ne_none_of_mem_scan under, behind, before⟩)

end Strewn

end Table

/-! ## With and without stray keys

The statement, and a table with one entry in which a key with a minus sign behind the number hides
it. -/

namespace Store

/-- **Stray keys leave histories as they are, and look-ups where no stray key comes last.** Where one
does, nothing is found, though there be entries before it. So the last entry up to a revision is found if
and only if no stray key comes between it and the revision. -/
theorem stray_keys_hide_entries (h : t.Strewn (entryPrefix name s.id) t') :
    (historyOf name s).run t' = (((historyOf name s).run t).1, t') ∧
    (∀ n, ¬ t.Covered t' (entryPrefix name s.id) (entryKey name s.id n) →
      (entryAsOf name s n).run t' = (((entryAsOf name s n).run t).1, t')) ∧
    (∀ n, t.Covered t' (entryPrefix name s.id) (entryKey name s.id n) →
      (entryAsOf name s n).run t' = (.ok none, t')) ∧
    ((∀ k, t.get? k ≠ none → (revision? (entryPrefix name s.id) k).isSome →
        ∃ r, k = entryKey name s.id r) →
      ∀ n m e, t.LastEntry name s.id n m e → ((entryAsOf name s n).run t' = (.ok (some e), t') ↔
        ¬ ∃ k, Stray (entryPrefix name s.id) k ∧ t'.get? k ≠ none ∧ entryKey name s.id m < k ∧
          k < entryKey name s.id n)) := by
  refine ⟨h.historyOf_run, fun n clear => h.entryAsOf_of_not_covered clear,
    fun n covered => h.entryAsOf_of_covered covered, fun keyed n m e last => ?_⟩
  exact h.entryAsOf_of_lastEntry_iff keyed last

/-- The only entry of a property. -/
def onlyEntry : Entry := ⟨1, .integer 1, .stamped 0 0⟩

def tidy : Table := Table.empty.put (entryKey "p" Scope.global.id 1) onlyEntry.pack

/-- A key behind the entry that has no revision. -/
def litter : String := entryPrefix "p" Scope.global.id ++ "00000000000000000001-"

def littered : Table := tidy.put litter []

theorem get?_tidy {k : String} (present : tidy.get? k ≠ none) : k = entryKey "p" Scope.global.id 1 := by
  by_contra other
  rw [tidy, Table.get?_put_of_ne other] at present
  exact present rfl

theorem litter_behind_entry : entryKey "p" Scope.global.id 1 < litter ∧
    litter ≤ entryKey "p" Scope.global.id 2 := by
  decide +kernel

theorem get?_tidy_litter : tidy.get? litter = none := by
  by_contra present
  exact String.lt_irrefl _ (get?_tidy present ▸ litter_behind_entry.1)

theorem strewn_littered : tidy.Strewn (entryPrefix "p" Scope.global.id) littered where
  kept k stored found := by
    have other : k ≠ litter := by
      rintro rfl
      rw [get?_tidy_litter] at found
      cases found
    rw [littered, Table.get?_put_of_ne other, found]
  stray k present := by
    by_cases new : k = litter
    · exact .inr (new ▸ stray_append_iff.mpr (by decide))
    · rw [littered, Table.get?_put_of_ne new] at present
      exact .inl present

theorem littered_reads :
    (historyOf "p" .global).run littered = (.ok [onlyEntry], littered) ∧
    (entryAsOf "p" .global 1).run littered = (.ok (some onlyEntry), littered) ∧
    (entryAsOf "p" .global 2).run littered = (.ok none, littered) := by
  obtain ⟨history, -, covered, last⟩ := stray_keys_hide_entries strewn_littered
  refine ⟨?_, ?_, ?_⟩
  · have before : ((historyOf "p" .global).run tidy).1 = .ok [onlyEntry] := by decide +kernel
    rw [history, before]
  · have stored : tidy.HasEntry "p" Scope.global.id 1 onlyEntry :=
      ⟨_, Table.get?_put_self, Entry.unpack?_pack trivial⟩
    have keyed : ∀ k, tidy.get? k ≠ none →
        (revision? (entryPrefix "p" Scope.global.id) k).isSome →
        ∃ r, k = entryKey "p" Scope.global.id r := fun k present _ => ⟨1, get?_tidy present⟩
    refine (last keyed 1 1 onlyEntry ⟨stored, UInt64.le_refl 1, fun k le _ => le⟩).mpr ?_
    rintro ⟨k, -, -, behind, before⟩
    exact String.lt_asymm behind before
  · refine covered 2 ⟨litter, get?_tidy_litter, ?_, litter_behind_entry.2, fun k _ present _ => ?_⟩
    · rw [littered, Table.get?_put_self]
      exact Option.some_ne_none _
    · rw [get?_tidy present]
      exact litter_behind_entry.1

/-- Not every look-up is the same with and without stray keys. -/
theorem litter_hides_entry : ¬ ∀ (name : String) (s : Scope) (n : Revision) (t t' : Table),
    t.Strewn (entryPrefix name s.id) t' →
      (historyOf name s).run t' = (((historyOf name s).run t).1, t') ∧
      (entryAsOf name s n).run t' = (((entryAsOf name s n).run t).1, t') := by
  intro unaffected
  have same := congrArg Prod.fst (unaffected "p" .global 2 tidy littered strewn_littered).2
  have found : ((entryAsOf "p" .global 2).run tidy).1 = .ok (some onlyEntry) := by decide +kernel
  have hidden : ((entryAsOf "p" .global 2).run littered).1 = .ok none := by decide +kernel
  rw [found, hidden] at same
  cases same

end Store

end ScopedConfig
