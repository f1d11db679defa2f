import ScopedConfig.Layout
import ScopedConfig.Proofs.Numerals
import ScopedConfig.Table.Range

/-!
# The keys keep apart

What is stored under different keys is about different things. Record keys are told apart by the
scope's identity (`recordKey_inj`), entry keys by property, identity and revision (`entryKey_inj`),
and a record key, an entry key and the epoch key are never the same. An entry key that merely starts
with the prefix of a property in a scope is already one of theirs (`entryPrefix_prefix_entryKey`):
the length in front of the name keeps a name with slashes from being taken for another one. The entries
of a property in a scope follow one another by revision (`entryKey_lt_iff`).
-/

namespace ScopedConfig

/-! ### Texts of known size

A name may contain any character, so nothing in it can mark its end. Its size in bytes stands before
it instead. A text is cut off by its size, not by its number of characters. -/

theorem Bytes.length_ofText (s : String) : (Bytes.ofText s).length = s.utf8ByteSize := rfl

/-- Texts of one size in bytes can be cut off alike. -/
theorem text_append_inj {p q : String} {xs ys : List Char}
    (size : p.utf8ByteSize = q.utf8ByteSize) (h : p.toList ++ xs = q.toList ++ ys) :
    p = q ∧ xs = ys := by
  -- of two texts of one size none goes on after the other
  have rest {p q : String} {as : List Char} (size : p.utf8ByteSize = q.utf8ByteSize)
      (h : q.toList = p.toList ++ as) : as = [] := by
    have hq : q = p ++ String.ofList as := by
      rw [← String.ofList_toList (s := q), h, String.ofList_append, String.ofList_toList]
    have none : (String.ofList as).utf8ByteSize = 0 := by
      have := congrArg String.utf8ByteSize hq
      rw [String.utf8ByteSize_append] at this
      omega
    exact String.ofList_eq_empty_iff.mp (String.utf8ByteSize_eq_zero_iff.mp none)
  rcases List.append_eq_append_iff.mp h with ⟨as, hq, hx⟩ | ⟨as, hp, hy⟩
  · obtain rfl := rest size hq
    exact ⟨String.toList_injective (by simpa using hq.symm), by simpa using hx⟩
  · obtain rfl := rest size.symm hp
    exact ⟨String.toList_injective (by simpa using hp), by simpa using hy.symm⟩

theorem startsWith_iff {pre s : String} : startsWith pre s = true ↔ pre.toList <+: s.toList := by
  rw [startsWith, List.isPrefixOf_iff_prefix]

/-- A text starts with a prefix if the prefix with something behind it is the text. -/
theorem startsWith_iff_exists {pre s : String} :
    startsWith pre s = true ↔ ∃ rest, s = pre ++ rest := by
  rw [startsWith_iff]
  constructor
  · rintro ⟨rest, h⟩
    refine ⟨String.ofList rest, String.toList_inj.mp ?_⟩
    rw [String.toList_append, String.toList_ofList, h]
  · rintro ⟨rest, rfl⟩
    rw [String.toList_append]
    exact List.prefix_append _ _

namespace ScopeId

/-- An identity has 32 bytes and thus 64 digits. -/
theorem length_hex (i : ScopeId) : i.hex.toList.length = 64 := by
  rw [hex, Text.length_hexText, i.length_eq]

theorem hex_injective {i j : ScopeId} (h : i.hex = j.hex) : i = j := by
  cases i; cases j
  cases Text.hexText_injective h
  rfl

end ScopeId

namespace Layout

/-! ### Record keys

Nothing but the identity is in a record key. -/

theorem toList_recordKey (i : ScopeId) :
    (recordKey i).toList = 'm' :: 'e' :: 't' :: 'a' :: '/' :: i.hex.toList := by
  simp [recordKey, recordPrefix]

/-- **Record keys are told apart by their identities.** -/
theorem recordKey_inj {i j : ScopeId} : recordKey i = recordKey j ↔ i = j := by
  refine ⟨fun h => ?_, fun h => h ▸ rfl⟩
  have := congrArg String.toList h
  simp only [toList_recordKey, List.cons.injEq, true_and] at this
  exact ScopeId.hex_injective (String.toList_injective this)

/-! ### Entry keys

An entry key is read from the front: the size of the name up to the colon, the name, the identity,
the revision. At each step it is known where the part ends. -/

theorem toList_entryPrefix (property : String) (i : ScopeId) :
    (entryPrefix property i).toList =
      'r' :: 'e' :: 'v' :: '/' :: (Text.decimal property.utf8ByteSize ++
        ':' :: (property.toList ++ '/' :: (i.hex.toList ++ ['/']))) := by
  simp [entryPrefix, Text.decimalText, Bytes.length_ofText]

theorem toList_entryKey (property : String) (i : ScopeId) (n : Revision) :
    (entryKey property i n).toList =
      (entryPrefix property i).toList ++ Text.padded 20 n.toNat := by
  simp [entryKey]

/-- What starts like the entries of a property in a scope is about that property and scope. -/
theorem entryPrefix_append_inj {p q : String} {i j : ScopeId} {xs ys : List Char}
    (h : (entryPrefix p i).toList ++ xs = (entryPrefix q j).toList ++ ys) :
    p = q ∧ i = j ∧ xs = ys := by
  simp only [toList_entryPrefix, List.cons_append, List.append_assoc, List.nil_append,
    List.cons.injEq, true_and] at h
  -- the size ends at the colon, the name where the size says, the identity after its 64 digits
  obtain ⟨size, h⟩ := Text.decimal_append_inj (by decide) h
  obtain ⟨hpq, h⟩ := text_append_inj size h
  obtain ⟨hij, h⟩ := List.append_inj (List.cons.inj h).2
    ((ScopeId.length_hex i).trans (ScopeId.length_hex j).symm)
  exact ⟨hpq, ScopeId.hex_injective (String.toList_injective hij), (List.cons.inj h).2⟩

/-- **Behind the prefix of a property in a scope stand their entries alone.** In particular a name
with slashes is not taken for another name and an identity. -/
theorem entryPrefix_prefix_entryKey {p q : String} {i j : ScopeId} {n : Revision} :
    (entryPrefix p i).toList <+: (entryKey q j n).toList ↔ p = q ∧ i = j := by
  constructor
  · rintro ⟨xs, h⟩
    rw [toList_entryKey] at h
    obtain ⟨hpq, hij, -⟩ := entryPrefix_append_inj h
    exact ⟨hpq, hij⟩
  · rintro ⟨rfl, rfl⟩
    exact ⟨_, (toList_entryKey p i n).symm⟩

/-- Twenty digits are enough for every revision. -/
theorem decimal?_padded_revision (n : Revision) :
    Text.decimal? (Text.padded 20 n.toNat) = some n.toNat := by
  rw [Text.decimal?_padded, Nat.mod_eq_of_lt]
  exact Nat.lt_trans n.toNat_lt (by decide)

/-- **Entry keys are told apart by property, identity and revision.** -/
theorem entryKey_inj {p q : String} {i j : ScopeId} {m n : Revision} :
    entryKey p i m = entryKey q j n ↔ p = q ∧ i = j ∧ m = n := by
  constructor
  · intro h
    have h := congrArg String.toList h
    rw [toList_entryKey, toList_entryKey] at h
    obtain ⟨hpq, hij, hmn⟩ := entryPrefix_append_inj h
    refine ⟨hpq, hij, UInt64.toNat_inj.mp (Option.some.inj ?_)⟩
    rw [← decimal?_padded_revision, hmn, decimal?_padded_revision]
  · rintro ⟨rfl, rfl, rfl⟩
    rfl

/-! ### Keys of different kinds

The first letters tell the kinds apart, as the prefixes `meta/` and `rev/` and the key of the epoch
have different ones. -/

theorem startsWith_recordKey (i : ScopeId) : startsWith recordPrefix (recordKey i) = true := by
  rw [startsWith_iff, toList_recordKey]
  exact ⟨_, rfl⟩

/-- A scan of the records comes across no entries. -/
theorem not_startsWith_entryKey (property : String) (i : ScopeId) (n : Revision) :
    startsWith recordPrefix (entryKey property i n) = false := by
  rw [startsWith, toList_entryKey, toList_entryPrefix]
  rfl

theorem not_startsWith_epochKey : startsWith recordPrefix epochKey = false := by decide

theorem recordKey_ne_entryKey (i : ScopeId) (property : String) (j : ScopeId) (n : Revision) :
    recordKey i ≠ entryKey property j n := fun h => by
  have := startsWith_recordKey i
  rw [h, not_startsWith_entryKey] at this
  cases this

theorem recordKey_ne_epochKey (i : ScopeId) : recordKey i ≠ epochKey := fun h => by
  have := startsWith_recordKey i
  rw [h, not_startsWith_epochKey] at this
  cases this

theorem entryKey_ne_epochKey (property : String) (i : ScopeId) (n : Revision) :
    entryKey property i n ≠ epochKey := fun h => by
  have := congrArg String.toList h
  rw [toList_entryKey, toList_entryPrefix] at this
  simp [epochKey] at this

theorem startsWith_entryPrefix_entryKey (property : String) (i : ScopeId) (n : Revision) :
    startsWith (entryPrefix property i) (entryKey property i n) = true :=
  startsWith_iff.mpr (entryPrefix_prefix_entryKey.mpr ⟨rfl, rfl⟩)

/-- A scan of entries comes across no records. -/
theorem not_startsWith_entryPrefix_recordKey (property : String) (i j : ScopeId) :
    startsWith (entryPrefix property i) (recordKey j) = false := by
  rw [startsWith, toList_entryPrefix, toList_recordKey]
  rfl

theorem not_startsWith_entryPrefix_epochKey (property : String) (i : ScopeId) :
    startsWith (entryPrefix property i) epochKey = false := by
  rw [startsWith, toList_entryPrefix]
  rfl

/-! ### Revisions behind a prefix

The store reads the revision of a row off its key, as what is left behind the prefix. Not every
numeral that can be read is one that is written: there may be fewer digits, or a sign. -/

/-- A prefix is dropped off a text that starts with it. -/
theorem dropPrefix?_eq_some_iff {ps cs ds : List Char} :
    dropPrefix? ps cs = some ds ↔ cs = ps ++ ds := by
  induction ps generalizing cs with
  | nil => simp [dropPrefix?]
  | cons p ps ih =>
      cases cs with
      | nil => simp [dropPrefix?]
      | cons c cs =>
          rw [dropPrefix?]
          split
          · next h => rw [ih, h]; simp
          · next h => simpa using fun hc => absurd hc.symm h

/-- A key has a revision behind a prefix only if it starts with that prefix. -/
theorem prefix_of_revision? {pre key : String} (h : (revision? pre key).isSome) :
    pre.toList <+: key.toList := by
  rw [revision?] at h
  cases hd : dropPrefix? pre.toList key.toList with
  | none => rw [hd] at h; cases h
  | some ds => exact ⟨ds, (dropPrefix?_eq_some_iff.mp hd).symm⟩

/-- **The revision of an entry is read off its key.** -/
theorem revision?_entryKey (p : String) (i : ScopeId) (n : Revision) :
    revision? (entryPrefix p i) (entryKey p i n) = some n := by
  have read : revisionOf? (Text.padded 20 n.toNat) = some n := by
    unfold revisionOf?
    split
    · next digits sign =>
      -- a plus sign is no digit
      have digit : (Text.digit? '+').isSome :=
        Text.isSome_digit?_of_mem_padded (sign ▸ List.mem_cons_self)
      cases digit
    · show (Text.decimal? (Text.padded 20 n.toNat)).bind _ = _
      rw [decimal?_padded_revision, Option.bind_some, if_pos n.toNat_lt, UInt64.ofNat_toNat]
  rw [revision?, dropPrefix?_eq_some_iff.mpr (toList_entryKey p i n), Option.bind_some, read]

/-! ### Order

Keys are compared as texts. With a width fixed, that is the order of the revisions, so the entry at
or before a revision is the row at or before a key. -/

/-- **The entries of a property in a scope are in the order of their revisions.** -/
theorem entryKey_lt_iff {p : String} {i : ScopeId} {m n : Revision} :
    entryKey p i m < entryKey p i n ↔ m < n := by
  have bound (n : Revision) : n.toNat < 10 ^ 20 := Nat.lt_trans n.toNat_lt (by decide)
  rw [String.lt_iff, toList_entryKey, toList_entryKey, Text.append_lt_append_iff rfl,
    UInt64.lt_iff_toNat_lt, Text.padded_lt_iff (bound m) (bound n)]
  constructor
  · rintro (lt | ⟨-, lt⟩)
    · exact absurd lt (List.lt_irrefl _)
    · exact lt
  · exact fun lt => .inr ⟨rfl, lt⟩

theorem entryKey_le_iff {p : String} {i : ScopeId} {m n : Revision} :
    entryKey p i m ≤ entryKey p i n ↔ m ≤ n := by
  rw [← UInt64.not_lt, ← entryKey_lt_iff (p := p) (i := i)]
  exact Iff.rfl

end Layout

end ScopedConfig
