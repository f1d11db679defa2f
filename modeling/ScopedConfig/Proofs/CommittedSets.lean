import ScopedConfig.Proofs.Publication

/-!
# What was set, what a history tells and what is read of it

Which entries a property has in a scope is known from the calls that committed and what they were
answered: each call sets a property in a scope once at most, at the next revision
(`Ledger.HasHistory.serves`), so along a trace the entries are those set, in the order of the commits
(`Traces.hasHistory`).

The rows of the property in the scope are these entries in the order of their keys, which is that of the
revisions. So a history is the list of them (`Table.Depicts.historyOf_run`), and a floor look-up finds
the last one up to a revision (`Table.Depicts.entryOf_floor`). `System.history_is_what_was_set` puts this
together, with what a read at a revision makes of it.
-/

namespace ScopedConfig

open Layout Store

variable {U : Scope → Prop} {t : Table} {l l' : Ledger} {s : Scope} {name : String} {es : List Entry}
  {n : Revision} {placed : List Placed} {as : List Assignment} {batch : BatchId}
  {policy : RetryPolicy} {ids : Nat → BatchId} {settings : Settings} {params : List Parameter}

/-! ## What is set

Of a call only its assignments matter here, and of these the ones that name the property in the
scope. `place` refuses a batch in which there are two of them, so there is one at most. -/

/-- Whether an assignment sets a property in a scope. -/
def Assignment.sets (a : Assignment) (name : String) (s : Scope) : Bool :=
  a.name = name && (scopeOf a.params).toOption.any (·.same s)

/-- What a call has set of a property in a scope, by what it was asked for and what it answered. -/
def Call.sets (name : String) (s : Scope) : Call → Reply → List Entry
  | .write _ _ assignments, .written r =>
      ((assignments.zip r.written).filter fun set => set.1.sets name s).map fun set =>
        ⟨set.2.revision, set.1.value, r.batch⟩
  | _, _ => []

/-- What calls have set of a property in a scope, one after another. -/
def committedSets (name : String) (s : Scope) (cs : List Commit) (rs : List Reply) : List Entry :=
  (List.zipWith (fun k r => k.call.sets name s r) cs rs).flatten

/-- The sets of one more call come last. -/
theorem committedSets_concat {cs : List Commit} {rs : List Reply} (length : rs.length = cs.length)
    (k : Commit) (r : Reply) : committedSets name s (cs ++ [k]) (rs ++ [r]) =
      committedSets name s cs rs ++ k.call.sets name s r := by
  rw [committedSets, List.zipWith_append length.symm, List.flatten_append]
  exact congrArg _ (List.append_nil _)

/-- The last of some entries up to a revision. -/
def lastUpTo (n : Revision) (es : List Entry) : Option Entry := (es.filter (·.revision ≤ n)).getLast?

/-- Where two elements that both pass are never there, a filter keeps the first that passes and
nothing else. -/
theorem filter_eq_find?_toList {α : Type} {p : α → Bool} {as : List α}
    (single : as.Pairwise fun a b => ¬ (p a ∧ p b)) : as.filter p = (as.find? p).toList := by
  induction as with
  | nil => rfl
  | cons a as ih =>
      obtain ⟨first, rest⟩ := List.pairwise_cons.mp single
      by_cases ha : p a
      · have none : as.filter p = [] := List.filter_eq_nil_iff.mpr fun b hb pb => first b hb ⟨ha, pb⟩
        rw [List.filter_cons_of_pos ha, List.find?_cons_of_pos ha, none]
        rfl
      · rw [List.filter_cons_of_neg ha, List.find?_cons_of_neg ha, ih rest]

theorem Store.Located.sets_eq (located : Located as placed) (hs : s.WellFormed) {p : Placed}
    (hp : p ∈ placed) : p.assignment.sets name s =
      (decide (p.assignment.name = name) && decide (p.scope.canonical = s.canonical)) := by
  have scope := located.scopes p hp
  have same : p.scope.same s = decide (p.scope.canonical = s.canonical) := by
    rw [Bool.eq_iff_iff, (wellFormed_of_scopeOf scope).same_iff_canonical_eq hs, decide_eq_true_eq]
  rw [Assignment.sets, scope, ← same]
  rfl

/-- **A write sets a property in a scope once at most, at the next revision.** -/
theorem Ledger.sets_receipt (places : place as = .ok placed) (hs : s.WellFormed) :
    (Call.write policy ids as).sets name s (.written (l.receipt batch placed)) =
      ((placed.find? fun p => p.assignment.name = name && p.scope.canonical = s.canonical).map
        fun p => ⟨l.next s.canonical, p.assignment.value, batch⟩).toList := by
  have located := (place_eq_ok_iff_located.mp places).1
  obtain ⟨rfl, scopes, apart⟩ := place_eq_ok_iff.mp places
  -- what could be placed does not set the property in the scope twice
  have single : placed.Pairwise fun p q =>
      ¬ ((decide (p.assignment.name = name) && decide (p.scope.canonical = s.canonical)) ∧
        (decide (q.assignment.name = name) && decide (q.scope.canonical = s.canonical))) := by
    refine apart.imp_of_mem fun {p q} hp hq apart both => apart ?_
    simp only [Bool.and_eq_true, decide_eq_true_eq] at both
    obtain ⟨⟨name, scope⟩, name', scope'⟩ := both
    refine ⟨name.trans name'.symm, ?_⟩
    rw [(wellFormed_of_scopeOf (scopes p hp)).same_iff_canonical_eq (wellFormed_of_scopeOf (scopes q hq))]
    exact scope.trans scope'.symm
  rw [Call.sets, receipt, List.zip_map', List.filter_map, List.map_map]
  show List.map _ (placed.filter fun p => p.assignment.sets name s) = _
  rw [List.filter_congr fun p hp => located.sets_eq hs hp, filter_eq_find?_toList single]
  cases hp : placed.find? fun p => p.assignment.name = name && p.scope.canonical = s.canonical with
  | none => rfl
  | some p =>
      have found := List.find?_some hp
      simp only [Bool.and_eq_true, decide_eq_true_eq] at found
      show [Entry.mk (l.next p.scope.canonical) _ _] = _
      rw [found.2]
      rfl

/-! ## The entries of a ledger

`Ledger.HasHistory` gives the entries by their revisions, oldest first, and says that there are no
others. A call that sets the property adds one at the end, since the next revision is above all that
are there (`Ledger.HasHistory.serves`), and any other call leaves the list as it is. -/

/-- The entries of a property in a scope, from the oldest one. -/
structure Ledger.HasHistory (l : Ledger) (name : String) (s : Scope) (es : List Entry) : Prop where
  mem : ∀ e, e ∈ es ↔ l.entries name s e.revision = some (e.value, e.batch)
  sorted : es.Pairwise fun e e' => e.revision < e'.revision

namespace Ledger.HasHistory

theorem empty (name : String) (s : Scope) : Ledger.empty.HasHistory name s [] where
  mem e := by simp [Ledger.empty]
  sorted := .nil

theorem congr (h : l.HasHistory name s es) (same : l'.entries = l.entries) :
    l'.HasHistory name s es where
  mem e := by rw [same, h.mem]
  sorted := h.sorted

/-- One more entry, at the next revision. -/
theorem concat (h : l.HasHistory name s es) (orderly : l.Orderly) (roomy : l.Roomy) {v : Value}
    (entries : ∀ n, l'.entries name s n = if n = l.next s then some (v, batch) else l.entries name s n) :
    l'.HasHistory name s (es ++ [⟨l.next s, v, batch⟩]) where
  mem e := by
    rw [List.mem_append, List.mem_singleton, entries, h.mem]
    by_cases next : e.revision = l.next s
    · -- at the next revision there was nothing, so the new entry is the only one
      rw [if_pos next, next, orderly.entries_next]
      obtain ⟨n, v', batch'⟩ := e
      obtain rfl : n = l.next s := next
      simp [eq_comm]
    · rw [if_neg next]
      refine or_iff_left ?_
      rintro rfl
      exact next rfl
  sorted := by
    refine List.pairwise_append.mpr ⟨h.sorted, List.pairwise_singleton _ _, fun e he e' he' => ?_⟩
    -- every entry stands at a revision that has been written, and the next one is above
    obtain ⟨p, hp, -, written⟩ := orderly.entry _ _ _ _ ((h.mem e).mp he)
    rw [List.mem_singleton.mp he']
    exact UInt64.lt_of_le_of_lt written (roomy.working_lt_next hp)

/-- **What a call sets comes last.** -/
theorem serves (h : l.HasHistory name s.canonical es) (orderly : l.Orderly) (roomy : l.Roomy)
    (hs : s.WellFormed) {c : Call} {r : Reply} (serves : l.Serves c r l') :
    l'.HasHistory name s.canonical (es ++ c.sets name s r) := by
  cases serves.answeredBy with
  | write policy ids as r =>
      obtain ⟨placed, m, places, rfl, rfl⟩ := serves
      -- The batch sets the property in the scope once, or not at all.
      rw [Ledger.sets_receipt places hs]
      cases hp : placed.find? fun p =>
          p.assignment.name = name && p.scope.canonical = s.canonical with
      | none =>
          rw [Option.map_none, Option.toList_none, List.append_nil]
          have kept (n : Revision) : (l.write (ids m) placed).entries name s.canonical n =
              l.entries name s.canonical n := by
            simp only [Ledger.write, hp]
          exact ⟨fun e => by rw [kept, h.mem], h.sorted⟩
      | some p =>
          apply h.concat orderly roomy
          intro n
          simp only [Ledger.write, hp]
  | activate policy a r =>
      obtain ⟨s', p, n, -, activates, -, rfl⟩ := serves
      show Ledger.HasHistory _ name s.canonical (es ++ [])
      rw [List.append_nil]
      exact h.congr (by rw [Ledger.activate_eq activates.recorded, Ledger.entries_set])
  | advance policy s' n =>
      obtain ⟨-, rfl⟩ := serves
      show Ledger.HasHistory _ name s.canonical (es ++ [])
      rw [List.append_nil]
      exact h.congr Ledger.entries_advance
  | setActive policy s' n =>
      obtain ⟨p, hp, -, -, rfl⟩ := serves
      show Ledger.HasHistory _ name s.canonical (es ++ [])
      rw [List.append_nil]
      exact h.congr (by rw [Ledger.activate_eq hp, Ledger.entries_set])

end Ledger.HasHistory

/-- **The entries are those that calls have set.** -/
theorem Traces.hasHistory (sep : Scope.Separated U) {cs : List Commit} {rs : List Reply}
    (h : Traces U cs rs t l) (roomy : ∀ k ∈ cs, k.before.Roomy) (hs : s.WellFormed) (name : String) :
    l.HasHistory name s.canonical (committedSets name s cs rs) := by
  induction h with
  | start => exact .empty name s.canonical
  | commit earlier within does serves depicts ih =>
      rw [List.forall_mem_append] at roomy
      have last := earlier.depicts.roomy sep (roomy.2 _ (List.mem_singleton_self _))
      rw [committedSets_concat earlier.length_eq]
      exact (ih roomy.1).serves (earlier.orderly sep roomy.1) last hs serves

/-! ## The rows of a table

In a table that depicts the ledger the rows below the prefix of the property and the scope are those
of the entries. A revision is written with all its digits, so the order of the keys is that of the
revisions, and the scan comes out as the list. -/

/-- The row of an entry. -/
def Entry.row (name : String) (i : ScopeId) (e : Entry) : Row := (entryKey name i e.revision, ⟨e.pack, 1⟩)

/-- Rows of entries are read back as the entries. -/
theorem Store.decodeEntries_rows {i : ScopeId} (fits : ∀ e ∈ es, e.value.Fits) :
    decodeEntries (entryPrefix name i) (es.map (Entry.row name i)) = .ok es := by
  induction es with
  | nil => rfl
  | cons e es ih =>
      obtain ⟨first, rest⟩ := List.forall_mem_cons.mp fits
      rw [List.map_cons, decodeEntries, Entry.row, revision?_entryKey, if_pos Option.isSome_some,
        decodeEntry, Entry.unpack?_pack first, ih rest]
      rfl

namespace Table.Depicts

/-- The scan below the prefix of the property in the scope gives a row for each entry, in their
order. Two lists in strict order with the same members are equal, so no more than membership is
compared. -/
theorem scan_entryPrefix (sep : Scope.Separated U) (h : t.Depicts U l) (orderly : l.Orderly) (hs : U s)
    (tells : l.HasHistory name s.canonical es) :
    t.scan (entryPrefix name s.id) = es.map (Entry.row name s.id) := by
  apply rows_eq_of_mem_iff
  · exact t.sorted_scan _
  · exact List.pairwise_map.mpr (tells.sorted.imp entryKey_lt_iff.mpr)
  · intro r
    rw [mem_scan_iff, List.mem_map]
    constructor
    · rintro ⟨mem, start⟩
      obtain ⟨n, key, stored⟩ := (h.filed sep orderly).exists_entryKey mem start
      rw [h.entry name s n hs, Option.map_eq_some_iff] at stored
      obtain ⟨⟨v, batch⟩, he, row⟩ := stored
      exact ⟨⟨n, v, batch⟩, (tells.mem _).mpr he, Prod.ext key.symm row⟩
    · rintro ⟨e, he, rfl⟩
      have stored : t.get? (entryKey name s.id e.revision) = some ⟨e.pack, 1⟩ := by
        rw [h.entry name s e.revision hs, (tells.mem e).mp he]
        rfl
      exact ⟨mem_rows_iff.mpr stored, startsWith_entryPrefix_entryKey name s.id e.revision⟩

/-- **A history is the list of all entries.** -/
theorem historyOf_run (sep : Scope.Separated U) (h : t.Depicts U l) (orderly : l.Orderly)
    (storable : l.Storable) (hs : U s) (tells : l.HasHistory name s.canonical es) :
    (historyOf name s).run t = (.ok es, t) := by
  show (Session.done (decodeEntries _ (t.scan _))).run t = _
  rw [h.scan_entryPrefix sep orderly hs tells,
    decodeEntries_rows fun e he => storable _ _ _ _ ((tells.mem e).mp he)]
  rfl

/-- **A floor look-up finds the last entry up to a revision.** -/
theorem entryOf_floor (sep : Scope.Separated U) (h : t.Depicts U l) (orderly : l.Orderly)
    (storable : l.Storable) (hs : U s) (tells : l.HasHistory name s.canonical es) (n : Revision) :
    entryOf (entryPrefix name s.id) (t.floor (entryPrefix name s.id) (entryKey name s.id n)) =
      .ok (lastUpTo n es) := by
  -- keys up to that of the revision are those of entries up to the revision
  have upTo : ((es.map (Entry.row name s.id)).filter fun r => r.1 ≤ entryKey name s.id n) =
      (es.filter (·.revision ≤ n)).map (Entry.row name s.id) := by
    rw [List.filter_map]
    congr 1
    exact List.filter_congr fun e _ => decide_eq_decide.mpr entryKey_le_iff
  rw [t.floor_eq_getLast? (startsWith_entryPrefix_entryKey name s.id n),
    h.scan_entryPrefix sep orderly hs tells, upTo, List.getLast?_map, lastUpTo]
  cases last : (es.filter (·.revision ≤ n)).getLast? with
  | none => rfl
  | some e =>
      have he := (List.mem_filter.mp (List.mem_of_getLast? last)).1
      rw [Option.map_some, entryOf, Entry.row, revision?_entryKey, if_pos Option.isSome_some,
        decodeEntry, Entry.unpack?_pack (storable _ _ _ _ ((tells.mem e).mp he))]
      rfl

/-- A read at a revision finds it if the revision has been written. -/
theorem readPinned_finds (sep : Scope.Separated U) (h : t.Depicts U l) (orderly : l.Orderly)
    (storable : l.Storable) (used : U s) (tells : l.HasHistory name s.canonical es)
    (hs : scopeOf params = .ok s) (n : Revision) :
    ∃ hit, (readPinned settings ids name params n).run t = (.ok [.value ⟨name, s, hit⟩], t) ∧
      ∀ found, hit = some found ↔ ∃ e r, lastUpTo n es = some e ∧ t.record? s.id = some r ∧ 1 ≤ n ∧
        n ≤ r.working ∧ found = hitOf r.scope e := by
  rw [h.readPinned_run sep hs, Store.readAt_run (h.recordOf_run sep s),
    h.entryOf_floor sep orderly storable used tells]
  by_cases written : (t.record? s.id).any fun r => r.hasRevision n
  · obtain ⟨r, record, known⟩ := (Option.any_eq_true _ _).mp written
    obtain ⟨positive, known⟩ := ScopeRecord.hasRevision_iff.mp known
    rw [if_pos written, record]
    refine ⟨(lastUpTo n es).map (hitOf r.scope), rfl, fun found => ?_⟩
    rw [Option.map_eq_some_iff]
    constructor
    · rintro ⟨e, last, rfl⟩
      exact ⟨e, r, last, rfl, Revision.one_le_iff.mpr positive, known, rfl⟩
    · rintro ⟨e, q, last, same, -, -, rfl⟩
      cases same
      exact ⟨e, last, rfl⟩
  · rw [if_neg written]
    refine ⟨none, rfl, fun found => iff_of_false (Option.some_ne_none found).symm ?_⟩
    rintro ⟨e, r, -, record, positive, known, -⟩
    have known := ScopeRecord.hasRevision_iff.mpr ⟨Revision.one_le_iff.mp positive, known⟩
    exact written ((Option.any_eq_true _ _).mpr ⟨r, record, known⟩)

end Table.Depicts

/-- The look-up asks the backend once. -/
theorem Store.entryAsOf_asks (name : String) (s : Scope) (n : Revision) :
    ∃ found : Except BackendError (Option Row) → Except StoreError (Option Entry), entryAsOf name s n =
      .ask (.floor (entryPrefix name s.id) (entryKey name s.id n)) fun answer => .done (found answer) := by
  refine ⟨fun answer => (answer.mapError .backend).bind (entryOf (entryPrefix name s.id)), ?_⟩
  rw [entryAsOf_eq]
  refine congrArg (Session.ask _) (funext fun answer => ?_)
  cases answer <;> rfl

/-! ## Schedules

The log of a schedule and the replies to it make a trace, and the entries of its ledger are those
that the trace has set. -/

namespace System

variable {ι : Type} [DecidableEq ι]

/-- **A history is what was set, and reads as of a revision agree with it.** The entries are those that
the committed calls have set, as they were answered, one after another and each at a revision above the
one before. As of any number whatever, a single floor look-up finds the last one up to it; and a read at
the number finds this one if the scope has a record and has come to that revision. -/
theorem history_is_what_was_set (sep : Scope.Separated U) (moves : List (Move ι))
    (within : ∀ h c, .call h c ∈ moves → c.Within U) (fits : ∀ h c, .call h c ∈ moves → c.Fits)
    (roomy : ∀ k ∈ (run moves).log, k.before.Roomy) (settings : Settings) (ids : Nat → BatchId) :
    ∃ replies, replies.length = (run moves).log.length ∧ (run moves).Attributed ∧
      (∀ h, ∀ p ∈ (run moves).calls h, p.Settled (run moves).log replies) ∧
      ∀ name params s, scopeOf params = .ok s → U s → ∃ es record,
        es = committedSets name s (run moves).log replies ∧
        es.Pairwise (fun e e' => e.revision < e'.revision) ∧
        (history name params).run (run moves).table = (.ok es, (run moves).table) ∧
        (metadata params).run (run moves).table = (.ok record, (run moves).table) ∧
        ∀ n,
          (∃ found : Except BackendError (Option Row) → Except StoreError (Option Entry),
            entryAsOf name s n = .ask (.floor (entryPrefix name s.id) (entryKey name s.id n))
              fun answer => .done (found answer)) ∧
          (entryAsOf name s n).run (run moves).table = (.ok (lastUpTo n es), (run moves).table) ∧
          ∃ hit, (readPinned settings ids name params n).run (run moves).table =
              (.ok [.value ⟨name, s, hit⟩], (run moves).table) ∧
            ∀ found, hit = some found ↔ ∃ e r, lastUpTo n es = some e ∧ record = some r ∧ 1 ≤ n ∧
              n ≤ r.working ∧ found = hitOf r.scope e := by
  obtain ⟨replies, l, traced⟩ := run_traced sep moves within
  have depicts := traced.trace.depicts
  have orderly := traced.trace.orderly sep roomy
  have storable := traced.trace.storable (run_each moves fits).2
  refine ⟨replies, traced.trace.length_eq, traced.attributed, fun h p hp => (traced.sound h p hp).2.1,
    fun name params s hs used => ?_⟩
  have tells := traced.trace.hasHistory sep roomy (wellFormed_of_scopeOf hs) name
  refine ⟨_, (run moves).table.record? s.id, rfl, tells.sorted, ?_, ?_, fun n =>
    ⟨entryAsOf_asks name s n, ?_, depicts.readPinned_finds sep orderly storable used tells hs n⟩⟩
  · rw [history, hs]
    exact depicts.historyOf_run sep orderly storable used tells
  · rw [metadata, hs]
    exact depicts.recordOf_run sep s
  · rw [entryAsOf_run, depicts.entryOf_floor sep orderly storable used tells]

/-- Of two writes the first one is what there is as of the first revision, and the second one from the
second revision on, though a read finds nothing at a revision that is still to come. -/
theorem race_tells_writes :
    ∃ first second, first.revision = 1 ∧ second.revision = 2 ∧
      (history "limit" []).run (run race).table = (.ok [first, second], (run race).table) ∧
      (entryAsOf "limit" .global 0).run (run race).table = (.ok none, (run race).table) ∧
      (entryAsOf "limit" .global 1).run (run race).table = (.ok (some first), (run race).table) ∧
      (∀ n, 2 ≤ n → (entryAsOf "limit" .global n).run (run race).table =
        (.ok (some second), (run race).table)) ∧
      (readPinned {} (.stamped 2) "limit" [] 3).run (run race).table =
        (.ok [.value ⟨"limit", .global, none⟩], (run race).table) := by
  have runs : (((history "limit" []).run (run race).table).1.toOption.map fun es =>
      es.map Entry.revision, ((metadata []).run (run race).table).1) =
        (some [1, 2], .ok (some ⟨.global, 2, none⟩)) := by decide +kernel
  simp only [Prod.mk.injEq] at runs
  obtain ⟨tells, recorded⟩ := runs
  obtain ⟨replies, -, -, -, agrees⟩ := history_is_what_was_set Scope.separated_sample race race_within
    (fun h c hc => (race_writes h c hc).1)
    (run_roomy_of_length Scope.separated_sample race race_within (by decide)) {} (.stamped 2)
  obtain ⟨es, record, -, -, told, about, asOf⟩ := agrees "limit" [] Scope.global rfl (.inl rfl)
  rw [told] at tells
  rw [about] at recorded
  obtain ⟨first, rest, rfl, one, tells⟩ := List.map_eq_cons_iff.mp (Option.some.inj tells)
  obtain ⟨second, rest, rfl, two, tells⟩ := List.map_eq_cons_iff.mp tells
  obtain rfl := List.map_eq_nil_iff.mp tells
  have found (n : Revision) := (asOf n).2.1
  refine ⟨first, second, one, two, told, ?_, ?_, fun n le => ?_, ?_⟩
  · rw [found, lastUpTo]
    simp [one, two]
  · rw [found, lastUpTo]
    simp [one, two]
  · have le' : (1 : Revision) ≤ n := UInt64.le_trans (by decide) le
    rw [found, lastUpTo]
    simp [one, two, le, le']
  · obtain ⟨hit, run, finds⟩ := (asOf 3).2.2
    cases hit with
    | none => exact run
    | some hit =>
        obtain ⟨e, r, -, record, -, known, -⟩ := (finds hit).mp rfl
        rw [record] at recorded
        cases recorded
        exact absurd known (by decide)

end System

end ScopedConfig
