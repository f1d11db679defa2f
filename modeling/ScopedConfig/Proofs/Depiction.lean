import ScopedConfig.Proofs.Ledger

/-!
# Tables that depict a ledger

`Table.Depicts` says that a table holds exactly what a ledger says: the records of the scopes, the
entries of their properties, each put once, and the epoch, put once for every scope. It holds of the
empty table, and the puts that a store makes carry it on: `Depicts.set_existing`, `Depicts.set_new`
and `Depicts.enter` for single ones, `Depicts.advance` for a scope's next revision with the epoch that
may go with it.
-/

namespace ScopedConfig

open Layout

/-- The table holds what the ledger says of the scopes in `U`, and nothing else. -/
structure Table.Depicts (U : Scope → Prop) (t : Table) (l : Ledger) : Prop where
  record : ∀ s, U s → (t.get? (recordKey s.id)).map Versioned.value =
    (l.pointers s.canonical).map fun p => (p.record s.canonical).pack
  entry : ∀ name s n, U s → t.get? (entryKey name s.id n) =
    (l.entries name s.canonical n).map fun e => ⟨Entry.pack ⟨n, e.1, e.2⟩, 1⟩
  epoch : t.get? epochKey =
    if t.count recordPrefix = 0 then none else some ⟨[], t.count recordPrefix⟩
  key : ∀ k stored, t.get? k = some stored →
    (∃ s, U s ∧ k = recordKey s.id) ∨ (∃ name s n, U s ∧ k = entryKey name s.id n) ∨ k = epochKey
  pointers : ∀ c, l.pointers c ≠ none → ∃ s, U s ∧ s.canonical = c
  entries : ∀ name c n, l.entries name c n ≠ none → ∃ s, U s ∧ s.canonical = c

/-- The table depicts some ledger. -/
def Table.Sound (U : Scope → Prop) (t : Table) : Prop := ∃ l, t.Depicts U l

namespace Table.Depicts

variable {U : Scope → Prop} {t t' : Table} {l : Ledger} {s : Scope}

theorem empty : Table.empty.Depicts U Ledger.empty where
  record _ _ := rfl
  entry _ _ _ _ := rfl
  epoch := rfl
  key _ _ h := by rw [get?_empty] at h; cases h
  pointers _ h := absurd rfl h
  entries _ _ _ h := absurd rfl h

/-- A scope has a record if it has pointers. -/
theorem version?_recordKey_isSome (h : t.Depicts U l) (hs : U s) :
    (t.version? (recordKey s.id)).isSome = (l.pointers s.canonical).isSome := by
  have := congrArg Option.isSome (h.record s hs)
  rwa [Option.isSome_map, Option.isSome_map, ← Option.isSome_map (f := Versioned.version)] at this

theorem get?_recordKey_eq_none_iff (h : t.Depicts U l) (hs : U s) :
    t.get? (recordKey s.id) = none ↔ l.pointers s.canonical = none := by
  rw [← Option.map_eq_none_iff (f := Versioned.value), h.record s hs, Option.map_eq_none_iff]

/-- There is an entry where the ledger has one. -/
theorem get?_entryKey_eq_none_iff (h : t.Depicts U l) (hs : U s) {name : String} {n : Revision} :
    t.get? (entryKey name s.id n) = none ↔ l.entries name s.canonical n = none := by
  rw [h.entry name s n hs, Option.map_eq_none_iff]

/-- The version of the epoch counts the records. -/
theorem version?_epochKey (h : t.Depicts U l) :
    t.version? epochKey = if t.count recordPrefix = 0 then none else some (t.count recordPrefix) := by
  rw [version?, h.epoch]
  split <;> rfl

/-! ## Puts

A put is under the key of a record, of an entry or of the epoch, and scopes that the table can tell
apart have keys that differ (`Scope.Separated`). So each put answers to one change of the ledger,
and the rest of the table goes on saying what it said. -/

/-- A put of a record changes the pointers of its scope. -/
theorem record_put (sep : Scope.Separated U) (h : t.Depicts U l) (hs : U s) (p : Pointers)
    (r : Scope) (hr : U r) :
    ((t.put (recordKey s.id) (p.record s.canonical).pack).get? (recordKey r.id)).map
        Versioned.value =
      ((l.set s.canonical p).pointers r.canonical).map fun p => (p.record r.canonical).pack := by
  by_cases same : r.canonical = s.canonical
  · rw [(sep.recordKey_eq_iff hr hs).mpr same, get?_put_self, Ledger.pointers_set, if_pos same, same]
    rfl
  · rw [get?_put_of_ne (mt (sep.recordKey_eq_iff hr hs).mp same), h.record r hr,
      Ledger.pointers_set, if_neg same]

/-- The scopes that have pointers are still some of those in use. -/
theorem pointers_set (h : t.Depicts U l) (hs : U s) (p : Pointers) (c : Scope)
    (hc : (l.set s.canonical p).pointers c ≠ none) : ∃ r, U r ∧ r.canonical = c := by
  rw [Ledger.pointers_set] at hc
  by_cases eq : c = s.canonical
  · exact ⟨s, hs, eq.symm⟩
  · rw [if_neg eq] at hc
    exact h.pointers c hc

/-- The record of a scope that has one already. -/
theorem set_existing (sep : Scope.Separated U) (h : t.Depicts U l) (hs : U s) (p : Pointers)
    (existing : l.pointers s.canonical ≠ none) :
    (t.put (recordKey s.id) (p.record s.canonical).pack).Depicts U (l.set s.canonical p) := by
  -- the record is put over another one, so there are as many as before
  have stored : t.get? (recordKey s.id) ≠ none := mt (h.get?_recordKey_eq_none_iff hs).mp existing
  have count : (t.put (recordKey s.id) (p.record s.canonical).pack).count recordPrefix =
      t.count recordPrefix := by
    rw [count_put, Option.isNone_eq_false_iff.mpr (Option.isSome_iff_ne_none.mpr stored)]
    simp
  refine ⟨h.record_put sep hs p, fun name r n hr => ?_, ?_, fun k value hk => ?_,
    h.pointers_set hs p, h.entries⟩
  · rw [get?_put_of_ne (recordKey_ne_entryKey s.id name r.id n).symm, h.entry name r n hr,
      Ledger.entries_set]
  · rw [get?_put_of_ne (recordKey_ne_epochKey s.id).symm, h.epoch, count]
  · rw [get?_put] at hk
    split at hk
    · next eq => exact .inl ⟨s, hs, eq⟩
    · exact h.key k value hk

/-- The record of a new scope, with the epoch. -/
theorem set_new (sep : Scope.Separated U) (h : t.Depicts U l) (hs : U s) (p : Pointers)
    (new : l.pointers s.canonical = none) :
    ((t.put (recordKey s.id) (p.record s.canonical).pack).put epochKey []).Depicts U
      (l.set s.canonical p) := by
  -- one record more, and the epoch one version on
  have absent : t.get? (recordKey s.id) = none := (h.get?_recordKey_eq_none_iff hs).mpr new
  have count : ((t.put (recordKey s.id) (p.record s.canonical).pack).put epochKey []).count
      recordPrefix = t.count recordPrefix + 1 := by
    rw [count_put_of_not_startsWith not_startsWith_epochKey, count_put, absent,
      startsWith_recordKey]
    rfl
  refine ⟨fun r hr => ?_, fun name r n hr => ?_, ?_, fun k value hk => ?_,
    h.pointers_set hs p, h.entries⟩
  · rw [get?_put_of_ne (recordKey_ne_epochKey r.id), h.record_put sep hs p r hr]
  · rw [get?_put_of_ne (entryKey_ne_epochKey name r.id n),
      get?_put_of_ne (recordKey_ne_entryKey s.id name r.id n).symm, h.entry name r n hr,
      Ledger.entries_set]
  · rw [get?_put_self, version?_put, if_neg (recordKey_ne_epochKey s.id).symm,
      h.version?_epochKey, count, if_neg (Nat.succ_ne_zero _)]
    split
    · next none => rw [none]; rfl
    · rfl
  · rw [get?_put] at hk
    split at hk
    · next eq => exact .inr (.inr eq)
    · rw [get?_put] at hk
      split at hk
      · next eq => exact .inl ⟨s, hs, eq⟩
      · exact h.key k value hk

/-- An entry where there was none. -/
theorem enter (sep : Scope.Separated U) (h : t.Depicts U l) (hs : U s) {name : String}
    {n : Revision} {e : Value × BatchId} (absent : t.get? (entryKey name s.id n) = none) :
    (t.put (entryKey name s.id n) (Entry.pack ⟨n, e.1, e.2⟩)).Depicts U
      (l.enter name s.canonical n e) := by
  have count : (t.put (entryKey name s.id n) (Entry.pack ⟨n, e.1, e.2⟩)).count recordPrefix =
      t.count recordPrefix := count_put_of_not_startsWith (not_startsWith_entryKey name s.id n)
  refine ⟨fun r hr => ?_, fun name' r n' hr => ?_, ?_, fun k value hk => ?_, h.pointers,
    fun name' c n' hc => ?_⟩
  · rw [get?_put_of_ne (recordKey_ne_entryKey r.id name s.id n), h.record r hr,
      Ledger.pointers_enter]
  · rw [get?_put, Ledger.entries_enter, h.entry name' r n' hr]
    simp only [sep.entryKey_eq_iff hr hs]
    split
    · next same =>
      obtain ⟨-, -, rfl⟩ := same
      rw [version?, absent]
      rfl
    · rfl
  · rw [get?_put_of_ne (entryKey_ne_epochKey name s.id n).symm, h.epoch, count]
  · rw [get?_put] at hk
    split at hk
    · next eq => exact .inr (.inl ⟨name, s, n, hs, eq⟩)
    · exact h.key k value hk
  · rw [Ledger.entries_enter] at hc
    split at hc
    · next eq => exact ⟨s, hs, eq.2.1.symm⟩
    · exact h.entries name' c n' hc

end Table.Depicts

end ScopedConfig
