import ScopedConfig.Proofs.Depiction

/-!
# What staged operations do

The operations staged for a scope's next revision and for an entry go through if the keys are at the
versions expected (`commits_stageAdvance`, `commits_stageEntry`), and carry the ledger along:
`Depicts.stageAdvance` and `Depicts.stageEntry` for one of them, `Depicts.stageAdvances` and
`Depicts.stageSlots` for all those of a batch.
-/

namespace ScopedConfig

open Layout

variable {U : Scope → Prop} {t t' : Table} {l : Ledger} {s : Scope}

/-! ## Single operations

What a staged operation asks of the table, and what it leaves there. -/

theorem commits_replace {loaded : Loaded} {r : ScopeRecord} {ops : List Op} :
    t.Commits (loaded.replace r ++ ops) t' ↔
      t.version? loaded.key = loaded.version ∧ (t.put loaded.key r.pack).Commits ops t' := by
  rw [Loaded.replace, List.cons_append, List.singleton_append, Table.Commits.expect_iff,
    Table.Commits.put_iff]

/-- The table after the next revision was taken. -/
def Loaded.advanced (loaded : Loaded) (t : Table) : Table :=
  let t := t.put loaded.key loaded.record.advance.pack
  if loaded.exists? then t else t.put epochKey []

/-- An advance goes through at the version that was loaded. -/
theorem commits_stageAdvance {loaded : Loaded} :
    t.Commits loaded.stageAdvance t' ↔
      t.version? loaded.key = loaded.version ∧ t' = loaded.advanced t := by
  rw [Loaded.stageAdvance, commits_replace, Loaded.advanced]
  by_cases existing : loaded.exists?
  · rw [if_pos existing, if_pos existing, Table.Commits.nil_iff]
  · rw [if_neg existing, if_neg existing, Table.Commits.put_iff, Table.Commits.nil_iff]

/-- An entry goes through where there was none. -/
theorem commits_stageEntry {name : String} {e : Entry} :
    t.Commits (Store.stageEntry name s e) t' ↔
      t.get? (entryKey name s.id e.revision) = none ∧
        t' = t.put (entryKey name s.id e.revision) e.pack := by
  rw [Store.stageEntry, Table.Commits.expect_iff, Table.Commits.put_iff, Table.Commits.nil_iff,
    Table.version?_eq_none_iff]

/-- What does not concern a key leaves it alone. -/
theorem get?_advanced {loaded : Loaded} {k : String} (ne : k ≠ loaded.key) (not_epoch : k ≠ epochKey) :
    (loaded.advanced t).get? k = t.get? k := by
  rw [Loaded.advanced]
  by_cases existing : loaded.exists?
  · rw [if_pos existing, Table.get?_put_of_ne ne]
  · rw [if_neg existing, Table.get?_put_of_ne not_epoch, Table.get?_put_of_ne ne]

/-- **The next revisions of differing scopes are taken if all are at the versions expected.** -/
theorem exists_commits_stageAdvances_iff {allotments : List Store.Allotment}
    (distinct : (allotments.map fun a => a.loaded.key).Nodup) :
    (∃ t', t.Commits (allotments.flatMap (·.loaded.stageAdvance)) t') ↔
      ∀ a ∈ allotments, t.version? a.loaded.key = a.loaded.version := by
  induction allotments generalizing t with
  | nil => exact ⟨by simp, fun _ => ⟨t, Table.Commits.nil_iff.mpr rfl⟩⟩
  | cons a allotments ih =>
      obtain ⟨first, distinct⟩ := List.nodup_cons.mp distinct
      -- taking the revision of `a` leaves the versions of the others alone
      have others : ∀ b ∈ allotments,
          (a.loaded.advanced t).version? b.loaded.key = t.version? b.loaded.key := by
        intro b hb
        have ne : b.loaded.key ≠ a.loaded.key := fun eq => first (List.mem_map.mpr ⟨b, hb, eq⟩)
        rw [Table.version?, Table.version?, get?_advanced ne (recordKey_ne_epochKey _)]
      rw [List.forall_mem_cons, List.flatMap_cons]
      constructor
      · rintro ⟨t', commits⟩
        obtain ⟨mid, commits, rest⟩ := Table.Commits.append_iff.mp commits
        obtain ⟨version, rfl⟩ := commits_stageAdvance.mp commits
        refine ⟨version, fun b hb => ?_⟩
        rw [← others b hb]
        exact (ih distinct).mp ⟨t', rest⟩ b hb
      · rintro ⟨version, versions⟩
        obtain ⟨t', rest⟩ := (ih distinct).mpr fun b hb => by rw [others b hb, versions b hb]
        exact ⟨t', Table.Commits.append_iff.mpr ⟨_, commits_stageAdvance.mpr ⟨version, rfl⟩, rest⟩⟩

/-! ## In terms of the ledger

If the record loaded is that of the ledger, its version is that of the table, and the entry is new,
each staged operation is a step of the ledger. -/

theorem Loaded.key_eq {loaded : Loaded} (h : loaded.record = l.record s) :
    loaded.key = recordKey s.id := by
  rw [Loaded.key, h, l.record_scope, Scope.id_canonical]

namespace Table.Depicts

/-- The next revision of a scope. -/
theorem stageAdvance (sep : Scope.Separated U) (h : t.Depicts U l) (hs : U s) {loaded : Loaded}
    (hr : loaded.record = l.record s) (version : loaded.version = t.version? (recordKey s.id)) :
    (loaded.advanced t).Depicts U (l.advance s.canonical) := by
  have existing : loaded.exists? = (l.pointers s.canonical).isSome := by
    rw [Loaded.exists?, version, h.version?_recordKey_isSome hs]
  rw [Loaded.advanced, Loaded.key_eq hr, hr, l.record_advance, existing, Ledger.advance]
  cases hp : l.pointers s.canonical with
  | none => exact h.set_new sep hs ⟨l.next s.canonical, none⟩ hp
  | some p =>
      exact h.set_existing sep hs ⟨l.next s.canonical, p.active⟩ (by rw [hp]; exact Option.some_ne_none p)

/-- An entry. -/
theorem stageEntry (sep : Scope.Separated U) (h : t.Depicts U l) (hs : U s) {name : String}
    {e : Entry} (absent : t.get? (entryKey name s.id e.revision) = none) :
    (t.put (entryKey name s.id e.revision) e.pack).Depicts U
      (l.enter name s.canonical e.revision (e.value, e.batch)) :=
  h.enter sep hs (e := (e.value, e.batch)) absent

/-! ## Batches

The operations of a batch come one after another, so what each finds is what those before it have
left. The scopes differ, and so do the entries, hence none of them is in the way of another. -/

/-- The next revisions of scopes that differ. -/
theorem stageAdvances (sep : Scope.Separated U) (h : t.Depicts U l) {allotments : List Store.Allotment}
    (hU : ∀ a ∈ allotments, U a.scope)
    (distinct : allotments.Pairwise fun a b => a.scope.canonical ≠ b.scope.canonical)
    (hr : ∀ a ∈ allotments, a.loaded.record = l.record a.scope)
    (commits : t.Commits (allotments.flatMap (·.loaded.stageAdvance)) t') :
    t'.Depicts U (allotments.foldl (fun l a => l.advance a.scope.canonical) l) := by
  induction allotments generalizing t l with
  | nil =>
      rw [Commits.nil_iff.mp commits]
      exact h
  | cons a allotments ih =>
      obtain ⟨hUa, hU⟩ := List.forall_mem_cons.mp hU
      obtain ⟨hra, hr⟩ := List.forall_mem_cons.mp hr
      obtain ⟨first, distinct⟩ := List.pairwise_cons.mp distinct
      rw [List.flatMap_cons, Commits.append_iff] at commits
      obtain ⟨mid, commits, rest⟩ := commits
      obtain ⟨version, rfl⟩ := commits_stageAdvance.mp commits
      rw [Loaded.key_eq hra] at version
      have depicts := h.stageAdvance sep hUa hra version.symm
      -- the scopes still to come have the records that they had before
      have hr' : ∀ b ∈ allotments, b.loaded.record = (l.advance a.scope.canonical).record b.scope := by
        intro b hb
        rw [hr b hb, Ledger.record, Ledger.record, Ledger.pointers_advance,
          if_neg (first b hb).symm]
      exact ih depicts hU distinct hr' rest

/-- What a slot enters. -/
abbrev enterSlot (l : Ledger) (s : Store.Slot) : Ledger :=
  l.enter s.name s.scope.canonical s.entry.revision (s.entry.value, s.entry.batch)

/-- Entries where there were none. -/
theorem stageSlots (sep : Scope.Separated U) (h : t.Depicts U l) {slots : List Store.Slot}
    (hU : ∀ s ∈ slots, U s.scope) (commits : t.Commits (slots.flatMap Store.Slot.stage) t') :
    t'.Depicts U (slots.foldl enterSlot l) := by
  induction slots generalizing t l with
  | nil =>
      rw [Commits.nil_iff.mp commits]
      exact h
  | cons s slots ih =>
      obtain ⟨hUs, hU⟩ := List.forall_mem_cons.mp hU
      rw [List.flatMap_cons, Commits.append_iff] at commits
      obtain ⟨mid, commits, rest⟩ := commits
      obtain ⟨absent, rfl⟩ := commits_stageEntry.mp commits
      exact ih (h.stageEntry sep hUs absent) hU rest

/-- They go through if their keys are new and differ. -/
theorem exists_stageSlots (sep : Scope.Separated U) {slots : List Store.Slot}
    (hU : ∀ s ∈ slots, U s.scope)
    (distinct : slots.Pairwise fun a b =>
      ¬ (a.name = b.name ∧ a.scope.canonical = b.scope.canonical))
    (absent : ∀ s ∈ slots, t.get? (entryKey s.name s.scope.id s.entry.revision) = none) :
    ∃ t', t.Commits (slots.flatMap Store.Slot.stage) t' := by
  induction slots generalizing t with
  | nil => exact ⟨t, Commits.nil_iff.mpr rfl⟩
  | cons s slots ih =>
      obtain ⟨hUs, hU⟩ := List.forall_mem_cons.mp hU
      obtain ⟨absents, absent⟩ := List.forall_mem_cons.mp absent
      obtain ⟨first, distinct⟩ := List.pairwise_cons.mp distinct
      -- the entry put is none of those to come
      have absent' : ∀ r ∈ slots, (t.put (entryKey s.name s.scope.id s.entry.revision)
          s.entry.pack).get? (entryKey r.name r.scope.id r.entry.revision) = none := by
        intro r hr
        rw [get?_put_of_ne, absent r hr]
        intro eq
        obtain ⟨name, scope, -⟩ := (sep.entryKey_eq_iff (hU r hr) hUs).mp eq
        exact first r hr ⟨name.symm, scope.symm⟩
      obtain ⟨t', rest⟩ := ih hU distinct absent'
      refine ⟨t', ?_⟩
      rw [List.flatMap_cons, Commits.append_iff]
      exact ⟨_, commits_stageEntry.mpr ⟨absents, rfl⟩, rest⟩

end Table.Depicts

end ScopedConfig
