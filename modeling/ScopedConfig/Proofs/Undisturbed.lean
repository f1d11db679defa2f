import Mathlib.Data.List.Perm.Basic
import ScopedConfig.Proofs.Batches
import ScopedConfig.Proofs.Calls
import ScopedConfig.Proofs.Puts

/-!
# Undisturbed calls

What a write or an activation does that nobody gets in the way of. Its first attempt is the last one
(`write_run_eq_ok_iff`, `activate_run_eq_ok_iff`). A write makes the puts `Ledger.puts`, which are one
for each key, so the order of its assignments is of no account: the same table comes of them in any
other order (`write_run_perm`), and the same answer for each of them up to the spelling of its scope
(`writes_of_write_run`).
-/

namespace ScopedConfig

open Layout Store

variable {U : Scope → Prop} {t t' : Table} {l : Ledger} {as as' : List Assignment}
  {placed placed' : List Placed} {batch : BatchId} {policy : RetryPolicy} {ids : Nat → BatchId}
  {r : WriteReceipt}

/-- The transaction of an attempt at a write. -/
abbrev Ledger.staged (l : Ledger) (t : Table) (batch : BatchId) (placed : List Placed) : List Op :=
  stageBatch ((Scope.distinct (placed.map Placed.scope)).map (l.allotment t))
    (placed.map (l.slot batch placed))

/-! ## The first attempt

Undisturbed, the versions that a transaction expects are those of the table, so nothing but an entry
that is there already can refuse it. The attempts that might follow do not show up in the result. -/

namespace Table

/-- Entries that have been put were not there before. -/
theorem Commits.get?_entryKey_eq_none {slots : List Slot} (h : t.Commits (slots.flatMap Slot.stage) t')
    {s : Slot} (hs : s ∈ slots) : t.get? (entryKey s.name s.scope.id s.entry.revision) = none := by
  induction slots generalizing t with
  | nil => cases hs
  | cons first slots ih =>
      rw [List.flatMap_cons, append_iff] at h
      obtain ⟨mid, put, rest⟩ := h
      obtain ⟨absent, rfl⟩ := commits_stageEntry.mp put
      rcases List.mem_cons.mp hs with rfl | hs
      · exact absent
      · -- a put does not take away what is there, so what is missing after it was missing before
        have later := ih rest hs
        rw [get?_put] at later
        split at later
        · cases later
        · exact later

namespace Depicts

/-- A write that goes through finds nothing at the revisions it takes. -/
theorem fresh_of_commits (sep : Scope.Separated U) (h : t.Depicts U l) (hp : Placeable U placed)
    (commits : t.Commits (l.staged t batch placed) t') :
    ∀ p ∈ placed, l.entries p.assignment.name p.scope.canonical (l.next p.scope.canonical) = none := by
  intro p hmem
  rw [Ledger.staged, Store.stageBatch, Commits.append_iff] at commits
  obtain ⟨mid, advances, slots⟩ := commits
  have absent := slots.get?_entryKey_eq_none (List.mem_map_of_mem hmem)
  have scope : U (l.slot batch placed p).scope ∧
      (l.slot batch placed p).scope.canonical = p.scope.canonical := hp.slot_scope sep hmem
  obtain ⟨used, canonical⟩ := scope
  -- The advances come first and touch no entry.
  rw [(h.stageScopes sep hp advances).get?_entryKey_eq_none_iff used, canonical,
    Ledger.entries_advanceAll] at absent
  exact absent

/-- **Undisturbed, the first attempt at a write is the last one.** -/
theorem write_run_eq_ok_iff (sep : Scope.Separated U) (h : t.Depicts U l)
    (within : (Call.write policy ids as).Within U) :
    (write policy ids as).run t = (.ok r, t') ↔ ∃ placed, place as = .ok placed ∧
      r = l.receipt (ids 0) placed ∧ t.Commits (l.staged t (ids 0) placed) t' := by
  have goes {placed : List Placed} {t' : Table} (places : place as = .ok placed)
      (commits : t.Commits (l.staged t (ids 0) placed) t') :
      (write policy ids as).run t = (.ok (l.receipt (ids 0) placed), t') := by
    have placeable := Call.placeable within places
    rw [write, places]
    cases placed with
    | nil =>
        cases Commits.nil_iff.mp commits
        rfl
    | cons p placed =>
        apply Session.run_optimistic_of_ok
        rw [h.attemptWrite_run_eq sep placeable]
        exact Session.run_transact_done_eq_ok.mpr ⟨rfl, commits⟩
  constructor
  · intro run
    rcases (Call.isolated_write sep within ⟨l, h⟩).of_run_eq_ok ⟨l, h⟩ run with
      ⟨-, placed, n, places, attempt⟩ | ⟨idle, rfl⟩
    · -- whatever attempt it was, the first one would have gone through as well
      have placeable := Call.placeable within places
      rw [h.attemptWrite_run_eq sep placeable, Session.run_transact_done_eq_ok] at attempt
      have fresh := h.fresh_of_commits sep placeable attempt.2
      obtain ⟨t₀, commits⟩ := h.exists_stageBatch sep placeable (ids 0) fresh
      cases run.symm.trans (goes places commits)
      exact ⟨placed, places, rfl, commits⟩
    · cases as with
      | nil =>
          obtain rfl : r = ⟨ids 0, []⟩ := idle
          exact ⟨[], rfl, rfl, Commits.nil_iff.mpr rfl⟩
      | cons a as => cases idle
  · rintro ⟨placed, places, rfl, commits⟩
    exact goes places commits

/-- **Undisturbed, the first attempt at an activation is the last one.** -/
theorem activate_run_eq_ok_iff (sep : Scope.Separated U) (h : t.Depicts U l) {a : Activation}
    (within : (Call.activate policy a).Within U) {r : Activated} :
    (activate policy a).run t = (.ok r, t') ↔ ∃ s p n, scopeOf a.params = .ok s ∧
      l.Activates s a.revision p n ∧ r = ⟨s.canonical, n, p.active⟩ ∧ t' = activated t s p n := by
  constructor
  · intro run
    rcases (Call.isolated_activate sep within ⟨l, h⟩).of_run_eq_ok ⟨l, h⟩ run with
      ⟨-, s, hs, attempt⟩ | ⟨idle, -⟩
    · obtain ⟨p, n, rest⟩ := (h.attemptActivate_run_eq_ok_iff sep (within s hs)).mp attempt
      exact ⟨s, p, n, hs, rest⟩
    · exact idle.elim
  · rintro ⟨s, p, n, hs, rest⟩
    rw [activate, hs]
    apply Session.run_optimistic_of_ok
    exact (h.attemptActivate_run_eq_ok_iff sep (within s hs)).mpr ⟨p, n, rest⟩

end Depicts

end Table

/-! ## What is put

The transaction of a write is read off the table: records with their versions, advanced and packed
again. Its puts are told by the ledger alone (`Ledger.puts`), since the table depicts it. -/

namespace Ledger

/-- What is put for the next revision of a scope. -/
def advancePuts (l : Ledger) (c : Scope) : List (String × Bytes) :=
  (recordKey c.id, (l.record c).advance.pack) ::
    if (l.pointers c).isSome then [] else [(epochKey, [])]

/-- What is put for an assignment. -/
def entryPut (l : Ledger) (batch : BatchId) (p : Placed) : String × Bytes :=
  (entryKey p.assignment.name p.scope.id (l.next p.scope.canonical),
    Entry.pack ⟨l.next p.scope.canonical, p.assignment.value, batch⟩)

/-- What a write puts. -/
def puts (l : Ledger) (batch : BatchId) (placed : List Placed) : List (String × Bytes) :=
  ((Scope.distinct (placed.map Placed.scope)).map Scope.canonical).flatMap l.advancePuts ++
    placed.map (l.entryPut batch)

theorem record_canonical (l : Ledger) (s : Scope) : l.record s.canonical = l.record s := by
  rw [record, record, Scope.WellFormed.canonical_idem]
  cases l.pointers s.canonical with
  | some p => rfl
  | none => exact congrArg (ScopeRecord.mk · 0 none) (Scope.WellFormed.canonical_idem s)

end Ledger

namespace Table.Depicts

/-- The puts of an advance, once those of the table and once those of the ledger. -/
theorem filterMap_put?_stageAdvance (h : t.Depicts U l) {s : Scope} (hs : U s) :
    (l.allotment t s).loaded.stageAdvance.filterMap Op.put? = l.advancePuts s.canonical := by
  have key : (l.allotment t s).loaded.key = recordKey s.id := Loaded.key_eq rfl
  have existing : (l.allotment t s).loaded.exists? = (l.pointers s.canonical).isSome :=
    h.version?_recordKey_isSome hs
  rw [Loaded.stageAdvance, Loaded.replace, key, existing, Ledger.advancePuts, Scope.id_canonical,
    l.record_canonical]
  cases l.pointers s.canonical <;> rfl

/-- And the puts of a whole write. -/
theorem filterMap_put?_staged (sep : Scope.Separated U) (h : t.Depicts U l)
    (hp : Placeable U placed) : (l.staged t batch placed).filterMap Op.put? = l.puts batch placed := by
  rw [Ledger.staged, Store.stageBatch, List.filterMap_append, Ledger.puts]
  congr 1
  · rw [List.filterMap_flatMap, List.flatMap_map, List.flatMap_map]
    exact List.flatMap_congr fun s hs => h.filterMap_put?_stageAdvance (hp.used_distinct s hs)
  · rw [List.filterMap_flatMap, List.flatMap_map, ← List.flatMap_singleton' (placed.map _),
      List.flatMap_map]
    apply List.flatMap_congr
    intro p hmem
    have canonical : (l.slot batch placed p).scope.canonical = p.scope.canonical :=
      (hp.slot_scope sep hmem).2
    have same : (l.slot batch placed p).scope.id = p.scope.id :=
      Scope.id_eq_of_canonical_eq canonical
    rw [Slot.stage, Store.stageEntry, same]
    rfl

end Table.Depicts

/-! ## In any order

Assignments in another order are placed in that order (`place_perm`), and their puts are the same
ones in another order. Under no key are there two puts with different values (`puts_consistent`),
and then the table does not tell in which order they came. -/

namespace Ledger

/-- A put is that of a record, of the epoch or of an entry. -/
theorem of_mem_puts {put : String × Bytes} (h : put ∈ l.puts batch placed) :
    (∃ s ∈ placed.map Placed.scope, put = (recordKey s.id, (l.record s).advance.pack)) ∨
      put = (epochKey, []) ∨ ∃ p ∈ placed, put = l.entryPut batch p := by
  rcases List.mem_append.mp h with h | h
  · obtain ⟨c, hc, h⟩ := List.mem_flatMap.mp h
    obtain ⟨s, hs, rfl⟩ := List.mem_map.mp hc
    rcases List.mem_cons.mp h with rfl | h
    · left
      refine ⟨s, Scope.mem_distinct hs, ?_⟩
      rw [Scope.id_canonical, l.record_canonical]
    · split at h
      · cases h
      · exact .inr (.inl (List.mem_singleton.mp h))
  · obtain ⟨p, hp, rfl⟩ := List.mem_map.mp h
    exact .inr (.inr ⟨p, hp, rfl⟩)

/-- A write puts one value under each key. -/
theorem puts_consistent (sep : Scope.Separated U) (hp : Placeable U placed) :
    ∀ p ∈ l.puts batch placed, ∀ q ∈ l.puts batch placed, p.1 = q.1 → p.2 = q.2 := by
  have used {s : Scope} (hs : s ∈ placed.map Placed.scope) : U s := by
    obtain ⟨p, hmem, rfl⟩ := List.mem_map.mp hs
    exact hp.used p hmem
  intro p hp' q hq' same
  -- Keys of different kinds differ, so three of the nine cases are left.
  rcases of_mem_puts hp' with ⟨s, hs, rfl⟩ | rfl | ⟨a, ha, rfl⟩ <;>
    rcases of_mem_puts hq' with ⟨r, hr, rfl⟩ | rfl | ⟨b, hb, rfl⟩
  · have canonical := (sep.recordKey_eq_iff (used hs) (used hr)).mp same
    show (l.record s).advance.pack = (l.record r).advance.pack
    rw [← l.record_canonical s, ← l.record_canonical r, canonical]
  · exact absurd same (recordKey_ne_epochKey _)
  · exact absurd same (recordKey_ne_entryKey _ _ _ _)
  · exact absurd same.symm (recordKey_ne_epochKey _)
  · rfl
  · exact absurd same.symm (entryKey_ne_epochKey _ _ _)
  · exact absurd same.symm (recordKey_ne_entryKey _ _ _ _)
  · exact absurd same (entryKey_ne_epochKey _ _ _)
  · obtain ⟨name, canonical, -⟩ := (sep.entryKey_eq_iff (hp.used a ha) (hp.used b hb)).mp same
    rw [hp.eq_of_same sep ha hb name canonical]

theorem puts_perm (sep : Scope.Separated U) (hp : Placeable U placed) (hp' : Placeable U placed')
    (perm : placed.Perm placed') : (l.puts batch placed).Perm (l.puts batch placed') := by
  have scopes : ((Scope.distinct (placed.map Placed.scope)).map Scope.canonical).Perm
      ((Scope.distinct (placed'.map Placed.scope)).map Scope.canonical) := by
    -- Both lists have each scope once, in canonical form, so it is enough to compare members.
    apply (List.perm_ext_iff_of_nodup (Scope.nodup_canonical_distinct (hp.wellFormed sep))
      (Scope.nodup_canonical_distinct (hp'.wellFormed sep))).mpr
    intro c
    rw [Scope.mem_canonical_distinct (hp.wellFormed sep),
      Scope.mem_canonical_distinct (hp'.wellFormed sep)]
    simp only [(perm.map Placed.scope).mem_iff]
  exact (scopes.flatMap_right _).append (perm.map _)

end Ledger

namespace Store

theorem located_iff_forall₂ : Located as placed ↔
    List.Forall₂ (fun a p => p.assignment = a ∧ scopeOf a.params = .ok p.scope) as placed := by
  induction as generalizing placed with
  | nil =>
      rw [List.forall₂_nil_left_iff]
      constructor
      · intro located
        exact List.map_eq_nil_iff.mp located.assignments
      · rintro rfl
        exact ⟨rfl, by simp⟩
  | cons a as ih =>
      rw [located_cons_iff, List.forall₂_cons_left_iff]
      constructor
      · rintro ⟨s, rest, rfl, first, located⟩
        exact ⟨_, rest, ⟨rfl, first⟩, ih.mp located, rfl⟩
      · rintro ⟨⟨s, _⟩, rest, ⟨rfl, first⟩, located, rfl⟩
        exact ⟨s, rest, rfl, first, ih.mpr located⟩

theorem apart_symm {a b : Assignment} (h : a.Apart b) : b.Apart a := by
  rintro s r hs hr ⟨name, same⟩
  exact h r s hr hs
    ⟨name.symm, (wellFormed_of_scopeOf hs).same_symm (wellFormed_of_scopeOf hr) same⟩

/-- **Whether assignments can be placed does not depend on their order.** -/
theorem place_perm (perm : as.Perm as') (places : place as = .ok placed) :
    ∃ placed', place as' = .ok placed' ∧ placed.Perm placed' := by
  obtain ⟨located, apart⟩ := place_eq_ok_iff_located.mp places
  obtain ⟨placed', located', perm'⟩ :=
    List.perm_comp_forall₂ perm.symm (located_iff_forall₂.mp located)
  have apart' : as'.Pairwise Assignment.Apart := (perm.pairwise_iff apart_symm).mp apart
  exact ⟨placed', place_eq_ok_iff_located.mpr ⟨located_iff_forall₂.mpr located', apart'⟩, perm'.symm⟩

end Store

/-- **Whether the store should run a batch does not depend on its order.** -/
theorem Ledger.Accepts.perm {ops ops' : List Operation} (h : l.Accepts ops) (perm : ops.Perm ops') :
    l.Accepts ops' := by
  have ahead : l.ahead ops' = l.ahead ops := by
    simp only [Ledger.ahead, perm.any_eq]
  refine ⟨fun op hop => h.valid op (perm.mem_iff.mpr hop), ?_, fun op hop => ?_⟩
  · exact ((perm.filterMap _).pairwise_iff apart_symm).mp h.apart
  · rw [ahead]
    exact h.allowed op (perm.mem_iff.mpr hop)

/-- What a write answers for an assignment, up to the spelling of its scope. -/
def Ledger.Writes (l : Ledger) (a : Assignment) (w : Written) : Prop :=
  w.name = a.name ∧ w.scope.WellFormed ∧ ∃ s, scopeOf a.params = .ok s ∧
    w.scope.canonical = s.canonical ∧ w.revision = l.next s.canonical

namespace Table.Depicts

/-- Each assignment of a write is answered with the next revision of its scope. -/
theorem writes_of_write_run (sep : Scope.Separated U) (h : t.Depicts U l)
    (within : (Call.write policy ids as).Within U) (run : (write policy ids as).run t = (.ok r, t')) :
    List.Forall₂ l.Writes as r.written := by
  obtain ⟨placed, places, rfl, -⟩ := (h.write_run_eq_ok_iff sep within).mp run
  have placeable := Call.placeable within places
  have located := (place_eq_ok_iff_located.mp places).1
  rw [← located.assignments, Ledger.receipt, List.forall₂_map_left_iff, List.forall₂_map_right_iff,
    List.forall₂_same]
  intro p hp
  have scope : U (l.slot (ids 0) placed p).scope ∧
      (l.slot (ids 0) placed p).scope.canonical = p.scope.canonical := placeable.slot_scope sep hp
  obtain ⟨used, canonical⟩ := scope
  exact ⟨rfl, sep.wellFormed _ used, p.scope, located.scopes p hp, canonical, rfl⟩

/-- **The order of assignments is of no account.** -/
theorem write_run_perm (sep : Scope.Separated U) (h : t.Depicts U l)
    (within : (Call.write policy ids as).Within U) (perm : as.Perm as')
    (run : (write policy ids as).run t = (.ok r, t')) :
    ∃ r', (write policy ids as').run t = (.ok r', t') := by
  have within' : (Call.write policy ids as').Within U := fun a ha => within a (perm.mem_iff.mpr ha)
  obtain ⟨placed, places, -, commits⟩ := (h.write_run_eq_ok_iff sep within).mp run
  obtain ⟨placed', places', perm'⟩ := place_perm perm places
  have placeable := Call.placeable within places
  have placeable' := Call.placeable within' places'
  have fresh := h.fresh_of_commits sep placeable commits
  obtain ⟨t'', commits'⟩ := h.exists_stageBatch sep placeable' (ids 0) fun p hp =>
    fresh p (perm'.mem_iff.mpr hp)
  -- the transaction of the other order puts the same, and so comes to the same table
  have same : t' = t'' := by
    rw [commits.eq_putAll, commits'.eq_putAll, h.filterMap_put?_staged sep placeable,
      h.filterMap_put?_staged sep placeable']
    exact putAll_perm (Ledger.puts_perm sep placeable placeable' perm')
      (Ledger.puts_consistent sep placeable)
  exact ⟨_, (h.write_run_eq_ok_iff sep within').mpr ⟨placed', places', rfl, same ▸ commits'⟩⟩

end Table.Depicts

end ScopedConfig
