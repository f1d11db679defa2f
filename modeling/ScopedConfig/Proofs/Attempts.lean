import Mathlib.Data.List.Pairwise
import ScopedConfig.Proofs.PlacedAssignments
import ScopedConfig.Proofs.Reads
import ScopedConfig.Store.Activate

/-!
# Undisturbed attempts

What one attempt at a write, an activation, an advance or a setting of the active revision does to a
table that depicts a ledger, if nobody gets in between. Each answers what the ledger says and leaves
a table that depicts the ledger after it (`Depicts.attemptWrite_run`, `Depicts.attemptActivate_run`,
`Depicts.attemptAdvance_run`, `Depicts.attemptSetActive_run`).
-/

namespace ScopedConfig

open Layout Store

variable {U : Scope → Prop} {t t' : Table} {l : Ledger} {s : Scope}

namespace Store

/-- One attempt at taking the next revision of a scope. -/
def attemptAdvance (s : Scope) : Session Revision := do
  let loaded ← load s
  let _ ← Session.transact loaded.stageAdvance
  return loaded.nextRevision

/-- One attempt at setting the active revision of a scope. -/
def attemptSetActive (s : Scope) (n : Revision) : Session Unit := do
  let loaded ← load s
  let ops ← .done (loaded.stageActivation n)
  let _ ← Session.transact ops
  return ()

theorem advance_eq (policy : RetryPolicy) (s : Scope) :
    advance policy s = .optimistic policy fun _ => attemptAdvance s := rfl

theorem setActive_eq (policy : RetryPolicy) (s : Scope) (n : Revision) :
    setActive policy s n = .optimistic policy fun _ => attemptSetActive s n := rfl

/-- Assignments that can be written together, to scopes in use. -/
structure Placeable (U : Scope → Prop) (placed : List Placed) : Prop where
  used : ∀ p ∈ placed, U p.scope
  apart : placed.Pairwise Placed.Apart

end Store

/-- What a scope of a batch is loaded as. -/
def Ledger.allotment (l : Ledger) (t : Table) (s : Scope) : Allotment :=
  ⟨s, l.record s, t.version? (recordKey s.id)⟩

/-- The slot of an assignment among others. -/
def Ledger.slot (l : Ledger) (batch : BatchId) (placed : List Placed) (p : Placed) : Slot :=
  ⟨((placed.map Placed.scope).find? (·.same p.scope)).getD p.scope, p.assignment.name,
    l.next p.scope.canonical, p.assignment.value, batch⟩

namespace Store.Placeable

variable {placed : List Placed} {batch : BatchId}

theorem wellFormed (sep : Scope.Separated U) (h : Placeable U placed) :
    ∀ s ∈ placed.map Placed.scope, s.WellFormed := by
  intro s hs
  obtain ⟨p, hp, rfl⟩ := List.mem_map.mp hs
  exact sep.wellFormed _ (h.used p hp)

theorem used_distinct (h : Placeable U placed) :
    ∀ s ∈ Scope.distinct (placed.map Placed.scope), U s := by
  intro s hs
  obtain ⟨p, hp, rfl⟩ := List.mem_map.mp (Scope.mem_distinct hs)
  exact h.used p hp

/-- Apart by spelling is apart by canonical form. -/
theorem apart_canonical (sep : Scope.Separated U) (h : Placeable U placed) :
    placed.Pairwise fun p q =>
      ¬ (p.assignment.name = q.assignment.name ∧ p.scope.canonical = q.scope.canonical) := by
  refine h.apart.imp_of_mem fun hp hq apart both => apart ⟨both.1, ?_⟩
  exact ((sep.wellFormed _ (h.used _ hp)).same_iff_canonical_eq
    (sep.wellFormed _ (h.used _ hq))).mpr both.2

/-- Nothing is set twice. -/
theorem eq_of_same (sep : Scope.Separated U) (h : Placeable U placed) {p q : Placed}
    (hp : p ∈ placed) (hq : q ∈ placed) (name : p.assignment.name = q.assignment.name)
    (canonical : p.scope.canonical = q.scope.canonical) : p = q := by
  have : Std.Symm fun p q : Placed =>
      ¬ (p.assignment.name = q.assignment.name ∧ p.scope.canonical = q.scope.canonical) :=
    ⟨fun _ _ apart both => apart ⟨both.1.symm, both.2.symm⟩⟩
  by_contra ne
  exact (h.apart_canonical sep).forall hp hq ne ⟨name, canonical⟩

/-- The scopes of a batch lie under different keys. -/
theorem nodup_recordKey (sep : Scope.Separated U) (h : Placeable U placed) :
    ((Scope.distinct (placed.map Placed.scope)).map fun s => recordKey s.id).Nodup := by
  have nodup := List.pairwise_map.mp (Scope.nodup_canonical_distinct (h.wellFormed sep))
  refine List.pairwise_map.mpr (nodup.imp_of_mem fun hr hs ne eq => ne ?_)
  exact (sep.recordKey_eq_iff (h.used_distinct _ hr) (h.used_distinct _ hs)).mp eq

/-- The scope of an assignment has a spelling in the batch, which stands for the same scope. -/
theorem exists_spelling (sep : Scope.Separated U) (h : Placeable U placed) {p : Placed}
    (hp : p ∈ placed) :
    ∃ s, (placed.map Placed.scope).find? (·.same p.scope) = some s ∧ U s ∧
      s.canonical = p.scope.canonical := by
  have wf := sep.wellFormed _ (h.used p hp)
  have found : ((placed.map Placed.scope).find? (·.same p.scope)).isSome :=
    List.find?_isSome.mpr ⟨p.scope, List.mem_map_of_mem hp, wf.same_refl⟩
  obtain ⟨s, hs⟩ := Option.isSome_iff_exists.mp found
  have mem := List.mem_of_find?_eq_some hs
  have same := List.find?_some hs
  obtain ⟨q, hq, rfl⟩ := List.mem_map.mp mem
  exact ⟨q.scope, hs, h.used q hq,
    ((sep.wellFormed _ (h.used q hq)).same_iff_canonical_eq wf).mp same⟩

theorem slot_scope (sep : Scope.Separated U) (h : Placeable U placed) {p : Placed}
    (hp : p ∈ placed) :
    U (l.slot batch placed p).scope ∧
      (l.slot batch placed p).scope.canonical = p.scope.canonical := by
  obtain ⟨s, hs, used, canonical⟩ := h.exists_spelling sep hp
  rw [Ledger.slot, hs]
  exact ⟨used, canonical⟩

theorem slotFor?_eq (sep : Scope.Separated U) (h : Placeable U placed) {p : Placed}
    (hp : p ∈ placed) :
    slotFor? batch ((Scope.distinct (placed.map Placed.scope)).map (l.allotment t)) p =
      some (l.slot batch placed p) := by
  obtain ⟨s, hs, -, canonical⟩ := h.exists_spelling sep hp
  have found : ((Scope.distinct (placed.map Placed.scope)).map (l.allotment t)).find?
      (·.scope.same p.scope) = some (l.allotment t s) := by
    rw [List.find?_map, Function.comp_def]
    show ((Scope.distinct (placed.map Placed.scope)).find? (·.same p.scope)).map _ = _
    rw [Scope.find?_distinct (sep.wellFormed _ (h.used p hp)) (h.wellFormed sep), hs]
    rfl
  rw [slotFor?, found, Ledger.slot, hs]
  have next : (l.allotment t s).loaded.nextRevision = l.next p.scope.canonical := by
    rw [← canonical]
    exact congrArg ScopeRecord.working (l.record_advance s)
  rw [Option.map_some, next]
  rfl

/-- Every assignment gets its slot. -/
theorem filterMap_slotFor? (sep : Scope.Separated U) (h : Placeable U placed) :
    placed.filterMap
        (slotFor? batch ((Scope.distinct (placed.map Placed.scope)).map (l.allotment t))) =
      placed.map (l.slot batch placed) := by
  rw [List.filterMap_congr fun p hp => h.slotFor?_eq sep hp]
  exact congrFun List.filterMap_eq_map placed

end Store.Placeable

namespace Table.Depicts

/-! ## Writes

An attempt at a write loads the record of each of its scopes and makes one transaction of all: the
records first, then the entries. What the records are loaded as is known on a depicted table
(`Ledger.allotment`), and from that the slots (`Ledger.slot`), so the transaction is known before it
is made. -/

section Write

variable {placed : List Placed} {batch : BatchId}

/-- **The records of a batch are loaded as the ledger has them.** -/
theorem collect_allot_run (sep : Scope.Separated U) (h : t.Depicts U l) {scopes : List Scope}
    (used : ∀ s ∈ scopes, U s) :
    (Session.collect allot scopes).run t = (.ok (scopes.map (l.allotment t)), t) := by
  refine Session.run_collect (List.forall₂_map_right_iff.mpr (List.forall₂_same.mpr fun s hs => ?_))
  rw [allot, Session.bind_eq, Session.run_bind_of_ok (h.load_run sep (used s hs))]
  rfl

theorem forall_allotment {P : Allotment → Prop} {scopes : List Scope}
    (h : ∀ s ∈ scopes, P (l.allotment t s)) : ∀ a ∈ scopes.map (l.allotment t), P a := by
  intro a ha
  obtain ⟨s, hs, rfl⟩ := List.mem_map.mp ha
  exact h s hs

theorem pairwise_allotment (sep : Scope.Separated U) (hp : Placeable U placed) :
    ((Scope.distinct (placed.map Placed.scope)).map (l.allotment t)).Pairwise fun a b =>
      a.scope.canonical ≠ b.scope.canonical :=
  List.pairwise_map.mpr (List.pairwise_map.mp (Scope.nodup_canonical_distinct (hp.wellFormed sep)))

/-- The next revisions of the scopes of a batch. -/
theorem stageScopes (sep : Scope.Separated U) (h : t.Depicts U l) (hp : Placeable U placed)
    (commits : t.Commits (((Scope.distinct (placed.map Placed.scope)).map
      (l.allotment t)).flatMap (·.loaded.stageAdvance)) t') :
    t'.Depicts U ((Scope.distinct (placed.map Placed.scope)).foldl
      (fun l s => l.advance s.canonical) l) := by
  have advanced := h.stageAdvances sep (forall_allotment hp.used_distinct)
    (pairwise_allotment sep hp) (forall_allotment fun s _ => rfl) commits
  rwa [List.foldl_map] at advanced

/-- The transaction of a batch leads to the ledger after the batch. -/
theorem stageBatch (sep : Scope.Separated U) (h : t.Depicts U l) (hp : Placeable U placed)
    (commits : t.Commits (Store.stageBatch
      ((Scope.distinct (placed.map Placed.scope)).map (l.allotment t))
      (placed.map (l.slot batch placed))) t') :
    t'.Depicts U (l.write batch placed) := by
  -- the table in between has the revisions taken, but none of the entries
  rw [Store.stageBatch, Commits.append_iff] at commits
  obtain ⟨mid, advances, slots⟩ := commits
  have used : ∀ s ∈ placed.map (l.slot batch placed), U s.scope := by
    intro s hs
    obtain ⟨p, hmem, rfl⟩ := List.mem_map.mp hs
    exact (hp.slot_scope sep hmem).1
  have entered := (h.stageScopes sep hp advances).stageSlots sep used slots
  have covers : ∀ c, c ∈ (Scope.distinct (placed.map Placed.scope)).map Scope.canonical ↔
      ∃ p ∈ placed, p.scope.canonical = c := fun c => by
    rw [Scope.mem_canonical_distinct (hp.wellFormed sep)]
    simp
  have entries : ∀ l' : Ledger, ∀ p ∈ placed, enterSlot l' (l.slot batch placed p) =
      l'.enter p.assignment.name p.scope.canonical (l.next p.scope.canonical)
        (p.assignment.value, batch) := by
    intro l' p hmem
    rw [enterSlot, (hp.slot_scope sep hmem).2]
    rfl
  rw [Ledger.write_eq (Scope.nodup_canonical_distinct (hp.wellFormed sep)) covers
    (hp.apart_canonical sep), ← List.foldl_ext _ _ _ entries]
  rwa [List.foldl_map] at entered

/-- It goes through where none of the entries is there yet. -/
theorem exists_stageBatch (sep : Scope.Separated U) (h : t.Depicts U l) (hp : Placeable U placed)
    (batch : BatchId) (fresh : ∀ p ∈ placed,
      l.entries p.assignment.name p.scope.canonical (l.next p.scope.canonical) = none) :
    ∃ t', t.Commits (Store.stageBatch
      ((Scope.distinct (placed.map Placed.scope)).map (l.allotment t))
      (placed.map (l.slot batch placed))) t' := by
  have key : ∀ s, (l.allotment t s).loaded.key = recordKey s.id := fun s => Loaded.key_eq rfl
  have keys : (((Scope.distinct (placed.map Placed.scope)).map (l.allotment t)).map
      fun a => a.loaded.key).Nodup := by
    rw [List.map_map, Function.comp_def]
    simp only [key]
    exact hp.nodup_recordKey sep
  obtain ⟨mid, advances⟩ := (exists_commits_stageAdvances_iff keys).mpr
    (forall_allotment fun s _ => congrArg t.version? (key s))
  -- taking revisions enters nothing, so the entries are still to come
  have depicts := h.stageScopes sep hp advances
  have slots : ∀ s ∈ placed.map (l.slot batch placed),
      U s.scope ∧ mid.get? (entryKey s.name s.scope.id s.entry.revision) = none := by
    intro s hs
    obtain ⟨p, hmem, rfl⟩ := List.mem_map.mp hs
    have scope : U (l.slot batch placed p).scope ∧
        (l.slot batch placed p).scope.canonical = p.scope.canonical := hp.slot_scope sep hmem
    obtain ⟨used, canonical⟩ := scope
    refine ⟨used, (depicts.get?_entryKey_eq_none_iff used).mpr ?_⟩
    rw [canonical, Ledger.entries_advanceAll]
    exact fresh p hmem
  have distinct : (placed.map (l.slot batch placed)).Pairwise fun a b =>
      ¬ (a.name = b.name ∧ a.scope.canonical = b.scope.canonical) := by
    refine List.pairwise_map.mpr ((hp.apart_canonical sep).imp_of_mem fun hq hr apart => ?_)
    rw [(hp.slot_scope sep hq).2, (hp.slot_scope sep hr).2]
    exact apart
  obtain ⟨t', entries⟩ := exists_stageSlots sep (fun s hs => (slots s hs).1) distinct
    (fun s hs => (slots s hs).2)
  exact ⟨t', Commits.append_iff.mpr ⟨mid, advances, entries⟩⟩

/-- An attempt at a write is its transaction, which answers the receipt if it goes through. -/
theorem attemptWrite_run_eq (sep : Scope.Separated U) (h : t.Depicts U l) (hp : Placeable U placed) :
    (attemptWrite placed batch).run t =
      ((Session.transact (Store.stageBatch
        ((Scope.distinct (placed.map Placed.scope)).map (l.allotment t))
        (placed.map (l.slot batch placed)))).bind fun _ =>
          .done (.ok (l.receipt batch placed))).run t := by
  have receipt : l.receipt batch placed =
      ⟨batch, (placed.map (l.slot batch placed)).map Slot.written⟩ := by
    rw [List.map_map]
    rfl
  rw [attemptWrite, Session.bind_eq,
    Session.run_bind_of_ok (h.collect_allot_run sep hp.used_distinct), hp.filterMap_slotFor? sep,
    receipt]
  rfl

/-- **A write that goes through answers its receipt and leaves the ledger after it.** -/
theorem of_attemptWrite_run (sep : Scope.Separated U) (h : t.Depicts U l) (hp : Placeable U placed)
    {r : WriteReceipt} (run : (attemptWrite placed batch).run t = (.ok r, t')) :
    r = l.receipt batch placed ∧ t'.Depicts U (l.write batch placed) := by
  rw [h.attemptWrite_run_eq sep hp, Session.run_transact_done_eq_ok] at run
  exact ⟨run.1, h.stageBatch sep hp run.2⟩

/-- **A write where none of its entries is there yet.** -/
theorem attemptWrite_run (sep : Scope.Separated U) (h : t.Depicts U l) (hp : Placeable U placed)
    (fresh : ∀ p ∈ placed,
      l.entries p.assignment.name p.scope.canonical (l.next p.scope.canonical) = none) :
    ∃ t', (attemptWrite placed batch).run t = (.ok (l.receipt batch placed), t') ∧
      t'.Depicts U (l.write batch placed) := by
  obtain ⟨t', commits⟩ := h.exists_stageBatch sep hp batch fresh
  refine ⟨t', ?_, h.stageBatch sep hp commits⟩
  rw [h.attemptWrite_run_eq sep hp, Session.run_transact_done_eq_ok]
  exact ⟨rfl, commits⟩

end Write

/-! ## Activations

An activation makes its transaction after the check has passed, against the epoch and the version of
the record. Undisturbed, both are as they were loaded, so it goes through if the ledger lets it. -/

/-- What activating a revision puts. -/
def activated (t : Table) (s : Scope) (p : Pointers) (n : Revision) : Table :=
  t.put (recordKey s.id) (Pointers.record ⟨p.working, some n⟩ s.canonical).pack

/-- What an activation puts depicts the ledger with that revision active. -/
theorem depicts_activated (sep : Scope.Separated U) (h : t.Depicts U l) (hs : U s) {p : Pointers}
    (hp : l.pointers s.canonical = some p) (n : Revision) :
    (activated t s p n).Depicts U (l.activate s.canonical n) := by
  rw [Ledger.activate_eq hp]
  exact h.set_existing sep hs ⟨p.working, some n⟩ (by rw [hp]; exact Option.some_ne_none p)

/-- A loaded record can be activated at the revisions written. -/
theorem stageActivation_eq_ok_iff (h : t.Depicts U l) (hs : U s) {n : Revision} {ops : List Op} :
    (l.allotment t s).loaded.stageActivation n = .ok ops ↔ ∃ p, l.pointers s.canonical = some p ∧
      n ≠ 0 ∧ n ≤ p.working ∧
      ops = (l.allotment t s).loaded.replace (Pointers.record ⟨p.working, some n⟩ s.canonical) := by
  have existing : (l.allotment t s).loaded.exists? = (l.pointers s.canonical).isSome :=
    h.version?_recordKey_isSome hs
  rw [Loaded.stageActivation, existing]
  cases hp : l.pointers s.canonical with
  | none => simp
  | some p =>
      have record : (l.allotment t s).loaded.record = p.record s.canonical := l.record_eq hp
      rw [record]
      by_cases known : (p.record s.canonical).hasRevision n
      · obtain ⟨positive, written⟩ := ScopeRecord.hasRevision_iff.mp known
        rw [if_neg (by simp), if_pos known]
        constructor
        · intro h
          cases h
          exact ⟨p, rfl, positive, written, rfl⟩
        · rintro ⟨q, eq, -, -, rfl⟩
          cases eq
          rfl
      · rw [if_neg (by simp), if_neg known]
        constructor
        · intro h
          cases h
        · rintro ⟨q, eq, positive, written, -⟩
          cases eq
          exact absurd (ScopeRecord.hasRevision_iff.mpr ⟨positive, written⟩) known

/-- The version is as it was loaded, so the put goes through. -/
theorem commits_activation (s : Scope) (p : Pointers) (n : Revision) :
    t.Commits ((l.allotment t s).loaded.replace (Pointers.record ⟨p.working, some n⟩ s.canonical)) t' ↔
      t' = activated t s p n := by
  have key : (l.allotment t s).loaded.key = recordKey s.id := Loaded.key_eq rfl
  rw [← List.append_nil (Loaded.replace ..), commits_replace, Commits.nil_iff, key]
  exact and_iff_right rfl

theorem epoch_run (t : Table) : Store.epoch.run t = (.ok (t.version? epochKey), t) := rfl

/-- **An activation.** -/
theorem attemptActivate_run_eq_ok_iff (sep : Scope.Separated U) (h : t.Depicts U l) (hs : U s)
    {revision : Option Revision} {a : Activated} :
    (attemptActivate s revision).run t = (.ok a, t') ↔ ∃ p n, l.Activates s revision p n ∧
      a = ⟨s.canonical, n, p.active⟩ ∧ t' = activated t s p n := by
  obtain ⟨c, catalog, lists⟩ := h.catalog_run sep
  rw [attemptActivate, Session.bind_eq, Session.run_bind_of_ok (epoch_run t), Session.bind_eq,
    Session.run_bind_of_ok catalog, Session.bind_eq, Session.run_done_bind_eq_ok]
  simp only [Session.bind_eq, Session.run_bind_of_ok (h.load_run sep hs)]
  simp only [Session.run_done_bind_eq_ok]
  -- nobody has moved the epoch since it was loaded
  have commits : ∀ ops, t.Commits (.expect epochKey (t.version? epochKey) :: ops) t' ↔
      t.Commits ops t' := fun ops => by rw [Commits.expect_iff]; exact and_iff_right rfl
  constructor
  · rintro ⟨⟨⟩, unambiguous, ops, staged, run⟩
    obtain ⟨rfl, went⟩ := Session.run_transact_done_eq_ok.mp run
    obtain ⟨p, recorded, positive, written, rfl⟩ := (h.stageActivation_eq_ok_iff hs).mp staged
    rw [commits, commits_activation] at went
    rw [l.record_eq recorded] at positive written went ⊢
    exact ⟨p, _, ⟨lists.checkConflicts_eq_ok_iff.mp unambiguous, recorded, rfl, positive, written⟩,
      rfl, went⟩
  · rintro ⟨p, n, ⟨unambiguous, recorded, rfl, positive, written⟩, rfl, rfl⟩
    refine ⟨(), lists.checkConflicts_eq_ok_iff.mpr unambiguous, _,
      (h.stageActivation_eq_ok_iff hs).mpr ⟨p, recorded, ?_, ?_, rfl⟩, ?_⟩
    · rwa [l.record_eq recorded]
    · rwa [l.record_eq recorded]
    · refine Session.run_transact_done_eq_ok.mpr ⟨?_, ?_⟩
      · rw [l.record_eq recorded]
        rfl
      · rw [commits, commits_activation, l.record_eq recorded]
        rfl

/-! ## Single records

The two calls that go by a scope alone, without a check and without the epoch. -/

/-- **An advance.** -/
theorem attemptAdvance_run (sep : Scope.Separated U) (h : t.Depicts U l) (hs : U s) :
    ∃ t', (attemptAdvance s).run t = (.ok (l.next s.canonical), t') ∧
      t'.Depicts U (l.advance s.canonical) := by
  have key : (l.allotment t s).loaded.key = recordKey s.id := Loaded.key_eq rfl
  have depicts : ((l.allotment t s).loaded.advanced t).Depicts U (l.advance s.canonical) :=
    h.stageAdvance sep hs rfl rfl
  refine ⟨_, ?_, depicts⟩
  rw [attemptAdvance, Session.bind_eq, Session.run_bind_of_ok (h.load_run sep hs)]
  refine Session.run_transact_done_eq_ok.mpr ⟨?_, commits_stageAdvance.mpr ⟨?_, rfl⟩⟩
  · exact (congrArg ScopeRecord.working (l.record_advance s)).symm
  · exact congrArg t.version? key

/-- **A setting of the active revision.** -/
theorem attemptSetActive_run_eq_ok_iff (sep : Scope.Separated U) (h : t.Depicts U l) (hs : U s)
    {n : Revision} :
    (attemptSetActive s n).run t = (.ok (), t') ↔ ∃ p, l.pointers s.canonical = some p ∧ n ≠ 0 ∧
      n ≤ p.working ∧ t' = activated t s p n := by
  rw [attemptSetActive, Session.bind_eq, Session.run_bind_of_ok (h.load_run sep hs),
    Session.bind_eq, Session.run_done_bind_eq_ok]
  constructor
  · rintro ⟨ops, staged, run⟩
    obtain ⟨-, went⟩ := Session.run_transact_done_eq_ok.mp run
    obtain ⟨p, recorded, positive, written, rfl⟩ := (h.stageActivation_eq_ok_iff hs).mp staged
    exact ⟨p, recorded, positive, written, (commits_activation s p n).mp went⟩
  · rintro ⟨p, recorded, positive, written, rfl⟩
    exact ⟨_, (h.stageActivation_eq_ok_iff hs).mpr ⟨p, recorded, positive, written, rfl⟩,
      Session.run_transact_done_eq_ok.mpr ⟨rfl, (commits_activation s p n).mpr rfl⟩⟩

end Table.Depicts

end ScopedConfig
