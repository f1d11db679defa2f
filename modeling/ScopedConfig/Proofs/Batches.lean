import ScopedConfig.Proofs.Attempts
import ScopedConfig.Proofs.Parameters
import ScopedConfig.Store.Batch

/-!
# What batches are accepted

`Ledger.Accepts` says which mixed batches a store should run, without the program's checks: every
parameter list is valid, no property is set twice in one scope, and the pointers that the
assignments will leave (`Ledger.ahead`) allow every activation and every read. The program's two
checks, of the whole batch ahead and of the assignments while they are placed, accept just these
(`accepts_iff`), and the pointers foreseen are those after the write (`pointers_write_eq_ahead`).
-/

namespace ScopedConfig

open Store

/-- The two do not set the same property in the same scope. -/
def Assignment.Apart (a b : Assignment) : Prop :=
  ∀ s r, scopeOf a.params = .ok s → scopeOf b.params = .ok r → ¬ (a.name = b.name ∧ s.same r)

namespace Operation

/-- The parameters name a scope or, for a listing, write a filter. -/
def Valid : Operation → Prop
  | .assign a => Parameter.NamesScope a.params
  | .read q => Parameter.NamesScope q.params
  | .activate a => Parameter.NamesScope a.params
  | .list q => Parameter.Named q.filter

/-- Whether the operation sets a property in a scope. -/
def assigns (op : Operation) (c : Scope) : Bool :=
  match op with
  | .assign a =>
    match scopeOf a.params with
    | .ok s => s.canonical = c
    | .error _ => false
  | _ => false

/-- The assignments of a batch are its operations of this kind. -/
theorem mem_filterMap_assignment? {ops : List Operation} {a : Assignment} :
    a ∈ ops.filterMap assignment? ↔ .assign a ∈ ops := by
  rw [List.mem_filterMap]
  constructor
  · rintro ⟨op, hop, eq⟩
    cases op with
    | assign => cases eq; exact hop
    | read | activate | list => cases eq
  · exact fun ha => ⟨.assign a, ha, rfl⟩

theorem mem_filterMap_activation? {ops : List Operation} {a : Activation} :
    a ∈ ops.filterMap activation? ↔ .activate a ∈ ops := by
  rw [List.mem_filterMap]
  constructor
  · rintro ⟨op, hop, eq⟩
    cases op with
    | activate => cases eq; exact hop
    | assign | read | list => cases eq
  · exact fun ha => ⟨.activate a, ha, rfl⟩

end Operation

namespace Ledger

/-- The ledger with the pointers that the assignments of a batch will leave. -/
def ahead (l : Ledger) (ops : List Operation) : Ledger :=
  { l with pointers := fun c =>
      if ops.any (·.assigns c) then (l.advance c).pointers c else l.pointers c }

/-- What the pointers have to be like for an operation. -/
def Allows (l : Ledger) : Operation → Prop
  | .assign _ => True
  | .activate a => ∃ s p n, scopeOf a.params = .ok s ∧ l.Activates s a.revision p n
  | .read q => q.revision = none → ∃ s, scopeOf q.params = .ok s ∧ l.Unambiguous s
  | .list _ => True

/-- The store should run the batch. -/
structure Accepts (l : Ledger) (ops : List Operation) : Prop where
  valid : ∀ op ∈ ops, op.Valid
  apart : (ops.filterMap Operation.assignment?).Pairwise Assignment.Apart
  allowed : ∀ op ∈ ops, (l.ahead ops).Allows op

end Ledger

variable {U : Scope → Prop} {l : Ledger} {c : Catalog} {op : Operation} {ops : List Operation}
  {placed : List Placed} {as : List Assignment}

/-! ## Assignments located

The program finds the scopes of a batch twice: for the check ahead, and again when the assignments
are placed. `Located` is what both have in common. Placing asks besides that the assignments keep
apart. -/

namespace Store

/-- The assignments with the scopes that they name. -/
structure Located (as : List Assignment) (placed : List Placed) : Prop where
  assignments : placed.map Placed.assignment = as
  scopes : ∀ p ∈ placed, scopeOf p.assignment.params = .ok p.scope

theorem located_cons_iff {a : Assignment} :
    Located (a :: as) placed ↔
      ∃ s rest, placed = ⟨s, a⟩ :: rest ∧ scopeOf a.params = .ok s ∧ Located as rest := by
  constructor
  · rintro ⟨assignments, scopes⟩
    obtain ⟨p, rest, rfl, rfl, tail⟩ := List.map_eq_cons_iff.mp assignments
    obtain ⟨first, scopes⟩ := List.forall_mem_cons.mp scopes
    exact ⟨p.scope, rest, rfl, first, tail, scopes⟩
  · rintro ⟨s, rest, rfl, first, rfl, scopes⟩
    exact ⟨rfl, List.forall_mem_cons.mpr ⟨first, scopes⟩⟩

/-- Assignments can be located if their parameters name scopes. -/
theorem exists_located_iff : (∃ placed, Located as placed) ↔ ∀ a ∈ as, Parameter.NamesScope a.params := by
  induction as with
  | nil => exact ⟨fun _ => by simp, fun _ => ⟨[], rfl, by simp⟩⟩
  | cons a as ih =>
      rw [List.forall_mem_cons, ← ih, ← exists_scopeOf_iff]
      constructor
      · rintro ⟨placed, located⟩
        obtain ⟨s, rest, -, first, located⟩ := located_cons_iff.mp located
        exact ⟨⟨s, first⟩, rest, located⟩
      · rintro ⟨⟨s, first⟩, rest, located⟩
        exact ⟨_, located_cons_iff.mpr ⟨s, rest, rfl, first, located⟩⟩

theorem Located.wellFormed (h : Located as placed) : ∀ s ∈ placed.map Placed.scope, s.WellFormed := by
  intro s hs
  obtain ⟨p, hp, rfl⟩ := List.mem_map.mp hs
  exact wellFormed_of_scopeOf (h.scopes p hp)

/-- They can be placed if they keep apart. -/
theorem place_eq_ok_iff_located : place as = .ok placed ↔ Located as placed ∧ as.Pairwise Assignment.Apart := by
  -- the scopes are those that the parameters name, so to be apart means the same before and after
  have apart (located : Located as placed) :
      placed.Pairwise Placed.Apart ↔ as.Pairwise Assignment.Apart := by
    rw [← located.assignments, List.pairwise_map]
    constructor
    · intro h
      refine h.imp_of_mem fun hp hq apart s r hs hr => ?_
      cases hs.symm.trans (located.scopes _ hp)
      cases hr.symm.trans (located.scopes _ hq)
      exact apart
    · exact fun h => h.imp_of_mem fun hp hq apart =>
        apart _ _ (located.scopes _ hp) (located.scopes _ hq)
  rw [place_eq_ok_iff]
  constructor
  · rintro ⟨assignments, scopes, pairwise⟩
    have located : Located as placed := ⟨assignments, scopes⟩
    exact ⟨located, (apart located).mp pairwise⟩
  · rintro ⟨located, pairwise⟩
    exact ⟨located.assignments, located.scopes, (apart located).mpr pairwise⟩

/-- The scopes of the assignments among the operations. -/
theorem assignedScopes_eq_ok_iff {scopes : List Scope} :
    assignedScopes ops = .ok scopes ↔
      ∃ placed, Located (ops.filterMap Operation.assignment?) placed ∧
        scopes = placed.map Placed.scope := by
  induction ops generalizing scopes with
  | nil =>
      constructor
      · intro h
        cases h
        exact ⟨[], ⟨rfl, by simp⟩, rfl⟩
      · rintro ⟨placed, located, rfl⟩
        rw [List.map_eq_nil_iff.mp located.assignments]
        rfl
  | cons op ops ih =>
      cases op with
      | assign a =>
          rw [assignedScopes, List.filterMap_cons_some
            (show (Operation.assign a).assignment? = some a from rfl)]
          simp only [bind_eq_ok_iff, located_cons_iff, ih]
          constructor
          · rintro ⟨s, first, _, ⟨placed, located, rfl⟩, ⟨⟩⟩
            exact ⟨_, ⟨s, placed, rfl, first, located⟩, rfl⟩
          · rintro ⟨_, ⟨s, placed, rfl, first, located⟩, rfl⟩
            exact ⟨s, first, _, ⟨placed, located, rfl⟩, rfl⟩
      | read | activate | list => exact ih

end Store

/-! ## Looking ahead

For the check the program notes a write for each distinct scope. The definition here says of every
scope whether the batch writes to it; both come to the pointers after the write. -/

/-- Where nothing is assigned, nothing is foreseen. -/
theorem Ledger.ahead_eq_self (none : ops.filterMap Operation.assignment? = []) : l.ahead ops = l := by
  have idle (s : Scope) : ops.any (·.assigns s) = false := by
    rw [List.any_eq_false]
    intro op hop
    cases op with
    | assign a =>
        have ha := Operation.mem_filterMap_assignment?.mpr hop
        rw [none] at ha
        cases ha
    | read | activate | list => exact Bool.false_ne_true
  ext1
  · funext s
    rw [Ledger.ahead]
    simp only [idle, Bool.false_eq_true, if_false]
  · rfl

namespace Store.Located

variable (located : Located (ops.filterMap Operation.assignment?) placed)

include located

theorem any_assigns_iff {s : Scope} :
    ops.any (·.assigns s) ↔ ∃ p ∈ placed, p.scope.canonical = s := by
  have member (a : Assignment) : .assign a ∈ ops ↔ a ∈ placed.map Placed.assignment := by
    rw [located.assignments, Operation.mem_filterMap_assignment?]
  rw [List.any_eq_true]
  constructor
  · rintro ⟨op, hop, assigns⟩
    cases op with
    | assign a =>
        obtain ⟨p, hp, rfl⟩ := List.mem_map.mp ((member a).mp hop)
        rw [Operation.assigns, located.scopes p hp] at assigns
        exact ⟨p, hp, by simpa using assigns⟩
    | read | activate | list => cases assigns
  · rintro ⟨p, hp, rfl⟩
    refine ⟨.assign p.assignment, (member _).mpr (List.mem_map_of_mem hp), ?_⟩
    rw [Operation.assigns, located.scopes p hp]
    simp

/-- The program looks ahead by advancing each of the scopes. -/
theorem ahead_eq :
    l.ahead ops = (Scope.distinct (placed.map Placed.scope)).foldl
      (fun l s => l.advance s.canonical) l := by
  ext1
  · funext s
    have named : ops.any (·.assigns s) ↔
        s ∈ (Scope.distinct (placed.map Placed.scope)).map Scope.canonical := by
      rw [located.any_assigns_iff, Scope.mem_canonical_distinct located.wellFormed]
      simp
    rw [Ledger.pointers_advanceAll (Scope.nodup_canonical_distinct located.wellFormed), Ledger.ahead]
    simp only [named]
  · rw [Ledger.entries_advanceAll]
    rfl

/-- **The pointers foreseen are those after the write.** -/
theorem pointers_write_eq_ahead (batch : BatchId) :
    (l.write batch placed).pointers = (l.ahead ops).pointers := by
  funext s
  rw [Ledger.write, Ledger.ahead]
  simp only [located.any_assigns_iff, List.any_eq_true, decide_eq_true_eq]

end Store.Located

/-! ## The check ahead

Each operation is checked against the catalog foreseen. On a catalog that lists a ledger, a check
passes if the ledger allows the operation, and `accepts_iff` puts the checks of a batch together. -/

namespace Store

/-- Assignments pass whatever they are; they are checked when they are placed. -/
theorem check_eq_ok_iff (h : c.Lists l) :
    check c op = .ok () ↔ (op.assignment? = none → op.Valid) ∧ l.Allows op := by
  cases op with
  | assign a => exact ⟨fun _ => ⟨nofun, trivial⟩, fun _ => rfl⟩
  | activate a =>
      rw [check, Operation.Valid, ← exists_scopeOf_iff]
      simp only [bind_eq_ok_iff]
      constructor
      · rintro ⟨s, hs, n, hn, -⟩
        obtain ⟨p, activates⟩ := (h.checkActivation_eq_ok_iff (wellFormed_of_scopeOf hs)).mp hn
        exact ⟨fun _ => ⟨s, hs⟩, s, p, n, hs, activates⟩
      · rintro ⟨-, s, p, n, hs, activates⟩
        exact ⟨s, hs, n, (h.checkActivation_eq_ok_iff (wellFormed_of_scopeOf hs)).mpr
          ⟨p, activates⟩, rfl⟩
  | read q =>
      rw [check, Operation.Valid, ← exists_scopeOf_iff, bind_eq_ok_iff]
      constructor
      · rintro ⟨s, hs, passes⟩
        refine ⟨fun _ => ⟨s, hs⟩, fun active => ⟨s, hs, ?_⟩⟩
        rw [active] at passes
        exact h.checkConflicts_eq_ok_iff.mp passes
      · rintro ⟨valid, allowed⟩
        obtain ⟨s, hs⟩ := valid rfl
        refine ⟨s, hs, ?_⟩
        cases hq : q.revision with
        | some n => rfl
        | none =>
            obtain ⟨s', hs', unambiguous⟩ := allowed hq
            cases hs.symm.trans hs'
            exact h.checkConflicts_eq_ok_iff.mpr unambiguous
  | list q =>
      rw [check, Operation.Valid, ← Filter.exists_ofParameters_iff, bind_eq_ok_iff]
      simp only [mapError_eq_ok_iff]
      constructor
      · rintro ⟨f, hf, -⟩
        exact ⟨fun _ => ⟨f, hf⟩, trivial⟩
      · rintro ⟨valid, -⟩
        obtain ⟨f, hf⟩ := valid rfl
        exact ⟨f, hf, rfl⟩

/-- Only operations that need the catalog depend on what it lists. -/
theorem check_eq_ok_of_allows (valid : op.Valid)
    (allowed : op.needsCatalog = true → ∃ l, c.Lists l ∧ l.Allows op) : check c op = .ok () := by
  cases needs : op.needsCatalog with
  | true =>
      obtain ⟨l, lists, allows⟩ := allowed needs
      exact (check_eq_ok_iff lists).mpr ⟨fun _ => valid, allows⟩
  | false =>
      cases op with
      | assign a => rfl
      | activate a => cases needs
      | list q => cases needs
      | read q =>
          obtain ⟨s, hs⟩ := exists_scopeOf_iff.mpr valid
          have pinned : q.revision.isNone = false := needs
          rw [check, hs, pinned]
          rfl

theorem check_of_needsCatalog_eq_false (h : op.needsCatalog = false) (c c' : Catalog) :
    check c op = check c' op := by
  cases op with
  | assign a => rfl
  | read q =>
      have revisioned : q.revision.isNone = false := h
      simp only [check, revisioned, Bool.false_eq_true, if_false]
  | activate a => cases h
  | list q => rfl

/-- The checks are made one after another, and all have to pass. -/
theorem checkEach_eq_ok_iff : checkEach c ops = .ok () ↔ ∀ op ∈ ops, check c op = .ok () := by
  induction ops with
  | nil => simp [checkEach]
  | cons op ops ih =>
      rw [checkEach, bind_eq_ok_iff, List.forall_mem_cons, ih]
      exact ⟨fun ⟨_, first, rest⟩ => ⟨first, rest⟩, fun ⟨first, rest⟩ => ⟨(), first, rest⟩⟩

/-- The check ahead passes if the assignments can be located and each operation passes on the
catalog after the writes. -/
theorem preflight_eq_ok_iff :
    preflight c ops = .ok () ↔ ∃ placed, Located (ops.filterMap Operation.assignment?) placed ∧
      ∀ op ∈ ops, check (c.afterWrites (Scope.distinct (placed.map Placed.scope))) op = .ok () := by
  unfold preflight
  simp only [bind_eq_ok_iff, assignedScopes_eq_ok_iff, checkEach_eq_ok_iff]
  constructor
  · rintro ⟨_, ⟨placed, located, rfl⟩, checks⟩
    exact ⟨placed, located, checks⟩
  · rintro ⟨placed, located, checks⟩
    exact ⟨_, ⟨placed, located, rfl⟩, checks⟩

/-- Without operations that depend on the catalog the check does not look at it. -/
theorem preflight_of_needsCatalog_eq_false (h : ops.any Operation.needsCatalog = false)
    (c c' : Catalog) : preflight c ops = .ok () ↔ preflight c' ops = .ok () := by
  have independent : ∀ op ∈ ops, op.needsCatalog = false := by simpa using h
  have same (scopes : List Scope) : (∀ op ∈ ops, check (c.afterWrites scopes) op = .ok ()) ↔
      ∀ op ∈ ops, check (c'.afterWrites scopes) op = .ok () :=
    forall₂_congr fun op hop => by rw [check_of_needsCatalog_eq_false (independent op hop)]
  simp only [preflight_eq_ok_iff, same]

/-- **The program's checks accept just the batches that the store should run.** -/
theorem accepts_iff (h : c.Lists l) :
    l.Accepts ops ↔ preflight c ops = .ok () ∧
      ∃ placed, place (ops.filterMap Operation.assignment?) = .ok placed := by
  have assigned {placed : List Placed}
      (located : Located (ops.filterMap Operation.assignment?) placed) :
      (c.afterWrites (Scope.distinct (placed.map Placed.scope))).Lists (l.ahead ops) := by
    -- what the program foresees is the catalog of `ahead`
    rw [located.ahead_eq]
    exact h.afterWrites fun s hs => located.wellFormed s (Scope.mem_distinct hs)
  rw [preflight_eq_ok_iff]
  constructor
  · intro accepts
    have named : ∀ a ∈ ops.filterMap Operation.assignment?, Parameter.NamesScope a.params :=
      fun a ha => accepts.valid _ (Operation.mem_filterMap_assignment?.mp ha)
    obtain ⟨placed, located⟩ := exists_located_iff.mpr named
    refine ⟨⟨placed, located, fun op hop => ?_⟩, placed,
      place_eq_ok_iff_located.mpr ⟨located, accepts.apart⟩⟩
    exact (check_eq_ok_iff (assigned located)).mpr
      ⟨fun _ => accepts.valid op hop, accepts.allowed op hop⟩
  · rintro ⟨⟨placed, located, checks⟩, placed', places⟩
    -- an assignment is valid if it can be located, any other operation if its check passes
    have check (op) (hop : op ∈ ops) := (check_eq_ok_iff (assigned located)).mp (checks op hop)
    refine ⟨fun op hop => ?_, (place_eq_ok_iff_located.mp places).2, fun op hop => (check op hop).2⟩
    cases op with
    | assign a =>
        exact exists_located_iff.mp ⟨placed, located⟩ a (Operation.mem_filterMap_assignment?.mpr hop)
    | read | activate | list => exact (check _ hop).1 rfl

end Store

end ScopedConfig
