import ScopedConfig.Proofs.Filters
import ScopedConfig.Proofs.AlikeSessions
import ScopedConfig.Proofs.Phases

/-!
# Parameters in another order

A list of parameters names one scope in whatever order it stands, and a filter selects the same scopes.
So an operation may be made with its parameters in another order: every part of it is alike, from the
check of the batch to the transaction, which is the same one down to the bytes
(`Store.execute_alike`, `Store.write_alike`, `Store.activate_alike`). The exception is a read that
falls back, for it drops the last parameter first; `Operation.Reorders` leaves the parameters of such a
read as they are.
-/

namespace ScopedConfig

open Layout Store Parameter

/-! ## Lists side by side

A batch and its reordering are related operation by operation, and so is all that is made of them
along the way. What folds such lists down to one thing comes to the same for both. -/

section Lists

variable {α β γ : Type} {R : α → β → Prop} {as : List α} {bs : List β} {p : α → Bool} {q : β → Bool}

theorem any_eq_of_forall₂ (h : List.Forall₂ R as bs) (same : ∀ a b, R a b → p a = q b) :
    as.any p = bs.any q := by
  induction h with
  | nil => rfl
  | cons first _ ih => rw [List.any_cons, List.any_cons, same _ _ first, ih]

/-- The finds are related, if there are any. -/
theorem find?_of_forall₂ (h : List.Forall₂ R as bs) (same : ∀ a b, R a b → p a = q b) :
    Option.Rel R (as.find? p) (bs.find? q) := by
  induction h with
  | nil => exact .none
  | cons first _ ih =>
      rw [List.find?_cons, List.find?_cons, same _ _ first]
      split
      · exact .some first
      · exact ih

theorem isEmpty_eq_of_forall₂ (h : List.Forall₂ R as bs) : as.isEmpty = bs.isEmpty := by
  cases h <;> rfl

theorem flatMap_eq_of_forall₂ {f : α → List γ} {g : β → List γ} (h : List.Forall₂ R as bs)
    (same : ∀ a b, R a b → f a = g b) : as.flatMap f = bs.flatMap g := by
  induction h with
  | nil => rfl
  | cons first _ ih => rw [List.flatMap_cons, List.flatMap_cons, same _ _ first, ih]

end Lists

variable {s s' : Scope} {ps qs : List Parameter} {c : Catalog} {name : String} {n : Revision}

/-! ## The same operations

Reordering permutes the parameters of an operation and touches nothing else. The outcomes are not
quite the same then: a scope that the caller named is answered as it was spelt, while whatever is
read off the table is not. -/

/-- The same assignment with its parameters in another order. -/
def Assignment.Reorders (a a' : Assignment) : Prop :=
  ∃ ps, a.params.Perm ps ∧ a' = { a with params := ps }

def Activation.Reorders (a a' : Activation) : Prop :=
  ∃ ps, a.params.Perm ps ∧ a' = { a with params := ps }

/-- A read that falls back keeps the order of its parameters. -/
def Query.Reorders (fallback : Fallback) (q q' : Query) : Prop :=
  ∃ ps, q.params.Perm ps ∧ (q.revision = none → fallback = .lookup → ps = q.params) ∧
    q' = { q with params := ps }

def ListQuery.Reorders (q q' : ListQuery) : Prop :=
  ∃ ps, q.filter.Perm ps ∧ q' = { q with filter := ps }

/-- The same operation with its parameters in another order. -/
inductive Operation.Reorders (fallback : Fallback) : Operation → Operation → Prop where
  | assign {a a' : Assignment} (h : a.Reorders a') : Reorders fallback (.assign a) (.assign a')
  | read {q q' : Query} (h : q.Reorders fallback q') : Reorders fallback (.read q) (.read q')
  | activate {a a' : Activation} (h : a.Reorders a') : Reorders fallback (.activate a) (.activate a')
  | list {q q' : ListQuery} (h : q.Reorders q') : Reorders fallback (.list q) (.list q')

/-- The same answer to a read, though its scope may be spelt differently. -/
structure Reading.Same (r r' : Reading) : Prop where
  name : r.name = r'.name
  query : r.query.same r'.query
  hit : r.hit = r'.hit

/-- The same receipt, though scopes may be spelt differently. -/
structure WriteReceipt.Same (r r' : WriteReceipt) : Prop where
  batch : r.batch = r'.batch
  written : List.Forall₂ Written.Same r.written r'.written

/-- The same outcome, though a scope that the caller named may be spelt differently. -/
inductive Outcome.Alike : Outcome → Outcome → Prop where
  | written {w w' : Written} (same : w.Same w') : Alike (.written w) (.written w')
  | value {r r' : Reading} (same : r.Same r') : Alike (.value r) (.value r')
  | activated (a : Activated) : Alike (.activated a) (.activated a)
  | listed (rs : List Reading) : Alike (.listed rs) (.listed rs)

/-! ## Scopes and filters

Both spellings name a scope or neither does, and the scopes are alike (`Scope.Alike`). -/

/-- **Parameters in another order name an alike scope.** -/
theorem Store.exists_scopeOf_of_perm (valid : NamesScope ps) (perm : ps.Perm qs) :
    ∃ s s', scopeOf ps = .ok s ∧ scopeOf qs = .ok s' ∧ s.Alike s' := by
  obtain ⟨s, hs⟩ := exists_scopeOf_iff.mpr valid
  obtain ⟨s', hs', same⟩ := Scope.exists_ofParameters_of_perm perm.symm (scopeOf_eq_ok_iff.mp hs)
  have wf := wellFormed_of_scopeOf hs
  have wf' := Scope.wellFormed_of_ofParameters hs'
  exact ⟨s, s', hs, scopeOf_eq_ok_iff.mpr hs', wf, wf', wf'.same_symm wf same⟩

namespace Scope

/-- The distinct scopes are alike one by one: a scope is left out if another spelling of it has been
seen, and the other way round. -/
theorem distinct_alike {scopes scopes' : List Scope} (h : List.Forall₂ Alike scopes scopes') :
    List.Forall₂ Alike (distinct scopes) (distinct scopes') := by
  refine List.rel_foldl (P := List.Forall₂ Alike) (fun seen seen' known s s' hs => ?_) .nil h
  rw [any_eq_of_forall₂ known fun a b hab => hab.same_congr hs]
  split
  · exact known
  · exact List.rel_append known (.cons hs .nil)

end Scope

/-! ## Records and catalogs

What is stored is found by the id or by the canonical form of a scope, and alike scopes have these
in common. So the requests are equal, not just alike. Of the checks, only an ambiguity tells the
spelling of its query. -/

/-- Even a blank record is one of the canonical form. -/
theorem Store.load_congr (h : s.Alike s') : load s = load s' := by
  rw [load, load, h.id_eq, ScopeRecord.blank, ScopeRecord.blank, h.canonical_eq]

theorem Store.recordOf_congr (h : s.Alike s') : recordOf s = recordOf s' := by
  rw [recordOf, recordOf, load_congr h]

theorem Store.entryAsOf_congr (h : s.Alike s') (name : String) (n : Revision) :
    entryAsOf name s n = entryAsOf name s' n := by
  rw [entryAsOf, entryAsOf, h.id_eq]

namespace Catalog

theorem find?_congr (h : s.Alike s') (c : Catalog) : c.find? s = c.find? s' := by
  simp only [find?, h.same_eq]

/-- The same scopes are covered, so the same two strangers are found. -/
theorem checkConflicts_agree (h : s.Alike s') (c : Catalog) :
    Agree Eq (c.checkConflicts s) (c.checkConflicts s') := by
  have covered : c.covered s = c.covered s' := by simp only [Catalog.covered, h.within_eq]
  rw [checkConflicts, checkConflicts, covered]
  split
  · exact .error (.ambiguous h.same _ _)
  · exact .ok rfl

/-- The later errors of the check tell the canonical form. -/
theorem checkActivation_agree (h : s.Alike s') (c : Catalog) (revision : Option Revision) :
    Agree Eq (c.checkActivation s revision) (c.checkActivation s' revision) := by
  apply (checkConflicts_agree h c).bind
  rintro clear _ rfl
  rw [find?_congr h, h.canonical_eq]
  exact .refl _

theorem noteWrite_congr (h : s.Alike s') (rs : List ScopeRecord) : noteWrite s rs = noteWrite s' rs := by
  induction rs with
  | nil => rw [noteWrite, noteWrite, ScopeRecord.blank, ScopeRecord.blank, h.canonical_eq]
  | cons r rs ih => rw [noteWrite, noteWrite, ih, h.same_eq]

theorem afterWrites_congr {scopes scopes' : List Scope} (h : List.Forall₂ Scope.Alike scopes scopes')
    (c : Catalog) : c.afterWrites scopes = c.afterWrites scopes' := by
  refine congrArg Catalog.mk (List.rel_foldl (P := Eq) ?_ rfl h)
  rintro rs _ rfl s s' hs
  exact noteWrite_congr hs rs

end Catalog

namespace Store

/-! ## Writes

Assignments with their parameters in another order are placed in alike scopes, which get allotments
of the same records. From there on the slots differ in the spelling of their scopes alone, and
staging uses the ids. -/

section Writes

variable {policy : RetryPolicy} {ids : Nat → BatchId} {as as' : List Assignment}

/-- The same assignment in the same scope. -/
structure Placed.Alike (p p' : Placed) : Prop where
  scope : p.scope.Alike p'.scope
  name : p.assignment.name = p'.assignment.name
  value : p.assignment.value = p'.assignment.value

structure Allotment.Alike (a a' : Allotment) : Prop where
  scope : a.scope.Alike a'.scope
  loaded : a.loaded = a'.loaded

structure Slot.Alike (s s' : Slot) : Prop where
  scope : s.scope.Alike s'.scope
  name : s.name = s'.name
  entry : s.entry = s'.entry

/-- Two assignments clash in the one spelling if they do in the other, so a repeated key is found at
the same assignment. The induction is on the assignments to come, for alike ones placed before. -/
theorem placeAfter_agree (h : List.Forall₂ Assignment.Reorders as as')
    (valid : ∀ a ∈ as, NamesScope a.params) {before before' : List Placed}
    (earlier : List.Forall₂ Placed.Alike before before') :
    Agree (List.Forall₂ Placed.Alike) (placeAfter before as) (placeAfter before' as') := by
  induction h generalizing before before' with
  | nil => exact .ok earlier
  | @cons a a' as as' first _ ih =>
      obtain ⟨ps, perm, rfl⟩ := first
      obtain ⟨named, valid⟩ := List.forall_mem_cons.mp valid
      obtain ⟨s, s', hs, hs', alike⟩ := exists_scopeOf_of_perm named perm
      have clash : before.any (·.clashes a.name s) = before'.any (·.clashes a.name s') := by
        apply any_eq_of_forall₂ earlier
        intro p p' hp
        rw [Placed.clashes, Placed.clashes, hp.name, hp.scope.same_congr alike]
      simp only [placeAfter, hs, hs', clash]
      split
      · exact .error (.repeated alike.same a.name)
      · exact ih valid (List.rel_append earlier (.cons ⟨alike, rfl, rfl⟩ .nil))

theorem place_agree (h : List.Forall₂ Assignment.Reorders as as')
    (valid : ∀ a ∈ as, NamesScope a.params) :
    Agree (List.Forall₂ Placed.Alike) (place as) (place as') :=
  placeAfter_agree h valid .nil

/-- Alike scopes are allotted the same record. -/
theorem allot_alike (h : s.Alike s') : (allot s).Alike Allotment.Alike (allot s') := by
  rw [allot, allot, load_congr h]
  apply Session.Alike.bind_same
  intro loaded
  exact .ok ⟨h, rfl⟩

/-- Each assignment gets the same slot. -/
theorem slotFor?_alike {allotments allotments' : List Allotment}
    (h : List.Forall₂ Allotment.Alike allotments allotments') (batch : BatchId) {p p' : Placed}
    (hp : p.Alike p') :
    Option.Rel Slot.Alike (slotFor? batch allotments p) (slotFor? batch allotments' p') := by
  have found := find?_of_forall₂ h fun a a' ha => ha.scope.same_congr hp.scope
  rw [slotFor?, slotFor?]
  generalize allotments.find? (·.scope.same p.scope) = a at found ⊢
  generalize allotments'.find? (·.scope.same p'.scope) = a' at found ⊢
  cases found with
  | none => exact .none
  | some ha =>
      refine .some ⟨ha.scope, hp.name, ?_⟩
      simp only [ha.loaded, hp.value]

/-- The transaction is the same one. -/
theorem stageBatch_congr {allotments allotments' : List Allotment} {slots slots' : List Slot}
    (h : List.Forall₂ Allotment.Alike allotments allotments')
    (hs : List.Forall₂ Slot.Alike slots slots') :
    stageBatch allotments slots = stageBatch allotments' slots' := by
  rw [stageBatch, stageBatch]
  congr 1
  · apply flatMap_eq_of_forall₂ h
    intro a a' ha
    rw [ha.loaded]
  · apply flatMap_eq_of_forall₂ hs
    intro s s' hs
    rw [Slot.stage, Slot.stage, stageEntry, stageEntry, hs.name, hs.scope.id_eq, hs.entry]

/-- **Attempts at alike placements are alike**, with the same requests throughout. -/
theorem attemptWrite_alike {placed placed' : List Placed} (h : List.Forall₂ Placed.Alike placed placed')
    (batch : BatchId) :
    (attemptWrite placed batch).Alike WriteReceipt.Same (attemptWrite placed' batch) := by
  have scopes : List.Forall₂ Scope.Alike (placed.map Placed.scope) (placed'.map Placed.scope) :=
    List.rel_map (fun p p' hp => Placed.Alike.scope hp) h
  apply (Session.Alike.collect (Scope.distinct_alike scopes) fun s s' => allot_alike).bind
  intro allotments allotments' allotted
  have slots : List.Forall₂ Slot.Alike (placed.filterMap (slotFor? batch allotments))
      (placed'.filterMap (slotFor? batch allotments')) :=
    List.rel_filterMap (fun p p' hp => slotFor?_alike allotted batch hp) h
  -- from here on it is one and the same transaction
  simp only [stageBatch_congr allotted slots]
  apply Session.Alike.bind_same
  intro results
  refine .ok ⟨rfl, List.rel_map (fun s s' hs => ?_) slots⟩
  exact ⟨hs.name, hs.scope.same, congrArg Entry.revision hs.entry⟩

/-- **Writes with their parameters in another order are alike.** -/
theorem write_alike (h : List.Forall₂ Assignment.Reorders as as')
    (valid : ∀ a ∈ as, NamesScope a.params) (policy : RetryPolicy) (ids : Nat → BatchId) :
    (write policy ids as).Alike WriteReceipt.Same (write policy ids as') := by
  apply (Session.Alike.done (place_agree h valid)).bind
  intro placed placed' alike
  cases alike with
  | nil => exact .ok ⟨rfl, .nil⟩
  | cons first rest => exact .optimistic fun n => attemptWrite_alike (.cons first rest) (ids n)

end Writes

/-! ## Activations

An activation uses its scope as a query for the check and otherwise for the record. -/

theorem attemptActivate_alike (h : s.Alike s') (revision : Option Revision) :
    (attemptActivate s revision).Alike Eq (attemptActivate s' revision) := by
  apply Session.Alike.bind_same
  intro epoch
  apply Session.Alike.bind_same
  intro catalog
  apply (Session.Alike.done (Catalog.checkConflicts_agree h catalog)).bind
  rintro clear _ -
  -- what is left depends on the scope through its record only
  rw [load_congr h]
  exact .refl (fun _ => rfl) _

/-- **Activations with their parameters in another order are alike.** -/
theorem activate_alike {a a' : Activation} (h : a.Reorders a') (valid : NamesScope a.params)
    (policy : RetryPolicy) : (activate policy a).Alike Eq (activate policy a') := by
  obtain ⟨ps, perm, rfl⟩ := h
  obtain ⟨s, s', hs, hs', alike⟩ := exists_scopeOf_of_perm valid perm
  rw [activate, activate, hs, hs']
  exact .optimistic fun _ => attemptActivate_alike alike a.revision

/-! ## Reads

A history and a look at a record answer what is stored under the id of the scope. A read answers
along with that the scope it was asked for, in its spelling. -/

theorem history_congr (valid : NamesScope ps) (perm : ps.Perm qs) (name : String) :
    history name ps = history name qs := by
  obtain ⟨s, s', hs, hs', alike⟩ := exists_scopeOf_of_perm valid perm
  rw [history, history, hs, hs']
  show historyOf name s = historyOf name s'
  rw [historyOf, historyOf, alike.id_eq]

theorem metadata_congr (valid : NamesScope ps) (perm : ps.Perm qs) : metadata ps = metadata qs := by
  obtain ⟨s, s', hs, hs', alike⟩ := exists_scopeOf_of_perm valid perm
  rw [metadata, metadata, hs, hs']
  exact recordOf_congr alike

/-- What is read at a revision is the same entry, if there is one at all. -/
theorem readAt_alike (h : s.Alike s') (name : String) (n : Revision) :
    (readAt name s n).Alike Reading.Same (readAt name s' n) := by
  rw [readAt, readAt, recordOf_congr h]
  apply Session.Alike.bind_same
  intro record
  cases record with
  | none => exact .ok ⟨rfl, h.same, rfl⟩
  | some record =>
      simp only
      split
      · rw [entryAsOf_congr h]
        apply Session.Alike.bind_same
        intro entry
        exact .ok ⟨rfl, h.same, rfl⟩
      · exact .ok ⟨rfl, h.same, rfl⟩

/-- What is looked for in a single scope. -/
theorem firstHit_single_congr (h : s.Alike s') (c : Catalog) (name : String) :
    firstHit c name [s] = firstHit c name [s'] := by
  simp only [firstHit, Catalog.find?_congr h, entryAsOf_congr h]

/-- A read without fallback, or with its parameters in their order. -/
theorem readActive_alike (h : s.Alike s') {fallback : Fallback} (keeps : fallback = .lookup → s' = s)
    (c : Catalog) (name : String) :
    (readActive fallback c name s).Alike Reading.Same (readActive fallback c name s') := by
  apply (Session.Alike.done (Catalog.checkConflicts_agree h c)).bind
  rintro clear _ -
  have hits : firstHit c name (candidates fallback s) = firstHit c name (candidates fallback s') := by
    cases fallback with
    | none => exact firstHit_single_congr h c name
    | lookup => rw [keeps rfl]
  rw [hits]
  apply Session.Alike.bind_same
  intro hit
  exact .ok ⟨rfl, h.same, rfl⟩

/-- A list depends on what its filter admits. -/
theorem list_congr {f f' : Filter} {coverage : Coverage}
    (same : ∀ s, f.admits coverage s = f'.admits coverage s) (c : Catalog) (name : String) :
    list c name f coverage = list c name f' coverage := by
  simp only [list, admitted, same]

/-! ## Batches

The phases of a batch one by one, each of them alike if the operations are. -/

section Batches

variable {fallback : Fallback} {op op' : Operation} {ops ops' : List Operation}

/-- Whether a read needs the catalog depends on its having no revision. -/
theorem needsCatalog_congr (h : op.Reorders fallback op') : op.needsCatalog = op'.needsCatalog := by
  cases h with
  | read h =>
      obtain ⟨ps, -, -, rfl⟩ := h
      rfl
  | assign | activate | list => rfl

theorem filterMap_assignment?_reorders (h : List.Forall₂ (Operation.Reorders fallback) ops ops') :
    List.Forall₂ Assignment.Reorders (ops.filterMap Operation.assignment?)
      (ops'.filterMap Operation.assignment?) := by
  refine List.rel_filterMap (fun op op' h => ?_) h
  cases h with
  | assign h => exact .some h
  | read | activate | list => exact .none

theorem filterMap_activation?_reorders (h : List.Forall₂ (Operation.Reorders fallback) ops ops') :
    List.Forall₂ Activation.Reorders (ops.filterMap Operation.activation?)
      (ops'.filterMap Operation.activation?) := by
  refine List.rel_filterMap (fun op op' h => ?_) h
  cases h with
  | activate h => exact .some h
  | assign | read | list => exact .none

/-! ### Before anything is written

The check runs over the catalog as it will be after the writes, which is the same one for both
batches. That leaves the checks of the single operations. -/

theorem assignedScopes_agree (h : List.Forall₂ (Operation.Reorders fallback) ops ops')
    (valid : ∀ op ∈ ops, op.Valid) :
    Agree (List.Forall₂ Scope.Alike) (assignedScopes ops) (assignedScopes ops') := by
  induction h with
  | nil => exact .ok .nil
  | cons first _ ih =>
      obtain ⟨named, others⟩ := List.forall_mem_cons.mp valid
      cases first with
      | assign h =>
          obtain ⟨ps, perm, rfl⟩ := h
          obtain ⟨s, s', hs, hs', alike⟩ := exists_scopeOf_of_perm named perm
          rw [assignedScopes, assignedScopes, hs, hs']
          apply (ih others).bind
          intro scopes scopes' rest
          exact .ok (.cons alike rest)
      | read | activate | list => exact ih others

/-- **An operation passes the check in either order of its parameters.** -/
theorem check_agree (h : op.Reorders fallback op') (valid : op.Valid) (c : Catalog) :
    Agree Eq (check c op) (check c op') := by
  cases h with
  | assign h => exact .ok rfl
  | read h =>
      obtain ⟨ps, perm, -, rfl⟩ := h
      obtain ⟨s, s', hs, hs', alike⟩ := exists_scopeOf_of_perm valid perm
      simp only [check, hs, hs']
      split
      · exact Catalog.checkConflicts_agree alike c
      · exact .ok rfl
  | activate h =>
      obtain ⟨ps, perm, rfl⟩ := h
      obtain ⟨s, s', hs, hs', alike⟩ := exists_scopeOf_of_perm valid perm
      simp only [check, hs, hs']
      apply (Catalog.checkActivation_agree alike c _).bind
      intro n n' _
      exact .ok rfl
  | list h =>
      obtain ⟨ps, perm, rfl⟩ := h
      obtain ⟨f, f', hf, hf', -⟩ := Filter.exists_ofParameters_of_perm valid perm
      simp only [check, hf, hf']
      exact .ok rfl

theorem checkEach_agree (h : List.Forall₂ (Operation.Reorders fallback) ops ops')
    (valid : ∀ op ∈ ops, op.Valid) (c : Catalog) : Agree Eq (checkEach c ops) (checkEach c ops') := by
  induction h with
  | nil => exact .ok rfl
  | cons first _ ih =>
      obtain ⟨named, valid⟩ := List.forall_mem_cons.mp valid
      apply (check_agree first named c).bind
      intro _ _ _
      exact ih valid

/-- **The check of a batch comes to the same.** -/
theorem preflight_agree (h : List.Forall₂ (Operation.Reorders fallback) ops ops')
    (valid : ∀ op ∈ ops, op.Valid) (c : Catalog) : Agree Eq (preflight c ops) (preflight c ops') := by
  apply (assignedScopes_agree h valid).bind
  intro scopes scopes' alike
  -- the catalog that the batch leads to does not know the spellings
  rw [Catalog.afterWrites_congr (Scope.distinct_alike alike)]
  exact checkEach_agree h valid _

/-! ### Phases

The activations answer the same, down to the spelling. What is written and what is read need not. -/

theorem writePhase_alike (h : List.Forall₂ (Operation.Reorders fallback) ops ops')
    (valid : ∀ op ∈ ops, op.Valid) (policy : RetryPolicy) (ids : Nat → BatchId) :
    (writePhase policy ids ops).Alike (List.Forall₂ Written.Same) (writePhase policy ids ops') := by
  have reorders := filterMap_assignment?_reorders h
  have named : ∀ a ∈ ops.filterMap Operation.assignment?, NamesScope a.params :=
    fun a ha => valid _ (Operation.mem_filterMap_assignment?.mp ha)
  rw [writePhase, writePhase, isEmpty_eq_of_forall₂ reorders]
  split
  · exact .ok .nil
  · apply (write_alike reorders named policy ids).bind
    intro r r' same
    exact .ok same.written

theorem activatePhase_alike (h : List.Forall₂ (Operation.Reorders fallback) ops ops')
    (valid : ∀ op ∈ ops, op.Valid) (policy : RetryPolicy) :
    (activatePhase policy ops).Alike Eq (activatePhase policy ops') := by
  have named : ∀ a ∈ ops.filterMap Operation.activation?, NamesScope a.params :=
    fun a ha => valid _ (Operation.mem_filterMap_activation?.mp ha)
  have reorders := (List.forall₂_and_left _ _).mpr ⟨named, filterMap_activation?_reorders h⟩
  apply (Session.Alike.collect reorders fun a a' ha => activate_alike ha.2 ha.1 policy).imp
  intro rs rs' same
  rwa [List.forall₂_eq_eq_eq] at same

/-- Whether the catalog is loaded again depends on the kinds of the operations. -/
theorem reload_congr (h : List.Forall₂ (Operation.Reorders fallback) ops ops') (before : Catalog) :
    reload before ops = reload before ops' := by
  rw [reload, reload, any_eq_of_forall₂ h fun _ _ => needsCatalog_congr,
    isEmpty_eq_of_forall₂ (filterMap_assignment?_reorders h),
    isEmpty_eq_of_forall₂ (filterMap_activation?_reorders h)]

/-- Without fallback a read looks in one scope. With it, the reordering has left its parameters
alone. -/
theorem answer_alike (h : op.Reorders fallback op') (valid : op.Valid) (c : Catalog) :
    (answer fallback c op).Alike (Option.Rel Outcome.Alike) (answer fallback c op') := by
  cases h with
  | assign | activate => exact .ok .none
  | @read q _ h =>
      obtain ⟨ps, perm, keeps, rfl⟩ := h
      obtain ⟨s, s', hs, hs', alike⟩ := exists_scopeOf_of_perm valid perm
      obtain ⟨name, params, revision⟩ := q
      rw [answer, answer, hs, hs']
      cases revision with
      | some n =>
          apply (readAt_alike alike name n).bind
          intro r r' same
          exact .ok (.some (.value same))
      | none =>
          -- the candidates are then those of the very same scope
          have kept : fallback = .lookup → s' = s := by
            intro lookup
            rw [keeps rfl lookup, hs] at hs'
            exact (Except.ok.inj hs').symm
          apply (readActive_alike alike kept c name).bind
          intro r r' same
          exact .ok (.some (.value same))
  | list h =>
      obtain ⟨ps, perm, rfl⟩ := h
      obtain ⟨f, f', hf, hf', same⟩ := Filter.exists_ofParameters_of_perm valid perm
      rw [answer, answer, hf, hf']
      show Session.Alike _ (Session.bind (list c _ f _) _) (Session.bind (list c _ f' _) _)
      rw [list_congr (same _)]
      apply Session.Alike.bind_same
      intro readings
      exact .ok (.some (.listed readings))

/-- The outcomes are handed out by position. The induction is on the operations, with what is left
of the receipts, activations and answers. -/
theorem arrange_alike (h : List.Forall₂ (Operation.Reorders fallback) ops ops')
    {ws ws' : List Written} (hws : List.Forall₂ Written.Same ws ws') (as : List Activated)
    {rs rs' : List (Option Outcome)} (hrs : List.Forall₂ (Option.Rel Outcome.Alike) rs rs') :
    List.Forall₂ Outcome.Alike (arrange ops ws as rs) (arrange ops' ws' as rs') := by
  induction h generalizing ws ws' as rs rs' with
  | nil => simp [arrange]
  | cons first _ ih =>
      cases hrs with
      | nil => cases first <;> simp [arrange]
      | cons answered hrs =>
          cases first with
          | assign =>
              cases hws with
              | cons written hws => exact .cons (.written written) (ih hws as hrs)
              | nil =>
                  cases answered with
                  | some alike => exact .cons alike (ih .nil as hrs)
                  | none => exact .nil
          | activate =>
              cases as with
              | cons a as => exact .cons (.activated a) (ih hws as hrs)
              | nil =>
                  cases answered with
                  | some alike => exact .cons alike (ih hws [] hrs)
                  | none => exact .nil
          | read | list =>
              cases answered with
              | some alike => exact .cons alike (ih hws as hrs)
              | none => exact .nil

/-- **Batches with their parameters in another order are alike.** -/
theorem execute_alike (settings : Settings) (ids : Nat → BatchId)
    (h : List.Forall₂ (Operation.Reorders settings.fallback) ops ops') (valid : ∀ op ∈ ops, op.Valid) :
    (execute settings ids ops).Alike (List.Forall₂ Outcome.Alike) (execute settings ids ops') := by
  rw [execute_eq, execute_eq, any_eq_of_forall₂ h fun _ _ => needsCatalog_congr]
  apply Session.Alike.bind_same
  intro before
  apply (Session.Alike.done (preflight_agree h valid before)).bind
  intro _ _ _
  apply (writePhase_alike h valid settings.retryPolicy ids).bind
  intro written written' same
  apply (activatePhase_alike h valid settings.retryPolicy).bind
  rintro activated _ rfl
  rw [reload_congr h]
  apply Session.Alike.bind_same
  intro current
  have operations := (List.forall₂_and_left _ _).mpr ⟨valid, h⟩
  apply (Session.Alike.collect operations fun op op' hop => answer_alike hop.2 hop.1 current).bind
  intro answers answers' alike
  exact .ok (arrange_alike h same activated alike)

end Batches

/-! ## Everything but fallback

Alike sessions make the same requests and so leave the same table. Sessions that are alike on every
answer are equivalent on every table (`Session.Alike.equivalent`). -/

/-- **The order of parameters matters to fallback only.** Take a write, an activation, a batch, a history
or a look at a record, with valid parameters, and put the parameters of each of its scopes and filters
in any other order; only a read that falls back keeps its own. On every table it then answers the same,
or fails with the same error, up to the spelling of the scopes that the caller named, and leaves the
same table. -/
theorem parameter_order_matters_to_fallback_only :
    (∀ policy ids as as', List.Forall₂ Assignment.Reorders as as' → (∀ a ∈ as, NamesScope a.params) →
      Session.Equivalent WriteReceipt.Same (write policy ids as) (write policy ids as')) ∧
    (∀ policy a a', a.Reorders a' → NamesScope a.params →
      Session.Equivalent Eq (activate policy a) (activate policy a')) ∧
    (∀ settings ids ops ops', List.Forall₂ (Operation.Reorders settings.fallback) ops ops' →
      (∀ op ∈ ops, op.Valid) →
      Session.Equivalent (List.Forall₂ Outcome.Alike) (execute settings ids ops)
        (execute settings ids ops')) ∧
    (∀ name ps qs, NamesScope ps → ps.Perm qs →
      Session.Equivalent Eq (history name ps) (history name qs)) ∧
    ∀ ps qs, NamesScope ps → ps.Perm qs → Session.Equivalent Eq (metadata ps) (metadata qs) := by
  refine ⟨?_, ?_, ?_, ?_, ?_⟩
  · intro policy ids as as' h valid
    exact (write_alike h valid policy ids).equivalent
  · intro policy a a' h valid
    exact (activate_alike h valid policy).equivalent
  · intro settings ids ops ops' h valid
    exact (execute_alike settings ids h valid).equivalent
  · intro name ps qs valid perm
    rw [history_congr valid perm]
    exact (Session.Alike.refl (fun _ => rfl) _).equivalent
  · intro ps qs valid perm
    rw [metadata_congr valid perm]
    exact (Session.Alike.refl (fun _ => rfl) _).equivalent

/-- A batch of everything, in one scope and with one filter. -/
def tour (params filter : List Parameter) : List Operation :=
  [.assign ⟨"limit", .integer 1, params⟩, .activate ⟨params, none⟩, .read ⟨"limit", params, none⟩,
    .read ⟨"limit", params, some 1⟩, .list ⟨"limit", filter, .exactly⟩]

theorem tour_reorders (perm : ps.Perm qs) {fs gs : List Parameter} (perm' : fs.Perm gs) :
    List.Forall₂ (Operation.Reorders .none) (tour ps fs) (tour qs gs) :=
  .cons (.assign ⟨qs, perm, rfl⟩) <| .cons (.activate ⟨qs, perm, rfl⟩) <|
    .cons (.read ⟨qs, perm, nofun, rfl⟩) <| .cons (.read ⟨qs, perm, nofun, rfl⟩) <|
    .cons (.list ⟨gs, perm', rfl⟩) .nil

theorem tour_valid (named : NamesScope ps) {fs : List Parameter} (filters : Named fs) :
    ∀ op ∈ tour ps fs, op.Valid := by
  simp only [tour, List.mem_cons, List.not_mem_nil, or_false, forall_eq_or_imp, forall_eq]
  exact ⟨named, named, named, named, filters⟩

def coordinates : List Parameter := [⟨"env", .exactly "prod"⟩, ⟨"name", .exactly "t1"⟩]

def openCoordinates : List Parameter := [⟨"env", .exactly "prod"⟩, ⟨"name", .anything⟩]

theorem tour_there_and_back :
    ((execute {} (.stamped 0) (tour coordinates openCoordinates)).run .empty).1.isOk ∧
    Agree (List.Forall₂ Outcome.Alike)
      ((execute {} (.stamped 0) (tour coordinates openCoordinates)).run .empty).1
      ((execute {} (.stamped 0) (tour coordinates.reverse openCoordinates.reverse)).run .empty).1 ∧
    ((execute {} (.stamped 0) (tour coordinates openCoordinates)).run .empty).2 =
      ((execute {} (.stamped 0) (tour coordinates.reverse openCoordinates.reverse)).run .empty).2 := by
  obtain ⟨-, -, batches, -⟩ := parameter_order_matters_to_fallback_only
  have named : NamesScope coordinates := exists_scopeOf_iff.mp ⟨_, rfl⟩
  have filters : Named openCoordinates := Filter.exists_ofParameters_iff.mp ⟨_, rfl⟩
  have reorders := tour_reorders coordinates.reverse_perm.symm openCoordinates.reverse_perm.symm
  exact ⟨by decide +kernel, batches {} (.stamped 0) _ _ reorders (tour_valid named filters) .empty⟩

/-- A read that falls back drops its last parameter first, so the order decides what it finds. -/
example :
    let found (params : List Parameter) : Except StoreError Bool :=
      ((execute { fallback := .lookup } (.stamped 0) [.assign ⟨"limit", .integer 1, coordinates.take 1⟩,
        .activate ⟨coordinates.take 1, none⟩, .read ⟨"limit", params, none⟩]).run .empty).1.map
          (·.any fun | .value r => r.isFound | _ => false)
    found coordinates = .ok true ∧ found coordinates.reverse = .ok false := by decide +kernel

end Store

end ScopedConfig
