import Mathlib.Data.List.FinRange
import ScopedConfig.Proofs.Failures
import ScopedConfig.Proofs.Snapshots
import ScopedConfig.Proofs.Undisturbed

/-!
# Batches and their phases

What an undisturbed batch comes to is told by a `Report`: its operations, each with its outcome. A batch
goes through just if there is a report that holds (`Depicts.execute_run_eq_ok_iff`), and what has to
hold of it (`Report.Holds`) is about its assignments, its activations and its reads apart from each
other. So each phase can be had alone (`Report.Holds.phases`), and the operations may come in any order
that keeps the activations in theirs (`Report.Holds.order`). Only the spelling of a scope may depend
on the order, since a write answers with the first one in the batch (`Outcome.Same`).
-/

namespace ScopedConfig

open Layout Store

variable {U : Scope → Prop} {t t' : Table} {l l' : Ledger} {c : Catalog} {ops : List Operation}
  {settings : Settings} {ids : Nat → BatchId}

/-! ## Reports

A report is read in three ways: as the operations and the outcomes, which is what the caller sees,
as the parts of one kind (`Report.only`), and as what each phase is handed and gives back
(`assigned`, `activated`, `answers`). Where each outcome is of the kind of its operation
(`Report.Fits`) the three say the same, and nothing about a table is needed for it. -/

def Operation.isAssignment (op : Operation) : Bool := op.assignment?.isSome

def Operation.isActivation (op : Operation) : Bool := op.activation?.isSome

/-- Operations, each with what it led to. -/
abbrev Report := List (Operation × Outcome)

namespace Report

variable {ps qs : Report}

def operations (ps : Report) : List Operation := ps.map Prod.fst

def outcomes (ps : Report) : List Outcome := ps.map Prod.snd

/-- The assignments, each with where it was written. -/
def assigned (ps : Report) : List (Assignment × Written) :=
  ps.filterMap fun
    | (.assign a, .written w) => some (a, w)
    | _ => none

/-- The activations, each with its result. -/
def activated (ps : Report) : List (Activation × Activated) :=
  ps.filterMap fun
    | (.activate a, .activated r) => some (a, r)
    | _ => none

/-- What the reading phase answers. -/
def answers (ps : Report) : List (Option Outcome) :=
  ps.map fun p => if p.1.isRead then some p.2 else none

/-- The part about some of the operations. -/
def only (kind : Operation → Bool) (ps : Report) : Report := ps.filter fun p => kind p.1

theorem operations_only (kind : Operation → Bool) (ps : Report) :
    (ps.only kind).operations = ps.operations.filter kind :=
  List.filter_map.symm

theorem of_mem_only {kind : Operation → Bool} {p : Operation × Outcome} (h : p ∈ ps.only kind) :
    p ∈ ps ∧ kind p.1 :=
  List.mem_filter.mp h

/-- Every outcome is of the kind of its operation. -/
def Fits (ps : Report) : Prop := ∀ p ∈ ps, p.1.Yields p.2

theorem Fits.perm (h : ps.Fits) (perm : ps.Perm qs) : qs.Fits :=
  fun p hp => h p (perm.mem_iff.mpr hp)

theorem filterMap_assignment? (h : ps.Fits) :
    ps.operations.filterMap Operation.assignment? = ps.assigned.map Prod.fst := by
  rw [operations, assigned, List.filterMap_map, List.map_filterMap]
  apply List.filterMap_congr
  rintro ⟨op, o⟩ hp
  have fits := h _ hp
  cases op <;> cases o <;> first | rfl | cases fits

theorem filterMap_activation? (h : ps.Fits) :
    ps.operations.filterMap Operation.activation? = ps.activated.map Prod.fst := by
  rw [operations, activated, List.filterMap_map, List.map_filterMap]
  apply List.filterMap_congr
  rintro ⟨op, o⟩ hp
  have fits := h _ hp
  cases op <;> cases o <;> first | rfl | cases fits

/-- What is asked of the operations of a report is asked of its assignments. -/
theorem assigned_within (h : ps.Fits) (used : ∀ op ∈ ps.operations, op.Within U) :
    ∀ a ∈ ps.assigned.map Prod.fst, (Operation.assign a).Within U := by
  rw [← filterMap_assignment? h]
  exact fun a ha => used _ (Operation.mem_filterMap_assignment?.mp ha)

theorem activated_within (h : ps.Fits) (used : ∀ op ∈ ps.operations, op.Within U) :
    ∀ a ∈ ps.activated.map Prod.fst, (Operation.activate a).Within U := by
  rw [← filterMap_activation? h]
  exact fun a ha => used _ (Operation.mem_filterMap_activation?.mp ha)

/-- **The outcomes come back in the order of the operations.** -/
theorem arrange_eq (h : ps.Fits) :
    arrange ps.operations (ps.assigned.map Prod.snd) (ps.activated.map Prod.snd) ps.answers =
      ps.outcomes := by
  induction ps with
  | nil => rfl
  | cons p ps ih =>
      obtain ⟨fits, fit⟩ := List.forall_mem_cons.mp h
      obtain ⟨op, o⟩ := p
      have rest := congrArg (List.cons o) (ih fit)
      cases op <;> cases o <;> first | exact rest | cases fits

/-- **Every batch has a report**, from as many results as there are assignments and activations, and an
answer for each read. -/
theorem exists_of_phases {ws : List Written} {as : List Activated} {os : List (Option Outcome)}
    (written : ws.length = (ops.filterMap Operation.assignment?).length)
    (activated : as.length = (ops.filterMap Operation.activation?).length)
    (answered : List.Forall₂ (fun op o => if op.isRead then ∃ x, o = some x ∧ op.Yields x else o = none)
      ops os) :
    ∃ ps : Report, ps.Fits ∧ ps.operations = ops ∧ ps.assigned.map Prod.snd = ws ∧
      ps.activated.map Prod.snd = as ∧ ps.answers = os := by
  induction answered generalizing ws as with
  | nil =>
      cases ws <;> cases as <;> simp at written activated
      exact ⟨[], by simp [Fits], rfl, rfl, rfl, rfl⟩
  | @cons op o ops os first rest ih =>
      cases op with
      | assign a =>
          cases ws with
          | nil => simp [Operation.assignment?] at written
          | cons w ws =>
              obtain rfl : o = none := first
              have written' : ws.length = (ops.filterMap Operation.assignment?).length := by
                simpa [Operation.assignment?] using written
              obtain ⟨ps, fits, rfl, rfl, rfl, rfl⟩ := ih written' activated
              exact ⟨(.assign a, .written w) :: ps, List.forall_mem_cons.mpr ⟨trivial, fits⟩, rfl, rfl,
                rfl, rfl⟩
      | activate a =>
          cases as with
          | nil => simp [Operation.activation?] at activated
          | cons r as =>
              obtain rfl : o = none := first
              have activated' : as.length = (ops.filterMap Operation.activation?).length := by
                simpa [Operation.activation?] using activated
              obtain ⟨ps, fits, rfl, rfl, rfl, rfl⟩ := ih written activated'
              exact ⟨(.activate a, .activated r) :: ps, List.forall_mem_cons.mpr ⟨trivial, fits⟩, rfl,
                rfl, rfl, rfl⟩
      | read | list =>
          obtain ⟨x, rfl, yields⟩ := first
          obtain ⟨ps, fits, rfl, rfl, rfl, rfl⟩ := ih written activated
          refine ⟨(_, x) :: ps, List.forall_mem_cons.mpr ⟨yields, fits⟩, rfl, ?_, ?_, rfl⟩
          · rfl
          · rfl

end Report

/-! ## What a batch comes to

Each clause of `Report.Holds` is one phase of the batch: the check ahead, the write, the
activations, and the reads. From a run to a report the phases are taken apart in their order
(`exists_holds_of_execute_run`), and from a report to a run they are put together again
(`execute_run_of_holds`). Between the two stands the catalog, which the batch loads once for the
check and once more for the reads, or not at all (`exists_reload_run`). -/

namespace Store

/-- What does not depend on the catalog. -/
theorem answer_of_needsCatalog_eq_false (fallback : Fallback) {op : Operation}
    (h : op.needsCatalog = false) (c c' : Catalog) : answer fallback c op = answer fallback c' op := by
  cases op with
  | assign a => rfl
  | read q =>
      obtain ⟨name, params, revision⟩ := q
      cases revision with
      | none => cases h
      | some n => rfl
  | activate a => cases h
  | list q => cases h

/-- The reading phase has an outcome for a read, of the kind of the read, and none for anything
else. -/
theorem kind_of_answer_run {fallback : Fallback} {op : Operation} {o : Option Outcome}
    (run : (answer fallback c op).run t = (.ok o, t')) :
    if op.isRead then ∃ x, o = some x ∧ op.Yields x else o = none := by
  split
  · next read => exact exists_of_answer_run read run
  · next other =>
    cases op with
    | assign | activate =>
        cases run
        rfl
    | read | list => exact absurd rfl other

/-- Without assignments and activations nothing changes. -/
theorem unchanged_of_phases {t₁ t₂ : Table} {policy : RetryPolicy} {ws : List Written}
    {rs : List Activated} (written : (writePhase policy ids ops).run t = (.ok ws, t₁))
    (activated : (activatePhase policy ops).run t₁ = (.ok rs, t₂))
    (assigns : ops.filterMap Operation.assignment? = [])
    (activates : ops.filterMap Operation.activation? = []) : t₂ = t := by
  rw [writePhase, assigns] at written
  rw [activatePhase, activates] at activated
  cases written
  cases activated
  rfl

/-- The catalog for the reads of a batch serves them as the one after its changes does. -/
theorem exists_reload_run (sep : Scope.Separated U) {t₂ : Table} (h : t₂.Depicts U l)
    {before : Catalog} (loaded : (catalogIf (ops.any Operation.needsCatalog)).run t = (.ok before, t))
    (unchanged : ops.filterMap Operation.assignment? = [] → ops.filterMap Operation.activation? = [] →
      t₂ = t) (fallback : Fallback) :
    ∃ current c, (reload before ops).run t₂ = (.ok current, t₂) ∧ catalog.run t₂ = (.ok c, t₂) ∧
      c.Lists l ∧ ∀ op ∈ ops, answer fallback current op = answer fallback c op := by
  obtain ⟨c, run, lists⟩ := h.catalog_run sep
  unfold reload
  split
  · exact ⟨c, c, run, run, lists, fun _ _ => rfl⟩
  · next same =>
    refine ⟨before, c, rfl, run, lists, fun op hop => ?_⟩
    cases needed : op.needsCatalog with
    | false => exact answer_of_needsCatalog_eq_false fallback needed before c
    | true =>
        -- nothing has changed, so what was loaded before is what would be loaded now
        have all : ops.any Operation.needsCatalog = true := List.any_eq_true.mpr ⟨op, hop, needed⟩
        rw [all, Bool.true_and, Bool.or_eq_true, not_or, Bool.not_eq_true', Bool.not_eq_false,
          Bool.not_eq_true', Bool.not_eq_false, List.isEmpty_iff, List.isEmpty_iff] at same
        obtain rfl := unchanged same.1 same.2
        rw [all] at loaded
        cases run.symm.trans loaded
        rfl

end Store

/-- The report tells what comes of its operations, from one table to another: its assignments are
written, its activations follow one after another, and its reads are answered after both. -/
structure Report.Holds (settings : Settings) (ids : Nat → BatchId) (l : Ledger) (t t' : Table)
    (ps : Report) : Prop where
  accepts : l.Accepts ps.operations
  fits : ps.Fits
  changes : ∃ mid r,
    (write settings.retryPolicy ids (ps.assigned.map Prod.fst)).run t = (.ok r, mid) ∧
    r.written = ps.assigned.map Prod.snd ∧
    (Session.collect (activate settings.retryPolicy) (ps.activated.map Prod.fst)).run mid =
      (.ok (ps.activated.map Prod.snd), t')
  reads : ∃ c, catalog.run t' = (.ok c, t') ∧
    ∀ p ∈ ps, p.1.isRead → (answer settings.fallback c p.1).run t' = (.ok (some p.2), t')

namespace Table.Depicts

variable {policy : RetryPolicy} {as : List Activation} {rs : List Activated} {r : WriteReceipt}

theorem depicts_of_write_run (sep : Scope.Separated U) (h : t.Depicts U l) {as : List Assignment}
    (within : (Call.write policy ids as).Within U) (run : (write policy ids as).run t = (.ok r, t')) :
    ∃ placed, place as = .ok placed ∧ t'.Depicts U (l.write (ids 0) placed) := by
  obtain ⟨placed, places, -, commits⟩ := (h.write_run_eq_ok_iff sep within).mp run
  exact ⟨placed, places, h.stageBatch sep (Call.placeable within places) commits⟩

theorem depicts_of_activate_run (sep : Scope.Separated U) (h : t.Depicts U l)
    (used : ∀ a ∈ as, (Operation.activate a).Within U)
    (run : (Session.collect (activate policy) as).run t = (.ok rs, t')) : ∃ l', t'.Depicts U l' := by
  induction as generalizing t l rs with
  | nil =>
      cases run
      exact ⟨l, h⟩
  | cons a as ih =>
      obtain ⟨first, used⟩ := List.forall_mem_cons.mp used
      obtain ⟨r, mid, activated, run⟩ := Session.run_bind_eq_ok.mp run
      obtain ⟨rest, mid', run, done⟩ := Session.run_bind_eq_ok.mp run
      cases done
      obtain ⟨s, p, n, hs, activates, -, rfl⟩ := (h.activate_run_eq_ok_iff sep first).mp activated
      exact ih (h.depicts_activated sep (first s hs) activates.recorded n) used run

theorem catalogIf_run_of_ok (sep : Scope.Separated U) (h : t.Depicts U l) {needed : Bool}
    (load : (catalogIf needed).run t = (.ok c, t')) : t' = t ∧ (needed = true → c.Lists l) := by
  obtain ⟨c', run, lists⟩ := h.catalogIf_run sep needed
  cases run.symm.trans load
  exact ⟨rfl, lists⟩

/-- What goes through has a report. -/
theorem exists_holds_of_execute_run (sep : Scope.Separated U) (h : t.Depicts U l)
    (used : ∀ op ∈ ops, op.Within U) {outcomes : List Outcome}
    (goes : (execute settings ids ops).run t = (.ok outcomes, t')) :
    ∃ ps : Report, ps.operations = ops ∧ ps.outcomes = outcomes ∧ ps.Holds settings ids l t t' := by
  have within : (Call.write settings.retryPolicy ids (ops.filterMap Operation.assignment?)).Within U :=
    fun a ha => used _ (Operation.mem_filterMap_assignment?.mp ha)
  -- Each phase that went through leaves its result and the table for the next one.
  rw [execute_eq] at goes
  obtain ⟨before, t₀, load, run⟩ := Session.run_bind_eq_ok.mp goes
  obtain ⟨rfl, lists⟩ := h.catalogIf_run_of_ok sep load
  obtain ⟨_, passes, run⟩ := Session.run_done_bind_eq_ok.mp run
  obtain ⟨ws, t₁, written, run⟩ := Session.run_bind_eq_ok.mp run
  obtain ⟨rs, t₂, activated, run⟩ := Session.run_bind_eq_ok.mp run
  obtain ⟨current, t₃, reloaded, run⟩ := Session.run_bind_eq_ok.mp run
  obtain ⟨os, t₄, answered, done⟩ := Session.run_bind_eq_ok.mp run
  cases done
  obtain ⟨r, write, rfl⟩ := writePhase_run_eq_ok_iff.mp written
  obtain ⟨placed, places, depicts₁⟩ := h.depicts_of_write_run sep within write
  obtain ⟨l₂, depicts₂⟩ := depicts₁.depicts_of_activate_run sep
    (fun a ha => used _ (Operation.mem_filterMap_activation?.mp ha)) activated
  obtain ⟨current', c, reload, final, -, same⟩ :=
    exists_reload_run sep depicts₂ load (unchanged_of_phases written activated) settings.fallback
  cases reloaded.symm.trans reload
  obtain ⟨rfl, answers⟩ :=
    (Session.Reads.collect_run_eq_ok_iff (answer_reads settings.fallback current)).mp answered
  have kinds : List.Forall₂ (fun op o => if op.isRead then ∃ x, o = some x ∧ op.Yields x else o = none)
      ops os := answers.imp fun _ _ => kind_of_answer_run
  -- There are as many results of each kind as operations, so they go together in one report.
  obtain ⟨ps, fits, rfl, ws, as, rfl⟩ := Report.exists_of_phases
    (h.writes_of_write_run sep within write).length_eq.symm
    (Session.length_of_collect_run activated) kinds
  refine ⟨ps, rfl, ?_, ?_, fits, ?_, ?_⟩
  · rw [← ws, ← as, Report.arrange_eq fits]
  · exact (h.accepts_iff_of_catalogIf sep lists).mpr ⟨passes, placed, places⟩
  · rw [← Report.filterMap_assignment? fits, ← Report.filterMap_activation? fits, ws, as]
    exact ⟨t₁, r, write, rfl, activated⟩
  · refine ⟨c, final, fun p hp read => ?_⟩
    have each := List.forall₂_same.mp
      (List.forall₂_map_left_iff.mp (List.forall₂_map_right_iff.mp answers)) p hp
    rw [if_pos read, same _ (List.mem_map_of_mem hp)] at each
    exact each

/-- What has a report goes through. -/
theorem execute_run_of_holds (sep : Scope.Separated U) (h : t.Depicts U l) {ps : Report}
    (used : ∀ op ∈ ps.operations, op.Within U) (holds : ps.Holds settings ids l t t') :
    (execute settings ids ps.operations).run t = (.ok ps.outcomes, t') := by
  obtain ⟨accepts, fits, ⟨t₁, r, write, ws, activated⟩, c, final, reads⟩ := holds
  -- the catalog of the check ahead, which the report does not mention
  obtain ⟨before, load, lists⟩ := h.catalogIf_run sep (ps.operations.any Operation.needsCatalog)
  obtain ⟨passes, -⟩ := (h.accepts_iff_of_catalogIf sep lists).mp accepts
  obtain ⟨placed, places, depicts₁⟩ := h.depicts_of_write_run sep (Report.assigned_within fits used) write
  obtain ⟨l₂, depicts₂⟩ :=
    depicts₁.depicts_of_activate_run sep (Report.activated_within fits used) activated
  rw [← Report.filterMap_assignment? fits] at write
  rw [← Report.filterMap_activation? fits] at activated
  have written : (writePhase settings.retryPolicy ids ps.operations).run t =
      (.ok (ps.assigned.map Prod.snd), t₁) := writePhase_run_eq_ok_iff.mpr ⟨r, write, ws⟩
  have activated : (activatePhase settings.retryPolicy ps.operations).run t₁ = _ := activated
  obtain ⟨current, c', reload, final', -, same⟩ := exists_reload_run sep depicts₂ load
    (unchanged_of_phases written activated) settings.fallback
  cases final.symm.trans final'
  have answered : (Session.collect (Store.answer settings.fallback current) ps.operations).run t' =
      (.ok ps.answers, t') := by
    apply Session.run_collect
    apply List.forall₂_map_left_iff.mpr
    apply List.forall₂_map_right_iff.mpr
    apply List.forall₂_same.mpr
    intro p hp
    split
    · next read =>
      rw [same _ (List.mem_map_of_mem hp)]
      exact reads p hp read
    · next other =>
      obtain ⟨op, o⟩ := p
      cases op with
      | assign | activate => rfl
      | read | list => exact absurd rfl other
  rw [execute_eq, Session.run_bind_of_ok load, passes, Session.bind, Session.run_bind_of_ok written,
    Session.run_bind_of_ok activated, Session.run_bind_of_ok reload,
    Session.run_bind_of_ok answered, ← Report.arrange_eq fits]
  rfl

/-- **A batch goes through if and only if there is a report of it that holds.** -/
theorem execute_run_eq_ok_iff (sep : Scope.Separated U) (h : t.Depicts U l)
    (used : ∀ op ∈ ops, op.Within U) {outcomes : List Outcome} :
    (execute settings ids ops).run t = (.ok outcomes, t') ↔
      ∃ ps : Report, ps.operations = ops ∧ ps.outcomes = outcomes ∧ ps.Holds settings ids l t t' := by
  constructor
  · exact h.exists_holds_of_execute_run sep used
  · rintro ⟨ps, rfl, rfl, holds⟩
    exact h.execute_run_of_holds sep used holds

end Table.Depicts

/-! ## One phase after another

The operations of one kind have a report of their own. It holds from the table at which their phase
begins to the one at which it ends, since the phases before it leave a table that depicts some
ledger too. -/

namespace Report

variable {ps qs : Report}

/-- The part about activations is the list of them. -/
theorem only_isActivation (h : ps.Fits) : ps.only Operation.isActivation =
    ps.activated.map fun x => (.activate x.1, .activated x.2) := by
  induction ps with
  | nil => rfl
  | cons p ps ih =>
      obtain ⟨fits, fit⟩ := List.forall_mem_cons.mp h
      obtain ⟨op, o⟩ := p
      cases op <;> cases o <;> first | exact ih fit | exact congrArg (List.cons _) (ih fit) | cases fits

theorem assigned_only (ps : Report) : (ps.only Operation.isAssignment).assigned = ps.assigned := by
  rw [assigned, assigned, only, List.filterMap_filter]
  apply List.filterMap_congr
  rintro ⟨op, o⟩ -
  cases op <;> rfl

theorem activated_only (ps : Report) : (ps.only Operation.isActivation).activated = ps.activated := by
  rw [activated, activated, only, List.filterMap_filter]
  apply List.filterMap_congr
  rintro ⟨op, o⟩ -
  cases op <;> rfl

theorem activated_only_isAssignment (ps : Report) :
    (ps.only Operation.isAssignment).activated = [] := by
  rw [activated, only, List.filterMap_filter, List.filterMap_eq_nil_iff]
  rintro ⟨op, o⟩ -
  cases op <;> rfl

namespace Holds

theorem exists_depicts (sep : Scope.Separated U) (h : t.Depicts U l)
    (used : ∀ op ∈ ps.operations, op.Within U) (holds : ps.Holds settings ids l t t') :
    ∃ l', t'.Depicts U l' := by
  obtain ⟨mid, r, write, -, activated⟩ := holds.changes
  obtain ⟨placed, -, depicts⟩ := h.depicts_of_write_run sep (assigned_within holds.fits used) write
  exact depicts.depicts_of_activate_run sep (activated_within holds.fits used) activated

/-- The assignments of a batch may be written alone. -/
theorem assignments (sep : Scope.Separated U) (h : t.Depicts U l)
    (used : ∀ op ∈ ps.operations, op.Within U) (holds : ps.Holds settings ids l t t') :
    ∃ mid, (ps.only Operation.isAssignment).Holds settings ids l t mid ∧
      (Session.collect (activate settings.retryPolicy) (ps.activated.map Prod.fst)).run mid =
        (.ok (ps.activated.map Prod.snd), t') := by
  obtain ⟨accepts, fits, ⟨mid, r, write, ws, activated⟩, -⟩ := holds
  have fits' : (ps.only Operation.isAssignment).Fits := fun p hp => fits p (of_mem_only hp).1
  obtain ⟨placed, -, depicts⟩ := h.depicts_of_write_run sep (assigned_within fits used) write
  obtain ⟨c, catalog, -⟩ := depicts.catalog_run sep
  refine ⟨mid, ⟨⟨?_, ?_, ?_⟩, fits', ⟨mid, r, ?_, ?_, ?_⟩, c, catalog, ?_⟩, activated⟩
  · intro op hop
    rw [operations_only] at hop
    exact accepts.valid op (List.mem_filter.mp hop).1
  · rw [filterMap_assignment? fits', assigned_only, ← filterMap_assignment? fits]
    exact accepts.apart
  · intro op hop
    rw [operations_only] at hop
    cases op with
    | assign a => trivial
    | read | activate | list => cases (List.mem_filter.mp hop).2
  · rwa [assigned_only]
  · rwa [assigned_only]
  · rw [activated_only_isAssignment]
    rfl
  · rintro ⟨op, o⟩ hp read
    have assigns := (of_mem_only hp).2
    cases op with
    | assign | activate => cases read
    | read | list => cases assigns

end Holds

end Report

namespace Table.Depicts

variable {as : List Activation} {rs : List Activated}

/-- An activation goes through as a batch of its own. -/
theorem execute_activation (sep : Scope.Separated U) (h : t.Depicts U l) {a : Activation}
    {r : Activated} (used : (Operation.activate a).Within U)
    (run : (activate settings.retryPolicy a).run t = (.ok r, t')) :
    (execute settings ids [.activate a]).run t = (.ok [.activated r], t') := by
  have all : (Session.collect (activate settings.retryPolicy) [a]).run t = (.ok [r], t') := by
    rw [Session.collect, Session.bind_eq, Session.run_bind_of_ok run]
    rfl
  obtain ⟨s, p, n, hs, activates, -, -⟩ := (h.activate_run_eq_ok_iff sep used).mp run
  obtain ⟨l', depicts⟩ := h.depicts_of_activate_run sep (List.forall_mem_singleton.mpr used) all
  obtain ⟨c, catalog, -⟩ := depicts.catalog_run sep
  apply (h.execute_run_eq_ok_iff sep (List.forall_mem_singleton.mpr used)).mpr
  refine ⟨[(.activate a, .activated r)], rfl, rfl, ⟨?_, .nil, ?_⟩, ?_, ⟨t, ⟨ids 0, []⟩, rfl, rfl, all⟩,
    c, catalog, ?_⟩
  · exact List.forall_mem_singleton.mpr (exists_scopeOf_iff.mp ⟨s, hs⟩)
  · rw [Ledger.ahead_eq_self rfl]
    exact List.forall_mem_singleton.mpr ⟨s, p, n, hs, activates⟩
  · exact List.forall_mem_singleton.mpr trivial
  · intro p hp read
    rw [List.mem_singleton.mp hp] at read
    cases read

/-- The same for activations one after another: the results are kept, each in a list of one. -/
theorem execute_activations (sep : Scope.Separated U) (h : t.Depicts U l)
    (used : ∀ a ∈ as, (Operation.activate a).Within U)
    (run : (Session.collect (activate settings.retryPolicy) as).run t = (.ok rs, t')) :
    (Session.collect (fun op => execute settings ids [op]) (as.map .activate)).run t =
      (.ok (rs.map fun r => [.activated r]), t') := by
  induction as generalizing t l rs with
  | nil =>
      cases run
      rfl
  | cons a as ih =>
      obtain ⟨first, used⟩ := List.forall_mem_cons.mp used
      obtain ⟨r, mid, activated, run⟩ := Session.run_bind_eq_ok.mp run
      obtain ⟨rest, mid', run, done⟩ := Session.run_bind_eq_ok.mp run
      cases done
      -- An activation as a batch checks itself ahead, on the table that it then meets.
      have alone : (execute settings ids [.activate a]).run t = (.ok [.activated r], mid) :=
        h.execute_activation sep first activated
      obtain ⟨s, p, n, hs, activates, -, rfl⟩ := (h.activate_run_eq_ok_iff sep first).mp activated
      have depicts := h.depicts_activated sep (first s hs) activates.recorded n
      rw [List.map_cons, Session.collect, Session.bind_eq, Session.run_bind_of_ok alone,
        Session.bind_eq, Session.run_bind_of_ok (ih depicts used run)]
      rfl

/-- A read that answers was allowed. -/
theorem allows_of_answer_run (lists : c.Lists l) {fallback : Fallback} {op : Operation}
    {o : Option Outcome} (read : op.isRead) (run : (Store.answer fallback c op).run t = (.ok o, t')) :
    l.Allows op := by
  cases op with
  | assign | activate => cases read
  | list q => trivial
  | read q =>
      intro active
      rw [Store.answer, Session.bind_eq, Session.run_done_bind_eq_ok] at run
      obtain ⟨s, hs, run⟩ := run
      rw [active] at run
      obtain ⟨reading, mid, run, -⟩ := Session.run_bind_eq_ok.mp run
      obtain ⟨_, passes, -⟩ := Session.run_done_bind_eq_ok.mp run
      exact ⟨s, hs, lists.checkConflicts_eq_ok_iff.mp passes⟩

/-- A read is answered as a batch of its own. -/
theorem execute_read (sep : Scope.Separated U) (h : t.Depicts U l) {op : Operation} {o : Outcome}
    (valid : op.Valid) (read : op.isRead) (yields : op.Yields o) (catalog : Store.catalog.run t = (.ok c, t))
    (run : (Store.answer settings.fallback c op).run t = (.ok (some o), t)) :
    (execute settings ids [op]).run t = (.ok [o], t) := by
  obtain ⟨c', catalog', lists⟩ := h.catalog_run sep
  cases catalog.symm.trans catalog'
  obtain ⟨assigns, activates⟩ :=
    Operation.filterMap_of_reads (List.forall_mem_singleton.mpr read)
  have used : ∀ op' ∈ [op], op'.Within U := by
    intro op' hop'
    rw [List.mem_singleton.mp hop']
    cases op with
    | assign | activate => cases read
    | read | list => trivial
  have fits : Report.Fits [(op, o)] := List.forall_mem_singleton.mpr yields
  have none : Report.assigned [(op, o)] = [] ∧ Report.activated [(op, o)] = [] := by
    cases op with
    | assign | activate => cases read
    | read | list => exact ⟨rfl, rfl⟩
  apply (h.execute_run_eq_ok_iff sep used).mpr
  refine ⟨[(op, o)], rfl, rfl, ⟨?_, ?_, ?_⟩, fits, ⟨t, ⟨ids 0, []⟩, ?_, ?_, ?_⟩, c, catalog, ?_⟩
  · exact List.forall_mem_singleton.mpr valid
  · exact assigns ▸ .nil
  · rw [show Report.operations [(op, o)] = [op] from rfl, Ledger.ahead_eq_self assigns]
    exact List.forall_mem_singleton.mpr (allows_of_answer_run lists read run)
  · rw [none.1]
    rfl
  · rw [none.1]
    rfl
  · rw [none.2]
    rfl
  · intro p hp _
    rw [List.mem_singleton.mp hp]
    exact run

end Table.Depicts

/-! ## In any order

The puts of a write do not depend on the order of its assignments (`write_run_perm`), and neither do
the reads on theirs. What another order may change is the spelling of a scope in an answer, so the
outcomes are compared up to `Outcome.Same`. -/

/-- The same property written at the same revision of the same scope. -/
def Written.Same (w w' : Written) : Prop :=
  w.name = w'.name ∧ w.scope.same w'.scope ∧ w.revision = w'.revision

/-- The same outcome, though a scope that was written may be spelt differently. -/
def Outcome.Same : Outcome → Outcome → Prop
  | .written w, .written w' => w.Same w'
  | o, o' => o = o'

/-- What is written for an assignment is known from the ledger, but for the spelling. -/
theorem Ledger.Writes.same {a : Assignment} {w w' : Written} (h : l.Writes a w) (h' : l.Writes a w') :
    w.Same w' := by
  obtain ⟨name, wf, s, hs, canonical, revision⟩ := h
  obtain ⟨name', wf', s', hs', canonical', revision'⟩ := h'
  cases hs.symm.trans hs'
  refine ⟨name.trans name'.symm, ?_, revision.trans revision'.symm⟩
  exact (wf.same_iff_canonical_eq wf').mpr (canonical.trans canonical'.symm)

/-- Positions of which some come in their order. -/
theorem filter_eq_of_perm_finRange {n : Nat} {order : List (Fin n)}
    (perm : order.Perm (List.finRange n)) {p : Fin n → Bool}
    (sorted : (order.filter p).Pairwise (· < ·)) : order.filter p = (List.finRange n).filter p := by
  apply (perm.filter p).eq_of_pairwise _ sorted ((List.pairwise_lt_finRange n).filter p)
  intro i j _ _ hij hji
  exact absurd hij (Nat.not_lt.mpr (Nat.le_of_lt hji))

namespace Report

variable {ps qs : Report}

/-- The same report, but for the spelling of scopes. -/
def Alike (ps qs : Report) : Prop := List.Forall₂ (fun p q => p.1 = q.1 ∧ p.2.Same q.2) ps qs

namespace Alike

theorem operations_eq (h : ps.Alike qs) : ps.operations = qs.operations := by
  induction h with
  | nil => rfl
  | cons same _ ih => exact congrArg₂ List.cons same.1 ih

theorem fits (h : ps.Alike qs) (fits : ps.Fits) : qs.Fits := by
  induction h with
  | nil => exact fits
  | @cons p q _ _ same _ ih =>
      obtain ⟨first, rest⟩ := List.forall_mem_cons.mp fits
      refine List.forall_mem_cons.mpr ⟨?_, ih rest⟩
      obtain ⟨op, o⟩ := p
      obtain ⟨op', o'⟩ := q
      obtain ⟨rfl, same⟩ := same
      cases op <;> cases o <;> cases o' <;> trivial

theorem activated_eq (h : ps.Alike qs) : ps.activated = qs.activated := by
  induction h with
  | nil => rfl
  | @cons p q _ _ same _ ih =>
      obtain ⟨op, o⟩ := p
      obtain ⟨op', o'⟩ := q
      obtain ⟨rfl, same⟩ := same
      cases op <;> cases o <;> cases o' <;>
        first | exact ih | cases same <;> first | exact ih | exact congrArg (List.cons _) ih

theorem mem_of_isRead (h : ps.Alike qs) (fits : ps.Fits) {q : Operation × Outcome} (hq : q ∈ qs)
    (read : q.1.isRead) : q ∈ ps := by
  induction h with
  | nil => exact hq
  | @cons p r _ _ same _ ih =>
      obtain ⟨first, rest⟩ := List.forall_mem_cons.mp fits
      rcases List.mem_cons.mp hq with rfl | hq
      · obtain ⟨op, o⟩ := p
        obtain ⟨op', o'⟩ := q
        obtain ⟨rfl, same⟩ := same
        -- for a read to be the same outcome is to be equal
        have eq : o = o' := by
          cases op <;> cases o <;> first | exact same | exact False.elim first | cases read
        rw [eq]
        exact List.mem_cons_self
      · exact List.mem_cons_of_mem _ (ih rest hq)

end Alike

/-- A report of the same, written as some other spelling has it. -/
theorem exists_alike (fits : qs.Fits) {ws : List Written}
    (same : List.Forall₂ Written.Same (qs.assigned.map Prod.snd) ws) :
    ∃ rs : Report, qs.Alike rs ∧ rs.assigned.map Prod.snd = ws := by
  induction qs generalizing ws with
  | nil =>
      cases same
      exact ⟨[], .nil, rfl⟩
  | cons q qs ih =>
      obtain ⟨first, rest⟩ := List.forall_mem_cons.mp fits
      obtain ⟨op, o⟩ := q
      cases op with
      | assign a =>
          cases o with
          | written w =>
              obtain ⟨w', ws', alike, others, rfl⟩ := List.forall₂_cons_left_iff.mp same
              obtain ⟨rs, hrs, rfl⟩ := ih rest others
              exact ⟨(.assign a, .written w') :: rs, .cons ⟨rfl, alike⟩ hrs, rfl⟩
          | value | activated | listed => cases first
      | activate a =>
          obtain ⟨rs, hrs, rfl⟩ := ih rest same
          cases o with
          | activated r => exact ⟨(.activate a, .activated r) :: rs, .cons ⟨rfl, rfl⟩ hrs, rfl⟩
          | written | value | listed => cases first
      | read q =>
          obtain ⟨rs, hrs, rfl⟩ := ih rest same
          cases o with
          | value r => exact ⟨(.read q, .value r) :: rs, .cons ⟨rfl, rfl⟩ hrs, rfl⟩
          | written | activated | listed => cases first
      | list q =>
          obtain ⟨rs, hrs, rfl⟩ := ih rest same
          cases o with
          | listed r => exact ⟨(.list q, .listed r) :: rs, .cons ⟨rfl, rfl⟩ hrs, rfl⟩
          | written | activated | value => cases first

/-- **The operations of a report may come in any order, but for the activations.** -/
theorem Holds.perm (sep : Scope.Separated U) (h : t.Depicts U l)
    (used : ∀ op ∈ ps.operations, op.Within U) (holds : ps.Holds settings ids l t t')
    (perm : ps.Perm qs) (same : ps.activated = qs.activated) :
    ∃ rs : Report, qs.Alike rs ∧ rs.Holds settings ids l t t' := by
  obtain ⟨accepts, fits, ⟨mid, r, write, ws, activated⟩, c, catalog, reads⟩ := holds
  have fits' := fits.perm perm
  have within : (Call.write settings.retryPolicy ids (ps.assigned.map Prod.fst)).Within U :=
    assigned_within fits used
  have assigned : ps.assigned.Perm qs.assigned := perm.filterMap _
  have within' : (Call.write settings.retryPolicy ids (qs.assigned.map Prod.fst)).Within U :=
    fun a ha => within a ((assigned.map _).mem_iff.mpr ha)
  obtain ⟨r', write'⟩ := h.write_run_perm sep within (assigned.map Prod.fst) write
  -- what is written in either order is the same, up to spelling
  have wrote := h.writes_of_write_run sep within write
  rw [ws, List.forall₂_map_left_iff, List.forall₂_map_right_iff, List.forall₂_same] at wrote
  have wrote' := h.writes_of_write_run sep within' write'
  have spelt : List.Forall₂ Written.Same (qs.assigned.map Prod.snd) r'.written := by
    rw [List.forall₂_map_left_iff] at wrote' ⊢
    have both := (List.forall₂_and_left _ _).mpr
      ⟨fun x hx => wrote x (assigned.mem_iff.mpr hx), wrote'⟩
    exact both.imp fun x w h => h.1.same h.2
  obtain ⟨rs, alike, written⟩ := exists_alike fits' spelt
  refine ⟨rs, alike, ?_, alike.fits fits', ⟨mid, r', ?_, written.symm, ?_⟩, c, catalog, ?_⟩
  · rw [← alike.operations_eq]
    exact accepts.perm (perm.map _)
  · rwa [← filterMap_assignment? (alike.fits fits'), ← alike.operations_eq,
      filterMap_assignment? fits']
  · rwa [← alike.activated_eq, ← same]
  · intro p hp read
    exact reads p (perm.mem_iff.mpr (alike.mem_of_isRead fits' hp read)) read

theorem zip_eq (ps : Report) : ps.operations.zip ps.outcomes = ps := by
  rw [operations, outcomes, List.zip_map', List.map_id']

/-- **A report that holds, phase by phase.** -/
theorem Holds.phases (sep : Scope.Separated U) (h : t.Depicts U l)
    (used : ∀ op ∈ ps.operations, op.Within U) (holds : ps.Holds settings ids l t t') :
    ∃ mid,
      (execute settings ids (ps.only Operation.isAssignment).operations).run t =
        (.ok (ps.only Operation.isAssignment).outcomes, mid) ∧
      (Session.collect (fun op => execute settings ids [op])
        (ps.only Operation.isActivation).operations).run mid =
          (.ok ((ps.only Operation.isActivation).outcomes.map fun o => [o]), t') ∧
      (Session.collect (fun op => execute settings ids [op]) (ps.only Operation.isRead).operations).run
        t' = (.ok ((ps.only Operation.isRead).outcomes.map fun o => [o]), t') := by
  have used_only (kind : Operation → Bool) : ∀ op ∈ (ps.only kind).operations, op.Within U := by
    intro op hop
    rw [operations_only] at hop
    exact used op (List.mem_filter.mp hop).1
  obtain ⟨mid, assigned, activated⟩ := holds.assignments sep h used
  obtain ⟨l₁, depicts₁⟩ := assigned.exists_depicts sep h (used_only _)
  obtain ⟨l₂, depicts₂⟩ := holds.exists_depicts sep h used
  obtain ⟨c, catalog, reads⟩ := holds.reads
  refine ⟨mid, (h.execute_run_eq_ok_iff sep (used_only _)).mpr ⟨_, rfl, rfl, assigned⟩, ?_, ?_⟩
  · rw [only_isActivation holds.fits, operations, outcomes, List.map_map, List.map_map, List.map_map]
    -- activations go on from the table that the write has left, reads from the last one
    have run : (Session.collect (fun op => execute settings ids [op])
        ((ps.activated.map Prod.fst).map .activate)).run mid =
          (.ok ((ps.activated.map Prod.snd).map fun r => [.activated r]), t') :=
      depicts₁.execute_activations sep (activated_within holds.fits used) activated
    rwa [List.map_map, List.map_map] at run
  · apply Session.run_collect
    rw [operations, outcomes, List.map_map, List.forall₂_map_left_iff, List.forall₂_map_right_iff,
      List.forall₂_same]
    intro p hp
    obtain ⟨hp, read⟩ := of_mem_only hp
    exact depicts₂.execute_read sep (holds.accepts.valid _ (List.mem_map_of_mem hp)) read
      (holds.fits p hp) catalog (reads p hp read)

/-- **A report that holds, in another order.** -/
theorem Holds.order (sep : Scope.Separated U) (h : t.Depicts U l)
    (used : ∀ op ∈ ps.operations, op.Within U) (holds : ps.Holds settings ids l t t') {n : Nat}
    (length : n = ps.length) {order : List (Fin n)} (perm : order.Perm (List.finRange n))
    (sorted : (order.filter fun i => ps[i].1.isActivation).Pairwise (· < ·)) :
    ∃ rs : Report, Alike (order.map fun i => ps[i]) rs ∧ rs.Holds settings ids l t t' := by
  subst length
  have all : (List.finRange ps.length).map (fun i => ps[i]) = ps := List.map_getElem_finRange ps
  have perm' : ((List.finRange ps.length).map fun i => ps[i]).Perm (order.map fun i => ps[i]) :=
    (perm.map _).symm
  rw [all] at perm'
  apply holds.perm sep h used perm'
  -- the activations come as they are numbered
  have same : only Operation.isActivation (order.map fun i => ps[i]) =
      only Operation.isActivation ((List.finRange ps.length).map fun i => ps[i]) := by
    rw [only, only, List.filter_map, List.filter_map]
    exact congrArg _ (filter_eq_of_perm_finRange perm sorted)
  rw [← activated_only ps, ← activated_only (order.map fun i => ps[i]), same, all]

end Report

namespace System

variable {ι : Type} [DecidableEq ι]

/-- **A mixed batch is its phases, in whatever order it was written.** Of a batch that goes through
undisturbed, every operation has one outcome, of its kind and at its position. Table and outcomes are
those of all its assignments as one batch, then each activation alone, then each read alone. If the
operations come in another order, which keeps that of the activations, the batch goes through as well;
it leaves the same table, and the outcomes come in that order. -/
theorem batch_eq_phases (sep : Scope.Separated U) (moves : List (Move ι))
    (within : ∀ h c, .call h c ∈ moves → c.Within U) (settings : Settings) (ids : Nat → BatchId)
    (ops : List Operation) (used : ∀ op ∈ ops, op.Within U) (outcomes : List Outcome) (t' : Table)
    (goes : (execute settings ids ops).run (run moves).table = (.ok outcomes, t')) :
    List.Forall₂ Operation.Yields ops outcomes ∧
    (∃ mid,
      (execute settings ids (ops.filter Operation.isAssignment)).run (run moves).table =
        (.ok (Report.only Operation.isAssignment (ops.zip outcomes)).outcomes, mid) ∧
      (Session.collect (fun op => execute settings ids [op]) (ops.filter Operation.isActivation)).run
        mid = (.ok ((Report.only Operation.isActivation (ops.zip outcomes)).outcomes.map fun o => [o]),
          t') ∧
      (Session.collect (fun op => execute settings ids [op]) (ops.filter Operation.isRead)).run t' =
        (.ok ((Report.only Operation.isRead (ops.zip outcomes)).outcomes.map fun o => [o]), t')) ∧
    ∀ order : List (Fin ops.length), order.Perm (List.finRange ops.length) →
      (order.filter fun i => ops[i].isActivation).Pairwise (· < ·) →
      ∃ outcomes', (execute settings ids (order.map fun i => ops[i])).run (run moves).table =
          (.ok outcomes', t') ∧
        List.Forall₂ (fun i o => ∃ o₀, outcomes[i.val]? = some o₀ ∧ o₀.Same o) order outcomes' := by
  obtain ⟨replies, l, traced⟩ := run_traced sep moves within
  have depicts := traced.trace.depicts
  obtain ⟨ps, rfl, rfl, holds⟩ := (depicts.execute_run_eq_ok_iff sep used).mp goes
  refine ⟨?_, ?_, ?_⟩
  · rw [Report.operations, Report.outcomes, List.forall₂_map_left_iff, List.forall₂_map_right_iff,
      List.forall₂_same]
    exact holds.fits
  · obtain ⟨mid, phases⟩ := holds.phases sep depicts used
    refine ⟨mid, ?_⟩
    rw [ps.zip_eq]
    simpa only [Report.operations_only] using phases
  · -- an order of positions is an order of the report, whose outcomes then are those at the
    -- positions
    intro order perm sorted
    have length : ps.operations.length = ps.length := List.length_map _
    have op_eq (i : Fin ps.operations.length) : ps.operations[i] = ps[i].1 := List.getElem_map _
    simp only [op_eq] at sorted ⊢
    obtain ⟨rs, alike, holds'⟩ := holds.order sep depicts used length perm sorted
    have operations : order.map (fun i => ps[i].1) = rs.operations := by
      rw [← alike.operations_eq]
      exact List.map_map.symm
    refine ⟨rs.outcomes, ?_, ?_⟩
    · apply (depicts.execute_run_eq_ok_iff sep _).mpr ⟨rs, operations.symm, rfl, holds'⟩
      intro op hop
      obtain ⟨i, -, rfl⟩ := List.mem_map.mp hop
      exact used _ (List.mem_map_of_mem (List.getElem_mem _))
    · apply List.forall₂_map_right_iff.mpr
      apply (List.forall₂_map_left_iff.mp alike).imp
      intro i q same
      refine ⟨ps[i].2, ?_, same.2⟩
      have found : ps[(i : Nat)]? = some ps[i] := List.getElem?_eq_getElem (length ▸ i.isLt)
      show (ps.map Prod.snd)[(i : Nat)]? = _
      rw [List.getElem?_map, found]
      rfl

/-- The same batch the other way round. -/
theorem race_mixed_reversed : ∃ outcomes t' outcomes',
    (execute {} (.stamped 1) mixed).run (run race).table = (.ok outcomes, t') ∧
    (execute {} (.stamped 1) mixed.reverse).run (run race).table = (.ok outcomes', t') ∧
    List.Forall₂ (fun i o => ∃ o₀, outcomes[i]? = some o₀ ∧ o₀.Same o) [2, 1, 0] outcomes' := by
  have ok : ((execute {} (.stamped 1) mixed).run (run race).table).1.isOk := by decide +kernel
  obtain ⟨outcomes, t', goes⟩ : ∃ outcomes t', (execute {} (.stamped 1) mixed).run (run race).table =
      (.ok outcomes, t') := by
    cases done : (execute {} (.stamped 1) mixed).run (run race).table with
    | mk result t' =>
        cases result with
        | ok outcomes => exact ⟨outcomes, t', rfl⟩
        | error e => rw [done] at ok; cases ok
  obtain ⟨-, -, reordered⟩ := batch_eq_phases Scope.separated_sample race race_within {} (.stamped 1)
    mixed (fun op hop => (mixed_within op hop).1) outcomes t' goes
  obtain ⟨outcomes', again, same⟩ := reordered [⟨2, by decide⟩, ⟨1, by decide⟩, ⟨0, by decide⟩]
    (by decide) (by decide)
  refine ⟨outcomes, t', outcomes', goes, again, ?_⟩
  exact List.forall₂_map_left_iff (f := Fin.val)
    (R := fun i o => ∃ o₀, outcomes[i]? = some o₀ ∧ o₀.Same o) |>.mpr same

end System

end ScopedConfig
