import ScopedConfig.Proofs.Linearization
import ScopedConfig.Proofs.Undisturbed

/-!
# Activations rehearsed

The rules for an activation stand in the program twice. `Catalog.checkActivation` goes by the records
of a catalog; an attempt at the activation asks the catalog about conflicts only, and goes by the
record that it loads for the rest. Both come to the same (`Depicts.attemptActivate_run_of_error`
beside `Depicts.activate_run_eq_ok_iff`), since the record found and the record loaded are one
(`Depicts.find?_eq_allotment`). `Catalog.Refuses` is what both refuse, and in which order they look.
-/

namespace ScopedConfig

open Layout Store

variable {U : Scope → Prop} {t t' : Table} {l : Ledger} {c : Catalog} {s : Scope}
  {revision : Option Revision} {n : Revision} {e : StoreError}

/-! ## Reasons to refuse

`Refuses` has one case for each reason, with what has been found in order by then, so the cases
exclude each other. `checkActivation` is walked through once to see that it gives these reasons. -/

namespace Catalog

/-- Of the scopes with records that a query includes, each two are nested. -/
def Unambiguous (c : Catalog) (query : Scope) : Prop :=
  ∀ p ∈ c.records, ∀ q ∈ c.records, p.scope.within query → q.scope.within query →
    p.scope.within q.scope ∨ q.scope.within p.scope

/-- Why a revision of a scope cannot be activated. A reason counts only where the ones before it do
not apply. -/
inductive Refuses (c : Catalog) (s : Scope) (revision : Option Revision) : StoreError → Prop where
  | ambiguous {p q : ScopeRecord} (hp : p ∈ c.records) (hq : q ∈ c.records)
      (within : p.scope.within s ∧ q.scope.within s)
      (apart : ¬ (p.scope.within q.scope ∨ q.scope.within p.scope)) :
      Refuses c s revision (.ambiguousScope s p.scope q.scope)
  | unknown (clear : c.Unambiguous s) (absent : ∀ r ∈ c.records, ¬ r.scope.same s) :
      Refuses c s revision (.unknownScope s.canonical)
  | unwritten {r : ScopeRecord} (clear : c.Unambiguous s) (hr : r ∈ c.records) (same : r.scope.same s)
      (outside : revision.getD r.working = 0 ∨ r.working < revision.getD r.working) :
      Refuses c s revision (.invalidRevision r.scope (revision.getD r.working) r.working)

theorem Lists.checkConflicts_eq_ok_iff_unambiguous (h : c.Lists l) :
    c.checkConflicts s = .ok () ↔ c.Unambiguous s := by
  rw [h.checkConflicts_eq_ok_iff]
  constructor
  · intro unambiguous p hp q hq
    exact unambiguous _ _ (h.pointers_ne_none_iff.mpr ⟨p, hp, rfl⟩)
      (h.pointers_ne_none_iff.mpr ⟨q, hq, rfl⟩)
  · intro unambiguous a b ha hb
    obtain ⟨p, hp, rfl⟩ := h.pointers_ne_none_iff.mp ha
    obtain ⟨q, hq, rfl⟩ := h.pointers_ne_none_iff.mp hb
    exact unambiguous p hp q hq

theorem not_hasRevision_iff {r : ScopeRecord} : ¬ r.hasRevision n ↔ n = 0 ∨ r.working < n := by
  rw [ScopeRecord.hasRevision_iff, Decidable.not_and_iff_or_not, not_not, UInt64.not_le]

/-- **The check refuses for these reasons, in this order.** -/
theorem Lists.refuses (h : c.Lists l) (failed : c.checkActivation s revision = .error e) :
    c.Refuses s revision e := by
  rw [checkActivation, bind_eq_error_iff] at failed
  rcases failed with ambiguous | ⟨⟨⟩, clear, failed⟩
  · obtain ⟨a, b, strangers, rfl⟩ := checkConflicts_eq_error_iff.mp ambiguous
    obtain ⟨ha, hb, apart⟩ := strangers_of_strangers? strangers
    obtain ⟨⟨p, hp, rfl⟩, within⟩ := mem_covered.mp ha
    obtain ⟨⟨q, hq, rfl⟩, within'⟩ := mem_covered.mp hb
    exact .ambiguous hp hq ⟨within, within'⟩ apart
  · have clear := h.checkConflicts_eq_ok_iff_unambiguous.mp clear
    rw [find?] at failed
    cases found : c.records.find? (·.scope.same s) with
    | none =>
        simp only [found, Except.error.injEq] at failed
        subst failed
        exact .unknown clear (List.find?_eq_none.mp found)
    | some r =>
        have same := List.find?_some found
        simp only [found] at failed
        split at failed
        · cases failed
        · next outside =>
          cases failed
          exact .unwritten clear (List.mem_of_find?_eq_some found) same
            (not_hasRevision_iff.mp outside)

/-- After the conflicts, the check does with the record found what staging does with the record
loaded. -/
theorem checkActivation_eq_error_iff_staged {loaded : Loaded} (clear : c.checkConflicts s = .ok ())
    (found : c.find? s = if loaded.exists? then some loaded.record else none)
    (scope : loaded.record.scope = s.canonical) :
    c.checkActivation s revision = .error e ↔
      loaded.stageActivation (revision.getD loaded.record.working) = .error e := by
  cases recorded : loaded.exists? with
  | false =>
      have check : c.checkActivation s revision = .error (.unknownScope s.canonical) := by
        rw [checkActivation, clear, found, recorded]
        rfl
      simp [check, Loaded.stageActivation, recorded, scope]
  | true =>
      have check : c.checkActivation s revision =
          if loaded.record.hasRevision (revision.getD loaded.record.working) then
            .ok (revision.getD loaded.record.working)
          else .error (.invalidRevision loaded.record.scope (revision.getD loaded.record.working)
            loaded.record.working) := by
        rw [checkActivation, clear, found, recorded]
        rfl
      rw [check, Loaded.stageActivation, recorded]
      by_cases known : loaded.record.hasRevision (revision.getD loaded.record.working)
      · simp [known]
      · simp [known]

end Catalog

/-! ## Attempts that are refused

None of the reasons is a conflict, so no further attempt is made, and the table is left alone as
nothing has been put by then. -/

namespace Session

variable {α : Type}

theorem run_recover_of_error {x : Session α} {f : StoreError → Session α}
    (h : x.run t = (.error e, t')) : (x.recover f).run t = (f e).run t' := by
  induction x generalizing t with
  | done result =>
      cases h
      rfl
  | ask request next ih => exact ih _ h

/-- A first attempt that fails for good. -/
theorem run_optimistic_of_error {policy : RetryPolicy} {attempt : Nat → Session α}
    (h : (attempt 0).run t = (.error e, t')) (final : e.isConflict = false) :
    (optimistic policy attempt).run t = (.error e, t') := by
  obtain ⟨left, hleft⟩ := attempts_pos policy
  rw [optimistic, hleft, attemptFrom, run_recover_of_error h, final]
  rfl

end Session

theorem Catalog.Refuses.isConflict (h : c.Refuses s revision e) : e.isConflict = false := by
  cases h <;> rfl

namespace Table.Depicts

/-- The record that a catalog finds is the one loaded. -/
theorem find?_eq_allotment (sep : Scope.Separated U) (h : t.Depicts U l) (hs : U s)
    (lists : c.Lists l) :
    c.find? s = if (l.allotment t s).loaded.exists? then some (l.record s) else none := by
  have existing : (l.allotment t s).loaded.exists? = (l.pointers s.canonical).isSome :=
    h.version?_recordKey_isSome hs
  rw [lists.find?_eq (sep.wellFormed s hs), existing, Ledger.record]
  cases l.pointers s.canonical <;> rfl

/-- **What the check refuses, an attempt refuses in the same words, and changes nothing.** -/
theorem attemptActivate_run_of_error (sep : Scope.Separated U) (h : t.Depicts U l) (hs : U s)
    (loads : catalog.run t = (.ok c, t)) (lists : c.Lists l)
    (failed : c.checkActivation s revision = .error e) :
    (attemptActivate s revision).run t = (.error e, t) := by
  rw [attemptActivate, Session.bind_eq, Session.run_bind_of_ok (epoch_run t), Session.bind_eq,
    Session.run_bind_of_ok loads, Session.bind_eq]
  cases conflicts : c.checkConflicts s with
  | error e' =>
      -- both report the conflict
      rw [Catalog.checkActivation, conflicts] at failed
      cases failed
      rfl
  | ok clear =>
      have found := h.find?_eq_allotment sep hs lists
      have staged := (Catalog.checkActivation_eq_error_iff_staged conflicts found
        (l.record_scope s)).mp failed
      show ((load s).bind _).run t = _
      rw [Session.run_bind_of_ok (h.load_run sep hs)]
      show ((Session.done ((l.allotment t s).loaded.stageActivation
        (revision.getD (l.allotment t s).loaded.record.working))).bind _).run t = _
      rw [staged]
      rfl

/-- **An activation and its check agree.** -/
theorem activate_run_agrees (sep : Scope.Separated U) (h : t.Depicts U l) {policy : RetryPolicy}
    {a : Activation} (used : (Call.activate policy a).Within U) (hs : scopeOf a.params = .ok s)
    (loads : catalog.run t = (.ok c, t)) (lists : c.Lists l) :
    (∀ n, c.checkActivation s a.revision = .ok n ↔
      ∃ r t', (activate policy a).run t = (.ok r, t') ∧ r.revision = n) ∧
    ∀ e, c.checkActivation s a.revision = .error e ↔ (activate policy a).run t = (.error e, t) := by
  have goes : ∀ n, c.checkActivation s a.revision = .ok n ↔
      ∃ r t', (activate policy a).run t = (.ok r, t') ∧ r.revision = n := by
    intro n
    rw [lists.checkActivation_eq_ok_iff (sep.wellFormed s (used s hs))]
    constructor
    · rintro ⟨p, activates⟩
      exact ⟨_, _, (h.activate_run_eq_ok_iff sep used).mpr ⟨s, p, n, hs, activates, rfl, rfl⟩, rfl⟩
    · rintro ⟨r, t', run, rfl⟩
      obtain ⟨s', p, n, hs', activates, rfl, -⟩ := (h.activate_run_eq_ok_iff sep used).mp run
      cases hs.symm.trans hs'
      exact ⟨p, activates⟩
  have fails : ∀ e, c.checkActivation s a.revision = .error e →
      (activate policy a).run t = (.error e, t) := by
    intro e failed
    rw [activate, hs]
    exact Session.run_optimistic_of_error
      (h.attemptActivate_run_of_error sep (used s hs) loads lists failed)
      (lists.refuses failed).isConflict
  refine ⟨goes, fun e => ⟨fails e, fun run => ?_⟩⟩
  -- the check has a verdict as well, and the activation follows it
  cases checked : c.checkActivation s a.revision with
  | ok n =>
      obtain ⟨r, t', ok, -⟩ := (goes n).mp checked
      cases run.symm.trans ok
  | error e' =>
      cases run.symm.trans (fails e' checked)
      rfl

end Table.Depicts

namespace System

variable {ι : Type} [DecidableEq ι]

/-- **The check before an activation is the activation, rehearsed.** In every state of the store an
activation goes through with a revision if and only if the catalog loaded from it lets that revision
pass. What one of them refuses the other refuses with the same error, whose contents are those of the
records; and both look for conflicts first, then for the scope, then at the revision. -/
theorem checkActivation_agrees_with_activate (sep : Scope.Separated U) (moves : List (Move ι))
    (within : ∀ h c, .call h c ∈ moves → c.Within U) {policy : RetryPolicy} {a : Activation}
    (used : (Call.activate policy a).Within U) (hs : scopeOf a.params = .ok s) :
    ∃ c, catalog.run (run moves).table = (.ok c, (run moves).table) ∧
      (∀ n, c.checkActivation s a.revision = .ok n ↔
        ∃ r t', (activate policy a).run (run moves).table = (.ok r, t') ∧ r.revision = n) ∧
      (∀ e, c.checkActivation s a.revision = .error e ↔
        (activate policy a).run (run moves).table = (.error e, (run moves).table)) ∧
      ∀ e, c.checkActivation s a.revision = .error e → c.Refuses s a.revision e := by
  obtain ⟨replies, l, traced⟩ := run_traced sep moves within
  have depicts := traced.trace.depicts
  obtain ⟨c, loads, lists⟩ := depicts.catalog_run sep
  obtain ⟨goes, fails⟩ := depicts.activate_run_agrees sep used hs loads lists
  exact ⟨c, loads, goes, fails, fun e => lists.refuses⟩

/-- Two writes in, the third revision cannot be activated, and the second one can. -/
theorem race_rehearses : ∃ c, catalog.run (run race).table = (.ok c, (run race).table) ∧
    (c.checkActivation .global (some 3) = .error (.invalidRevision .global 3 2) ∧
      (activate (.immediate 1) ⟨[], some 3⟩).run (run race).table =
        (.error (.invalidRevision .global 3 2), (run race).table)) ∧
    c.checkActivation .global none = .ok 2 ∧
      ∃ r t', (activate (.immediate 1) ⟨[], none⟩).run (run race).table = (.ok r, t') ∧
        r.revision = 2 := by
  have verdicts : (catalog.run (run race).table).1.map
      (fun c => (c.checkActivation .global (some 3), c.checkActivation .global none)) =
        .ok (.error (.invalidRevision .global 3 2), .ok 2) := by decide +kernel
  have used : (Call.activate (.immediate 1) ⟨[], some 3⟩).Within Scope.Sample ∧
      (Call.activate (.immediate 1) ⟨[], none⟩).Within Scope.Sample := by decide +kernel
  obtain ⟨c, loads, -, fails, -⟩ := checkActivation_agrees_with_activate Scope.separated_sample race
    race_within used.1 rfl
  obtain ⟨c', loads', goes, -⟩ := checkActivation_agrees_with_activate Scope.separated_sample race
    race_within used.2 rfl
  cases loads.symm.trans loads'
  rw [loads] at verdicts
  obtain ⟨refused, passed⟩ := Prod.mk.inj (Except.ok.inj verdicts)
  exact ⟨c, loads, ⟨refused, (fails _).mp refused⟩, passed, (goes 2).mp passed⟩

end System

end ScopedConfig
