import ScopedConfig.Proofs.Isolation

/-!
# Calls

The calls that change a store: writes, activations, and the two that advance a scope or set its
active revision on their own. `Call.Does` is what a call does to a table undisturbed, in a single
attempt, and `Ledger.Serves` what it does to the ledger behind it. Amid others a call does just that
at the moment of its transaction (`Call.isolated_session`), and so serves the ledger
(`Call.exists_serves`).
-/

namespace ScopedConfig

open Store

/-! ## What calls are

A call is told apart from its session, so that it can be said of a log which calls it is made of, in
terms of the ledger and not of requests. -/

/-- A call that changes the store. -/
inductive Call where
  | write (policy : RetryPolicy) (ids : Nat → BatchId) (assignments : List Assignment)
  | activate (policy : RetryPolicy) (activation : Activation)
  | advance (policy : RetryPolicy) (scope : Scope)
  | setActive (policy : RetryPolicy) (scope : Scope) (n : Revision)

variable {U : Scope → Prop}

/-- What a call that goes through answers. -/
inductive Reply where
  | written (r : WriteReceipt)
  | activated (a : Activated)
  | advanced (n : Revision)
  | set
  deriving DecidableEq

namespace Call

/-- The session of a call. -/
def session : Call → Session Reply
  | write policy ids assignments => Reply.written <$> Store.write policy ids assignments
  | activate policy a => Reply.activated <$> Store.activate policy a
  | advance policy s => Reply.advanced <$> Store.advance policy s
  | setActive policy s n => (fun _ => Reply.set) <$> Store.setActive policy s n

/-- What a call activates, if it is an activation. -/
def activation? : Call → Option Activation
  | activate _ a => some a
  | _ => none

/-- The call names no other scopes than those in use. -/
def Within (U : Scope → Prop) : Call → Prop
  | write _ _ assignments => ∀ a ∈ assignments, ∀ s, scopeOf a.params = .ok s → U s
  | activate _ a => ∀ s, scopeOf a.params = .ok s → U s
  | advance _ s => U s
  | setActive _ s _ => U s

/-- Parameters name one scope or none, so it can be checked that they name none but those in use. -/
instance [DecidablePred U] (params : List Parameter) :
    Decidable (∀ s, scopeOf params = .ok s → U s) :=
  match h : scopeOf params with
  | .ok s => decidable_of_iff (U s) (by simp)
  | .error e => isTrue (by simp)

instance [DecidablePred U] : DecidablePred (Within U)
  | write _ _ assignments =>
    inferInstanceAs (Decidable (∀ a ∈ assignments, ∀ s, scopeOf a.params = .ok s → U s))
  | activate _ a => inferInstanceAs (Decidable (∀ s, scopeOf a.params = .ok s → U s))
  | advance _ s => inferInstanceAs (Decidable (U s))
  | setActive _ s _ => inferInstanceAs (Decidable (U s))

/-- What a call answers without asking the backend: only a batch without assignments does. -/
def Idle : Call → Reply → Prop
  | write _ ids [], .written r => r = ⟨ids 0, []⟩
  | _, _ => False

/-- What a call does to a table that nobody else touches, in one of its attempts. -/
def Does : Call → Table → Reply → Table → Prop
  | write _ ids assignments, t, .written r, t' => ∃ placed n, place assignments = .ok placed ∧
      (attemptWrite placed (ids n)).run t = (.ok r, t')
  | activate _ a, t, .activated r, t' => ∃ s, scopeOf a.params = .ok s ∧
      (attemptActivate s a.revision).run t = (.ok r, t')
  | advance _ s, t, .advanced n, t' => (attemptAdvance s).run t = (.ok n, t')
  | setActive _ s n, t, .set, t' => (attemptSetActive s n).run t = (.ok (), t')
  | _, _, _, _ => False

end Call

/-- What a call does to a ledger, and what it answers. -/
def Ledger.Serves (l : Ledger) : Call → Reply → Ledger → Prop
  | .write _ ids assignments, .written r, l' => ∃ placed n, place assignments = .ok placed ∧
      r = l.receipt (ids n) placed ∧ l' = l.write (ids n) placed
  | .activate _ a, .activated r, l' => ∃ s p n, scopeOf a.params = .ok s ∧
      l.Activates s a.revision p n ∧ r = ⟨s.canonical, n, p.active⟩ ∧ l' = l.activate s.canonical n
  | .advance _ s, .advanced n, l' => n = l.next s.canonical ∧ l' = l.advance s.canonical
  | .setActive _ s n, .set, l' => ∃ p, l.pointers s.canonical = some p ∧ n ≠ 0 ∧ n ≤ p.working ∧
      l' = l.activate s.canonical n
  | _, _, _ => False

/-- Calls one after another, each with its answer. -/
def Ledger.Runs : Ledger → List Call → List Reply → Ledger → Prop
  | l, [], [], l' => l' = l
  | l, c :: cs, r :: rs, l' => ∃ mid, l.Serves c r mid ∧ mid.Runs cs rs l'
  | _, _, _, _ => False

variable {t t' : Table} {l l' : Ledger} {c : Call} {r : Reply}

/-! ## Answers in kind

Whatever is said of a call and its answer is said of a write and a receipt, of an activation and what
it has activated, and so on. These are the four cases of a proof about any call. -/

/-- The answer is of the kind of the call. -/
inductive Call.AnsweredBy : Call → Reply → Prop where
  | write (policy : RetryPolicy) (ids : Nat → BatchId) (assignments : List Assignment)
      (r : WriteReceipt) : AnsweredBy (.write policy ids assignments) (.written r)
  | activate (policy : RetryPolicy) (a : Activation) (r : Activated) :
      AnsweredBy (.activate policy a) (.activated r)
  | advance (policy : RetryPolicy) (s : Scope) (n : Revision) :
      AnsweredBy (.advance policy s) (.advanced n)
  | setActive (policy : RetryPolicy) (s : Scope) (n : Revision) :
      AnsweredBy (.setActive policy s n) .set

theorem Call.Does.answeredBy (does : c.Does t r t') : c.AnsweredBy r := by
  cases c <;> cases r <;> first | constructor | exact False.elim does

theorem Ledger.Serves.answeredBy (serves : l.Serves c r l') : c.AnsweredBy r := by
  cases c <;> cases r <;> first | constructor | exact False.elim serves

/-! ## Calls on a table

What a call does undisturbed, it does amid others at the moment of its transaction. That puts
together what is known of single attempts (`isolated_attemptWrite` and the like) with the loop of
attempts around them, in one case for each kind of call. -/

/-- One more call at the end, where a log grows. -/
theorem Ledger.Runs.concat {mid : Ledger} {cs : List Call} {rs : List Reply} (h : l.Runs cs rs mid)
    (last : mid.Serves c r l') : l.Runs (cs ++ [c]) (rs ++ [r]) l' := by
  induction cs generalizing l rs with
  | nil =>
      cases rs with
      | nil =>
          obtain rfl : mid = l := h
          exact ⟨l', last, rfl⟩
      | cons r rs => cases h
  | cons c cs ih =>
      cases rs with
      | nil => cases h
      | cons r rs =>
          obtain ⟨next, serves, rest⟩ := h
          exact ⟨next, serves, ih rest⟩

namespace Call

/-- What a call within the scopes in use places can be placed. -/
theorem placeable {policy : RetryPolicy} {ids : Nat → BatchId} {assignments : List Assignment}
    {placed : List Placed} (within : (write policy ids assignments).Within U)
    (h : place assignments = .ok placed) : Placeable U placed := by
  obtain ⟨rfl, scopes, apart⟩ := place_eq_ok_iff.mp h
  exact ⟨fun p hp => within _ (List.mem_map_of_mem hp) _ (scopes p hp), apart⟩

/-- A write without assignments answers at once. Any other makes its attempts, and each of them has
the next identity for its batch. -/
theorem isolated_write (sep : Scope.Separated U) {policy : RetryPolicy} {ids : Nat → BatchId}
    {assignments : List Assignment} (within : (write policy ids assignments).Within U)
    (ht : t.Sound U) :
    (Store.write policy ids assignments).Isolated (Table.Sound U)
      (fun t r t' => t.Sound U ∧ (write policy ids assignments).Does t (.written r) t')
      (fun r _ => (write policy ids assignments).Idle (.written r)) t := by
  show ((Session.done (place assignments)).bind _).Isolated _ _ _ t
  cases hp : place assignments with
  | error e => trivial
  | ok placed =>
      cases placed with
      | nil =>
          obtain ⟨assignments_eq, -⟩ := place_eq_ok_iff.mp hp
          cases assignments_eq
          exact rfl
      | cons p placed =>
          exact .optimistic ht fun n t ht => isolated_attemptWrite sep (placeable within hp)
            (ids n) (fun t r t' ht run => ⟨ht, _, n, hp, run⟩) ht

theorem isolated_activate (sep : Scope.Separated U) {policy : RetryPolicy} {a : Activation}
    (within : (activate policy a).Within U) (ht : t.Sound U) :
    (Store.activate policy a).Isolated (Table.Sound U)
      (fun t r t' => t.Sound U ∧ (activate policy a).Does t (.activated r) t')
      (fun _ _ => False) t := by
  show ((Session.done (scopeOf a.params)).bind _).Isolated _ _ _ t
  cases hs : scopeOf a.params with
  | error e => trivial
  | ok s =>
      -- the parameters name one scope, and every attempt is at this scope
      exact .optimistic ht fun n t ht => isolated_attemptActivate sep (within s hs) a.revision
        (fun t r t' ht run => ⟨ht, s, hs, run⟩) t

/-- **Amid others a call does at the moment of its transaction what it does undisturbed.** -/
theorem isolated_session (sep : Scope.Separated U) (within : c.Within U) (ht : t.Sound U) :
    c.session.Isolated (Table.Sound U) (fun t r t' => t.Sound U ∧ c.Does t r t')
      (fun r _ => c.Idle r) t := by
  cases c with
  | write policy ids assignments =>
      exact (isolated_write sep within ht).map (fun _ _ _ h => h) (fun _ _ h => h)
  | activate policy a =>
      exact (isolated_activate sep within ht).map (fun _ _ _ h => h) (fun _ _ h => h.elim)
  | advance policy s =>
      have isolated : (Store.advance policy s).Isolated (Table.Sound U)
          (fun t n t' => t.Sound U ∧ (advance policy s).Does t (.advanced n) t')
          (fun _ _ => False) t := by
        rw [advance_eq]
        exact .optimistic ht fun n t ht => isolated_attemptAdvance sep within
          (fun t r t' ht run => ⟨ht, run⟩) t
      exact isolated.map (fun _ _ _ h => h) (fun _ _ h => h.elim)
  | setActive policy s n =>
      have isolated : (Store.setActive policy s n).Isolated (Table.Sound U)
          (fun t _ t' => t.Sound U ∧ (setActive policy s n).Does t .set t')
          (fun _ _ => False) t := by
        rw [setActive_eq]
        exact .optimistic ht fun _ t ht => isolated_attemptSetActive sep within n
          (fun t r t' ht run => ⟨ht, run⟩) t
      exact isolated.map (fun _ _ _ h => h) (fun _ _ h => h.elim)

/-- **What a call does to a table it does to the ledger behind it.** -/
theorem exists_serves (sep : Scope.Separated U) (h : t.Depicts U l) (within : c.Within U)
    (does : c.Does t r t') : ∃ l', l.Serves c r l' ∧ t'.Depicts U l' := by
  cases does.answeredBy with
  | write policy ids assignments r =>
      obtain ⟨placed, n, hp, run⟩ := does
      obtain ⟨receipt, depicts⟩ := h.of_attemptWrite_run sep (placeable within hp) run
      exact ⟨_, ⟨placed, n, hp, receipt, rfl⟩, depicts⟩
  | activate policy a r =>
      obtain ⟨s, hs, run⟩ := does
      obtain ⟨p, n, activates, rfl, rfl⟩ :=
        (h.attemptActivate_run_eq_ok_iff sep (within s hs)).mp run
      exact ⟨_, ⟨s, p, n, hs, activates, rfl, rfl⟩,
        h.depicts_activated sep (within s hs) activates.recorded n⟩
  | advance policy s n =>
      obtain ⟨t'', run, depicts⟩ := h.attemptAdvance_run sep within
      cases run.symm.trans does
      exact ⟨_, ⟨rfl, rfl⟩, depicts⟩
  | setActive policy s n =>
      obtain ⟨p, recorded, positive, written, rfl⟩ :=
        (h.attemptSetActive_run_eq_ok_iff sep within).mp does
      exact ⟨_, ⟨p, recorded, positive, written, rfl⟩, h.depicts_activated sep within recorded n⟩

/-- So calls lead from sound tables to sound ones. -/
theorem Does.sound (sep : Scope.Separated U) (within : c.Within U) (does : c.Does t r t')
    (ht : t.Sound U) : t'.Sound U := by
  obtain ⟨l, depicts⟩ := ht
  obtain ⟨l', -, depicts'⟩ := exists_serves sep depicts within does
  exact ⟨l', depicts'⟩

end Call

end ScopedConfig
