import ScopedConfig.Proofs.ScopeSameness
import ScopedConfig.Proofs.Sessions

/-!
# Sessions alike

A scope has many spellings, and a call may be made with one of them or with another. What it takes for
the spelling to be of no account is said here of any two sessions: they are alike if they ask for the
same things, whatever they are answered, and come to related results or to errors alike
(`Session.Alike`). On one table they then lead to one table (`Session.Alike.equivalent`). Sessions put
together of parts that are alike are alike (`Session.Alike.bind`, `Session.Alike.optimistic`,
`Session.Alike.collect`), and so are checks (`Agree.bind`).
-/

namespace ScopedConfig

/-! ## Spellings of a scope

Everything that the store asks of a scope is answered the same by all of its spellings. The order of
the parameters is all that they differ in, and it is fallback alone that looks at it. -/

/-- Two spellings of one scope. -/
structure Scope.Alike (s s' : Scope) : Prop where
  left : s.WellFormed
  right : s'.WellFormed
  same : s.same s'

namespace Scope.Alike

variable {s s' q q' : Scope}

theorem refl (hs : s.WellFormed) : s.Alike s := ⟨hs, hs, hs.same_refl⟩

/-- The spellings differ in the order of their parameters. -/
theorem perm (h : s.Alike s') : s.params.Perm s'.params := (h.left.same_iff_perm h.right).mp h.same

theorem canonical_eq (h : s.Alike s') : s.canonical = s'.canonical :=
  (h.left.same_iff_canonical_eq h.right).mp h.same

theorem id_eq (h : s.Alike s') : s.id = s'.id := id_eq_of_canonical_eq h.canonical_eq

/-- A name has its value wherever it stands. -/
theorem value?_eq (h : s.Alike s') (name : String) : s.value? name = s'.value? name := by
  apply Option.ext
  intro value
  rw [h.left.value?_eq_some_iff, h.right.value?_eq_some_iff, h.perm.mem_iff]

/-- What lies within the one lies within the other. -/
theorem within_eq (h : s.Alike s') (a : Scope) : a.within s = a.within s' := by
  simp only [within, h.perm.length_eq, h.value?_eq]

theorem same_eq (h : s.Alike s') (a : Scope) : a.same s = a.same s' := by
  rw [Scope.same, Scope.same, h.perm.length_eq, h.within_eq]

/-- So it does not matter by which spellings two scopes are compared. -/
theorem same_congr (h : s.Alike s') (hq : q.Alike q') : s.same q = s'.same q' := by
  rw [h.left.same_congr_left h.right hq.left h.same, hq.same_eq]

end Scope.Alike

/-! ## Results and errors

Two of the errors repeat a scope as the caller spelt it, so equality is too much to ask of them.
None of the two is a conflict, which is why spellings do not lead to different attempts. -/

/-- The same error, though a scope that the caller named may be spelt differently. -/
inductive StoreError.Alike : StoreError → StoreError → Prop where
  | refl (e : StoreError) : Alike e e
  | ambiguous {q q' : Scope} (same : q.same q') (a b : Scope) :
      Alike (.ambiguousScope q a b) (.ambiguousScope q' a b)
  | repeated {s s' : Scope} (same : s.same s') (name : String) :
      Alike (.repeatedKey name s) (.repeatedKey name s')

theorem StoreError.Alike.isConflict_eq {e e' : StoreError} (h : e.Alike e') :
    e.isConflict = e'.isConflict := by
  cases h <;> rfl

variable {α β α' β' : Type} {R : α → α' → Prop} {S : β → β' → Prop}

/-- Both go through with related results, or both fail with errors alike. -/
inductive Agree (R : α → α' → Prop) : Except StoreError α → Except StoreError α' → Prop where
  | ok {a : α} {a' : α'} (related : R a a') : Agree R (.ok a) (.ok a')
  | error {e e' : StoreError} (alike : e.Alike e') : Agree R (.error e) (.error e')

namespace Agree

variable {x : Except StoreError α} {x' : Except StoreError α'}

theorem refl (x : Except StoreError α) : Agree Eq x x := by
  cases x with
  | ok a => exact .ok rfl
  | error e => exact .error (.refl e)

theorem bind {f : α → Except StoreError β} {f' : α' → Except StoreError β'} (h : Agree R x x')
    (hf : ∀ a a', R a a' → Agree S (f a) (f' a')) : Agree S (x >>= f) (x' >>= f') := by
  cases h with
  | ok related => exact hf _ _ related
  | error alike => exact .error alike

end Agree

/-! ## Sessions

That sessions are alike is said without any table: it is about what they ask for and how they go on.
Each way of putting sessions together has its rule, and the last theorem brings in the table. -/

namespace Session

/-- Whatever they are answered, the sessions ask for the same things, and they come to related results
or to errors alike. -/
inductive Alike (R : α → α' → Prop) : Session α → Session α' → Prop where
  | ok {a : α} {a' : α'} (related : R a a') : Alike R (done (.ok a)) (done (.ok a'))
  | error {e e' : StoreError} (alike : e.Alike e') : Alike R (done (.error e)) (done (.error e'))
  | ask {request : Request} {next : Except BackendError request.Answer → Session α}
      {next' : Except BackendError request.Answer → Session α'}
      (alike : ∀ answer, Alike R (next answer) (next' answer)) :
      Alike R (ask request next) (ask request next')

/-- On every table the sessions come to results that agree, and leave one and the same table. -/
def Equivalent (R : α → α' → Prop) (x : Session α) (x' : Session α') : Prop :=
  ∀ t, Agree R (x.run t).1 (x'.run t).1 ∧ (x.run t).2 = (x'.run t).2

namespace Alike

variable {x : Session α} {x' : Session α'}

theorem done {x : Except StoreError α} {x' : Except StoreError α'} (h : Agree R x x') :
    (Session.done x).Alike R (.done x') := by
  cases h with
  | ok related => exact .ok related
  | error alike => exact .error alike

theorem refl {R : α → α → Prop} (hR : ∀ a, R a a) (x : Session α) : x.Alike R x := by
  induction x with
  | done result =>
      cases result with
      | ok a => exact .ok (hR a)
      | error e => exact .error (.refl e)
  | ask request next ih => exact .ask ih

/-- What the results have in common may be weakened. -/
theorem imp {R' : α → α' → Prop} (h : x.Alike R x') (hR : ∀ a a', R a a' → R' a a') :
    x.Alike R' x' := by
  induction h with
  | ok related => exact .ok (hR _ _ related)
  | error alike => exact .error alike
  | ask _ ih => exact .ask ih

theorem bind {f : α → Session β} {f' : α' → Session β'} (h : x.Alike R x')
    (hf : ∀ a a', R a a' → (f a).Alike S (f' a')) : (x.bind f).Alike S (x'.bind f') := by
  induction h with
  | ok related => exact hf _ _ related
  | error alike => exact .error alike
  | ask _ ih => exact .ask ih

/-- One session, gone on with in two ways. -/
theorem bind_same (x : Session α) {f : α → Session β} {f' : α → Session β'}
    (hf : ∀ a, (f a).Alike S (f' a)) : (x.bind f).Alike S (x.bind f') := by
  apply (refl (fun a => rfl) x : x.Alike Eq x).bind
  rintro a _ rfl
  exact hf a

/-- Errors alike are recovered from in sessions alike. -/
theorem recover {f : StoreError → Session α} {f' : StoreError → Session α'} (h : x.Alike R x')
    (hf : ∀ e e', e.Alike e' → (f e).Alike R (f' e')) : (x.recover f).Alike R (x'.recover f') := by
  induction h with
  | ok related => exact .ok related
  | error alike => exact hf _ _ alike
  | ask _ ih => exact .ask ih

/-- Conflicts are told apart from other errors on both sides alike, so both are attempted again or
neither. -/
theorem optimistic {policy : RetryPolicy} {attempt : Nat → Session α} {attempt' : Nat → Session α'}
    (h : ∀ n, (attempt n).Alike R (attempt' n)) :
    (Session.optimistic policy attempt).Alike R (Session.optimistic policy attempt') := by
  suffices ∀ left n, (attemptFrom attempt n left).Alike R (attemptFrom attempt' n left) from
    this policy.attempts 0
  intro left
  induction left with
  | zero => exact fun n => .error (.refl _)
  | succ left ih =>
      intro n
      apply (h n).recover
      intro e e' alike
      -- both go on to the next attempt or both give up
      rw [alike.isConflict_eq]
      split
      · exact ih (n + 1)
      · exact .error alike

/-- **One session after another**, with the results side by side. -/
theorem collect {f : α → Session β} {f' : α' → Session β'} {as : List α} {as' : List α'}
    (h : List.Forall₂ R as as') (hf : ∀ a a', R a a' → (f a).Alike S (f' a')) :
    (Session.collect f as).Alike (List.Forall₂ S) (Session.collect f' as') := by
  induction h with
  | nil => exact .ok .nil
  | cons first _ ih =>
      apply (hf _ _ first).bind
      intro b b' hb
      apply ih.bind
      intro bs bs' hbs
      exact .ok (.cons hb hbs)

/-- **Sessions alike are equivalent.** -/
theorem equivalent (h : x.Alike R x') : Equivalent R x x' := by
  intro t
  induction h generalizing t with
  | ok related => exact ⟨.ok related, rfl⟩
  | error alike => exact ⟨.error alike, rfl⟩
  | ask _ ih => exact ih _ _

end Alike

end Session

end ScopedConfig
