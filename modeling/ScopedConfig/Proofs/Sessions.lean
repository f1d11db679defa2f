import Mathlib.Data.List.Forall2
import ScopedConfig.Proofs.Tables
import ScopedConfig.Store.Session

/-!
# Sessions amid others

`Session.run` is a session on a table that nobody else touches; `run_bind` and its companions say how
it goes through the ways of putting sessions together. `Isolated` is a session amid others: whatever
they do to the table between two of its requests, as long as it grows and stays sound, the session
changes the table at most once, by its last request, and then as the commit condition says.
Sessions that only read are isolated with a commit condition that is never met
(`Isolated.of_request`, `Isolated.bind`), and attempts made over again are isolated if each of them is
(`Isolated.optimistic`).
-/

namespace ScopedConfig

/-- Whether a request may change the table. -/
def Request.isTransaction : Request → Bool
  | .transact _ => true
  | _ => false

namespace Table

variable {t : Table} {r : Request}

theorem answer_of_reading (h : r.isTransaction = false) : (t.answer r).2 = t := by
  cases r with
  | transact ops => cases h
  | get | scan | floor => rfl

theorem answer_of_error {e : BackendError} (h : (t.answer r).1 = .error e) :
    (t.answer r).2 = t := by
  cases r with
  | transact ops => exact transact_of_error h
  | get | scan | floor => rfl

/-- **Whatever is asked, tables grow.** -/
theorem growsTo_answer (t : Table) (r : Request) : t.GrowsTo (t.answer r).2 := by
  cases ha : (t.answer r).1 with
  | error e => rw [answer_of_error ha]; exact .refl t
  | ok a =>
      cases r with
      | transact ops => exact (commits_of_transact ha).growsTo
      | get | scan | floor => exact .refl t

end Table

namespace Session

variable {α β : Type} {t t' : Table}

/-! ## Undisturbed runs

One rule for each way of putting sessions together. Those for success go both ways, so that the run of
a whole can be taken apart into the runs of its parts. -/

section Run

theorem bind_eq (x : Session α) (f : α → Session β) : x >>= f = x.bind f := rfl

theorem map_eq (f : α → β) (x : Session α) : f <$> x = x.bind fun a => done (.ok (f a)) := rfl

theorem pure_eq (a : α) : (pure a : Session α) = done (.ok a) := rfl

theorem bind_done (x : Session α) : (x.bind fun a => done (.ok a)) = x := by
  induction x with
  | done result => cases result <;> rfl
  | ask request next ih => exact congrArg (ask request) (funext ih)

theorem bind_assoc {γ : Type} (x : Session α) (f : α → Session β) (g : β → Session γ) :
    (x.bind f).bind g = x.bind fun a => (f a).bind g := by
  induction x with
  | done result => cases result <;> rfl
  | ask request next ih => exact congrArg (ask request) (funext fun answer => ih answer)

/-- A session that goes through has a result and leaves a table. -/
theorem exists_run_of_isOk {x : Session α} (h : (x.run t).1.isOk) : ∃ a t', x.run t = (.ok a, t') := by
  cases run : x.run t with
  | mk result t' =>
      cases result with
      | ok a => exact ⟨a, t', rfl⟩
      | error e => rw [run] at h; cases h

/-- **One session after another.** -/
theorem run_bind (x : Session α) (f : α → Session β) (t : Table) :
    (x.bind f).run t =
      match x.run t with
      | (.ok a, t') => (f a).run t'
      | (.error e, t') => (.error e, t') := by
  induction x generalizing t with
  | done result => cases result <;> rfl
  | ask request next ih => exact ih _ _

theorem run_bind_of_ok {x : Session α} {f : α → Session β} {a : α} (h : x.run t = (.ok a, t')) :
    (x.bind f).run t = (f a).run t' := by
  rw [run_bind, h]

theorem run_bind_of_error {x : Session α} {f : α → Session β} {e : StoreError}
    (h : x.run t = (.error e, t')) : (x.bind f).run t = (.error e, t') := by
  rw [run_bind, h]

theorem run_bind_eq_ok {x : Session α} {f : α → Session β} {b : β} :
    (x.bind f).run t = (.ok b, t') ↔
      ∃ a mid, x.run t = (.ok a, mid) ∧ (f a).run mid = (.ok b, t') := by
  constructor
  · intro h
    cases hx : x.run t with
    | mk result mid =>
        cases result with
        | error e => rw [run_bind_of_error hx] at h; cases h
        | ok a => exact ⟨a, mid, rfl, run_bind_of_ok hx ▸ h⟩
  · rintro ⟨a, mid, hx, hf⟩
    rw [run_bind_of_ok hx, hf]

theorem run_map_eq_ok {x : Session α} {f : α → β} {b : β} :
    (f <$> x).run t = (.ok b, t') ↔ ∃ a, x.run t = (.ok a, t') ∧ f a = b := by
  rw [map_eq, run_bind_eq_ok]
  constructor
  · rintro ⟨a, mid, hx, h⟩
    cases h
    exact ⟨a, hx, rfl⟩
  · rintro ⟨a, hx, rfl⟩
    exact ⟨a, t', hx, rfl⟩

/-- A transaction with an answer has gone through. -/
theorem run_transact_eq_ok {ops : List Op} {results : List OpResult}
    (h : (transact ops).run t = (.ok results, t')) : t.Commits ops t' := by
  have after : t' = (t.transact ops).2 := (congrArg Prod.snd h).symm
  have answer : (t.transact ops).1.mapError StoreError.backend = .ok results := congrArg Prod.fst h
  subst after
  cases ht : (t.transact ops).1 with
  | error e => rw [ht] at answer; cases answer
  | ok results => exact Table.commits_of_transact ht

theorem run_transact {ops : List Op} (h : t.Commits ops t') :
    ∃ results, (transact ops).run t = (.ok results, t') := by
  obtain ⟨results, ht⟩ := Table.transact_of_commits h
  refine ⟨results, ?_⟩
  show ((t.transact ops).1.mapError StoreError.backend, (t.transact ops).2) = _
  rw [ht]
  rfl

theorem run_done_bind_eq_ok {x : Except StoreError α} {f : α → Session β} {b : β} :
    ((done x).bind f).run t = (.ok b, t') ↔ ∃ a, x = .ok a ∧ (f a).run t = (.ok b, t') := by
  cases x with
  | error e =>
      constructor
      · intro h
        cases h
      · rintro ⟨a, h, -⟩
        cases h
  | ok a =>
      constructor
      · exact fun h => ⟨a, rfl, h⟩
      · rintro ⟨a', h, run⟩
        cases h
        exact run

/-- A transaction that ends a session. -/
theorem run_transact_done_eq_ok {ops : List Op} {b b' : β} :
    ((transact ops).bind fun _ => done (.ok b)).run t = (.ok b', t') ↔ b' = b ∧ t.Commits ops t' := by
  rw [run_bind_eq_ok]
  constructor
  · rintro ⟨results, mid, h, eq⟩
    cases eq
    exact ⟨rfl, run_transact_eq_ok h⟩
  · rintro ⟨rfl, commits⟩
    obtain ⟨results, h⟩ := run_transact commits
    exact ⟨results, t', h, rfl⟩

theorem run_recover_of_ok {x : Session α} {f : StoreError → Session α} {a : α}
    (h : x.run t = (.ok a, t')) : (x.recover f).run t = (.ok a, t') := by
  induction x generalizing t with
  | done result => cases result <;> cases h; rfl
  | ask request next ih => exact ih _ h

theorem attempts_pos (policy : RetryPolicy) : ∃ left, policy.attempts = left + 1 :=
  Nat.exists_eq_add_one_of_ne_zero (Nat.ne_of_gt (Nat.le_max_left 1 _))

/-- Nobody in between, so the first attempt is the last one if it goes through. -/
theorem run_optimistic_of_ok {policy : RetryPolicy} {attempt : Nat → Session α} {a : α}
    (h : (attempt 0).run t = (.ok a, t')) : (optimistic policy attempt).run t = (.ok a, t') := by
  obtain ⟨left, hleft⟩ := attempts_pos policy
  rw [optimistic, hleft]
  exact run_recover_of_ok h

/-- Sessions one after another, if each of them leaves the table as it is. -/
theorem run_collect {f : α → Session β} {as : List α} {bs : List β}
    (h : List.Forall₂ (fun a b => (f a).run t = (.ok b, t)) as bs) :
    (collect f as).run t = (.ok bs, t) := by
  induction h with
  | nil => rfl
  | cons first _ ih =>
      rw [collect, bind_eq, run_bind_of_ok first, bind_eq, run_bind_of_ok ih]
      rfl

/-- There are as many results as sessions. -/
theorem length_of_collect_run {f : α → Session β} {as : List α} {bs : List β}
    (run : (collect f as).run t = (.ok bs, t')) : bs.length = as.length := by
  induction as generalizing t bs with
  | nil =>
      cases run
      rfl
  | cons a as ih =>
      obtain ⟨b, mid, -, run⟩ := run_bind_eq_ok.mp run
      obtain ⟨rest, mid', run, done⟩ := run_bind_eq_ok.mp run
      cases done
      exact congrArg (· + 1) (ih run)

end Run

/-! ## Isolation

The definition follows the requests of a session. Before each of them the table may have grown, the
answer may be a failure of the backend, and a transaction that goes through ends the session. The
rules below take a session apart in the same way as those above, but for the loop of attempts: that
is isolated if every attempt is, from whatever table it begins. -/

/-- The session asks for at most one transaction that goes through. It ends with it, and `commit`
holds of the table then, the result and the table after it. If it ends without any, `post` holds. All
of that whatever happens to the table before each request, as long as it grows and stays sound. -/
def Isolated (sound : Table → Prop) (commit : Table → α → Table → Prop) (post : α → Table → Prop) :
    Session α → Table → Prop
  | done (.ok a), t => post a t
  | done (.error _), _ => True
  | ask request next, t => ∀ t', t.GrowsTo t' → sound t' →
      (∀ e, (next (.error e)).Isolated sound commit post t') ∧
      ∀ a, (t'.answer request).1 = .ok a →
        if request.isTransaction then
          ∃ x, next (.ok a) = done (.ok x) ∧ commit t' x (t'.answer request).2
        else (next (.ok a)).Isolated sound commit post t'

namespace Isolated

variable {sound : Table → Prop} {commit : Table → α → Table → Prop} {post : α → Table → Prop}

/-- A reading session never commits. -/
abbrev Never : Table → α → Table → Prop := fun _ _ _ => False

/-- A later table is as good. -/
theorem of_growsTo {x : Session α} (h : x.Isolated sound commit post t) (grows : t.GrowsTo t')
    (stable : ∀ a, post a t → post a t') : x.Isolated sound commit post t' := by
  cases x with
  | done result =>
      cases result with
      | error e => trivial
      | ok a => exact stable a h
  | ask request next => exact fun t'' grows' => h t'' (grows.trans grows')

/-- **Undisturbed, an isolated session that goes through ends with its commit**, or has changed
nothing. -/
theorem of_run_eq_ok {x : Session α} {a : α}
    (h : x.Isolated sound commit post t) (ht : sound t) (run : x.run t = (.ok a, t')) :
    commit t a t' ∨ post a t ∧ t' = t := by
  induction x with
  | done result =>
      cases run
      exact .inr ⟨h, rfl⟩
  | ask request next ih =>
      obtain ⟨failed, answered⟩ := h t (.refl t) ht
      have run : (next (t.answer request).1).run (t.answer request).2 = (.ok a, t') := run
      cases ha : (t.answer request).1 with
      | error e =>
          rw [ha, Table.answer_of_error ha] at run
          exact ih _ (failed e) run
      | ok answer =>
          have answered := answered answer ha
          rw [ha] at run
          by_cases transaction : request.isTransaction
          · rw [if_pos transaction] at answered
            obtain ⟨b, ended, committed⟩ := answered
            rw [ended] at run
            cases run
            exact .inl committed
          · rw [if_neg transaction] at answered
            rw [Table.answer_of_reading (by simpa using transaction)] at run
            exact ih _ answered run

/-- **What is read before does not commit.** -/
theorem bind {commit : Table → β → Table → Prop} {post' : β → Table → Prop} {x : Session α}
    {f : α → Session β} (hx : x.Isolated sound Never post t)
    (hf : ∀ a t', post a t' → (f a).Isolated sound commit post' t') :
    (x.bind f).Isolated sound commit post' t := by
  induction x generalizing t with
  | done result =>
      cases result with
      | error e => trivial
      | ok a => exact hf a t hx
  | ask request next ih =>
      intro t' grows hs
      obtain ⟨failed, answered⟩ := hx t' grows hs
      refine ⟨fun e => ih _ (failed e), fun a ha => ?_⟩
      have answered := answered a ha
      by_cases transaction : request.isTransaction
      · -- `x` only reads
        rw [if_pos transaction] at answered
        obtain ⟨_, _, never⟩ := answered
        exact never.elim
      · rw [if_neg transaction] at answered ⊢
        exact ih _ answered

/-- What is computed from the result in the end. -/
theorem map {commit' : Table → β → Table → Prop} {post' : β → Table → Prop} {x : Session α}
    {f : α → β} (h : x.Isolated sound commit post t)
    (hc : ∀ t a t', commit t a t' → commit' t (f a) t') (hp : ∀ a t, post a t → post' (f a) t) :
    (f <$> x).Isolated sound commit' post' t := by
  rw [map_eq]
  induction x generalizing t with
  | done result =>
      cases result with
      | error e => trivial
      | ok a => exact hp a t h
  | ask request next ih =>
      intro t' grows hs
      obtain ⟨failed, answered⟩ := h t' grows hs
      refine ⟨fun e => ih _ (failed e), fun a ha => ?_⟩
      have answered := answered a ha
      by_cases transaction : request.isTransaction
      · rw [if_pos transaction] at answered ⊢
        obtain ⟨x, hx, hcommit⟩ := answered
        exact ⟨f x, by simp only [hx, Session.bind], hc _ _ _ hcommit⟩
      · rw [if_neg transaction] at answered ⊢
        exact ih _ answered

/-- Weaker conditions. -/
theorem imp {commit' : Table → α → Table → Prop} {post' : α → Table → Prop} {x : Session α}
    (h : x.Isolated sound commit post t) (hc : ∀ t a t', commit t a t' → commit' t a t')
    (hp : ∀ a t, post a t → post' a t) : x.Isolated sound commit' post' t := by
  have same : id <$> x = x := x.bind_done
  rw [← same]
  exact h.map hc hp

/-- **A single request that only reads answers what it would answer at that moment.** -/
theorem of_request {r : Request} {f : r.Answer → Session α} (reading : r.isTransaction = false)
    (ends : ∀ answer, ∃ result, f answer = done result) :
    ((request r).bind f).Isolated sound Never
      (fun a t' => t.GrowsTo t' ∧ sound t' ∧ ((request r).bind f).run t' = (.ok a, t')) t := by
  intro t' grows hs
  refine ⟨fun e => trivial, fun a ha => ?_⟩
  -- run once more on the table as it was then, the session asks and answers the same
  rw [if_neg (by simp [reading])]
  show (f a).Isolated sound Never _ t'
  obtain ⟨result, hresult⟩ := ends a
  rw [hresult]
  cases result with
  | error e => trivial
  | ok x =>
      refine ⟨grows, hs, ?_⟩
      show (Session.bind (done ((t'.answer r).1.mapError .backend)) f).run (t'.answer r).2 = _
      rw [ha, Table.answer_of_reading reading]
      show (f a).run t' = _
      rw [hresult]
      rfl

/-- A transaction that ends the session. -/
theorem of_transact {ops : List Op} {b : β} {commit : Table → β → Table → Prop}
    {post : β → Table → Prop}
    (h : ∀ t' t'', t.GrowsTo t' → sound t' → t'.Commits ops t'' → commit t' b t'') :
    ((transact ops).bind fun _ => done (.ok b)).Isolated sound commit post t := by
  intro t' grows hs
  refine ⟨fun e => trivial, fun a ha => ?_⟩
  show if true then _ else _
  rw [if_pos rfl]
  exact ⟨b, rfl, h t' _ grows hs (Table.commits_of_transact ha)⟩

/-- What is done after a failure has to be isolated from whatever sound table is there then. -/
theorem recover {x : Session α} {f : StoreError → Session α}
    (hx : x.Isolated sound commit (fun _ _ => False) t) (ht : sound t)
    (hf : ∀ e t', sound t' → (f e).Isolated sound commit post t') :
    (x.recover f).Isolated sound commit post t := by
  induction x generalizing t with
  | done result =>
      cases result with
      | error e => exact hf e t ht
      | ok a => exact hx.elim
  | ask request next ih =>
      intro t' grows hs
      obtain ⟨failed, answered⟩ := hx t' grows hs
      refine ⟨fun e => ih _ (failed e) hs, fun a ha => ?_⟩
      have answered := answered a ha
      by_cases transaction : request.isTransaction
      · rw [if_pos transaction] at answered ⊢
        obtain ⟨x, hx, hcommit⟩ := answered
        exact ⟨x, by simp only [hx, Session.recover], hcommit⟩
      · rw [if_neg transaction] at answered ⊢
        exact ih _ answered hs

/-- **Attempts made over again are isolated if each of them is, whenever it is made.** -/
theorem optimistic {policy : RetryPolicy} {attempt : Nat → Session α} (ht : sound t)
    (h : ∀ n t, sound t → (attempt n).Isolated sound commit (fun _ _ => False) t) :
    (Session.optimistic policy attempt).Isolated sound commit post t := by
  -- by induction on the attempts left, whichever attempt is next
  suffices ∀ left n t, sound t → (attemptFrom attempt n left).Isolated sound commit post t from
    this policy.attempts 0 t ht
  intro left
  induction left with
  | zero => exact fun n t _ => trivial
  | succ left ih =>
      intro n t ht
      refine recover (h n t ht) ht fun e t' ht' => ?_
      by_cases conflict : e.isConflict
      · rw [if_pos conflict]
        exact ih (n + 1) t' ht'
      · rw [if_neg conflict]
        trivial

/-- Sessions that only read, one after another: each result is right as of its own moment. -/
theorem collect {f : α → Session β} {holds : α → β → Table → Prop} {as : List α} (ht : sound t)
    (stable : ∀ a b t t', t.GrowsTo t' → holds a b t → holds a b t')
    (h : ∀ a ∈ as, ∀ t, sound t →
      (f a).Isolated sound Never (fun b t' => t.GrowsTo t' ∧ sound t' ∧ holds a b t') t) :
    (Session.collect f as).Isolated sound Never
      (fun bs t' => t.GrowsTo t' ∧ sound t' ∧ List.Forall₂ (fun a b => holds a b t') as bs) t := by
  induction as generalizing t with
  | nil => exact ⟨.refl t, ht, .nil⟩
  | cons a as ih =>
      obtain ⟨first, rest⟩ := List.forall_mem_cons.mp h
      refine bind (first t ht) fun b t' ⟨grows, ht', hb⟩ => ?_
      refine bind (ih ht' rest) fun bs t'' ⟨grows', ht'', hbs⟩ => ?_
      exact ⟨grows.trans grows', ht'', .cons (stable a b t' t'' grows' hb) hbs⟩

end Isolated

end Session

end ScopedConfig
