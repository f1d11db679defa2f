import Mathlib.Data.List.ReduceOption
import ScopedConfig.Proofs.Failures
import ScopedConfig.Proofs.Snapshots

/-!
# Guests of a system

A guest is a session run beside the handles of a system: on the same backend, a request at a time,
with any moves of the handles before, between and after its requests (`Guest.run`). The log of the
system then tells what others have put through, and the guest's own requests are noted with the
moments at which they were answered.

What a guest comes to is worked out along its requests. `Session.Ends` lets others put calls through
before each of them (`Scene.Later`) and asks what holds in the end; there is one rule for each way of
putting sessions together. `Guest.run_ends` says that this covers every schedule.
-/

namespace ScopedConfig

open Layout Store

variable {U : Scope → Prop} {t t' t'' : Table} {l : Ledger} {ks ks' : List Commit}

/-! ## What others put through

To a guest it does not matter how far the handles of a system have come with their calls, but only
which calls have gone through since, and from which table to which (`Leads`). Whatever every call
keeps, they keep one after another. -/

/-- The calls of the commits, put through one after another, lead from one table to another. -/
def Leads (U : Scope → Prop) : Table → List Commit → Table → Prop
  | t, [], t' => t' = t
  | t, k :: ks, t' =>
    k.before = t ∧ k.call.Within U ∧ (∃ r, k.call.Does t r k.after) ∧ Leads U k.after ks t'

namespace Session

variable {α : Type}

theorem growsTo_run (x : Session α) (t : Table) : t.GrowsTo (x.run t).2 := by
  induction x generalizing t with
  | done result => exact .refl t
  | ask request next ih => exact (t.growsTo_answer request).trans (ih _ _)

end Session

theorem Call.Does.growsTo {c : Call} {r : Reply} (does : c.Does t r t') : t.GrowsTo t' := by
  have grows {α : Type} {x : Session α} {a : α} (run : x.run t = (.ok a, t')) : t.GrowsTo t' := by
    have := x.growsTo_run t
    rwa [run] at this
  cases does.answeredBy with
  | write policy ids assignments r =>
      obtain ⟨placed, n, -, run⟩ := does
      exact grows run
  | activate policy a r =>
      obtain ⟨s, -, run⟩ := does
      exact grows run
  | advance policy s n => exact grows (show (attemptAdvance s).run t = _ from does)
  | setActive policy s n => exact grows (show (attemptSetActive s n).run t = _ from does)

namespace Leads

theorem append_iff : Leads U t (ks ++ ks') t' ↔ ∃ mid, Leads U t ks mid ∧ Leads U mid ks' t' := by
  induction ks generalizing t with
  | nil =>
      constructor
      · intro h
        exact ⟨t, rfl, h⟩
      · rintro ⟨mid, rfl, h⟩
        exact h
  | cons k ks ih =>
      simp only [List.cons_append, Leads, ih]
      constructor
      · rintro ⟨before, within, does, mid, h, h'⟩
        exact ⟨mid, ⟨before, within, does, h⟩, h'⟩
      · rintro ⟨mid, ⟨before, within, does, h⟩, h'⟩
        exact ⟨before, within, does, mid, h, h'⟩

theorem trans (h : Leads U t ks t') (h' : Leads U t' ks' t'') : Leads U t (ks ++ ks') t'' :=
  append_iff.mpr ⟨t', h, h'⟩

theorem single {c : Call} {r : Reply} (within : c.Within U) (does : c.Does t r t') :
    Leads U t [⟨c, t, t'⟩] t' :=
  ⟨rfl, within, ⟨r, does⟩, rfl⟩

theorem growsTo (h : Leads U t ks t') : t.GrowsTo t' := by
  induction ks generalizing t with
  | nil =>
      obtain rfl : t' = t := h
      exact .refl t'
  | cons k ks ih =>
      obtain ⟨-, -, ⟨r, does⟩, rest⟩ := h
      exact does.growsTo.trans (ih rest)

/-- **What every call keeps of the ledger, the commits keep.** -/
theorem exists_ledger (sep : Scope.Separated U) {I : Ledger → Prop} (h : t.Depicts U l) (start : I l)
    (leads : Leads U t ks t')
    (step : ∀ k ∈ ks, ∀ l r l', k.before.Depicts U l → I l → l.Serves k.call r l' → I l') :
    ∃ l', t'.Depicts U l' ∧ I l' := by
  induction ks generalizing t l with
  | nil =>
      cases leads
      exact ⟨l, h, start⟩
  | cons k ks ih =>
      obtain ⟨before, within, ⟨r, does⟩, rest⟩ := leads
      obtain ⟨first, step⟩ := List.forall_mem_cons.mp step
      obtain ⟨l', serves, depicts⟩ := Call.exists_serves sep h within does
      have kept : I l' := first l r l' (before ▸ h) start serves
      exact ih depicts kept rest step

/-- Others leave a sound table sound. -/
theorem sound (sep : Scope.Separated U) (ht : t.Sound U) (leads : Leads U t ks t') : t'.Sound U := by
  obtain ⟨l, h⟩ := ht
  obtain ⟨l', h', -⟩ := leads.exists_ledger sep (I := fun _ => True) h trivial
    fun _ _ _ _ _ _ _ _ => trivial
  exact ⟨l', h'⟩

/-- What is known of each commit: it is a call put through on a sound table. -/
theorem of_mem (sep : Scope.Separated U) (ht : t.Sound U) (leads : Leads U t ks t') {k : Commit}
    (hk : k ∈ ks) :
    k.before.Sound U ∧ k.call.Within U ∧ ∃ r, k.call.Does k.before r k.after := by
  induction ks generalizing t with
  | nil => cases hk
  | cons k' ks ih =>
      have all : Leads U t ([k'] ++ ks) t' := leads
      obtain ⟨mid, first, -⟩ := append_iff.mp all
      obtain ⟨rfl, within, does, rest⟩ := leads
      rcases List.mem_cons.mp hk with rfl | hk
      · exact ⟨ht, within, does⟩
      · obtain rfl : mid = k'.after := first.2.2.2
        exact ih (first.sound sep ht) rest hk

/-- **Where a key is not as it was, one of the commits has changed it.** -/
theorem exists_change (leads : Leads U t ks t') {key : String} (ne : t'.get? key ≠ t.get? key) :
    ∃ k ∈ ks, k.after.get? key ≠ k.before.get? key := by
  induction ks generalizing t with
  | nil =>
      cases leads
      exact absurd rfl ne
  | cons k ks ih =>
      obtain ⟨rfl, -, -, rest⟩ := leads
      by_cases same : k.after.get? key = k.before.get? key
      · rw [← same] at ne
        obtain ⟨k', hk', change⟩ := ih rest ne
        exact ⟨k', List.mem_cons_of_mem k hk', change⟩
      · exact ⟨k, List.mem_cons_self, same⟩

end Leads

/-! ## Systems that others may disturb

A guest commits between the moves of the handles, so the table of the host may change without a move
of its own. The calls that are being made do not mind: each is isolated, with the same prospects
from any table that has grown (`Lively`). -/

namespace System

variable {ι : Type}

/-- The table is sound, and every call that still asks is isolated until it commits. -/
structure Lively (U : Scope → Prop) (σ : System ι) : Prop where
  sound : σ.table.Sound U
  calls : ∀ h, ∀ p ∈ σ.calls h, p.call.Within U ∧ (p.isOver = false →
    p.rest.Isolated (Table.Sound U) (fun t r t' => t.Sound U ∧ p.call.Does t r t')
      (fun r _ => p.call.Idle r) σ.table)

namespace Lively

variable {σ : System ι}

/-- Whatever a guest does, if it leaves the table sound. -/
theorem later (hσ : σ.Lively U) (grows : σ.table.GrowsTo t) (sound : t.Sound U) :
    Lively U { σ with table := t } where
  sound := sound
  calls h p hp := by
    obtain ⟨within, isolated⟩ := hσ.calls h p hp
    exact ⟨within, fun asks => (isolated asks).of_growsTo grows fun _ idle => idle⟩

variable [DecidableEq ι]

/-- A handle has come on. -/
theorem update {σ' : System ι} (hσ : σ.Lively U) (grows : σ.table.GrowsTo σ'.table)
    (sound : σ'.table.Sound U) {h : ι} {p : Progress} {earlier : List Progress}
    (sub : ∀ q ∈ earlier, q ∈ σ.calls h)
    (calls : σ'.calls = Function.update σ.calls h (p :: earlier))
    (hp : p.call.Within U ∧ (p.isOver = false → p.rest.Isolated (Table.Sound U)
      (fun t r t' => t.Sound U ∧ p.call.Does t r t') (fun r _ => p.call.Idle r) σ'.table)) :
    σ'.Lively U where
  sound := sound
  calls h' q hq := by
    have old : ∀ h', q ∈ σ.calls h' → _ := fun h' hq => (hσ.later grows sound).calls h' q hq
    rw [calls] at hq
    -- Of the handle that has come on there is one call that is new, of the others none.
    by_cases same : h' = h
    · subst same
      rw [Function.update_self] at hq
      rcases List.mem_cons.mp hq with rfl | hq
      · exact hp
      · exact old _ (sub q hq)
    · rw [Function.update_of_ne same] at hq
      exact old _ hq

/-- **A move puts through a call or nothing.** -/
theorem step (sep : Scope.Separated U) (hσ : σ.Lively U) {m : Move ι}
    (within : ∀ h c, m = .call h c → c.Within U) :
    (σ.step m).Lively U ∧
      ∃ ks, (σ.step m).log = σ.log ++ ks ∧ Leads U σ.table ks (σ.step m).table := by
  have nothing : ∃ ks, σ.log = σ.log ++ ks ∧ Leads U σ.table ks σ.table :=
    ⟨[], (List.append_nil _).symm, rfl⟩
  cases m with
  | call h c =>
      rw [System.step]
      split
      · have hc := within h c rfl
        refine ⟨hσ.update (.refl _) hσ.sound (fun q hq => hq) rfl ⟨hc, ?_⟩, nothing⟩
        intro _
        exact Call.isolated_session sep hc hσ.sound
      · exact ⟨hσ, nothing⟩
  | serve h =>
      rw [System.step]
      split
      · next c request next commits earlier calls =>
        have sub : ∀ q ∈ earlier, q ∈ σ.calls h := by
          intro q hq
          rw [calls]
          exact List.mem_cons_of_mem _ hq
        obtain ⟨hc, isolated⟩ := hσ.calls h ⟨c, .ask request next, commits⟩ (by rw [calls]; simp)
        obtain ⟨failed, answered⟩ := isolated rfl σ.table (.refl _) hσ.sound
        cases ha : (σ.table.answer request).1 with
        | error e =>
            simp only [ha, Except.isOk, Except.toBool, Bool.and_false, Bool.false_eq_true, if_false]
            exact ⟨hσ.update (.refl _) hσ.sound sub rfl ⟨hc, fun _ => failed e⟩, nothing⟩
        | ok a =>
            have answered := answered a ha
            by_cases transaction : request.isTransaction
            · -- the call commits, and is over
              rw [if_pos transaction] at answered
              obtain ⟨r, rest, -, does⟩ := answered
              have leads : Leads U σ.table [⟨c, σ.table, (σ.table.answer request).2⟩]
                  (σ.table.answer request).2 := .single hc does
              simp only [ha, transaction, Except.isOk, Except.toBool, Bool.and_self, if_true]
              refine ⟨hσ.update leads.growsTo (leads.sound sep hσ.sound) sub rfl ⟨hc, ?_⟩,
                _, rfl, leads⟩
              intro asks
              rw [rest] at asks
              cases asks
            · rw [if_neg transaction] at answered
              simp only [ha, transaction, Bool.false_and, Bool.false_eq_true, if_false]
              exact ⟨hσ.update (.refl _) hσ.sound sub rfl ⟨hc, fun _ => answered⟩, nothing⟩
      · exact ⟨hσ, nothing⟩
  | fail h e =>
      rw [System.step]
      split
      · next c request next commits earlier calls =>
        have sub : ∀ q ∈ earlier, q ∈ σ.calls h := by
          intro q hq
          rw [calls]
          exact List.mem_cons_of_mem _ hq
        obtain ⟨hc, isolated⟩ := hσ.calls h ⟨c, .ask request next, commits⟩ (by rw [calls]; simp)
        obtain ⟨failed, -⟩ := isolated rfl σ.table (.refl _) hσ.sound
        exact ⟨hσ.update (.refl _) hσ.sound sub rfl ⟨hc, fun _ => failed e⟩, nothing⟩
      · exact ⟨hσ, nothing⟩

end Lively

/-- Every schedule leads to such a system. -/
theorem run_lively [DecidableEq ι] (sep : Scope.Separated U) (moves : List (Move ι))
    (within : ∀ h c, .call h c ∈ moves → c.Within U) : (run moves).Lively U := by
  obtain ⟨replies, l, traced⟩ := run_traced sep moves within
  refine ⟨⟨l, traced.trace.depicts⟩, fun h p hp => ?_⟩
  have sound := traced.sound h p hp
  refine ⟨sound.1, fun asks => ?_⟩
  obtain ⟨c, rest, commits⟩ := p
  cases rest with
  | done result => cases asks
  | ask request next => exact sound.2.2 sound.running_of_ask

end System

/-! ## Guests

A guest is a host, the rest of its session, and the requests it has made so far. A schedule gives
the turns: `some` move of a handle, or `none` for the next request of the guest. -/

/-- What a session has come to, once it is over. -/
def Session.result? {α : Type} : Session α → Option (Except StoreError α)
  | done result => some result
  | ask _ _ => none

theorem Session.result?_eq_some_iff {α : Type} {x : Session α} {result : Except StoreError α} :
    x.result? = some result ↔ x = .done result := by
  cases x with
  | done found =>
      rw [result?, Option.some.injEq, Session.done.injEq]
  | ask request next =>
      constructor <;> intro h <;> cases h

theorem Session.exists_done_of_result? {α : Type} {x : Session α} (h : x.result?.any Except.isOk) :
    ∃ a, x = .done (.ok a) := by
  match x with
  | done (.ok a) => exact ⟨a, rfl⟩
  | done (.error e) => cases h
  | ask request next => cases h

/-- A request of a guest, with the table that it met. -/
structure Stop extends Visit where
  /-- The number of transactions in the log by then. -/
  moment : Nat

/-- A session beside a system. -/
structure Guest (ι α : Type) where
  host : System ι
  /-- What is still to be done. -/
  rest : Session α
  /-- The requests made, in their order. -/
  stops : List Stop

/-- What a guest may see of a system. -/
structure Scene where
  table : Table
  /-- The transactions that the handles put through. -/
  log : List Commit
  /-- The requests that the guest has made. -/
  stops : List Stop

/-- The scene after a request of the guest. -/
def Scene.serve (σ : Scene) (r : Request) : Scene :=
  ⟨(σ.table.answer r).2, σ.log, σ.stops ++ [⟨⟨r, σ.table⟩, σ.log.length⟩]⟩

namespace Guest

variable {ι α β : Type}

def scene (g : Guest ι α) : Scene := ⟨g.host.table, g.host.log, g.stops⟩

/-- The next request of the guest is answered, if there is any. -/
def serve (g : Guest ι α) : Guest ι α :=
  match g.rest with
  | .done _ => g
  | .ask request next =>
    ⟨{ g.host with table := (g.host.table.answer request).2 },
      next (g.host.table.answer request).1, (g.scene.serve request).stops⟩

variable [DecidableEq ι]

/-- A move of a handle, or a request of the guest. -/
def step (g : Guest ι α) : Option (Move ι) → Guest ι α
  | some m => { g with host := g.host.step m }
  | none => g.serve

/-- What comes of a session beside a system, by a schedule that says when the guest's requests are
answered. -/
def run (σ : System ι) (x : Session α) (schedule : List (Option (Move ι))) : Guest ι α :=
  schedule.foldl step ⟨σ, x, []⟩

omit [DecidableEq ι] in
/-- Nor are the calls beside a guest more than a list. -/
theorem forall_call_iff {schedule : List (Option (Move ι))} {P : Call → Prop} :
    (∀ h c, some (.call h c) ∈ schedule → P c) ↔
      ∀ c ∈ schedule.reduceOption.filterMap Move.call?, P c := by
  rw [← System.forall_call_iff]
  simp only [List.reduceOption_mem_iff]

end Guest

/-! ## What guests come to

`Session.Ends` is to guests what `Session.Isolated` is to calls. It is a recursion along the
requests, so each way of putting sessions together has a rule: `bind`, `recover`, `optimistic`, and
for sessions that only read or only commit once `of_reads` and `of_isolated`. The scene carries the
log and the stops, so the condition in the end may speak of what happened on the way. -/

/-- The second scene may be what the first one is when the guest makes its next request: others have
put calls through, of which `P` holds, and `Q` holds of the table now. -/
structure Scene.Later (U : Scope → Prop) (P : Commit → Prop) (Q : Table → Prop) (σ σ' : Scene) :
    Prop where
  stops : σ'.stops = σ.stops
  leads : ∃ ks, σ'.log = σ.log ++ ks ∧ Leads U σ.table ks σ'.table ∧ ∀ k ∈ ks, P k
  met : Q σ'.table

namespace Scene.Later

variable {P : Commit → Prop} {Q Q' : Table → Prop} {σ σ' σ'' : Scene}

theorem refl (σ : Scene) (met : Q σ.table) : σ.Later U P Q σ where
  stops := rfl
  leads := ⟨[], (List.append_nil _).symm, rfl, fun _ hk => absurd hk List.not_mem_nil⟩
  met := met

theorem trans (h : σ.Later U P Q' σ') (h' : σ'.Later U P Q σ'') : σ.Later U P Q σ'' where
  stops := h'.stops.trans h.stops
  leads := by
    obtain ⟨ks, log, leads, hks⟩ := h.leads
    obtain ⟨ks', log', leads', hks'⟩ := h'.leads
    refine ⟨ks ++ ks', ?_, leads.trans leads', List.forall_mem_append.mpr ⟨hks, hks'⟩⟩
    rw [log', log, List.append_assoc]
  met := h'.met

theorem growsTo (h : σ.Later U P Q σ') : σ.table.GrowsTo σ'.table := by
  obtain ⟨ks, -, leads, -⟩ := h.leads
  exact leads.growsTo

end Scene.Later

/-- However others go about it, if every change of scene before a request is one of `others`: when the
session ends, `post` holds of its result and of the scene then. -/
def Session.Ends {α : Type} (others : Scene → Scene → Prop)
    (post : Except StoreError α → Scene → Prop) : Session α → Scene → Prop
  | done result, σ => post result σ
  | ask request next, σ => ∀ σ', others σ σ' →
      (next (σ'.table.answer request).1).Ends others post (σ'.serve request)

/-- Whatever others do, the session leaves sound tables sound. -/
def Session.Abides {α : Type} (sound : Table → Prop) : Session α → Table → Prop
  | done _, _ => True
  | ask request next, t => ∀ t', t.GrowsTo t' → sound t' →
      sound (t'.answer request).2 ∧
        (next (t'.answer request).1).Abides sound (t'.answer request).2

namespace Session

variable {α β : Type} {others : Scene → Scene → Prop} {σ : Scene}

namespace Ends

variable {post : Except StoreError α → Scene → Prop}

theorem imp {post' : Except StoreError α → Scene → Prop} {x : Session α} (h : x.Ends others post σ)
    (hp : ∀ r σ, post r σ → post' r σ) : x.Ends others post' σ := by
  induction x generalizing σ with
  | done result => exact hp result σ h
  | ask request next ih =>
      intro σ' later
      exact ih _ (h σ' later)

theorem and {post' : Except StoreError α → Scene → Prop} {x : Session α} (h : x.Ends others post σ)
    (h' : x.Ends others post' σ) : x.Ends others (fun r σ => post r σ ∧ post' r σ) σ := by
  induction x generalizing σ with
  | done result => exact ⟨h, h'⟩
  | ask request next ih =>
      intro σ' later
      exact ih _ (h σ' later) (h' σ' later)

/-- **One session after another.** -/
theorem bind {post' : Except StoreError β → Scene → Prop} {x : Session α} {f : α → Session β}
    (h : x.Ends others post σ) (ok : ∀ a σ, post (.ok a) σ → (f a).Ends others post' σ)
    (error : ∀ e σ, post (.error e) σ → post' (.error e) σ) : (x.bind f).Ends others post' σ := by
  induction x generalizing σ with
  | done result =>
      cases result with
      | error e => exact error e σ h
      | ok a => exact ok a σ h
  | ask request next ih =>
      intro σ' later
      exact ih _ (h σ' later)

theorem recover {post' : Except StoreError α → Scene → Prop} {x : Session α}
    {f : StoreError → Session α} (h : x.Ends others post σ)
    (ok : ∀ a σ, post (.ok a) σ → post' (.ok a) σ)
    (error : ∀ e σ, post (.error e) σ → (f e).Ends others post' σ) :
    (x.recover f).Ends others post' σ := by
  induction x generalizing σ with
  | done result =>
      cases result with
      | error e => exact error e σ h
      | ok a => exact ok a σ h
  | ask request next ih =>
      intro σ' later
      exact ih _ (h σ' later)

/-- What is left alone by others and by requests that only read is left alone by sessions of them. -/
theorem of_reads {I : Scene → Prop} {x : Session α} (reads : x.Reads) (h : I σ)
    (later : ∀ σ σ', others σ σ' → I σ → I σ')
    (serve : ∀ σ r, r.isTransaction = false → I σ → I (σ.serve r)) :
    x.Ends others (fun _ σ' => I σ') σ := by
  induction x generalizing σ with
  | done result => exact h
  | ask request next ih =>
      intro σ' disturbed
      exact ih _ (reads.2 _) (serve σ' request reads.1 (later σ σ' disturbed h))

/-- A session of a single request that only reads comes to what it comes to on the table it meets. -/
theorem of_single {request : Request} {next : Except BackendError request.Answer → Session α}
    (ends : ∀ answer, ∃ result, next answer = done result)
    (h : ∀ σ', others σ σ' → post ((ask request next).run σ'.table).1 (σ'.serve request)) :
    (ask request next).Ends others post σ := by
  intro σ' later
  have answered : post ((next (σ'.table.answer request).1).run (σ'.table.answer request).2).1
      (σ'.serve request) := h σ' later
  obtain ⟨result, ended⟩ := ends (σ'.table.answer request).1
  rw [ended] at answered ⊢
  exact answered

/-- **An isolated session** goes through with its commit, or keeps what others and answers that change
nothing keep. -/
theorem of_isolated {sound : Table → Prop} {commit : Table → α → Table → Prop}
    {idle : α → Table → Prop} {x : Session α} (h : x.Isolated sound commit idle σ.table)
    {I : Scene → Prop} {J : α → Scene → Prop} (start : I σ)
    (later : ∀ σ σ', others σ σ' → I σ → I σ' ∧ σ.table.GrowsTo σ'.table)
    (holds : ∀ σ, I σ → sound σ.table)
    (serve : ∀ σ r, (σ.table.answer r).2 = σ.table → I σ → I (σ.serve r))
    (commits : ∀ σ σ' r a, others σ σ' → I σ' → r.isTransaction →
      commit σ'.table a (σ'.table.answer r).2 → J a (σ'.serve r))
    (rests : ∀ σ a, I σ → idle a σ.table → J a σ) :
    x.Ends others (fun r σ' => (∀ a, r = .ok a → J a σ') ∧ ∀ e, r = .error e → I σ') σ := by
  induction x generalizing σ with
  | done result =>
      cases result with
      | error e =>
          refine ⟨nofun, fun _ _ => start⟩
      | ok a =>
          refine ⟨?_, nofun⟩
          rintro _ ⟨⟩
          exact rests σ a start h
  | ask request next ih =>
      intro σ' disturbed
      obtain ⟨kept, grows⟩ := later σ σ' disturbed start
      obtain ⟨failed, answered⟩ := h σ'.table grows (holds σ' kept)
      -- whatever is answered, an unchanged table keeps the rest isolated
      have goes (same : (σ'.table.answer request).2 = σ'.table)
          (rest : (next (σ'.table.answer request).1).Isolated sound commit idle σ'.table) :
          (next (σ'.table.answer request).1).Ends others
            (fun r σ' => (∀ a, r = .ok a → J a σ') ∧ ∀ e, r = .error e → I σ') (σ'.serve request) := by
        apply ih
        · show Isolated _ _ _ _ (σ'.table.answer request).2
          rwa [same]
        · exact serve σ' request same kept
      cases ha : (σ'.table.answer request).1 with
      | error e =>
          rw [← ha]
          apply goes (Table.answer_of_error ha)
          rw [ha]
          exact failed e
      | ok a =>
          have answered := answered a ha
          by_cases transaction : request.isTransaction
          · rw [if_pos transaction] at answered
            obtain ⟨x, ended, committed⟩ := answered
            rw [ended]
            refine ⟨?_, nofun⟩
            rintro _ ⟨⟩
            exact commits σ σ' request x disturbed kept transaction committed
          · rw [if_neg transaction] at answered
            rw [← ha]
            apply goes (Table.answer_of_reading (by simpa using transaction))
            rw [ha]
            exact answered

/-- **Attempts made over again.** `I n` holds after the `n`-th conflict. -/
theorem optimistic {policy : RetryPolicy} {attempt : Nat → Session α} {I : Nat → Scene → Prop}
    (start : I 0 σ)
    (h : ∀ n σ, I n σ → (attempt n).Ends others (fun r σ' => (∀ a, r = .ok a → post (.ok a) σ') ∧
      ∀ e, r = .error e → if e.isConflict then I (n + 1) σ' else post (.error e) σ') σ)
    (exhausted : ∀ σ, I policy.attempts σ →
      post (.error (.retriesExhausted policy.attempts)) σ) :
    (Session.optimistic policy attempt).Ends others post σ := by
  -- by induction on the attempts left
  suffices ∀ left n σ, n + left = policy.attempts → I n σ →
      (attemptFrom attempt n left).Ends others post σ from
    this policy.attempts 0 σ (Nat.zero_add _) start
  intro left
  induction left with
  | zero =>
      intro n σ all hn
      obtain rfl : n = policy.attempts := all
      exact exhausted σ hn
  | succ left ih =>
      intro n σ all hn
      apply (h n σ hn).recover
      · intro a σ' ended
        exact ended.1 a rfl
      · intro e σ' ended
        have ended := ended.2 e rfl
        by_cases conflict : e.isConflict
        · rw [if_pos conflict] at ended ⊢
          exact ih (n + 1) σ' (by omega) ended
        · rw [if_neg conflict] at ended ⊢
          exact ended

end Ends

namespace Abides

variable {sound : Table → Prop}

theorem of_growsTo {x : Session α} (h : x.Abides sound t) (grows : t.GrowsTo t') :
    x.Abides sound t' := by
  cases x with
  | done result => trivial
  | ask request next => exact fun t'' grows' => h t'' (grows.trans grows')

theorem bind {x : Session α} {f : α → Session β} (ht : sound t) (h : x.Abides sound t)
    (hf : ∀ a t', t.GrowsTo t' → sound t' → (f a).Abides sound t') : (x.bind f).Abides sound t := by
  induction x generalizing t with
  | done result =>
      cases result with
      | error e => trivial
      | ok a => exact hf a t (.refl t) ht
  | ask request next ih =>
      intro t' grows ht'
      obtain ⟨kept, rest⟩ := h t' grows ht'
      refine ⟨kept, ih _ kept rest fun a t'' grows' => hf a t'' ?_⟩
      exact (grows.trans (t'.growsTo_answer request)).trans grows'

theorem of_reads {x : Session α} (h : x.Reads) (t : Table) : x.Abides sound t := by
  induction x generalizing t with
  | done result => trivial
  | ask request next ih =>
      intro t' grows ht'
      rw [Table.answer_of_reading h.1]
      exact ⟨ht', ih _ (h.2 _) t'⟩

theorem collect {f : α → Session β} {as : List α} (ht : sound t)
    (h : ∀ a ∈ as, ∀ t', t.GrowsTo t' → sound t' → (f a).Abides sound t') :
    (Session.collect f as).Abides sound t := by
  induction as generalizing t with
  | nil => trivial
  | cons a as ih =>
      obtain ⟨first, rest⟩ := List.forall_mem_cons.mp h
      apply (first t (.refl t) ht).bind ht
      intro b t' grows ht'
      apply (ih ht' fun a ha t'' grows' => rest a ha t'' (grows.trans grows')).bind ht'
      intro bs t'' _ _
      trivial

/-- An isolated session leaves sound tables sound if its commit does. -/
theorem of_isolated {commit : Table → α → Table → Prop} {post : α → Table → Prop} {x : Session α}
    (h : x.Isolated sound commit post t) (kept : ∀ t a t', commit t a t' → sound t') :
    x.Abides sound t := by
  induction x generalizing t with
  | done result => trivial
  | ask request next ih =>
      intro t' grows ht'
      obtain ⟨failed, answered⟩ := h t' grows ht'
      cases ha : (t'.answer request).1 with
      | error e =>
          rw [Table.answer_of_error ha]
          exact ⟨ht', ih _ (failed e)⟩
      | ok a =>
          have answered := answered a ha
          by_cases transaction : request.isTransaction
          · rw [if_pos transaction] at answered
            obtain ⟨x, ended, committed⟩ := answered
            rw [ended]
            exact ⟨kept _ _ _ committed, trivial⟩
          · rw [if_neg transaction] at answered
            rw [Table.answer_of_reading (by simpa using transaction)]
            exact ⟨ht', ih _ answered⟩

end Abides

end Session

/-! ## Every schedule

The invariant of a guest along a schedule (`Guest.Fares`) is that the rest of its session ends well
under whatever others may still do. A move of a handle is part of that, and a request of the guest
is the next step of the recursion. -/

namespace Guest

variable {ι α β : Type} {P : Commit → Prop} {Q : Table → Prop}
  {post : Except StoreError α → Scene → Prop}

/-- What holds of a guest all the time: what is still to be done ends as it should, from the scene
after its last request on. -/
structure Fares (U : Scope → Prop) (P : Commit → Prop) (Q : Table → Prop)
    (post : Except StoreError α → Scene → Prop) (g : Guest ι α) : Prop where
  lively : g.host.Lively U
  abides : g.rest.Abides (Table.Sound U) g.host.table
  ends : ∃ σ, σ.Later U P (fun _ => True) g.scene ∧ g.rest.Ends (Scene.Later U P Q) post σ

variable [DecidableEq ι] {g : Guest ι α}

/-- The log and the stops only get longer. -/
theorem prefix_foldl (g : Guest ι α) (schedule : List (Option (Move ι))) :
    g.host.log <+: (schedule.foldl step g).host.log ∧ g.stops <+: (schedule.foldl step g).stops := by
  induction schedule generalizing g with
  | nil => exact ⟨List.prefix_refl _, List.prefix_refl _⟩
  | cons m schedule ih =>
      have one : g.host.log <+: (g.step m).host.log ∧ g.stops <+: (g.step m).stops := by
        cases m with
        | some m => exact ⟨System.log_prefix_step g.host m, List.prefix_refl _⟩
        | none =>
            rw [step, serve]
            split
            · exact ⟨List.prefix_refl _, List.prefix_refl _⟩
            · exact ⟨List.prefix_refl _, List.prefix_append _ _⟩
      obtain ⟨log, stops⟩ := ih (g.step m)
      exact ⟨one.1.trans log, one.2.trans stops⟩

/-- What holds of every call made holds of every call that committed. -/
theorem foldl_each {P : Call → Prop} (hg : g.host.Each P) {schedule : List (Option (Move ι))}
    (h : ∀ h c, some (.call h c) ∈ schedule → P c) : (schedule.foldl step g).host.Each P := by
  induction schedule generalizing g with
  | nil => exact hg
  | cons m schedule ih =>
      have one : (g.step m).host.Each P := by
        cases m with
        | some m => exact System.step_each hg fun i c hm => h i c (by simp [hm])
        | none =>
            rw [step, serve]
            split
            · exact hg
            · exact hg
      exact ih one fun i c hc => h i c (List.mem_cons_of_mem m hc)

namespace Fares

/-- **Nothing that happens takes a guest off its course.** -/
theorem step (sep : Scope.Separated U) (hg : g.Fares U P Q post) {m : Option (Move ι)}
    (within : ∀ h c, m = some (.call h c) → c.Within U)
    (commits : ∀ k ∈ (g.step m).host.log, P k) (met : ∀ v ∈ (g.step m).stops, Q v.table) :
    (g.step m).Fares U P Q post := by
  obtain ⟨lively, abides, σ, later, ends⟩ := hg
  cases m with
  | some m =>
      obtain ⟨lively', ks, log, leads⟩ :=
        lively.step sep (m := m) fun h c hm => within h c (congrArg some hm)
      refine ⟨lively', abides.of_growsTo leads.growsTo, σ, later.trans ?_, ends⟩
      refine ⟨rfl, ⟨ks, log, leads, fun k hk => commits k ?_⟩, trivial⟩
      show k ∈ (g.host.step m).log
      rw [log]
      exact List.mem_append_right _ hk
  | none =>
      obtain ⟨host, rest, stops⟩ := g
      cases rest with
      | done result => exact ⟨lively, abides, σ, later, ends⟩
      | ask request next =>
          obtain ⟨sound, abides⟩ := abides host.table (.refl _) lively.sound
          have here : Q host.table :=
            met ⟨⟨request, host.table⟩, host.log.length⟩ (List.mem_append_right _ (by simp [scene]))
          refine ⟨lively.later (host.table.growsTo_answer request) sound, abides,
            (⟨host.table, host.log, stops⟩ : Scene).serve request, .refl _ trivial, ?_⟩
          exact ends _ ⟨later.stops, later.leads, here⟩

/-- **Nor does any schedule.** -/
theorem foldl (sep : Scope.Separated U) (hg : g.Fares U P Q post)
    {schedule : List (Option (Move ι))}
    (within : ∀ h c, some (.call h c) ∈ schedule → c.Within U)
    (commits : ∀ k ∈ (schedule.foldl Guest.step g).host.log, P k)
    (met : ∀ v ∈ (schedule.foldl Guest.step g).stops, Q v.table) :
    (schedule.foldl Guest.step g).Fares U P Q post := by
  induction schedule generalizing g with
  | nil => exact hg
  | cons m schedule ih =>
      obtain ⟨log, stops⟩ := prefix_foldl (g.step m) schedule
      refine ih (hg.step sep (fun h c hm => within h c (by simp [hm]))
        (fun k hk => commits k (log.subset hk)) fun v hv => met v (stops.subset hv))
        (fun h c hc => within h c (List.mem_cons_of_mem m hc)) commits met

omit [DecidableEq ι] in
/-- What holds when the guest is over. -/
theorem ended (hg : g.Fares U P Q post) {result : Except StoreError α} (ended : g.rest = .done result) :
    ∃ σ : Scene, σ.Later U P (fun _ => True) g.scene ∧ post result σ := by
  obtain ⟨-, -, σ, later, ends⟩ := hg
  rw [ended] at ends
  exact ⟨σ, later, ends⟩

end Fares

/-- **A guest ends as it should, in every schedule.** -/
theorem run_ends (sep : Scope.Separated U) {σ : System ι} (lively : σ.Lively U) {x : Session α}
    (abides : x.Abides (Table.Sound U) σ.table) {schedule : List (Option (Move ι))}
    (within : ∀ h c, some (.call h c) ∈ schedule → c.Within U)
    (commits : ∀ k ∈ (run σ x schedule).host.log, P k)
    (met : ∀ v ∈ (run σ x schedule).stops, Q v.table)
    (ends : x.Ends (Scene.Later U P Q) post ⟨σ.table, σ.log, []⟩) {result : Except StoreError α}
    (ended : (run σ x schedule).rest = .done result) :
    ∃ scene : Scene, scene.Later U P (fun _ => True) (run σ x schedule).scene ∧ post result scene := by
  have start : Fares U P Q post (⟨σ, x, []⟩ : Guest ι α) :=
    ⟨lively, abides, ⟨σ.table, σ.log, []⟩, .refl _ trivial, ends⟩
  exact (start.foldl sep within commits met).ended ended

/-! ## Guests in parts

A session in two parts, run as one guest, goes through a state where the first part is over and the
second has not begun. What the first part has come to there is what the second part starts from. -/

/-- The guest that goes on with another session. -/
def andThen (g : Guest ι α) (f : α → Session β) : Guest ι β := ⟨g.host, g.rest.bind f, g.stops⟩

/-- A guest that is over stays over. -/
theorem rest_foldl_of_done {result : Except StoreError α} (done : g.rest = .done result)
    (schedule : List (Option (Move ι))) : (schedule.foldl Guest.step g).rest = .done result := by
  induction schedule generalizing g with
  | nil => exact done
  | cons m schedule ih =>
      apply ih
      cases m with
      | some m => exact done
      | none =>
          rw [Guest.step, serve, done]
          exact done

/-- Until its first part is over a guest goes on as if there were no other. -/
theorem exists_of_foldl_ok {f : α → Session β} {a : α} {schedule : List (Option (Move ι))}
    (passed : (schedule.foldl Guest.step g).rest = .done (.ok a)) :
    ∃ s s', schedule = s ++ s' ∧ (s.foldl Guest.step g).rest = .done (.ok a) ∧
      s.foldl Guest.step (g.andThen f) = (s.foldl Guest.step g).andThen f := by
  induction schedule generalizing g with
  | nil => exact ⟨[], [], rfl, passed, rfl⟩
  | cons m schedule ih =>
      cases hg : g.rest with
      | done result =>
          rw [rest_foldl_of_done hg] at passed
          exact ⟨[], m :: schedule, rfl, hg.trans passed, rfl⟩
      | ask request next =>
          -- While the first part has a request to make, it is the next request of both guests.
          have same : (g.andThen f).step m = (g.step m).andThen f := by
            cases m with
            | some m => rfl
            | none => simp only [Guest.step, serve, andThen, hg, Session.bind]; rfl
          obtain ⟨s, s', rfl, ends, goes⟩ := ih passed
          refine ⟨m :: s, s', rfl, ends, ?_⟩
          rw [List.foldl_cons, same, goes]
          rfl

/-- **What a guest comes to once a first part of its session has gone through.** -/
theorem run_andThen_ends (sep : Scope.Separated U) {σ : System ι} (lively : σ.Lively U)
    {x : Session α} {f : α → Session β} {post' : Except StoreError β → Scene → Prop}
    (abides : x.Abides (Table.Sound U) σ.table)
    (abides' : ∀ a t, t.Sound U → (f a).Abides (Table.Sound U) t)
    {schedule : List (Option (Move ι))} (within : ∀ h c, some (.call h c) ∈ schedule → c.Within U)
    (commits : ∀ k ∈ (run σ (x.bind f) schedule).host.log, P k)
    (met : ∀ v ∈ (run σ (x.bind f) schedule).stops, Q v.table)
    (ends : x.Ends (Scene.Later U P Q) post ⟨σ.table, σ.log, []⟩)
    (ends' : ∀ a σ, post (.ok a) σ → (f a).Ends (Scene.Later U P Q) post' σ) {a : α}
    (passed : (run σ x schedule).rest = .done (.ok a)) {result : Except StoreError β}
    (ended : (run σ (x.bind f) schedule).rest = .done result) :
    ∃ scene : Scene, scene.Later U P (fun _ => True) (run σ (x.bind f) schedule).scene ∧
      post' result scene := by
  obtain ⟨s, s', rfl, done, goes⟩ := exists_of_foldl_ok (f := f) passed
  have goes : s.foldl Guest.step (⟨σ, x.bind f, []⟩ : Guest ι β) =
    (s.foldl Guest.step ⟨σ, x, []⟩).andThen f := goes
  rw [run, List.foldl_append, goes] at commits met ended ⊢
  obtain ⟨log, stops⟩ := prefix_foldl ((s.foldl Guest.step ⟨σ, x, []⟩).andThen f) s'
  have start : Fares U P Q post (⟨σ, x, []⟩ : Guest ι α) :=
    ⟨lively, abides, ⟨σ.table, σ.log, []⟩, .refl _ trivial, ends⟩
  have first := start.foldl sep
    (fun h c hc => within h c (List.mem_append_left _ hc))
    (fun k hk => commits k (log.subset hk)) fun v hv => met v (stops.subset hv)
  obtain ⟨scene, later, holds⟩ := first.ended done
  -- At the point where the first part is over the guest fares on with the second.
  have second : Fares U P Q post' ((s.foldl Guest.step ⟨σ, x, []⟩).andThen f) := by
    have rest : ((s.foldl Guest.step ⟨σ, x, []⟩).andThen f).rest = f a := by
      rw [andThen, done]
      rfl
    refine ⟨first.lively, ?_, scene, later, ?_⟩
    · rw [rest]
      exact abides' a _ first.lively.sound
    · rw [rest]
      exact ends' a scene holds
  exact (second.foldl sep (fun h c hc => within h c (List.mem_append_right _ hc)) commits met).ended
    ended

end Guest

end ScopedConfig
