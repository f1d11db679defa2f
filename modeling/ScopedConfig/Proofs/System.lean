import Mathlib.Data.List.Nodup
import ScopedConfig.Proofs.Calls

/-!
# Handles on one backend

Any number of handles run calls on one table, a request at a time and in any order. `System.run` is
what comes of a schedule; it also logs the transactions that went through, in their order.
`System.run_traced` is what holds of it, by one step lemma and an induction on the schedule: the log
is a trace of the table from the empty one (`Traces`), and every call has either committed once, with
the answer that the trace gives it, or not at all (`Progress.Settled`).
-/

namespace ScopedConfig

/-- A transaction that went through, with the table before and after it. -/
structure Commit where
  call : Call
  before : Table
  after : Table

/-- How far a call has come. -/
structure Progress where
  call : Call
  /-- What is still to be done. -/
  rest : Session Reply
  /-- The places of the call's transactions in the log. -/
  commits : List Nat

def Progress.isOver (p : Progress) : Bool :=
  match p.rest with
  | .done _ => true
  | .ask .. => false

/-- A backend and the handles on it. -/
structure System (ι : Type) where
  table : Table
  /-- The transactions that went through, in their order. -/
  log : List Commit
  /-- The calls of every handle, the current one first. -/
  calls : ι → List Progress

/-- One thing that may happen next. -/
inductive Move (ι : Type) where
  /-- A handle whose calls are over begins another one. -/
  | call (h : ι) (c : Call)
  /-- The backend answers the next request of a handle. -/
  | serve (h : ι)
  /-- The next request of a handle fails, and does nothing. -/
  | fail (h : ι) (e : BackendError)

/-- The call that a move begins. -/
def Move.call? {ι : Type} : Move ι → Option Call
  | .call _ c => some c
  | .serve _ | .fail _ _ => none

namespace System

variable {ι : Type} [DecidableEq ι]

/-- The empty backend, with no calls yet. -/
def start : System ι := ⟨.empty, [], fun _ => []⟩

/-- What comes of a move. A move that is not due changes nothing. -/
def step (σ : System ι) : Move ι → System ι
  | .call h c =>
    if (σ.calls h).head?.all Progress.isOver then
      { σ with calls := Function.update σ.calls h (⟨c, c.session, []⟩ :: σ.calls h) }
    else σ
  | .serve h =>
    match σ.calls h with
    | ⟨c, .ask request next, commits⟩ :: earlier =>
      let (answer, table) := σ.table.answer request
      if request.isTransaction && answer.isOk then
        ⟨table, σ.log ++ [⟨c, σ.table, table⟩],
          Function.update σ.calls h (⟨c, next answer, commits ++ [σ.log.length]⟩ :: earlier)⟩
      else
        { σ with calls := Function.update σ.calls h (⟨c, next answer, commits⟩ :: earlier) }
    | _ => σ
  | .fail h e =>
    match σ.calls h with
    | ⟨c, .ask _ next, commits⟩ :: earlier =>
      { σ with calls := Function.update σ.calls h (⟨c, next (.error e), commits⟩ :: earlier) }
    | _ => σ

/-- What comes of a schedule. -/
def run (moves : List (Move ι)) : System ι := moves.foldl step start

omit [DecidableEq ι] in
/-- The calls of a schedule are a list, so what is to hold of each of them can be checked. -/
theorem forall_call_iff {moves : List (Move ι)} {P : Call → Prop} :
    (∀ h c, .call h c ∈ moves → P c) ↔ ∀ c ∈ moves.filterMap Move.call?, P c := by
  constructor
  · intro each c hc
    obtain ⟨m, mem, begins⟩ := List.mem_filterMap.mp hc
    cases m with
    | call h c' =>
        obtain rfl : c' = c := Option.some.inj begins
        exact each h c' mem
    | serve | fail => cases begins
  · intro each h c mem
    exact each c (List.mem_filterMap.mpr ⟨.call h c, mem, rfl⟩)

end System

/-! ## Traces

A trace goes through the commits of a log one by one, with the table and with the ledger. Whatever
is to be shown of a run without its calls in progress is shown by induction on the trace. -/

/-- The commits lead from the empty table to `t` and from the empty ledger to `l`, with these
answers. -/
inductive Traces (U : Scope → Prop) : List Commit → List Reply → Table → Ledger → Prop where
  | start : Traces U [] [] .empty .empty
  | commit {cs : List Commit} {rs : List Reply} {t t' : Table} {l l' : Ledger} {c : Call}
      {r : Reply} (earlier : Traces U cs rs t l)
      (within : c.Within U) (does : c.Does t r t') (serves : l.Serves c r l')
      (depicts : t'.Depicts U l') : Traces U (cs ++ [⟨c, t, t'⟩]) (rs ++ [r]) t' l'

variable {U : Scope → Prop} {t t' : Table} {l l' : Ledger}

namespace Traces

variable {cs : List Commit} {rs : List Reply}

theorem depicts (h : Traces U cs rs t l) : t.Depicts U l := by
  cases h with
  | start => exact .empty
  | commit _ _ _ _ depicts => exact depicts

theorem length_eq (h : Traces U cs rs t l) : rs.length = cs.length := by
  induction h with
  | start => rfl
  | commit _ _ _ _ _ ih => rw [List.length_append, List.length_append, ih]; rfl

/-- The ledger is what comes of the calls, one after another. -/
theorem runs (h : Traces U cs rs t l) : Ledger.empty.Runs (cs.map Commit.call) rs l := by
  induction h with
  | start => rfl
  | commit _ _ _ serves _ ih =>
      rw [List.map_append]
      exact ih.concat serves

/-- **What every commit keeps of the ledger holds at the end of a trace.** -/
theorem kept (h : Traces U cs rs t l) {I : Ledger → Prop} (start : I .empty)
    (step : ∀ k ∈ cs, ∀ l r l', k.before.Depicts U l → I l → l.Serves k.call r l' → I l') : I l := by
  induction h with
  | start => exact start
  | commit earlier within does serves depicts ih =>
      obtain ⟨steps, last⟩ := List.forall_mem_append.mp step
      exact last _ (List.mem_singleton_self _) _ _ _ earlier.depicts (ih steps) serves

/-- What is known of a single commit. -/
theorem of_mem (h : Traces U cs rs t l) {c : Commit} (hc : c ∈ cs) :
    ∃ l r l', c.before.Depicts U l ∧ c.call.Within U ∧ c.call.Does c.before r c.after ∧
      l.Serves c.call r l' ∧ c.after.Depicts U l' := by
  induction h with
  | start => cases hc
  | commit earlier within does serves depicts ih =>
      rcases List.mem_append.mp hc with hc | hc
      · exact ih hc
      · obtain rfl := List.mem_singleton.mp hc
        exact ⟨_, _, _, earlier.depicts, within, does, serves, depicts⟩

end Traces

/-! ## The invariant

Calls in progress come in here. One that has not committed is isolated from the table as it is, and
stays so while others commit, because their transactions make the table grow. One that has committed
is over. A move changes the state of one handle, which `Traced.update` takes care of for all kinds
of moves. -/

/-- A call has committed once and answered as the log says, or it has not committed; then it has
not answered either, unless it is idle. -/
def Progress.Settled (p : Progress) (cs : List Commit) (rs : List Reply) : Prop :=
  (p.commits = [] ∧ ∀ r, p.rest = .done (.ok r) → p.call.Idle r) ∨
  ∃ k r, p.commits = [k] ∧ cs[k]?.map Commit.call = some p.call ∧ rs[k]? = some r ∧
    p.rest = .done (.ok r)

/-- A call is isolated until it commits. -/
def Progress.Sound (U : Scope → Prop) (p : Progress) (cs : List Commit) (rs : List Reply)
    (t : Table) : Prop :=
  p.call.Within U ∧ p.Settled cs rs ∧ (p.commits = [] → p.rest.Isolated (Table.Sound U)
    (fun t r t' => t.Sound U ∧ p.call.Does t r t') (fun r _ => p.call.Idle r) t)

theorem Progress.Sound.later {p : Progress} {cs cs' : List Commit} {rs rs' : List Reply}
    (h : p.Sound U cs rs t) (grows : t.GrowsTo t') :
    p.Sound U (cs ++ cs') (rs ++ rs') t' := by
  obtain ⟨within, settled, isolated⟩ := h
  refine ⟨within, ?_, fun running => (isolated running).of_growsTo grows fun _ idle => idle⟩
  rcases settled with settled | ⟨k, r, commits, call, reply, rest⟩
  · exact .inl settled
  · refine .inr ⟨k, r, commits, ?_, ?_, rest⟩
    · obtain ⟨c, hc, eq⟩ := Option.map_eq_some_iff.mp call
      rw [List.getElem?_append_left (List.getElem?_eq_some_iff.mp hc).1, hc, Option.map_some, eq]
    · rw [List.getElem?_append_left (List.getElem?_eq_some_iff.mp reply).1, reply]

/-- A call that still asks has not committed. -/
theorem Progress.Sound.running_of_ask {c : Call} {request : Request}
    {next : Except BackendError request.Answer → Session Reply} {commits : List Nat}
    {cs : List Commit} {rs : List Reply} (h : Progress.Sound U ⟨c, .ask request next, commits⟩ cs rs t) :
    commits = [] := by
  rcases h.2.1 with ⟨commits, -⟩ | ⟨k, r, -, -, -, rest⟩
  · exact commits
  · cases rest

/-- A session that goes on without a transaction. -/
theorem Progress.Sound.of_isolated {c : Call} {rest : Session Reply} {cs : List Commit}
    {rs : List Reply} (within : c.Within U) (isolated : rest.Isolated (Table.Sound U)
      (fun t r t' => t.Sound U ∧ c.Does t r t') (fun r _ => c.Idle r) t) :
    Progress.Sound U ⟨c, rest, []⟩ cs rs t := by
  refine ⟨within, .inl ⟨rfl, fun r hr => ?_⟩, fun _ => isolated⟩
  obtain rfl : rest = .done (.ok r) := hr
  exact isolated

namespace System

variable {ι : Type} [DecidableEq ι]

/-- The places in the log that a handle's calls have taken. -/
def places (σ : System ι) (h : ι) : List Nat := (σ.calls h).flatMap Progress.commits

/-- Every transaction in the log is that of one call, and of no other. -/
structure Attributed (σ : System ι) : Prop where
  owned : ∀ k < σ.log.length, ∃ h, k ∈ σ.places h
  once : ∀ h, (σ.places h).Nodup
  apart : ∀ h h', h ≠ h' → (σ.places h).Disjoint (σ.places h')

/-- What holds of a system all the time. -/
structure Traced (U : Scope → Prop) (σ : System ι) (rs : List Reply) (l : Ledger) : Prop where
  trace : Traces U σ.log rs σ.table l
  sound : ∀ h, ∀ p ∈ σ.calls h, p.Sound U σ.log rs σ.table
  attributed : σ.Attributed

omit [DecidableEq ι] in
theorem start_traced : (start : System ι).Traced U [] .empty where
  trace := .start
  sound _ _ hp := by cases hp
  attributed :=
    { owned := fun k hk => absurd hk (Nat.not_lt_zero k)
      once := fun _ => List.nodup_nil
      apart := fun _ _ _ => List.disjoint_nil_left _ }

omit [DecidableEq ι] in
theorem Traced.lt_of_mem_places {σ : System ι} {rs : List Reply} (hσ : σ.Traced U rs l) {h : ι}
    {k : Nat} (hk : k ∈ σ.places h) : k < σ.log.length := by
  obtain ⟨p, hp, mem⟩ := List.mem_flatMap.mp hk
  rcases (hσ.sound h p hp).2.1 with ⟨none, -⟩ | ⟨k', r, commits, call, -, -⟩
  · rw [none] at mem
    cases mem
  · rw [commits, List.mem_singleton] at mem
    obtain ⟨c, hc, -⟩ := Option.map_eq_some_iff.mp call
    exact mem ▸ (List.getElem?_eq_some_iff.mp hc).1

/-- New places are those at the end of the log. -/
theorem Traced.attributed_update {σ : System ι} {rs : List Reply} {cs : List Commit}
    (hσ : σ.Traced U rs l) {h : ι} {old earlier : List Progress} {p : Progress}
    (calls : σ.calls h = old ++ earlier)
    (commits : p.commits = List.range' σ.log.length cs.length ++ old.flatMap Progress.commits) :
    (⟨t, σ.log ++ cs, Function.update σ.calls h (p :: earlier)⟩ : System ι).Attributed := by
  obtain ⟨owned, once, apart⟩ := hσ.attributed
  have places : ∀ h', places ⟨t, σ.log ++ cs, Function.update σ.calls h (p :: earlier)⟩ h' =
      if h' = h then List.range' σ.log.length cs.length ++ σ.places h else σ.places h' := by
    intro h'
    show (Function.update σ.calls h (p :: earlier) h').flatMap Progress.commits = _
    by_cases same : h' = h
    · rw [if_pos same, same, Function.update_self, List.flatMap_cons, commits, System.places, calls,
        List.flatMap_append, List.append_assoc]
    · rw [if_neg same, Function.update_of_ne same]
      rfl
  -- places that are taken lie within the log, so the new ones are nobody's yet
  have new : ∀ h', (List.range' σ.log.length cs.length).Disjoint (σ.places h') := by
    intro h' k hk hk'
    have := (List.mem_range'_1.mp hk).1
    have := hσ.lt_of_mem_places hk'
    omega
  refine ⟨fun k hk => ?_, fun h' => ?_, fun h₁ h₂ ne => ?_⟩
  · rw [List.length_append] at hk
    by_cases known : k < σ.log.length
    · obtain ⟨h', hk'⟩ := owned k known
      refine ⟨h', ?_⟩
      rw [places]
      split
      · next same => exact List.mem_append_right _ (same ▸ hk')
      · exact hk'
    · refine ⟨h, ?_⟩
      rw [places, if_pos rfl]
      exact List.mem_append_left _ (List.mem_range'_1.mpr (by omega))
  · rw [places]
    split
    · exact List.nodup_append'.mpr ⟨List.nodup_range', once h, new h⟩
    · exact once h'
  · rw [places, places]
    split
    · next same =>
      rw [if_neg (fun same' => ne (same.trans same'.symm)), List.disjoint_append_left]
      exact ⟨new h₂, apart h h₂ (same ▸ ne)⟩
    · split
      · next same =>
        rw [List.disjoint_append_right]
        exact ⟨List.disjoint_comm.mp (new h₁), apart h₁ h (same ▸ ne)⟩
      · exact apart h₁ h₂ ne

/-- A handle has come on, perhaps with a transaction, and the others stand by. -/
theorem Traced.update {σ : System ι} {rs rs' : List Reply} {cs : List Commit}
    (hσ : σ.Traced U rs l) {h : ι} {earlier : List Progress} {p : Progress} (old : List Progress)
    (calls : σ.calls h = old ++ earlier) (grows : σ.table.GrowsTo t)
    (trace : Traces U (σ.log ++ cs) (rs ++ rs') t l')
    (sound : p.Sound U (σ.log ++ cs) (rs ++ rs') t)
    (commits : p.commits = List.range' σ.log.length cs.length ++ old.flatMap Progress.commits) :
    Traced U ⟨t, σ.log ++ cs, Function.update σ.calls h (p :: earlier)⟩ (rs ++ rs') l' where
  trace := trace
  sound h' q hq := by
    by_cases same : h' = h
    · subst same
      simp only [Function.update_self] at hq
      rcases List.mem_cons.mp hq with rfl | hq
      · exact sound
      · exact (hσ.sound h' q (calls ▸ List.mem_append_right old hq)).later grows
    · simp only [Function.update_of_ne same] at hq
      exact (hσ.sound h' q hq).later grows
  attributed := hσ.attributed_update calls commits

/-- A handle has come on without a transaction. -/
theorem Traced.quiet {σ : System ι} {rs : List Reply} (hσ : σ.Traced U rs l) {h : ι}
    {earlier : List Progress} {p : Progress} (old : List Progress)
    (calls : σ.calls h = old ++ earlier) (sound : p.Sound U σ.log rs σ.table)
    (commits : p.commits = old.flatMap Progress.commits) :
    Traced U { σ with calls := Function.update σ.calls h (p :: earlier) } rs l := by
  have same : Traced U ⟨σ.table, σ.log ++ [], Function.update σ.calls h (p :: earlier)⟩ (rs ++ []) l :=
    hσ.update old calls (.refl _) (by simpa using hσ.trace) (by simpa using sound)
      (by simpa using commits)
  simpa using same

omit [DecidableEq ι] in
/-- What is known of a handle whose current call asks. -/
theorem Traced.asking {σ : System ι} {rs : List Reply} (hσ : σ.Traced U rs l) {h : ι} {c : Call}
    {request : Request} {next : Except BackendError request.Answer → Session Reply}
    {commits : List Nat} {earlier : List Progress}
    (calls : σ.calls h = ⟨c, .ask request next, commits⟩ :: earlier) :
    commits = [] ∧ c.Within U ∧ (Session.ask request next).Isolated (Table.Sound U)
      (fun t r t' => t.Sound U ∧ c.Does t r t') (fun r _ => c.Idle r) σ.table := by
  have hp := hσ.sound h ⟨c, .ask request next, commits⟩ (by rw [calls]; simp)
  have running := hp.running_of_ask
  obtain ⟨within, -, isolated⟩ := hp
  exact ⟨running, within, isolated running⟩

/-- **Every move keeps the invariant.** -/
theorem step_traced (sep : Scope.Separated U) {σ : System ι} {rs : List Reply}
    (hσ : σ.Traced U rs l) {m : Move ι} (within : ∀ h c, m = .call h c → c.Within U) :
    ∃ rs' l', (σ.step m).Traced U rs' l' := by
  have sound : σ.table.Sound U := ⟨l, hσ.trace.depicts⟩
  cases m with
  | call h c =>
      rw [step]
      by_cases due : (σ.calls h).head?.all Progress.isOver
      · rw [if_pos due]
        have hc := within h c rfl
        exact ⟨rs, l, hσ.quiet [] rfl
          (.of_isolated hc (Call.isolated_session sep hc sound)) (by simp)⟩
      · rw [if_neg due]
        exact ⟨rs, l, hσ⟩
  | serve h =>
      rw [step]
      split
      · next c request next commits earlier calls =>
        -- the others have only made the table grow, so the session still is isolated
        obtain ⟨rfl, hc, isolated⟩ := hσ.asking calls
        obtain ⟨failed, answered⟩ := isolated σ.table (.refl _) sound
        cases ha : (σ.table.answer request).1 with
        | error e =>
            have rest : Progress.Sound U ⟨c, next (.error e), []⟩ σ.log rs σ.table :=
              .of_isolated hc (failed e)
            refine ⟨rs, l, ?_⟩
            simpa [ha, Except.isOk, Except.toBool] using
              hσ.quiet [_] calls rest (by simp)
        | ok a =>
            have answered := answered a ha
            by_cases transaction : request.isTransaction
            · -- the call commits here, and the log gets one entry and one answer more
              rw [if_pos transaction] at answered
              obtain ⟨r, rest, -, does⟩ := answered
              obtain ⟨l', serves, depicts⟩ := Call.exists_serves sep hσ.trace.depicts hc does
              have trace := hσ.trace.commit hc does serves depicts
              have settled : Progress.Sound U ⟨c, next (.ok a), [σ.log.length]⟩
                  (σ.log ++ [⟨c, σ.table, (σ.table.answer request).2⟩]) (rs ++ [r])
                  (σ.table.answer request).2 := by
                refine ⟨hc, .inr ⟨σ.log.length, r, rfl, by simp, ?_, rest⟩, by simp⟩
                rw [← hσ.trace.length_eq, List.getElem?_concat_length]
              refine ⟨rs ++ [r], l', ?_⟩
              have moved := hσ.update [_] calls (σ.table.growsTo_answer request) trace
                settled (by simp)
              simpa [ha, transaction, Except.isOk, Except.toBool] using moved
            · rw [if_neg transaction] at answered
              have rest : Progress.Sound U ⟨c, next (.ok a), []⟩ σ.log rs σ.table :=
                .of_isolated hc answered
              refine ⟨rs, l, ?_⟩
              simpa [ha, transaction] using hσ.quiet [_] calls rest (by simp)
      · exact ⟨rs, l, hσ⟩
  | fail h e =>
      rw [step]
      split
      · next c request next commits earlier calls =>
        obtain ⟨rfl, hc, isolated⟩ := hσ.asking calls
        obtain ⟨failed, -⟩ := isolated σ.table (.refl _) sound
        exact ⟨rs, l, hσ.quiet [_] calls (.of_isolated hc (failed e)) (by simp)⟩
      · exact ⟨rs, l, hσ⟩

/-! ## The calls made

What holds of every call that a schedule makes holds of every call in the log, as no other calls get
there. -/

/-- What holds of every call of a system. -/
def Each (P : Call → Prop) (σ : System ι) : Prop :=
  (∀ h, ∀ p ∈ σ.calls h, P p.call) ∧ ∀ k ∈ σ.log, P k.call

theorem Each.update {P : Call → Prop} {σ : System ι} (hσ : σ.Each P) {h : ι} {p : Progress}
    {earlier : List Progress} (old : List Progress) (calls : σ.calls h = old ++ earlier)
    (hp : P p.call) {h' : ι} {q : Progress} (hq : q ∈ Function.update σ.calls h (p :: earlier) h') : P q.call := by
  by_cases same : h' = h
  · subst same
    rw [Function.update_self] at hq
    rcases List.mem_cons.mp hq with rfl | hq
    · exact hp
    · exact hσ.1 h' q (calls ▸ List.mem_append_right old hq)
  · rw [Function.update_of_ne same] at hq
    exact hσ.1 h' q hq

/-- A move makes no other calls than its own. -/
theorem step_each {P : Call → Prop} {σ : System ι} (hσ : σ.Each P) {m : Move ι}
    (hm : ∀ h c, m = .call h c → P c) : (σ.step m).Each P := by
  cases m with
  | call h c =>
      rw [step]
      split
      · exact ⟨fun h' q hq => hσ.update [] rfl (hm h c rfl) hq, hσ.2⟩
      · exact hσ
  | serve h =>
      rw [step]
      split
      · next c request next commits earlier calls =>
        have hc : P c := hσ.1 h ⟨c, .ask request next, commits⟩ (by rw [calls]; simp)
        simp only
        split
        · refine ⟨fun h' q hq => hσ.update [_] calls hc hq, fun k hk => ?_⟩
          rcases List.mem_append.mp hk with hk | hk
          · exact hσ.2 k hk
          · rw [List.mem_singleton.mp hk]
            exact hc
        · exact ⟨fun h' q hq => hσ.update [_] calls hc hq, hσ.2⟩
      · exact hσ
  | fail h e =>
      rw [step]
      split
      · next c request next commits earlier calls =>
        have hc : P c := hσ.1 h ⟨c, .ask request next, commits⟩ (by rw [calls]; simp)
        exact ⟨fun h' q hq => hσ.update [_] calls hc hq, hσ.2⟩
      · exact hσ

/-- What holds of every call made holds of every call that committed. -/
theorem run_each {P : Call → Prop} (moves : List (Move ι)) (h : ∀ h c, .call h c ∈ moves → P c) :
    (run moves).Each P := by
  have start_each : (start : System ι).Each P :=
    ⟨fun h p hp => absurd hp List.not_mem_nil, fun k hk => absurd hk List.not_mem_nil⟩
  suffices ∀ σ : System ι, σ.Each P → (moves.foldl step σ).Each P from this start start_each
  induction moves with
  | nil => exact fun σ hσ => hσ
  | cons m moves ih =>
      intro σ hσ
      exact ih (fun i c hc => h i c (List.mem_cons_of_mem m hc)) _
        (step_each hσ fun i c hm => h i c (by simp [hm]))

/-- **Whatever the schedule, the invariant holds.** -/
theorem run_traced (sep : Scope.Separated U) (moves : List (Move ι))
    (within : ∀ h c, .call h c ∈ moves → c.Within U) :
    ∃ rs l, (run moves).Traced U rs l := by
  suffices ∀ (σ : System ι) rs l, σ.Traced U rs l → ∃ rs l, (moves.foldl step σ).Traced U rs l from
    this start [] .empty start_traced
  induction moves with
  | nil => exact fun σ rs l hσ => ⟨rs, l, hσ⟩
  | cons m moves ih =>
      intro σ rs l hσ
      obtain ⟨rs', l', hσ'⟩ := step_traced sep hσ (m := m) fun h c hm => within h c (by simp [hm])
      exact ih (fun h c hc => within h c (List.mem_cons_of_mem m hc)) _ rs' l' hσ'

end System

end ScopedConfig
