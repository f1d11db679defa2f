import ScopedConfig.Proofs.Execution
import ScopedConfig.Proofs.Histories
import ScopedConfig.Proofs.SingleCommits

/-!
# Batches that fail

A mixed batch is not one call but several: a write, then one activation after another, with reads
before, in between and behind. Each of the calls commits once or not at all, but a batch that fails
keeps what its earlier calls have committed, also where it fails because the backend is out of reach
(`severed_keeps_write`). What it has committed then is always the first few of its calls, whatever
others do and whatever fails (`execute_commits_prefix`).
-/

namespace ScopedConfig

open Layout Store

/-! ## Sessions one after another

What happens amid other transactions and faults is a `Course`. That of a session and of the one that
follows it are put end to end, with the turns of the second beginning where the first has left off
(`amid_bind`). -/

/-- The course of a session and of the one that follows it. -/
def Course.followedBy {α β : Type} (c : Course α) (d : Course β) : Course β :=
  { d with own := c.own ++ d.own }

namespace Session

variable {α β : Type} {turns : Nat → Turn} {t : Table} {i : Nat}

theorem amid_bind (x : Session α) (f : α → Session β) (turns : Nat → Turn) (i : Nat) (t : Table) :
    (x.bind f).amid turns i t = (x.amid turns i t).followedBy
      (match (x.amid turns i t).result with
        | .ok a => (f a).amid turns (x.amid turns i t).turn (x.amid turns i t).table
        | .error e => ⟨.error e, (x.amid turns i t).table, (x.amid turns i t).turn, []⟩) := by
  induction x generalizing i t with
  | done result => cases result <;> rfl
  | ask request next ih =>
      rw [Session.bind, Session.amid, Session.amid]
      cases (turns i).answer ((turns i).arrive t) request with
      | mk answer after =>
          simp only [ih, Course.followedBy]
          cases request.isTransaction && answer.isOk <;> split <;> rfl

theorem amid_bind_of_ok {x : Session α} {f : α → Session β} {a : α}
    (h : (x.amid turns i t).result = .ok a) :
    (x.bind f).amid turns i t = (x.amid turns i t).followedBy
      ((f a).amid turns (x.amid turns i t).turn (x.amid turns i t).table) := by
  rw [amid_bind, h]

/-- What fails is not followed by anything. -/
theorem amid_bind_of_error {x : Session α} {f : α → Session β} {e : StoreError}
    (h : (x.amid turns i t).result = .error e) :
    ((x.bind f).amid turns i t).result = .error e ∧
      ((x.bind f).amid turns i t).own = (x.amid turns i t).own := by
  rw [amid_bind, h]
  exact ⟨rfl, List.append_nil _⟩

/-- The session asks for no transaction, whatever it is answered. -/
def Reads : Session α → Prop
  | done _ => True
  | ask request next => request.isTransaction = false ∧ ∀ answer, (next answer).Reads

namespace Reads

theorem done (result : Except StoreError α) : (Session.done result).Reads := trivial

theorem request {r : Request} (reading : r.isTransaction = false) : (Session.request r).Reads :=
  ⟨reading, fun _ => trivial⟩

theorem bind {x : Session α} {f : α → Session β} (hx : x.Reads) (hf : ∀ a, (f a).Reads) :
    (x >>= f).Reads := by
  rw [bind_eq]
  induction x with
  | done result =>
      cases result with
      | error e => trivial
      | ok a => exact hf a
  | ask request next ih => exact ⟨hx.1, fun answer => ih answer (hx.2 answer)⟩

theorem composable : Composable fun _ x => x.Reads where
  done _ := trivial
  bind := bind

theorem collect {f : α → Session β} (h : ∀ a, (f a).Reads) (as : List α) :
    (Session.collect f as).Reads :=
  composable.collect fun a _ => h a

/-- A session that asks for no transaction leaves the table as it is. -/
theorem run_eq {x : Session α} (h : x.Reads) (t : Table) : x.run t = ((x.run t).1, t) := by
  induction x with
  | done result => rfl
  | ask request next ih =>
      show (next (t.answer request).1).run (t.answer request).2 =
        (((next (t.answer request).1).run (t.answer request).2).1, t)
      rw [Table.answer_of_reading h.1]
      exact ih _ (h.2 _)

/-- Sessions that only read, one after another. -/
theorem collect_run_eq_ok_iff {f : α → Session β} {t' : Table} (reads : ∀ a, (f a).Reads) {as : List α}
    {bs : List β} : (Session.collect f as).run t = (.ok bs, t') ↔
      t' = t ∧ List.Forall₂ (fun a b => (f a).run t = (.ok b, t)) as bs := by
  constructor
  · intro run
    obtain rfl : t' = t := by
      rw [(collect reads as).run_eq] at run
      exact (congrArg Prod.snd run).symm
    refine ⟨rfl, ?_⟩
    induction as generalizing bs with
    | nil =>
        cases run
        exact .nil
    | cons a as ih =>
        obtain ⟨b, mid, first, run⟩ := run_bind_eq_ok.mp run
        -- no session leaves another table than it met
        obtain rfl : mid = t' := by
          rw [(reads a).run_eq] at first
          exact (congrArg Prod.snd first).symm
        obtain ⟨rest, mid', run, done⟩ := run_bind_eq_ok.mp run
        cases done
        exact .cons first (ih run)
  · rintro ⟨rfl, each⟩
    exact run_collect each

/-- A session that asks for no transaction puts none through. -/
theorem own_eq {x : Session α} (h : x.Reads) (turns : Nat → Turn) (i : Nat) (t : Table) :
    (x.amid turns i t).own = [] := by
  induction x generalizing i t with
  | done result => rfl
  | ask request next ih =>
      rcases amid_ask turns request next i t with
        ⟨e, course⟩ | ⟨a, -, ⟨-, course⟩ | ⟨transacts, -⟩⟩
      · rw [course]
        exact ih _ (h.2 _) _ _
      · rw [course]
        exact ih _ (h.2 _) _ _
      · exact absurd transacts (by simp [h.1])

end Reads

end Session

/-! ## What only reads

Reads put nothing through, so in the course of a batch they do not show, neither in its own commits
nor in what it leaves. -/

namespace Store

theorem load_reads (s : Scope) : (load s).Reads := by
  refine .bind (.request rfl) fun found => ?_
  cases found with
  | none => trivial
  | some stored => exact .bind (.done _) fun _ => trivial

theorem catalog_reads : catalog.Reads := .bind (.bind (.request rfl) fun _ => trivial) fun _ => trivial

theorem entryAsOf_reads (name : String) (s : Scope) (n : Revision) : (entryAsOf name s n).Reads := by
  rw [entryAsOf_eq]
  exact .bind (.request rfl) fun _ => .done _

/-- A member of a batch changes nothing where it is answered. -/
theorem answer_reads (fallback : Fallback) (c : Catalog) (op : Operation) :
    (answer fallback c op).Reads :=
  Session.Reads.composable.answer load_reads entryAsOf_reads fun _ _ _ _ => trivial

theorem catalogIf_reads (needed : Bool) : (catalogIf needed).Reads := by
  cases needed with
  | false => trivial
  | true => exact catalog_reads

theorem reload_reads (before : Catalog) (ops : List Operation) : (reload before ops).Reads := by
  unfold reload
  split
  · exact catalog_reads
  · trivial

end Store

/-! ## Calls carried out

`Session.CarriesOut` says of a session which calls it carries out, if nothing stops it, and that it
is the first few of them if something does. Sessions one after another carry out the calls of both,
which is why the calls of a batch are a list. -/

/-- A call that has been carried out, with its answer and its transaction. -/
structure Deed where
  call : Call
  reply : Reply
  passage : Passage

/-- The transaction is the one that the answer describes. -/
def Deed.Told (d : Deed) : Prop := d.call.Describes d.passage.before d.reply d.passage.after

/-- Amid anything, the session carries out the first few of the calls, in their order, and all of
them if it answers. `post` holds of its answer and those of the calls then. -/
def Session.CarriesOut {α : Type} (x : Session α) (calls : List Call)
    (post : α → List Reply → Prop) : Prop :=
  ∀ turns i t, ∃ deeds : List Deed,
    (x.amid turns i t).own = deeds.map Deed.passage ∧ (∀ d ∈ deeds, d.Told) ∧
    deeds.map Deed.call <+: calls ∧
    ∀ a, (x.amid turns i t).result = .ok a →
      deeds.map Deed.call = calls ∧ post a (deeds.map Deed.reply)

namespace Session.CarriesOut

variable {α β : Type}

/-- **One session after another carries out the calls of both.** -/
theorem bind {x : Session α} {f : α → Session β} {calls calls' : List Call}
    {post : α → List Reply → Prop} {post' : β → List Reply → Prop} (hx : x.CarriesOut calls post)
    (hf : ∀ a rs, post a rs → (f a).CarriesOut calls' fun b rs' => post' b (rs ++ rs')) :
    (x.bind f).CarriesOut (calls ++ calls') post' := by
  intro turns i t
  obtain ⟨deeds, own, told, sub, answered⟩ := hx turns i t
  cases result : (x.amid turns i t).result with
  | error e =>
      obtain ⟨result', own'⟩ := amid_bind_of_error (f := f) result
      refine ⟨deeds, own'.trans own, told, sub.trans (List.prefix_append _ _), fun b hb => ?_⟩
      cases result'.symm.trans hb
  | ok a =>
      obtain ⟨all, ha⟩ := answered a result
      obtain ⟨deeds', own', told', sub', answered'⟩ :=
        hf a _ ha turns (x.amid turns i t).turn (x.amid turns i t).table
      rw [amid_bind_of_ok result]
      refine ⟨deeds ++ deeds', ?_, List.forall_mem_append.mpr ⟨told, told'⟩, ?_, fun b hb => ?_⟩
      · rw [Course.followedBy, own, own', List.map_append]
      · rw [List.map_append, all]
        exact (List.prefix_append_right_inj calls).mpr sub'
      · obtain ⟨all', hb⟩ := answered' b hb
        rw [List.map_append, List.map_append, all, all']
        exact ⟨rfl, hb⟩

theorem done {a : α} {post : α → List Reply → Prop} (h : post a []) :
    (Session.done (.ok a)).CarriesOut [] post := by
  refine fun turns i t => ⟨[], rfl, fun _ hd => absurd hd List.not_mem_nil, List.nil_prefix, ?_⟩
  intro b hb
  cases hb
  exact ⟨rfl, h⟩

/-- A session that only reads carries out nothing. -/
theorem of_reads {x : Session α} (h : x.Reads) : x.CarriesOut [] fun _ rs => rs = [] :=
  fun turns i t => ⟨[], h.own_eq turns i t, fun _ hd => absurd hd List.not_mem_nil, List.nil_prefix,
    fun _ _ => ⟨rfl, rfl⟩⟩

/-- What only reads may come before. -/
theorem bind_of_reads {x : Session α} {f : α → Session β} {calls : List Call}
    {post : β → List Reply → Prop} (hx : x.Reads) (hf : ∀ a, (f a).CarriesOut calls post) :
    (x.bind f).CarriesOut calls post := by
  show (x.bind f).CarriesOut ([] ++ calls) post
  refine bind (of_reads hx) fun a rs nothing => ?_
  cases nothing
  exact hf a

/-- What is computed from the answer in the end. -/
theorem map {x : Session α} {f : α → β} {calls : List Call} {post : α → List Reply → Prop}
    {post' : β → List Reply → Prop} (hx : x.CarriesOut calls post)
    (hp : ∀ a rs, post a rs → post' (f a) rs) : (f <$> x).CarriesOut calls post' := by
  rw [map_eq, ← List.append_nil calls]
  exact bind hx fun a rs ha => done (by rw [List.append_nil]; exact hp a rs ha)

/-- A call carries out itself. -/
theorem of_isolated {x : Session α} {call : Call} {reply : α → Reply} {post : α → Table → Prop}
    (h : ∀ t, x.Isolated (fun _ => True) (fun t a t' => call.Describes t (reply a) t') post t)
    (never : ∀ a t, ¬ post a t) : x.CarriesOut [call] fun a rs => rs = [reply a] := by
  intro turns i t
  obtain ⟨failed, answered⟩ := (h t).amid turns i
  cases result : (x.amid turns i t).result with
  | error e =>
      exact ⟨[], failed e result, fun _ hd => absurd hd List.not_mem_nil, List.nil_prefix, nofun⟩
  | ok a =>
      rcases answered a result with ⟨-, idle⟩ | ⟨p, own, describes⟩
      · exact absurd idle (never a _)
      · refine ⟨[⟨call, reply a, p⟩], own, ?_, List.prefix_refl _, fun b hb => ?_⟩
        · exact List.forall_mem_singleton.mpr describes
        · cases hb
          exact ⟨rfl, rfl⟩

/-- Calls are carried out one after another. -/
theorem collect {f : α → Session β} {call : α → Call} {reply : β → Reply}
    (h : ∀ a, (f a).CarriesOut [call a] fun b rs => rs = [reply b]) (as : List α) :
    (Session.collect f as).CarriesOut (as.map call) fun bs rs => rs = bs.map reply := by
  induction as with
  | nil => exact done rfl
  | cons a as ih =>
      show ((f a).bind _).CarriesOut ([call a] ++ as.map call) _
      refine bind (h a) fun b rs first => ?_
      refine map (f := fun bs => b :: bs) ih fun bs rs' rest => ?_
      rw [first, rest]
      rfl

end Session.CarriesOut

/-! ## Batches

A batch has one call for all of its assignments, if there are any, and one for each activation
(`callsFor`). Its outcomes are made from the replies to them. -/

/-- What a write has written. -/
def Reply.receipts : Reply → List Written
  | written r => r.written
  | _ => []

/-- What an activation has activated. -/
def Reply.activated? : Reply → Option Activated
  | activated a => some a
  | _ => none

namespace Store

variable {ops : List Operation}

/-- The calls that change something for a batch, in their order. -/
def callsFor (policy : RetryPolicy) (ids : Nat → BatchId) (ops : List Operation) : List Call :=
  (if (ops.filterMap Operation.assignment?).isEmpty then []
    else [.write policy ids (ops.filterMap Operation.assignment?)]) ++
  (ops.filterMap Operation.activation?).map (.activate policy)

/-- The assignments of a batch make one call, and none if there are no assignments. -/
theorem writePhase_carriesOut (policy : RetryPolicy) (ids : Nat → BatchId) (ops : List Operation) :
    (writePhase policy ids ops).CarriesOut
      (if (ops.filterMap Operation.assignment?).isEmpty then []
        else [.write policy ids (ops.filterMap Operation.assignment?)])
      fun ws rs => rs.flatMap Reply.receipts = ws ∧ rs.filterMap Reply.activated? = [] := by
  rw [writePhase]
  split
  · exact .done ⟨rfl, rfl⟩
  · next some =>
    have call : (write policy ids (ops.filterMap Operation.assignment?)).CarriesOut
        [.write policy ids (ops.filterMap Operation.assignment?)] fun r rs => rs = [.written r] :=
      .of_isolated (write_tells policy ids _) fun r t idle => some (by rw [idle.1]; rfl)
    refine call.map fun r rs hrs => ?_
    rw [hrs]
    exact ⟨List.append_nil _, rfl⟩

/-- The activations of a batch, each a call of its own. -/
theorem activatePhase_carriesOut (policy : RetryPolicy) (ops : List Operation) :
    (activatePhase policy ops).CarriesOut
      ((ops.filterMap Operation.activation?).map (.activate policy))
      fun as rs => rs = as.map .activated :=
  .collect (fun a => .of_isolated (activate_tells policy a) fun _ _ never => never) _

/-- **A batch carries out its calls, the write and then the activations, as far as it gets.** -/
theorem execute_carriesOut (settings : Settings) (ids : Nat → BatchId) (ops : List Operation) :
    (execute settings ids ops).CarriesOut (callsFor settings.retryPolicy ids ops) fun outcomes rs =>
      ∃ answers, outcomes = arrange ops (rs.flatMap Reply.receipts) (rs.filterMap Reply.activated?)
        answers := by
  rw [execute_eq]
  refine .bind_of_reads (catalogIf_reads _) fun before => ?_
  refine .bind_of_reads (.done _) fun _ => ?_
  refine (writePhase_carriesOut _ ids ops).bind fun ws rs ⟨written, nothing⟩ => ?_
  rw [← List.append_nil (List.map _ _)]
  refine (activatePhase_carriesOut _ ops).bind fun as rs' activated => ?_
  -- what is left only reads
  refine .bind_of_reads (reload_reads before ops) fun current => ?_
  refine .bind_of_reads (.collect (answer_reads _ current) ops) fun answers => ?_
  refine .done ⟨answers, ?_⟩
  have receipts : (as.map Reply.activated).flatMap Reply.receipts = [] := by
    simp [List.flatMap_map, Reply.receipts]
  have activations : (as.map Reply.activated).filterMap Reply.activated? = as := by
    simp [List.filterMap_map, Function.comp_def, Reply.activated?]
  rw [activated, List.append_nil, List.flatMap_append, List.filterMap_append, written, nothing,
    receipts, activations, List.append_nil, List.nil_append]

/-- A batch of assignments is its check ahead and its write. -/
theorem execute_eq_of_assigns (settings : Settings) (ids : Nat → BatchId)
    (assigns : ∀ op ∈ ops, ∃ a, op = .assign a) :
    execute settings ids ops =
      (Session.done (preflight ⟨[]⟩ ops)).bind fun _ =>
      (writePhase settings.retryPolicy ids ops).bind fun ws =>
      .done (.ok (arrange ops ws [] (ops.map fun _ => none))) := by
  have needless : ops.any Operation.needsCatalog = false := by
    rw [List.any_eq_false]
    intro op hop
    obtain ⟨a, rfl⟩ := assigns op hop
    exact Bool.false_ne_true
  have activates : ops.filterMap Operation.activation? = [] := by
    rw [List.filterMap_eq_nil_iff]
    intro op hop
    obtain ⟨a, rfl⟩ := assigns op hop
    rfl
  -- assignments have nothing to answer in the reading phase
  have answers (c : Catalog) : Session.collect (answer settings.fallback c) ops =
      .done (.ok (ops.map fun _ => none)) := by
    clear needless activates
    induction ops with
    | nil => rfl
    | cons op ops ih =>
        obtain ⟨⟨a, rfl⟩, rest⟩ := List.forall_mem_cons.mp assigns
        rw [Session.collect, ih rest]
        rfl
  rw [execute_eq, activatePhase, activates]
  simp only [reload, needless, answers, Bool.false_and, Bool.false_eq_true, if_false,
    Session.collect]
  rfl

/-- **A batch of assignments that fails has committed nothing.** -/
theorem own_eq_of_assigns (settings : Settings) (ids : Nat → BatchId)
    (assigns : ∀ op ∈ ops, ∃ a, op = .assign a) {turns : Nat → Turn} {t : Table} {e : StoreError}
    (failed : ((execute settings ids ops).amid turns 0 t).result = .error e) :
    ((execute settings ids ops).amid turns 0 t).own = [] := by
  rw [execute_eq_of_assigns settings ids assigns] at failed ⊢
  cases passes : preflight ⟨[]⟩ ops with
  | error e => rfl
  | ok u =>
      rw [passes, Session.bind] at failed
      rw [Session.bind]
      cases result : ((writePhase settings.retryPolicy ids ops).amid turns 0 t).result with
      | ok ws =>
          rw [Session.amid_bind_of_ok result] at failed
          cases failed
      | error e' =>
          rw [(Session.amid_bind_of_error result).2]
          unfold writePhase at result ⊢
          split at result
          · cases result
          · next some =>
            rw [if_neg some]
            have once : (WriteReceipt.written <$> write settings.retryPolicy ids
                (ops.filterMap Operation.assignment?)).Isolated (fun _ => True)
                (fun _ _ _ => True) (fun _ _ => True) t :=
              (write_tells _ ids _ t).map (fun _ _ _ _ => trivial) fun _ _ _ => trivial
            exact (once.amid turns 0).failed e' result

/-- **Whatever others do and whatever fails, a batch has committed the first few of its calls, in
their order, and all of them if it answers.** Where it fails with assignments or with reads only, it
has committed nothing; any other batch may have. -/
theorem execute_commits_prefix (settings : Settings) (ids : Nat → BatchId) (ops : List Operation)
    (turns : Nat → Turn) (t : Table) :
    ∃ deeds : List Deed,
      ((execute settings ids ops).amid turns 0 t).own = deeds.map Deed.passage ∧
      (∀ d ∈ deeds, d.call.Describes d.passage.before d.reply d.passage.after) ∧
      deeds.map Deed.call <+: callsFor settings.retryPolicy ids ops ∧
      (∀ outcomes, ((execute settings ids ops).amid turns 0 t).result = .ok outcomes →
        deeds.map Deed.call = callsFor settings.retryPolicy ids ops ∧
        ∃ answers, outcomes = arrange ops ((deeds.map Deed.reply).flatMap Reply.receipts)
          ((deeds.map Deed.reply).filterMap Reply.activated?) answers) ∧
      ((∀ op ∈ ops, ∃ a, op = .assign a) ∨ (∀ op ∈ ops, op.isRead) →
        ∀ e, ((execute settings ids ops).amid turns 0 t).result = .error e → deeds = []) := by
  obtain ⟨deeds, own, told, sub, answered⟩ := execute_carriesOut settings ids ops turns 0 t
  refine ⟨deeds, own, told, sub, answered, ?_⟩
  rintro (assigns | reads) e failed
  · rw [own_eq_of_assigns settings ids assigns failed] at own
    exact List.map_eq_nil_iff.mp own.symm
  · obtain ⟨assigns, activates⟩ := Operation.filterMap_of_reads reads
    rw [callsFor, assigns, activates] at sub
    exact List.map_eq_nil_iff.mp (List.prefix_nil.mp sub)

/-- A value that is set, and activated. -/
def release : List Operation := [.assign ⟨"p", .integer 1, []⟩, .activate ⟨[], none⟩]

/-- The backend is out of reach when the transaction of the activation comes, after six requests. -/
def severed : Course (List Outcome) :=
  (execute {} (.stamped 0) release).amid
    (fun i => ⟨[], if i = 6 then some (.unavailable "injected") else none⟩) 0 .empty

/-- The error says that the batch may be run again, but its write has been committed. Run again, the
batch writes once more. -/
theorem severed_keeps_write :
    severed.result = .error (.backend (.unavailable "injected")) ∧
    (StoreError.backend (.unavailable "injected")).isRetryable ∧
    severed.own.length = 1 ∧
    ((execute {} (.stamped 1) release).run severed.table).1 =
      .ok [.written ⟨"p", .global, 2⟩, .activated ⟨.global, 2, none⟩] := by
  decide +kernel

end Store

end ScopedConfig
