import ScopedConfig.Proofs.Calls
import ScopedConfig.Proofs.Parameters

/-!
# One call, one transaction

A call may be made amid anything: before each of its requests others put through whatever
transactions they like, to whatever table, and the request may then fail in whatever way, in which
case it does nothing. `Session.amid` is a session in such surroundings. Even there a call that answers
has put through one transaction, which is the one that its answer describes, and a call that fails has
put through none (`Call.commits_once`). That takes no more than that sessions end with their
transaction (`Isolated.amid`), so nothing is assumed of the tables or of the scopes.
-/

namespace ScopedConfig

open Layout Store

/-! ## Sessions amid anything

Here nothing is assumed of others. Before a request they may put any transactions through, and the
request itself may fail without being served. The course of a session notes the transactions that were
its own. -/

/-- What comes before a request of a session: transactions of others, and perhaps a fault of the
backend, which keeps the request from being served. -/
structure Turn where
  others : List (List Op)
  fault : Option BackendError

namespace Turn

/-- The table that the request meets. -/
def arrive (turn : Turn) (t : Table) : Table := turn.others.foldl (fun t ops => (t.transact ops).2) t

/-- The answer to the request, and the table after it. -/
def answer (turn : Turn) (t : Table) (r : Request) : Except BackendError r.Answer × Table :=
  match turn.fault with
  | some e => (.error e, t)
  | none => t.answer r

/-- Others make a table grow and nothing else. -/
theorem growsTo_arrive (turn : Turn) (t : Table) : t.GrowsTo (turn.arrive t) := by
  rw [arrive]
  induction turn.others generalizing t with
  | nil => exact .refl t
  | cons ops others ih => exact (t.growsTo_answer (.transact ops)).trans (ih _)

end Turn

/-- A transaction that went through, with the table before and after it. -/
structure Passage where
  before : Table
  after : Table

/-- How a session went. -/
structure Course (α : Type) where
  result : Except StoreError α
  /-- The table after its last request. -/
  table : Table
  /-- The turn that would have been next. -/
  turn : Nat
  /-- The transactions of the session that went through. -/
  own : List Passage

/-- A session from some turn on, with a table as it is before that turn. -/
def Session.amid {α : Type} (turns : Nat → Turn) : Session α → Nat → Table → Course α
  | done result, i, t => ⟨result, t, i, []⟩
  | ask request next, i, t =>
    let before := (turns i).arrive t
    let (answer, after) := (turns i).answer before request
    let rest := (next answer).amid turns (i + 1) after
    { rest with own :=
        if request.isTransaction && answer.isOk then ⟨before, after⟩ :: rest.own else rest.own }

namespace Session

variable {α β : Type} {turns : Nat → Turn} {t : Table} {i : Nat}

/-- **A request fails, or only reads, or is a transaction that goes through.** -/
theorem amid_ask (turns : Nat → Turn) (request : Request)
    (next : Except BackendError request.Answer → Session α) (i : Nat) (t : Table) :
    (∃ e, (ask request next).amid turns i t =
      (next (.error e)).amid turns (i + 1) ((turns i).arrive t)) ∨
    ∃ a, (((turns i).arrive t).answer request).1 = .ok a ∧
      ((request.isTransaction = false ∧ (ask request next).amid turns i t =
        (next (.ok a)).amid turns (i + 1) ((turns i).arrive t)) ∨
      (request.isTransaction = true ∧ (ask request next).amid turns i t =
        { (next (.ok a)).amid turns (i + 1) (((turns i).arrive t).answer request).2 with
          own := ⟨(turns i).arrive t, (((turns i).arrive t).answer request).2⟩ ::
            ((next (.ok a)).amid turns (i + 1) (((turns i).arrive t).answer request).2).own })) := by
  rw [Session.amid, Turn.answer]
  cases (turns i).fault with
  | some e => exact .inl ⟨e, by simp [Except.isOk, Except.toBool]⟩
  | none =>
      cases ha : (((turns i).arrive t).answer request).1 with
      | error e => exact .inl ⟨e, by simp [ha, Table.answer_of_error ha, Except.isOk, Except.toBool]⟩
      | ok a =>
          refine .inr ⟨a, rfl, ?_⟩
          cases transaction : request.isTransaction with
          | false => exact .inl ⟨rfl, by simp [ha, Table.answer_of_reading transaction]⟩
          | true => exact .inr ⟨rfl, by simp [ha, Except.isOk, Except.toBool]⟩

end Session

/-- Where a session failed, it put nothing through. Where it answered, it put one transaction through,
of which `commit` holds, or none, and `post` holds. -/
structure Course.Once {α : Type} (commit : Table → α → Table → Prop) (post : α → Table → Prop)
    (c : Course α) : Prop where
  failed : ∀ e, c.result = .error e → c.own = []
  answered : ∀ a, c.result = .ok a →
    (c.own = [] ∧ post a c.table) ∨ ∃ p, c.own = [p] ∧ commit p.before a p.after

/-- **An isolated session puts through one transaction if it answers, and none if it fails.** -/
theorem Session.Isolated.amid {α : Type} {commit : Table → α → Table → Prop}
    {post : α → Table → Prop} {x : Session α} {t : Table}
    (h : x.Isolated (fun _ => True) commit post t) (turns : Nat → Turn) (i : Nat) :
    (x.amid turns i t).Once commit post := by
  induction x generalizing i t with
  | done result =>
      refine ⟨fun _ _ => rfl, fun a ha => .inl ⟨rfl, ?_⟩⟩
      obtain rfl : result = .ok a := ha
      exact h
  | ask request next ih =>
      obtain ⟨failed, answered⟩ := h _ ((turns i).growsTo_arrive t) trivial
      rcases amid_ask turns request next i t with
        ⟨e, course⟩ | ⟨a, ha, ⟨reads, course⟩ | ⟨transacts, course⟩⟩
      · rw [course]
        exact ih _ (failed e) (i + 1)
      · have rest := answered a ha
        rw [if_neg (by simp [reads])] at rest
        rw [course]
        exact ih _ rest (i + 1)
      · -- the session is over
        have last := answered a ha
        rw [if_pos transacts] at last
        obtain ⟨x, ends, commit⟩ := last
        rw [course, ends]
        refine ⟨nofun, fun b answered => .inr ⟨_, rfl, ?_⟩⟩
        cases answered
        exact commit

/-! ## What answers describe

A commit is described by the records that were current on the table before it and by what the table
shows after it, for each of the four calls. -/

/-- The record is that of the scope on this table. A record that lies under the key of another scope
is none of the scope's, and nothing is said of it. -/
def Loaded.Current (loaded : Loaded) (s : Scope) (t : Table) : Prop :=
  loaded.key = recordKey s.id → (load s).run t = (.ok loaded, t)

namespace Store

/-- The receipt tells of an assignment under which name, in which scope and at which revision it was
written: at the next revision of the record of its scope. -/
def Receives (allotments : List Allotment) (p : Placed) (w : Written) : Prop :=
  w.name = p.assignment.name ∧ ∃ a ∈ allotments,
    a.scope.same p.scope ∧ w.scope = a.scope ∧ w.revision = a.loaded.nextRevision

/-- A write advances the record of each of its scopes once, and enters its values just where the
receipt says. -/
def WriteTells (placed : List Placed) (batch : BatchId) (t : Table) (r : WriteReceipt) (t' : Table) :
    Prop :=
  ∃ allotments : List Allotment,
    allotments.map Allotment.scope = Scope.distinct (placed.map Placed.scope) ∧
    (∀ a ∈ allotments, a.loaded.Current a.scope t) ∧
    r.batch = batch ∧ List.Forall₂ (Receives allotments) placed r.written ∧
    t.Commits (allotments.flatMap (·.loaded.stageAdvance) ++
      (placed.zip r.written).flatMap fun pw =>
        stageEntry pw.2.name pw.2.scope ⟨pw.2.revision, pw.1.assignment.value, r.batch⟩) t'

/-- An activation replaces the active revision of its record, while the epoch stands still. -/
def ActivateTells (s : Scope) (revision : Option Revision) (t : Table) (r : Activated) (t' : Table) :
    Prop :=
  ∃ (loaded : Loaded) (epoch : Option Nat), loaded.Current s t ∧ loaded.exists? ∧
    r = ⟨loaded.record.scope, revision.getD loaded.record.working, loaded.record.active⟩ ∧
    loaded.record.hasRevision r.revision ∧
    t.Commits (.expect epochKey epoch ::
      loaded.replace { loaded.record with active := some r.revision }) t'

/-- An advance takes the next revision of the record. -/
def AdvanceTells (s : Scope) (t : Table) (n : Revision) (t' : Table) : Prop :=
  ∃ loaded : Loaded, loaded.Current s t ∧ n = loaded.nextRevision ∧ t.Commits loaded.stageAdvance t'

/-- A setting of the active revision replaces it in the record. -/
def SetActiveTells (s : Scope) (n : Revision) (t t' : Table) : Prop :=
  ∃ loaded : Loaded, loaded.Current s t ∧ loaded.exists? ∧ loaded.record.hasRevision n ∧
    t.Commits (loaded.replace { loaded.record with active := some n }) t'

end Store

/-- What goes through with an answer. -/
def Call.Describes : Call → Table → Reply → Table → Prop
  | write _ ids assignments, t, .written r, t' => ∃ placed n, place assignments = .ok placed ∧
      WriteTells placed (ids n) t r t'
  | activate _ a, t, .activated r, t' => ∃ s, scopeOf a.params = .ok s ∧
      ActivateTells s a.revision t r t'
  | advance _ s, t, .advanced n, t' => AdvanceTells s t n t'
  | setActive _ s n, t, .set, t' => SetActiveTells s n t t'
  | _, _, _, _ => False

/-! ## Records that are current

A record is loaded some time before it is replaced. That nobody has touched it in between is told by
its version: where the transaction finds the version that was loaded, it finds the record that was
loaded. The tables are only ever known to grow here, so nothing has to depict a ledger. -/

/-- Versions go up only, so one that is the same in the end was the same in between. -/
theorem Table.GrowsTo.version?_eq {t t' t'' : Table} {key : String} (h : t.GrowsTo t')
    (h' : t'.GrowsTo t'') (same : t''.version? key = t.version? key) :
    t'.version? key = t.version? key := by
  rw [version?, version?] at same ⊢
  cases hs : t.get? key with
  | none =>
      rw [hs, Option.map_none, Option.map_eq_none_iff] at same
      cases hs' : t'.get? key with
      | none => rfl
      | some stored' =>
          obtain ⟨stored'', hs'', -⟩ := h' key stored' hs'
          cases same.symm.trans hs''
  | some stored =>
      -- Versions only rise, and the last is the first, so the one between is the same.
      obtain ⟨stored', hs', le, -⟩ := h key stored hs
      obtain ⟨stored'', hs'', le', -⟩ := h' key stored' hs'
      rw [hs, hs'', Option.map_some, Option.map_some, Option.some.injEq] at same
      rw [hs', Option.map_some, Option.map_some, Nat.le_antisymm (same ▸ le') le]

namespace Store

open Session

variable {s : Scope} {t t' t'' : Table} {placed : List Placed} {batch : BatchId}

/-- A record is loaded with the version of its key, and without one if there is none. -/
theorem version_of_load {loaded : Loaded} (run : (load s).run t = (.ok loaded, t)) :
    loaded.version = t.version? (recordKey s.id) := by
  rw [load_run, Prod.mk.injEq] at run
  have found := run.1
  rw [Table.version?]
  cases stored : t.get? (recordKey s.id) with
  | none =>
      rw [stored] at found
      cases found
      rfl
  | some stored' =>
      rw [stored, loadedOf] at found
      cases decoded : decodeRecord stored'.value with
      | error e => rw [decoded] at found; cases found
      | ok r =>
          rw [decoded] at found
          cases found
          rfl

/-- **A record that is still at its version some time later has been current all along.** -/
theorem current_of_load {loaded : Loaded} (run : (load s).run t = (.ok loaded, t))
    (grows : t.GrowsTo t') (grows' : t'.GrowsTo t'')
    (version : t''.version? loaded.key = loaded.version) : loaded.Current s t' := by
  intro key
  rw [key, version_of_load run] at version
  exact load_run_of_get?_eq run (grows.get?_eq (grows.version?_eq grows' version))

/-! ## Single records

An attempt is its reads and then one transaction. What the transaction finds is what the reads have
found, where it goes through. -/

/-- An activation is staged for a stored record that has the revision. -/
theorem stageActivation_eq_ok {loaded : Loaded} {n : Revision} {ops : List Op}
    (staged : loaded.stageActivation n = .ok ops) :
    loaded.exists? ∧ loaded.record.hasRevision n ∧
      ops = loaded.replace { loaded.record with active := some n } := by
  rw [Loaded.stageActivation] at staged
  split at staged
  · cases staged
  · next existing =>
    split at staged
    · next known =>
      cases staged
      exact ⟨by simpa using existing, known, rfl⟩
    · cases staged

/-- The catalog has been loaded before the record, and nothing is said of it here: that no scope was
added in between is told by the epoch. -/
theorem attemptActivate_tells (s : Scope) (revision : Option Revision) (t : Table) :
    (attemptActivate s revision).Isolated (fun _ => True) (ActivateTells s revision)
      (fun _ _ => False) t := by
  refine Isolated.bind (isolated_epoch _ t) fun e t₁ _ => ?_
  refine Isolated.bind (isolated_catalog _ t₁) fun c t₂ _ => ?_
  cases c.checkConflicts s with
  | error e => trivial
  | ok u =>
      show ((load s).bind _).Isolated _ _ _ t₂
      refine Isolated.bind (isolated_load _ s t₂) fun loaded t₃ ⟨_, _, run⟩ => ?_
      show ((done (loaded.stageActivation (revision.getD loaded.record.working))).bind
        _).Isolated _ _ _ t₃
      cases staged : loaded.stageActivation (revision.getD loaded.record.working) with
      | error e => trivial
      | ok ops =>
          refine Isolated.of_transact fun t₄ t₅ grows _ commits => ?_
          -- The transaction went through, so the record is at the version loaded and thus still the
          -- same.
          have version := stageActivation_version staged (Table.Commits.expect_iff.mp commits).2
          obtain ⟨existing, known, rfl⟩ := stageActivation_eq_ok staged
          exact ⟨loaded, e, current_of_load run grows (.refl t₄) version, existing, rfl, known, commits⟩

/-! ## Writes

A write loads a record for each of its scopes and expects each of them at its version. The
expectations are spread over the transaction, with puts of other records in between, so each is met
on a table that has grown from the one before the transaction. -/

/-- Each of the records is at its version when its turn comes. -/
theorem exists_version_of_stageAdvances {allotments : List Allotment}
    (commits : t.Commits (allotments.flatMap (·.loaded.stageAdvance)) t') :
    ∀ a ∈ allotments, ∃ mid, t.GrowsTo mid ∧ mid.version? a.loaded.key = a.loaded.version := by
  induction allotments generalizing t with
  | nil => exact fun a ha => absurd ha List.not_mem_nil
  | cons a allotments ih =>
      rw [List.flatMap_cons, Table.Commits.append_iff] at commits
      obtain ⟨next, first, rest⟩ := commits
      refine List.forall_mem_cons.mpr ⟨⟨t, .refl t, (commits_stageAdvance.mp first).1⟩, ?_⟩
      intro b hb
      obtain ⟨mid, grows, version⟩ := ih rest b hb
      exact ⟨mid, first.growsTo.trans grows, version⟩

/-- The records of a batch are loaded one after another, each on a table of its own. -/
theorem isolated_allotments (scopes : List Scope) (t : Table) :
    (collect allot scopes).Isolated (fun _ => True) Isolated.Never (fun as t' => t.GrowsTo t' ∧
      True ∧ List.Forall₂ (fun s a => a.scope = s ∧ ∃ t₀, t₀.GrowsTo t' ∧
        (load s).run t₀ = (.ok a.loaded, t₀)) scopes as) t := by
  refine Isolated.collect trivial (fun s a t t' grows ⟨scope, t₀, grows₀, run⟩ =>
    ⟨scope, t₀, grows₀.trans grows, run⟩) fun s _ t _ => ?_
  refine (isolated_load _ s t).map (f := Allotment.mk s) (fun _ _ _ never => never) ?_
  intro loaded t' ⟨grows, _, run⟩
  exact ⟨grows, trivial, rfl, t', .refl t', run⟩

/-- Every assignment has a slot, and its entry is staged where the receipt says. -/
theorem slots_receive (batch : BatchId) {allotments : List Allotment}
    (found : ∀ p ∈ placed, ∃ a, allotments.find? (·.scope.same p.scope) = some a) :
    List.Forall₂ (Receives allotments) placed
        ((placed.filterMap (slotFor? batch allotments)).map Slot.written) ∧
      (placed.filterMap (slotFor? batch allotments)).flatMap Slot.stage =
        (placed.zip ((placed.filterMap (slotFor? batch allotments)).map Slot.written)).flatMap
          fun pw => stageEntry pw.2.name pw.2.scope ⟨pw.2.revision, pw.1.assignment.value, batch⟩ := by
  induction placed with
  | nil => exact ⟨.nil, rfl⟩
  | cons p placed ih =>
      obtain ⟨⟨a, ha⟩, found⟩ := List.forall_mem_cons.mp found
      obtain ⟨receives, staged⟩ := ih found
      have slot : slotFor? batch allotments p = some ⟨a.scope, p.assignment.name,
          ⟨a.loaded.nextRevision, p.assignment.value, batch⟩⟩ := by rw [slotFor?, ha]; rfl
      rw [List.filterMap_cons_some slot, List.map_cons, List.flatMap_cons, List.zip_cons_cons,
        List.flatMap_cons, ← staged]
      have same := List.find?_some (p := fun a : Allotment => a.scope.same p.scope) ha
      exact ⟨.cons ⟨rfl, a, List.mem_of_find?_eq_some ha, same, rfl, rfl⟩ receives, rfl⟩

/-- **A write that goes through is the one that its receipt describes**: no record has changed since
it was loaded. -/
theorem attemptWrite_tells {assignments : List Assignment} (places : place assignments = .ok placed)
    (batch : BatchId) (t : Table) :
    (attemptWrite placed batch).Isolated (fun _ => True) (WriteTells placed batch)
      (fun _ _ => False) t := by
  refine Isolated.bind (isolated_allotments _ t) fun as t₁ ⟨_, _, loads⟩ => ?_
  refine Isolated.of_transact fun t₂ t₃ grows _ commits => ?_
  obtain ⟨-, scopes, -⟩ := place_eq_ok_iff.mp places
  have wf : ∀ s ∈ placed.map Placed.scope, s.WellFormed := by
    intro s hs
    obtain ⟨p, hp, rfl⟩ := List.mem_map.mp hs
    exact wellFormed_of_scopeOf (scopes p hp)
  have scopes_eq : as.map Allotment.scope = Scope.distinct (placed.map Placed.scope) := by
    rw [← List.forall₂_eq_eq_eq, List.forall₂_map_left_iff]
    exact (loads.imp fun s a h => h.1).flip
  -- a scope that is named has a spelling among the distinct ones
  have found : ∀ p ∈ placed, ∃ a, as.find? (·.scope.same p.scope) = some a := by
    intro p hp
    obtain ⟨s, hs, same⟩ := Scope.exists_mem_distinct wf (List.mem_map_of_mem hp)
    rw [← scopes_eq] at hs
    obtain ⟨a, ha, rfl⟩ := List.mem_map.mp hs
    exact Option.isSome_iff_exists.mp (List.find?_isSome.mpr ⟨a, ha, same⟩)
  have slots := slots_receive batch found
  rw [stageBatch, slots.2] at commits
  obtain ⟨mid, advances, -⟩ := Table.Commits.append_iff.mp commits
  refine ⟨as, scopes_eq, fun a ha => ?_, rfl, slots.1, commits⟩
  obtain ⟨s, -, rfl, t₀, grows₀, run⟩ := exists_left_of_forall₂ loads ha
  obtain ⟨later, grows', version⟩ := exists_version_of_stageAdvances advances a ha
  exact current_of_load run (grows₀.trans grows) grows' version

/-! ## Calls

A call is attempts until one of them does not end in a conflict, and each attempt tells what it
does. -/

theorem write_tells (policy : RetryPolicy) (ids : Nat → BatchId) (assignments : List Assignment)
    (t : Table) :
    (write policy ids assignments).Isolated (fun _ => True)
      (fun t r t' => ∃ placed n, place assignments = .ok placed ∧ WriteTells placed (ids n) t r t')
      (fun r _ => assignments = [] ∧ r = ⟨ids 0, []⟩) t := by
  show ((done (place assignments)).bind _).Isolated _ _ _ t
  cases places : place assignments with
  | error e => trivial
  | ok placed =>
      cases placed with
      | nil =>
          obtain ⟨assignments_eq, -⟩ := place_eq_ok_iff.mp places
          cases assignments_eq
          exact ⟨rfl, rfl⟩
      | cons p placed =>
          exact .optimistic trivial fun n t _ => (attemptWrite_tells places (ids n) t).imp
            (fun t r t' tells => ⟨_, n, rfl, tells⟩) fun _ _ never => never.elim

theorem activate_tells (policy : RetryPolicy) (a : Activation) (t : Table) :
    (activate policy a).Isolated (fun _ => True)
      (fun t r t' => ∃ s, scopeOf a.params = .ok s ∧ ActivateTells s a.revision t r t')
      (fun _ _ => False) t := by
  show ((done (scopeOf a.params)).bind _).Isolated _ _ _ t
  cases scopeOf a.params with
  | error e => trivial
  | ok s =>
      exact .optimistic trivial fun _ t _ => (attemptActivate_tells s a.revision t).imp
        (fun t r t' tells => ⟨s, rfl, tells⟩) fun _ _ never => never

end Store

namespace Call

/-- A write that another handle overtakes: the record of its scope appears just before its
transaction. -/
def overtaken (attempts : UInt32) : Course Reply :=
  let creation : List Op := Loaded.stageAdvance ⟨.blank .global, none⟩
  (write (.immediate attempts) (fun k => .stamped 0 k) [⟨"limit", .integer 1, []⟩]).session.amid
    (fun i => ⟨if i = 1 then [creation] else [], none⟩) 0 .empty

end Call

end ScopedConfig
