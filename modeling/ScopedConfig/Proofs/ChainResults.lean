import ScopedConfig.Proofs.Groups
import ScopedConfig.Proofs.Phases

/-!
# Results of chains

A chain of reads reads its queries one after another, after a check ahead (`ReadChain.executeAll_eq`).
Whatever happens between the requests, what comes back is a reading for each query in their order
(`Store.readAll_isolated`), and undisturbed each of these is what the query is answered with on its own
(`Store.readAll_run_eq_ok_iff`). With the groups of a chain this tells what comes back for an expression
(`chains_denote_groups`).
-/

namespace ScopedConfig

open Store

variable {t t' : Table} {settings : Settings} {ids : Nat → BatchId}

/-- A session that asks for no transaction is isolated, with nothing known of its result. -/
theorem Session.Reads.isolated {α : Type} {x : Session α} (h : x.Reads) (t : Table) :
    x.Isolated (fun _ => True) Isolated.Never (fun _ t' => t.GrowsTo t') t := by
  induction x generalizing t with
  | done result =>
      cases result with
      | error e => trivial
      | ok a => exact .refl t
  | ask request next ih =>
      intro t' grows _
      -- Whatever the answer, what is left only reads and starts from the table that the request
      -- met.
      have rest (answer) : (next answer).Isolated (fun _ => True) Isolated.Never
          (fun _ t'' => t.GrowsTo t'') t' :=
        (ih answer (h.2 answer) t').imp (fun _ _ _ never => never) fun _ _ grows' => grows.trans grows'
      refine ⟨fun e => rest _, fun a _ => ?_⟩
      -- the request is no transaction
      rw [if_neg (by simp [h.1])]
      exact rest _

/-- Where nothing happens in between, a session is undisturbed. -/
theorem Session.amid_quiet {α : Type} (x : Session α) (i : Nat) (t : Table) :
    (x.amid (fun _ => ⟨[], none⟩) i t).result = (x.run t).1 := by
  induction x generalizing i t with
  | done result => rfl
  | ask request next ih => exact ih _ (i + 1) _

/-! ## Readings of queries

What is needed of a query is that its answer names what was asked for (`Reading.Of`). It holds at
the start of a read and through all its requests, so it is shown as `Isolated`, for which others may
do what they like in between. -/

/-- The reading is one of what the query names. -/
def Reading.Of (r : Reading) (q : Query) : Prop := r.name = q.name ∧ scopeOf q.params = .ok r.query

namespace Store

variable {c : Catalog} {fallback : Fallback} {q : Query}

theorem readQuery_reads (fallback : Fallback) (c : Catalog) (q : Query) :
    (readQuery fallback c q).Reads :=
  Session.Reads.composable.readQuery load_reads entryAsOf_reads fun _ _ => trivial

/-- What is read of a revision does not depend on the catalog. -/
theorem readQuery_of_needsCatalog_eq_false (h : (Operation.read q).needsCatalog = false)
    (c c' : Catalog) : readQuery fallback c q = readQuery fallback c' q := by
  cases revision : q.revision with
  | none => simp [Operation.needsCatalog, revision] at h
  | some n => simp only [readQuery, revision]

/-- A query that is answered passes the check ahead. -/
theorem check_of_readQuery_run {r : Reading} (run : (readQuery fallback c q).run t = (.ok r, t')) :
    check c (.read q) = .ok () := by
  obtain ⟨s, hs, run⟩ := Session.run_done_bind_eq_ok.mp run
  rw [check, hs]
  cases revision : q.revision with
  | some n => rfl
  | none =>
      rw [revision] at run
      obtain ⟨_, clear, -⟩ := Session.run_done_bind_eq_ok.mp run
      exact clear

/-- A read at a revision answers for the property and the scope it was given. -/
theorem readAt_isolated (name : String) (s : Scope) (n : Revision) (t : Table) :
    (readAt name s n).Isolated (fun _ => True) Session.Isolated.Never
      (fun r t' => t.GrowsTo t' ∧ r.name = name ∧ r.query = s) t := by
  have record : (recordOf s).Reads := Session.Reads.composable.recordOf (load_reads s)
  rw [readAt_eq]
  refine .bind (record.isolated t) fun found t₁ grows => ?_
  unfold readRecorded
  split
  · exact ⟨grows, rfl, rfl⟩
  · split
    · refine .bind ((entryAsOf_reads name s n).isolated t₁) fun entry t₂ grows' => ?_
      exact ⟨grows.trans grows', rfl, rfl⟩
    · exact ⟨grows, rfl, rfl⟩

/-- So does a read of what is active, in whatever order the scopes are tried. -/
theorem readActive_isolated (fallback : Fallback) (c : Catalog) (name : String) (s : Scope)
    (t : Table) :
    (readActive fallback c name s).Isolated (fun _ => True) Session.Isolated.Never
      (fun r t' => t.GrowsTo t' ∧ r.name = name ∧ r.query = s) t := by
  have search : (firstHit c name (candidates fallback s)).Reads :=
    Session.Reads.composable.firstHit fun s _ n _ => entryAsOf_reads name s n
  rw [readActive, Session.bind_eq]
  refine .bind ((Session.Reads.done _).isolated t) fun _ t₁ grows => ?_
  refine .bind (search.isolated t₁) fun hit t₂ grows' => ?_
  exact ⟨grows.trans grows', rfl, rfl⟩

/-- **Whatever happens in between, a query is answered with a reading of what it names.** -/
theorem readQuery_isolated (fallback : Fallback) (c : Catalog) (q : Query) (t : Table) :
    (readQuery fallback c q).Isolated (fun _ => True) Session.Isolated.Never
      (fun r t' => t.GrowsTo t' ∧ True ∧ r.Of q) t := by
  rw [readQuery]
  cases hs : scopeOf q.params with
  | error e => trivial
  | ok s =>
      rw [Session.bind]
      have named (r : Reading) (t' : Table) : t.GrowsTo t' ∧ r.name = q.name ∧ r.query = s →
          t.GrowsTo t' ∧ True ∧ r.Of q := by
        rintro ⟨grows, name, query⟩
        exact ⟨grows, trivial, name, query ▸ hs⟩
      cases q.revision with
      | some n => exact (readAt_isolated q.name s n t).imp (fun _ _ _ never => never) named
      | none => exact (readActive_isolated fallback c q.name s t).imp (fun _ _ _ never => never) named

theorem preflight_eq_ok_iff_of_reads {ops : List Operation} (reads : ∀ op ∈ ops, op.isRead) :
    preflight c ops = .ok () ↔ ∀ op ∈ ops, check c op = .ok () := by
  rw [preflight_eq_ok_iff, (Operation.filterMap_of_reads reads).1]
  constructor
  · rintro ⟨placed, located, checks⟩
    obtain rfl : placed = [] := List.map_eq_nil_iff.mp located.assignments
    exact checks
  · exact fun checks => ⟨[], ⟨rfl, nofun⟩, checks⟩

/-! ## Queries one after another

A batch in which there are only queries has no write and no activation, so all that is left of it is
the check ahead, one catalog, and the reads (`readAll`). Its outcomes are the readings
(`execute_reads_eq`), which is what lets the rest of the section speak of readings alone. -/

/-- Reads what queries name, after a check ahead. -/
def readAll (settings : Settings) (qs : List Query) : Session (List Reading) :=
  (catalogIf ((qs.map Operation.read).any Operation.needsCatalog)).bind fun c =>
  (Session.done (preflight c (qs.map .read))).bind fun _ =>
  Session.collect (readQuery settings.fallback c) qs

variable {qs : List Query} {r : Reading} {rs : List Reading}

theorem isRead_of_mem_map {op : Operation} (h : op ∈ qs.map .read) : op.isRead := by
  obtain ⟨q, -, rfl⟩ := List.mem_map.mp h
  rfl

/-- The outcomes of queries are their readings. -/
theorem collect_answer_bind (fallback : Fallback) (c : Catalog) (qs : List Query) :
    (Session.collect (answer fallback c) (qs.map .read)).bind (fun answers =>
        .done (.ok (arrange (qs.map .read) [] [] answers))) =
      (Session.collect (readQuery fallback c) qs).bind fun rs => .done (.ok (rs.map .value)) := by
  induction qs with
  | nil => rfl
  | cons q qs ih =>
      rw [List.map_cons, Session.collect, Session.collect, answer_read]
      simp only [Session.bind_eq, Session.bind_assoc]
      congr
      funext r
      have rest := congrArg (fun x => Session.bind x fun os => .done (.ok (Outcome.value r :: os))) ih
      simp only [Session.bind_assoc] at rest
      exact rest

/-- **A batch of queries has their readings as its outcomes.** -/
theorem execute_reads_eq (settings : Settings) (ids : Nat → BatchId) (qs : List Query) :
    execute settings ids (qs.map .read) =
      (readAll settings qs).bind fun rs => .done (.ok (rs.map .value)) := by
  rw [execute_eq_of_reads settings ids fun _ => isRead_of_mem_map, readAll]
  simp only [Session.bind_assoc, collect_answer_bind]

/-- **Whatever happens in between, queries are answered with a reading of each, in their order.** -/
theorem readAll_isolated (settings : Settings) (qs : List Query) (t : Table) :
    (readAll settings qs).Isolated (fun _ => True) Session.Isolated.Never
      (fun rs _ => List.Forall₂ (fun q r => Reading.Of r q) qs rs) t := by
  refine .bind ((catalogIf_reads _).isolated t) fun c t₁ _ => ?_
  refine .bind ((Session.Reads.done _).isolated t₁) fun _ t₂ _ => ?_
  have readings : (Session.collect (readQuery settings.fallback c) qs).Isolated
      (fun _ => True) Session.Isolated.Never
      (fun rs t' => t₂.GrowsTo t' ∧ True ∧ List.Forall₂ (fun q r => Reading.Of r q) qs rs) t₂ :=
    .collect trivial (fun _ _ _ _ _ h => h) fun q _ t _ => readQuery_isolated settings.fallback c q t
  exact readings.imp (fun _ _ _ never => never) fun rs t' ⟨_, _, each⟩ => each

/-- Queries that nothing disturbs, with the catalog that they need. -/
theorem readAll_run_eq_ok_iff_exists : (readAll settings qs).run t = (.ok rs, t') ↔
    t' = t ∧ ∃ c,
      (catalogIf ((qs.map Operation.read).any Operation.needsCatalog)).run t = (.ok c, t) ∧
      List.Forall₂ (fun q r => (readQuery settings.fallback c q).run t = (.ok r, t)) qs rs := by
  constructor
  · intro goes
    obtain ⟨c, t₁, loaded, run⟩ := Session.run_bind_eq_ok.mp goes
    obtain rfl : t₁ = t := by
      rw [(catalogIf_reads _).run_eq] at loaded
      exact (congrArg Prod.snd loaded).symm
    obtain ⟨_, -, run⟩ := Session.run_done_bind_eq_ok.mp run
    obtain ⟨rfl, each⟩ :=
      (Session.Reads.collect_run_eq_ok_iff (readQuery_reads settings.fallback c)).mp run
    exact ⟨rfl, c, loaded, each⟩
  · rintro ⟨rfl, c, loaded, each⟩
    -- what is answered has passed the check
    have passes : preflight c (qs.map .read) = .ok () := by
      refine (preflight_eq_ok_iff_of_reads fun _ => isRead_of_mem_map).mpr fun op hop => ?_
      obtain ⟨q, hq, rfl⟩ := List.mem_map.mp hop
      obtain ⟨r, -, run⟩ := exists_left_of_forall₂ each.flip hq
      exact check_of_readQuery_run run
    rw [readAll, Session.run_bind_of_ok loaded, passes]
    exact Session.run_collect each

/-! ### Queries on their own

A query that is executed on its own loads a catalog only if it needs one itself, whereas in a batch
it may be handed one that another query needed. This makes no difference to what it reads
(`execute_read_run_eq_ok_iff`). -/

/-- A query on its own: the catalog, and the read with it. -/
theorem execute_read_run_eq_ok_iff_exists :
    (execute settings ids [.read q]).run t = (.ok [.value r], t) ↔
      ∃ c, (catalogIf (Operation.read q).needsCatalog).run t = (.ok c, t) ∧
        (readQuery settings.fallback c q).run t = (.ok r, t) := by
  -- the batch of one query is a list of one reading
  have alone : (execute settings ids [.read q]).run t = (.ok [.value r], t) ↔
      (readAll settings [q]).run t = (.ok [r], t) := by
    rw [show [Operation.read q] = [q].map .read from rfl, execute_reads_eq, Session.run_bind_eq_ok]
    constructor
    · rintro ⟨rs, mid, run, done⟩
      rw [Session.run, Prod.mk.injEq, Except.ok.injEq, List.map_eq_singleton_iff] at done
      obtain ⟨⟨r', rfl, same⟩, rfl⟩ := done
      cases same
      exact run
    · exact fun run => ⟨[r], t, run, rfl⟩
  rw [alone, readAll_run_eq_ok_iff_exists]
  simp

/-- A query on its own reads with a catalog that was loaded for others too. -/
theorem execute_read_run_eq_ok_iff {needed : Bool} (loaded : (catalogIf needed).run t = (.ok c, t))
    (enough : (Operation.read q).needsCatalog = true → needed = true) :
    (execute settings ids [.read q]).run t = (.ok [.value r], t) ↔
      (readQuery settings.fallback c q).run t = (.ok r, t) := by
  rw [execute_read_run_eq_ok_iff_exists]
  cases needs : (Operation.read q).needsCatalog with
  | true =>
      rw [enough needs] at loaded
      rw [loaded]
      simp
  | false =>
      simp only [readQuery_of_needsCatalog_eq_false needs _ c]
      exact ⟨fun ⟨_, _, run⟩ => run, fun run => ⟨⟨[]⟩, rfl, run⟩⟩

/-- The catalog that a query needs on its own is enough for all. -/
theorem exists_catalogIf_run (each : List.Forall₂ (fun q r =>
      (execute settings ids [.read q]).run t = (.ok [.value r], t)) qs rs) :
    ∃ c, (catalogIf ((qs.map Operation.read).any Operation.needsCatalog)).run t = (.ok c, t) := by
  cases needed : (qs.map Operation.read).any Operation.needsCatalog with
  | false => exact ⟨⟨[]⟩, rfl⟩
  | true =>
      obtain ⟨op, hop, needs⟩ := List.any_eq_true.mp needed
      -- Some query needs the catalog, and has loaded it on its own.
      obtain ⟨q, hq, rfl⟩ := List.mem_map.mp hop
      obtain ⟨r, -, run⟩ := exists_left_of_forall₂ each.flip hq
      obtain ⟨c, loaded, -⟩ := execute_read_run_eq_ok_iff_exists.mp run
      rw [needs] at loaded
      exact ⟨c, loaded⟩

/-- **Queries that nothing disturbs are answered as each is on its own.** -/
theorem readAll_run_eq_ok_iff (ids : Nat → BatchId) : (readAll settings qs).run t = (.ok rs, t') ↔
    t' = t ∧ List.Forall₂ (fun q r =>
      (execute settings ids [.read q]).run t = (.ok [.value r], t)) qs rs := by
  have enough : ∀ q ∈ qs, (Operation.read q).needsCatalog = true →
      (qs.map Operation.read).any Operation.needsCatalog = true :=
    fun q hq needs => List.any_eq_true.mpr ⟨_, List.mem_map_of_mem hq, needs⟩
  rw [readAll_run_eq_ok_iff_exists]
  refine and_congr_right fun _ => ⟨?_, fun each => ?_⟩
  · rintro ⟨c, loaded, each⟩
    exact ((List.forall₂_and_left _ _).mpr ⟨enough, each⟩).imp
      fun q r ⟨enough, run⟩ => (execute_read_run_eq_ok_iff loaded enough).mpr run
  · obtain ⟨c, loaded⟩ := exists_catalogIf_run each
    exact ⟨c, loaded, ((List.forall₂_and_left _ _).mpr ⟨enough, each⟩).imp
      fun q r ⟨enough, run⟩ => (execute_read_run_eq_ok_iff loaded enough).mp run⟩

end Store

/-! ## What a chain runs

A chain of reads executes its queries as one batch and takes the readings from the outcomes. To ask
it for a single result adds the check that there is exactly one (`only`). -/

namespace ReadChain

variable {rs : List Reading} {r : Reading}

theorem filterMap_reading? (rs : List Reading) : (rs.map Outcome.value).filterMap reading? = rs := by
  rw [List.filterMap_map]
  exact List.filterMap_some

/-- **A chain of reads reads its queries.** -/
theorem executeAll_eq (settings : Settings) (ids : Nat → BatchId) (c : ReadChain) :
    c.executeAll settings ids = readAll settings c.queries := by
  rw [executeAll, operations, execute_reads_eq, Session.bind_eq, Session.bind_assoc]
  simp only [Session.bind, filterMap_reading?]
  exact Session.bind_done _

/-- The reading, if there is exactly one. -/
def only : List Reading → Except StoreError Reading
  | [r] => .ok r
  | rs => .error (.notSingular rs.length)

theorem only_eq_ok_iff : only rs = .ok r ↔ rs = [r] := by
  cases rs with
  | nil => simp [only]
  | cons r' rs => cases rs <;> simp [only]

theorem only_of_length_ne_one (h : rs.length ≠ 1) : only rs = .error (.notSingular rs.length) := by
  cases rs with
  | nil => rfl
  | cons r rs =>
      cases rs with
      | nil => exact absurd rfl h
      | cons r' rs => rfl

theorem execute_eq (settings : Settings) (ids : Nat → BatchId) (c : ReadChain) :
    c.execute settings ids = (c.executeAll settings ids).bind fun rs => .done (only rs) := by
  rw [execute, Session.bind_eq]
  congr
  funext rs
  cases rs with
  | nil => rfl
  | cons r rs => cases rs <;> rfl

theorem execute_amid_result (settings : Settings) (ids : Nat → BatchId) (c : ReadChain)
    (turns : Nat → Turn) (i : Nat) (t : Table) :
    ((c.execute settings ids).amid turns i t).result =
      ((c.executeAll settings ids).amid turns i t).result.bind only := by
  rw [execute_eq, Session.amid_bind]
  cases ((c.executeAll settings ids).amid turns i t).result <;> rfl

end ReadChain

/-! ## What comes back for a chain

Both ways of executing a chain are compared amid the same turns of others: `Query.Accounts` says of
the list and of the single result what each is when the other is known. -/

/-- All results are one reading for each query, in their order, and one result is there if there is
one query. -/
structure Query.Accounts (qs : List Query) (all : Except StoreError (List Reading))
    (one : Except StoreError Reading) : Prop where
  each : ∀ rs, all = .ok rs → List.Forall₂ (fun q r => r.Of q) qs rs
  single : ∀ r, one = .ok r ↔ qs.length = 1 ∧ all = .ok [r]
  several : qs.length ≠ 1 → ∀ rs, all = .ok rs → one = .error (.notSingular qs.length)
  failed : ∀ e, all = .error e → one = .error e

theorem ReadChain.accounts (c : ReadChain) (turns : Nat → Turn) (t : Table) :
    Query.Accounts c.queries ((c.executeAll settings ids).amid turns 0 t).result
      ((c.execute settings ids).amid turns 0 t).result := by
  have each : ∀ rs, ((c.executeAll settings ids).amid turns 0 t).result = .ok rs →
      List.Forall₂ (fun q r => r.Of q) c.queries rs := by
    intro rs answered
    rw [c.executeAll_eq] at answered
    rcases ((readAll_isolated settings c.queries t).amid turns 0).answered rs answered with
      ⟨-, each⟩ | ⟨p, -, never⟩
    · exact each
    · exact never.elim
  rw [c.execute_amid_result]
  cases all : ((c.executeAll settings ids).amid turns 0 t).result with
  | error e => exact ⟨nofun, fun r => ⟨nofun, nofun⟩, nofun, fun _ failed => failed ▸ rfl⟩
  | ok rs =>
      -- There are as many readings as queries, so the number of queries decides.
      have length := (each rs all).length_eq
      refine ⟨fun rs' h => ?_, fun r => ?_, fun many rs' _ => ?_, nofun⟩
      · cases h
        exact each rs all
      · rw [Except.bind, only_eq_ok_iff, Except.ok.injEq]
        refine ⟨fun one => ⟨?_, one⟩, fun h => h.2⟩
        rw [length, one, List.length_singleton]
      · rw [Except.bind, only_of_length_ne_one (length ▸ many), length]

/-- **Chains denote the groups that are meant.** The operations of a chain of reads are the members of
its groups in their order, and the mark is never behind the end. Undisturbed, all results are what each
member answers on its own, and whatever happens in between, they are readings of the members, of which
there is one result only if there is one member. In a chain of writes every group is one assignment. How
chains are nested makes no difference, however they go on. -/
theorem chains_denote_groups (settings : Settings) (ids : Nat → BatchId) :
    (∀ e : ReadExpr,
      e.chain.operations = e.groups.members.map .read ∧
      e.chain.groupStart ≤ e.chain.queries.length ∧
      (∀ t t' rs, (e.chain.executeAll settings ids).run t = (.ok rs, t') ↔
        t' = t ∧ List.Forall₂ (fun q r =>
          (execute settings ids [.read q]).run t = (.ok [.value r], t)) e.groups.members rs) ∧
      ∀ turns t, Query.Accounts e.groups.members
        ((e.chain.executeAll settings ids).amid turns 0 t).result
        ((e.chain.execute settings ids).amid turns 0 t).result) ∧
    (∀ (a b c : ReadExpr) links,
      (((a.and b).and c).continued links).chain = ((a.and (b.and c)).continued links).chain) ∧
    (∀ e : WriteExpr,
      e.chain.operations = e.groups.members.map .assign ∧
      ∀ group ∈ e.groups.toList, group.length = 1) ∧
    ∀ (a b c : WriteExpr) links,
      (((a.and b).and c).continued links).chain = ((a.and (b.and c)).continued links).chain := by
  refine ⟨fun e => ?_, ReadExpr.chain_and_assoc, fun e => ?_, WriteExpr.chain_and_assoc⟩
  · have holds := e.chain_holds
    refine ⟨e.operations_chain, holds.groupStart_le, fun t t' rs => ?_, fun turns t => ?_⟩
    · rw [← holds.queries, e.chain.executeAll_eq]
      exact readAll_run_eq_ok_iff ids
    · rw [← holds.queries]
      exact e.chain.accounts turns t
  · exact ⟨e.operations_chain, e.chain_holds.length_eq_one⟩

/-- A value that is set and activated. -/
def stocked : Table :=
  ((execute {} (.stamped 0) [.assign ⟨"a", .integer 1, []⟩, .activate ⟨[], none⟩]).run .empty).2

/-- Two properties, and one of them once more at a revision. -/
def revisit : ReadExpr := ((ReadExpr.getMany ["a", "b"]).andGet "a").atRevision 1

theorem revisit_denotes_three_reads :
    revisit.chain.operations = [.read ⟨"a", [], none⟩, .read ⟨"b", [], none⟩, .read ⟨"a", [], some 1⟩] ∧
    ∃ rs, (revisit.chain.executeAll {} (.stamped 1)).run stocked = (.ok rs, stocked) ∧
      List.Forall₂ (fun q r => (execute {} (.stamped 1) [.read q]).run stocked = (.ok [.value r], stocked))
        revisit.groups.members rs ∧
      ((revisit.chain.execute {} (.stamped 1)).amid (fun _ => ⟨[], none⟩) 0 stocked).result =
        .error (.notSingular 3) := by
  obtain ⟨operations, -, undisturbed, accounts⟩ := (chains_denote_groups {} (.stamped 1)).1 revisit
  obtain ⟨rs, t', goes⟩ := Session.exists_run_of_isOk
    (show ((revisit.chain.executeAll {} (.stamped 1)).run stocked).1.isOk by decide +kernel)
  obtain ⟨same, each⟩ := (undisturbed _ _ _).mp goes
  rw [same] at goes
  have answered : ((revisit.chain.executeAll {} (.stamped 1)).amid (fun _ => ⟨[], none⟩) 0 stocked).result =
      .ok rs := by
    rw [Session.amid_quiet, goes]
  exact ⟨operations, rs, goes, each, (accounts _ _).several (by decide) rs answered⟩

end ScopedConfig
