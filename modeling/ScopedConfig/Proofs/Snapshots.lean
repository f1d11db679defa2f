import ScopedConfig.Proofs.Histories

/-!
# Batches of reads amid others

A batch that only reads scans the records once and then looks for entries one by one, while others
write. `Session.meet` is such a session: each of its requests meets a table of its own. Reads of
active values and listings look at revisions that the scan found written, and what is read there
never changes, so they answer as of the moment of the scan; a read at a revision answers as of the
moment at which it loads its record (`System.read_batches_are_snapshots`).
-/

namespace ScopedConfig

open Layout Store

/-- A request, with the table that answers it. -/
structure Visit where
  request : Request
  table : Table

/-- The request leaves the table as it is. -/
def Visit.Quiet (v : Visit) : Prop := (v.table.answer v.request).2 = v.table

namespace Session

variable {α β : Type} {tables : Nat → Table} {later : Table → Prop} {t : Table}

/-- A session whose `i`-th request meets the `i`-th table: its result and its requests. It is for
sessions that leave those tables as they are. -/
def meet (tables : Nat → Table) : Session α → Nat → Except StoreError α × List Visit
  | done result, _ => (result, [])
  | ask request next, i =>
    let (result, visits) := (next ((tables i).answer request).1).meet tables (i + 1)
    (result, ⟨request, tables i⟩ :: visits)

theorem meet_bind_of_ok {x : Session α} {f : α → Session β} {i : Nat} {a : α} {vs : List Visit}
    (h : x.meet tables i = (.ok a, vs)) :
    (x.bind f).meet tables i =
      (((f a).meet tables (i + vs.length)).1, vs ++ ((f a).meet tables (i + vs.length)).2) := by
  induction x generalizing i vs with
  | done result =>
      cases h
      rfl
  | ask request next ih =>
      obtain ⟨rest, rfl, hrest⟩ : ∃ rest, vs = ⟨request, tables i⟩ :: rest ∧
          (next ((tables i).answer request).1).meet tables (i + 1) = (.ok a, rest) := by
        rw [meet] at h
        obtain ⟨result, visits⟩ := Prod.mk.inj h
        exact ⟨_, visits.symm, Prod.ext result rfl⟩
      rw [Session.bind, meet, ih _ hrest, List.length_cons, Nat.add_assoc, Nat.add_comm 1]
      rfl

/-! ## Steady sessions

A session is steady at a table if every later table gives its requests the same answers, and if the
session that goes on from there is steady too. The answers then are those of one table, although
each request may have met another one. -/

/-- Every later table answers the requests of the session as the table itself does. -/
def Steady (later : Table → Prop) (t : Table) : Session α → Prop
  | done _ => True
  | ask request next => (∀ t', later t' → t'.answer request = ((t.answer request).1, t')) ∧
      (next (t.answer request).1).Steady later t

namespace Steady

theorem bind {x : Session α} {f : α → Session β} (hx : x.Steady later t)
    (hf : ∀ a, (f a).Steady later t) : (x.bind f).Steady later t := by
  induction x with
  | done result =>
      cases result with
      | error e => trivial
      | ok a => exact hf a
  | ask request next ih => exact ⟨hx.1, ih _ hx.2⟩

theorem composable : Composable fun _ x => x.Steady later t where
  done _ := trivial
  bind := bind

/-- **A steady session does amid later tables what it does undisturbed.** -/
theorem run_eq {x : Session α} (h : x.Steady later t) (now : later t) {i : Nat}
    (hlater : ∀ j, i ≤ j → later (tables j)) :
    x.run t = ((x.meet tables i).1, t) ∧ ∀ v ∈ (x.meet tables i).2, v.Quiet := by
  induction x generalizing i with
  | done result => exact ⟨rfl, fun v hv => absurd hv List.not_mem_nil⟩
  | ask request next ih =>
      obtain ⟨same, rest⟩ := h
      have undisturbed : t.answer request = ((t.answer request).1, t) := same t now
      have answered := same (tables i) (hlater i (Nat.le_refl i))
      obtain ⟨runs, quiet⟩ := ih _ rest fun j hj => hlater j (Nat.le_of_succ_le hj)
      rw [run, undisturbed, meet, answered]
      exact ⟨runs, List.forall_mem_cons.mpr ⟨congrArg Prod.snd answered, quiet⟩⟩

end Steady

/-- A session that is steady once its first request is answered. -/
theorem run_ask_eq {request : Request} {next : Except BackendError request.Answer → Session α}
    {i : Nat} (reading : request.isTransaction = false)
    (steady : (next ((tables i).answer request).1).Steady later (tables i))
    (hlater : ∀ j, i ≤ j → later (tables j)) :
    (ask request next).run (tables i) = (((ask request next).meet tables i).1, tables i) ∧
      ∀ v ∈ ((ask request next).meet tables i).2, v.Quiet := by
  have quiet : Visit.Quiet ⟨request, tables i⟩ := Table.answer_of_reading reading
  obtain ⟨runs, rest⟩ :=
    steady.run_eq (hlater i (Nat.le_refl i)) fun j hj => hlater j (Nat.le_of_succ_le hj)
  refine ⟨?_, List.forall_mem_cons.mpr ⟨quiet, rest⟩⟩
  show (next ((tables i).answer request).1).run ((tables i).answer request).2 = _
  rw [Table.answer_of_reading reading]
  exact runs

end Session

/-! ## Steady reads

A look-up as of a revision that has been written is steady, for a later table has the same rows up
to there. Reads of active values and listings look up revisions that the scan has seen active, and
what is active has been written. -/

/-- The second table may be what the first one is later, with everything written kept. -/
def Table.Later (t t' : Table) : Prop := t.Keeps t' ∧ t'.Coherent

variable {U : Scope → Prop} {t : Table} {l : Ledger} {c : Catalog} {name : String} {s : Scope}
  {n : Revision} {fallback : Fallback}

/-- **A look-up at a revision that has been written is steady.** -/
theorem Table.Coherent.steady_entryAsOf (h : t.Coherent) (written : n ≤ t.working s.id) :
    (entryAsOf name s n).Steady t.Later t := by
  rw [entryAsOf_eq]
  refine ⟨fun t' later => ?_, trivial⟩
  show (Except.ok (t'.floor _ _), t') = _
  rw [later.1.floor_eq h.filed later.2.filed written]
  rfl

theorem Store.wellFormed_of_mem_candidates (hs : s.WellFormed) :
    ∀ r ∈ candidates fallback s, r.WellFormed := by
  intro r hr
  cases fallback with
  | none => exact List.mem_singleton.mp hr ▸ hs
  | lookup =>
      obtain ⟨dropped, -, rfl⟩ := List.mem_map.mp hr
      exact hs.take (s.params.length - dropped)

namespace Table.Depicts

theorem record?_eq (sep : Scope.Separated U) (h : t.Depicts U l) {s : Scope} {p : Pointers}
    (hp : l.pointers s.canonical = some p) : t.record? s.id = some (p.record s.canonical) := by
  obtain ⟨r, used, canonical⟩ := h.pointers _ (by rw [hp]; exact Option.some_ne_none p)
  rw [record?_eq_some_iff, h.hasRecord_iff sep]
  exact ⟨r, p, used, Scope.id_eq_of_canonical_eq canonical.symm, canonical.symm ▸ hp, by rw [canonical]⟩

/-- What a scope shows has been written. -/
theorem shown_le_working (sep : Scope.Separated U) (h : t.Depicts U l) (orderly : l.Orderly)
    (shown : l.shown s.canonical = some n) : n ≤ t.working s.id := by
  obtain ⟨p, hp, hn⟩ := Option.bind_eq_some_iff.mp shown
  rw [working_eq (h.record?_eq sep hp)]
  exact (orderly.active _ p n hp hn).2

/-- A search through scopes at revisions that the catalog has active. -/
theorem steady_firstHit (sep : Scope.Separated U) (h : t.Depicts U l) (coherent : l.Coherent)
    (lists : c.Lists l) {scopes : List Scope} (wf : ∀ s ∈ scopes, s.WellFormed) :
    (firstHit c name scopes).Steady t.Later t := by
  apply Session.Steady.composable.firstHit
  intro s hs n active
  rw [lists.find?_bind_active (wf s hs)] at active
  exact (h.coherent sep coherent).steady_entryAsOf (h.shown_le_working sep coherent.orderly active)

theorem steady_readEach (sep : Scope.Separated U) (h : t.Depicts U l) (coherent : l.Coherent)
    (lists : c.Lists l) {records : List ScopeRecord} (mem : ∀ r ∈ records, r ∈ c.records) :
    (readEach name records).Steady t.Later t := by
  apply Session.Steady.composable.readEach
  intro r hr n active
  rw [← lists.shown_of_mem (mem r hr)] at active
  exact (h.coherent sep coherent).steady_entryAsOf (h.shown_le_working sep coherent.orderly active)

/-- **What depends on the catalog is steady.** -/
theorem steady_answer (sep : Scope.Separated U) (h : t.Depicts U l) (coherent : l.Coherent)
    (lists : c.Lists l) (fallback : Fallback) {op : Operation} (read : op.isRead)
    (needs : op.needsCatalog) : (Store.answer fallback c op).Steady t.Later t := by
  cases op with
  | assign | activate => cases read
  | read q =>
      have active : q.revision = none := Option.isNone_iff_eq_none.mp needs
      rw [Store.answer, active]
      cases hs : scopeOf q.params with
      | error e => trivial
      | ok s =>
          show Session.Steady t.Later t ((readActive fallback c q.name s).bind _)
          refine .bind (.bind trivial fun _ => .bind ?_ fun hit => trivial) fun reading => trivial
          exact h.steady_firstHit sep coherent lists
            (wellFormed_of_mem_candidates (wellFormed_of_scopeOf hs))
  | list q =>
      unfold Store.answer
      refine .bind trivial fun filter => .bind ?_ fun readings => trivial
      refine h.steady_readEach sep coherent lists fun r hr => ?_
      have mem := (sortBy_perm _ _).mem_iff.mp hr
      exact (List.mem_filter.mp mem).1

end Table.Depicts

/-! ## Reads at a revision

Such a read does not go by the scan, and the record that it loads may already say more than the scan
did. From that request on it is steady. -/

/-- A read at a revision first loads the record of its scope; what follows is steady. -/
theorem Table.Coherent.readAt_eq_ask (h : t.Coherent) (name : String) (s : Scope) (n : Revision) :
    ∃ next, readAt name s n = .ask (.get (recordKey s.id)) next ∧
      (next (.ok (t.get? (recordKey s.id)))).Steady t.Later t := by
  refine ⟨_, rfl, ?_⟩
  cases hs : t.get? (recordKey s.id) with
  | none => trivial
  | some stored =>
      obtain ⟨r, unpack, -⟩ := h.record s.id stored hs
      show Session.Steady t.Later t ((((Session.done (decodeRecord stored.value)).bind fun r =>
        .done (.ok (⟨r, some stored.version⟩ : Loaded))).bind _).bind (readRecorded name s n))
      rw [decodeRecord_eq_ok_iff.mpr unpack]
      show Session.Steady t.Later t (readRecorded name s n (some r))
      apply Session.Steady.composable.readRecorded
      intro r' found known
      -- The revision is checked against the record loaded, so it has been written by then.
      obtain rfl := Option.some.inj found
      have working : t.working s.id = r.working :=
        Table.working_eq (Table.record?_eq_some_iff.mpr ⟨stored, hs, unpack⟩)
      exact h.steady_entryAsOf (working ▸ (ScopeRecord.hasRevision_iff.mp known).2)

/-! ## Tables that follow one another

`Unfolds` is what a run of the store gives: each table is later than those before it. A member of a
batch is noted with what it answered, what the whole batch at the moment of the scan would have
answered, and what its requests met (`Answered`). -/

/-- Each table keeps what the ones before it have written. -/
structure Unfolds (U : Scope → Prop) (tables : Nat → Table) : Prop where
  ledger : ∀ j, ∃ l, (tables j).Depicts U l ∧ l.Coherent
  keeps : ∀ i j, i ≤ j → (tables i).Keeps (tables j)

/-- One member of a batch of reads, as it went. -/
structure Answered where
  op : Operation
  /-- What it led to. -/
  outcome : Outcome
  /-- What it would have led to at the moment of the scan. -/
  snapshot : Outcome
  /-- Its requests. -/
  visits : List Visit

/-- Reads that depend on the catalog answer as of the scan, the others as of the moment at which they
load the record of their scope. -/
structure Answered.Consistent (settings : Settings) (ids : Nat → BatchId) (a : Answered) : Prop where
  current : a.op.needsCatalog = true → a.outcome = a.snapshot
  revised : a.op.needsCatalog = false → ∃ q s t rest, a.op = .read q ∧ scopeOf q.params = .ok s ∧
    a.visits = ⟨.get (recordKey s.id), t⟩ :: rest ∧
    (execute settings ids [a.op]).run t = (.ok [a.outcome], t)
  quiet : ∀ v ∈ a.visits, v.Quiet

/-- The scan of the records, where a batch makes one. -/
def scanned (needed : Bool) (t : Table) : List Visit :=
  if needed then [⟨.scan recordPrefix, t⟩] else []

theorem quiet_of_scanned {needed : Bool} {t : Table} : ∀ v ∈ scanned needed t, v.Quiet := by
  intro v hv
  rw [scanned] at hv
  split at hv
  · rw [List.mem_singleton.mp hv]
    rfl
  · cases hv

theorem Store.exists_of_answer_run {op : Operation} {t t' : Table} {o : Option Outcome}
    (read : op.isRead) (run : (answer fallback c op).run t = (.ok o, t')) :
    ∃ x, o = some x ∧ op.Yields x := by
  cases op with
  | assign | activate => cases read
  | read q =>
      rw [answer, Session.bind_eq, Session.run_done_bind_eq_ok] at run
      obtain ⟨s, -, run⟩ := run
      cases hq : q.revision <;>
      · rw [hq] at run
        obtain ⟨reading, mid, -, done⟩ := Session.run_bind_eq_ok.mp run
        cases done
        exact ⟨_, rfl, trivial⟩
  | list q =>
      rw [answer, Session.bind_eq, Session.run_done_bind_eq_ok] at run
      obtain ⟨filter, -, run⟩ := run
      obtain ⟨readings, mid, -, done⟩ := Session.run_bind_eq_ok.mp run
      cases done
      exact ⟨_, rfl, trivial⟩

theorem Store.arrange_of_reads {as : List Answered} (reads : ∀ a ∈ as, a.op.isRead)
    (outcome : Answered → Outcome) :
    arrange (as.map Answered.op) [] [] (as.map fun a => some (outcome a)) = as.map outcome := by
  induction as with
  | nil => rfl
  | cons a as ih =>
      obtain ⟨read, reads⟩ := List.forall_mem_cons.mp reads
      rw [List.map_cons, List.map_cons, List.map_cons, ← ih reads]
      cases hop : a.op with
      | assign | activate => rw [hop] at read; cases read
      | read | list => rfl

namespace Unfolds

variable {tables : Nat → Table}

theorem later (sep : Scope.Separated U) (h : Unfolds U tables) {i j : Nat} (le : i ≤ j) :
    (tables i).Later (tables j) := by
  obtain ⟨l, depicts, coherent⟩ := h.ledger j
  exact ⟨h.keeps i j le, depicts.coherent sep coherent⟩

/-- A read at a revision answers as of its first request, which loads the record. -/
theorem readAt_meet (sep : Scope.Separated U) (h : Unfolds U tables) (name : String) (s : Scope)
    (n : Revision) (i : Nat) :
    ∃ reading rest, (readAt name s n).run (tables i) = (.ok reading, tables i) ∧
      (readAt name s n).meet tables i = (.ok reading, ⟨.get (recordKey s.id), tables i⟩ :: rest) ∧
      ∀ v ∈ ((readAt name s n).meet tables i).2, v.Quiet := by
  obtain ⟨l, depicts, coherent⟩ := h.ledger i
  obtain ⟨reading, run⟩ := depicts.readAt_answers sep coherent.fits name s n
  obtain ⟨next, asks, steady⟩ := (depicts.coherent sep coherent).readAt_eq_ask name s n
  have reads : (Request.get (recordKey s.id)).isTransaction = false := rfl
  obtain ⟨same, quiet⟩ := Session.run_ask_eq reads steady fun j hj => h.later sep hj
  rw [← asks, run] at same
  rw [← asks] at quiet
  refine ⟨reading, ((next ((tables i).answer (.get (recordKey s.id))).1).meet tables (i + 1)).2,
    run, Prod.ext (Prod.mk.inj same).1.symm ?_, quiet⟩
  rw [asks]
  rfl

variable {l : Ledger} {ops : List Operation}

/-- **One read of a batch.** -/
theorem exists_answered (sep : Scope.Separated U) (h : Unfolds U tables)
    (depicts : (tables 0).Depicts U l) (coherent : l.Coherent) {op : Operation} (read : op.isRead)
    (valid : op.Valid) (passes : op.needsCatalog = true → c.Lists l ∧ l.Allows op)
    (settings : Settings) (ids : Nat → BatchId) (i : Nat) :
    ∃ a : Answered, a.op = op ∧
      (answer settings.fallback c op).meet tables i = (.ok (some a.outcome), a.visits) ∧
      (answer settings.fallback c op).run (tables 0) = (.ok (some a.snapshot), tables 0) ∧
      a.Consistent settings ids := by
  cases needs : op.needsCatalog with
  -- A member that needs the catalog is steady from the first table on, one that does not answers as
  -- of the table at which it loads its record.
  | true =>
      obtain ⟨lists, allows⟩ := passes needs
      obtain ⟨o, run⟩ := depicts.answer_answers sep coherent.fits settings.fallback valid
        fun _ => ⟨l, lists, allows⟩
      obtain ⟨x, rfl, -⟩ := exists_of_answer_run read run
      obtain ⟨same, quiet⟩ :=
        (depicts.steady_answer sep coherent lists settings.fallback read needs).run_eq
          (h.later sep (Nat.le_refl 0)) (i := i) fun j _ => h.later sep (Nat.zero_le j)
      rw [run] at same
      refine ⟨⟨op, x, x, _⟩, rfl, Prod.ext (Prod.mk.inj same).1.symm rfl, run, fun _ => rfl,
        fun revised => ?_, quiet⟩
      cases needs.symm.trans revised
  | false =>
      cases op with
      | assign | activate => cases read
      | list => cases needs
      | read q =>
          obtain ⟨n, hn⟩ : ∃ n, q.revision = some n :=
            Option.isSome_iff_exists.mp (by simpa [Operation.needsCatalog] using needs)
          obtain ⟨s, hs⟩ := exists_scopeOf_iff.mpr valid
          obtain ⟨first, -, run₀, -, -⟩ := h.readAt_meet sep q.name s n 0
          obtain ⟨reading, rest, run, meet, quiet⟩ := h.readAt_meet sep q.name s n i
          refine ⟨⟨.read q, .value reading, .value first, ⟨.get (recordKey s.id), tables i⟩ :: rest⟩,
            rfl, ?_, ?_, fun current => ?_, fun _ => ?_, by rwa [meet] at quiet⟩
          · rw [answer_read_eq _ _ hs hn, Session.meet_bind_of_ok meet]
            simp [Session.meet]
          · rw [answer_read_eq _ _ hs hn, Session.run_bind_of_ok run₀]
            rfl
          · cases needs.symm.trans current
          · refine ⟨q, s, tables i, rest, rfl, hs, rfl, ?_⟩
            rw [execute_read_eq settings ids hs hn, Session.run_bind_of_ok run]
            rfl

/-- **The reads of a batch, one after another.** -/
theorem exists_answereds (sep : Scope.Separated U) (h : Unfolds U tables)
    (depicts : (tables 0).Depicts U l) (coherent : l.Coherent) (reads : ∀ op ∈ ops, op.isRead)
    (valid : ∀ op ∈ ops, op.Valid)
    (passes : ∀ op ∈ ops, op.needsCatalog = true → c.Lists l ∧ l.Allows op)
    (settings : Settings) (ids : Nat → BatchId) (i : Nat) :
    ∃ as : List Answered, as.map Answered.op = ops ∧
      (Session.collect (answer settings.fallback c) ops).meet tables i =
        (.ok (as.map fun a => some a.outcome), as.flatMap Answered.visits) ∧
      (Session.collect (answer settings.fallback c) ops).run (tables 0) =
        (.ok (as.map fun a => some a.snapshot), tables 0) ∧
      ∀ a ∈ as, a.Consistent settings ids := by
  induction ops generalizing i with
  | nil => exact ⟨[], rfl, rfl, rfl, fun a ha => absurd ha List.not_mem_nil⟩
  | cons op ops ih =>
      rw [List.forall_mem_cons] at reads valid passes
      obtain ⟨a, hop, meet, run, consistent⟩ :=
        h.exists_answered sep depicts coherent reads.1 valid.1 passes.1 settings ids i
      -- the rest of the members begin where the requests of this one have ended
      obtain ⟨as, hops, meets, runs, all⟩ := ih reads.2 valid.2 passes.2 (i + a.visits.length)
      refine ⟨a :: as, by rw [List.map_cons, hop, hops], ?_, ?_,
        List.forall_mem_cons.mpr ⟨consistent, all⟩⟩
      · rw [Session.collect, Session.bind_eq, Session.meet_bind_of_ok meet, Session.bind_eq,
          Session.meet_bind_of_ok meets]
        simp [Session.meet, Session.pure_eq]
      · rw [Session.collect, Session.bind_eq, Session.run_bind_of_ok run, Session.bind_eq,
          Session.run_bind_of_ok runs]
        rfl

/-! ## Whole batches

The scan comes first, if there is one, and meets the first table. The check ahead goes by its
result, so it fails here if and only if it fails there; if it does not, the members follow. -/

theorem catalogIf_meet (needed : Bool) (i : Nat) :
    (catalogIf needed).meet tables i =
      (((catalogIf needed).run (tables i)).1, scanned needed (tables i)) := by
  cases needed with
  | false => rfl
  | true =>
      -- behind the scan there is nothing but decoding
      let rest : Session Catalog :=
        (Session.done (decodeRecords ((tables i).scan recordPrefix))).bind fun rs => .done (.ok ⟨rs⟩)
      obtain ⟨result, ends⟩ : ∃ result, rest = .done result := by
        show ∃ result, (Session.done (decodeRecords _)).bind _ = .done result
        cases decodeRecords ((tables i).scan recordPrefix) <;> exact ⟨_, rfl⟩
      show ((rest.meet tables (i + 1)).1,
        (⟨.scan recordPrefix, tables i⟩ : Visit) :: (rest.meet tables (i + 1)).2) =
          ((rest.run (tables i)).1, [⟨.scan recordPrefix, tables i⟩])
      rw [ends]
      rfl

/-- **A batch of reads.** -/
theorem execute_meet (sep : Scope.Separated U) (h : Unfolds U tables) (settings : Settings)
    (ids : Nat → BatchId) (reads : ∀ op ∈ ops, op.isRead) :
    ∃ as : List Answered,
      ((execute settings ids ops).meet tables 0).2 =
        scanned (ops.any Operation.needsCatalog) (tables 0) ++ as.flatMap Answered.visits ∧
      (∀ v ∈ ((execute settings ids ops).meet tables 0).2, v.Quiet) ∧
      (∀ e, ((execute settings ids ops).run (tables 0)).1 = .error e →
        ((execute settings ids ops).meet tables 0).1 = .error e) ∧
      ∀ snapshot, ((execute settings ids ops).run (tables 0)).1 = .ok snapshot →
        as.map Answered.op = ops ∧ as.map Answered.snapshot = snapshot ∧
        ((execute settings ids ops).meet tables 0).1 = .ok (as.map Answered.outcome) ∧
        ∀ a ∈ as, a.Consistent settings ids := by
  obtain ⟨l, depicts, coherent⟩ := h.ledger 0
  obtain ⟨c, load, lists⟩ := depicts.catalogIf_run sep (ops.any Operation.needsCatalog)
  have met : (catalogIf (ops.any Operation.needsCatalog)).meet tables 0 =
      (.ok c, scanned (ops.any Operation.needsCatalog) (tables 0)) := by
    rw [catalogIf_meet, load]
  obtain ⟨assigns, -⟩ := Operation.filterMap_of_reads reads
  have phases := execute_eq_of_reads settings ids reads
  cases passes : preflight c ops with
  | error e =>
      have meet : (execute settings ids ops).meet tables 0 =
          (.error e, scanned (ops.any Operation.needsCatalog) (tables 0)) := by
        rw [phases, Session.meet_bind_of_ok met, passes]
        simp [Session.meet, Session.bind]
      have run : (execute settings ids ops).run (tables 0) = (.error e, tables 0) := by
        rw [phases, Session.run_bind_of_ok load, passes]
        rfl
      rw [meet, run]
      exact ⟨[], by simp, quiet_of_scanned, fun _ failed => failed,
        fun _ answered => by cases answered⟩
  | ok u =>
      -- what passes the check ahead is answered, as nothing is written in between
      have accepts := (depicts.accepts_iff_of_catalogIf sep lists).mpr
        ⟨passes, [], by rw [assigns]; rfl⟩
      have allowed := accepts.allowed
      rw [Ledger.ahead_eq_self assigns] at allowed
      obtain ⟨as, hops, meets, runs, all⟩ := h.exists_answereds sep depicts coherent reads
        accepts.valid (fun op hop needs => ⟨lists (List.any_eq_true.mpr ⟨op, hop, needs⟩),
          allowed op hop⟩) settings ids
        (0 + (scanned (ops.any Operation.needsCatalog) (tables 0)).length)
      have arranged (outcome : Answered → Outcome) : arrange ops [] []
          (as.map fun a => some (outcome a)) = as.map outcome := by
        rw [← hops]
        exact arrange_of_reads (fun a ha => reads _ (hops ▸ List.mem_map_of_mem ha)) outcome
      have meet : (execute settings ids ops).meet tables 0 = (.ok (as.map Answered.outcome),
          scanned (ops.any Operation.needsCatalog) (tables 0) ++ as.flatMap Answered.visits) := by
        rw [phases, Session.meet_bind_of_ok met, passes, Session.bind,
          Session.meet_bind_of_ok meets, arranged]
        simp [Session.meet]
      have run : (execute settings ids ops).run (tables 0) =
          (.ok (as.map Answered.snapshot), tables 0) := by
        rw [phases, Session.run_bind_of_ok load, passes, Session.bind, Session.run_bind_of_ok runs,
          arranged]
        rfl
      rw [meet, run]
      refine ⟨as, rfl, List.forall_mem_append.mpr ⟨quiet_of_scanned, fun v hv => ?_⟩,
        fun _ failed => (by cases failed),
        fun snapshot answered => ⟨hops, Except.ok.inj answered, rfl, all⟩⟩
      obtain ⟨a, ha, hv⟩ := List.mem_flatMap.mp hv
      exact (all a ha).quiet v hv

end Unfolds

/-! ## Schedules

A clock tells at which moment of a schedule each request is answered. As it does not go back, the
tables follow one another. -/

namespace System

variable {ι : Type} [DecidableEq ι]

/-- The tables that the requests of a session meet, the `j`-th of them after `clock j` moves. -/
def tablesAt (moves : List (Move ι)) (clock : Nat → Nat) (j : Nat) : Table :=
  (run (moves.take (clock j))).table

theorem tablesAt_unfolds (sep : Scope.Separated U) (moves : List (Move ι))
    (within : ∀ h c, .call h c ∈ moves → c.Within U) (fits : ∀ h c, .call h c ∈ moves → c.Fits)
    (roomy : ∀ k ∈ (run moves).log, k.before.Roomy) {clock : Nat → Nat}
    (ordered : ∀ i j, i ≤ j → clock i ≤ clock j) :
    Unfolds U (tablesAt moves clock) := by
  have ledgers (i j : Nat) (le : i ≤ j) : ∃ l l', (tablesAt moves clock i).Depicts U l ∧
      (tablesAt moves clock j).Depicts U l' ∧ l.Coherent ∧ l'.Coherent ∧ l.Keeps l' := by
    -- what has happened by the later moment begins with what has happened by the earlier one
    obtain ⟨more, later⟩ : ∃ more, moves.take (clock j) = moves.take (clock i) ++ more :=
      (List.take_prefix_take_left (ordered i j le)).imp fun _ eq => eq.symm
    have sub : ∀ m ∈ moves.take (clock i) ++ more, m ∈ moves :=
      fun m hm => List.mem_of_mem_take (later ▸ hm)
    have log := log_prefix_run (moves.take (clock j)) (moves.drop (clock j))
    rw [List.take_append_drop, later] at log
    rw [tablesAt, tablesAt, later]
    exact run_keeps sep _ more (fun h c hc => within h c (sub _ hc))
      (fun h c hc => fits h c (sub _ hc)) fun k hk => roomy k (log.subset hk)
  refine ⟨fun j => ?_, fun i j le => ?_⟩
  · obtain ⟨l, -, depicts, -, coherent, -⟩ := ledgers j j (Nat.le_refl j)
    exact ⟨l, depicts, coherent⟩
  · obtain ⟨l, l', depicts, depicts', -, -, keeps⟩ := ledgers i j le
    exact depicts.keeps sep depicts' keeps

/-- **Batches of reads are snapshots.** -/
theorem read_batches_are_snapshots (sep : Scope.Separated U) (moves : List (Move ι))
    (within : ∀ h c, .call h c ∈ moves → c.Within U) (fits : ∀ h c, .call h c ∈ moves → c.Fits)
    (roomy : ∀ k ∈ (run moves).log, k.before.Roomy) {clock : Nat → Nat}
    (ordered : ∀ i j, i ≤ j → clock i ≤ clock j)
    (settings : Settings) (ids : Nat → BatchId) {ops : List Operation}
    (reads : ∀ op ∈ ops, op.isRead) :
    ∃ as : List Answered,
      ((execute settings ids ops).meet (tablesAt moves clock) 0).2 =
        scanned (ops.any Operation.needsCatalog) (tablesAt moves clock 0) ++
          as.flatMap Answered.visits ∧
      (∀ v ∈ ((execute settings ids ops).meet (tablesAt moves clock) 0).2, v.Quiet) ∧
      (∀ e, ((execute settings ids ops).run (tablesAt moves clock 0)).1 = .error e →
        ((execute settings ids ops).meet (tablesAt moves clock) 0).1 = .error e) ∧
      ∀ snapshot, ((execute settings ids ops).run (tablesAt moves clock 0)).1 = .ok snapshot →
        as.map Answered.op = ops ∧ as.map Answered.snapshot = snapshot ∧
        ((execute settings ids ops).meet (tablesAt moves clock) 0).1 =
          .ok (as.map Answered.outcome) ∧
        ∀ a ∈ as, a.Consistent settings ids :=
  (tablesAt_unfolds sep moves within fits roomy ordered).execute_meet sep settings ids reads

/-- A read of the active value, and one of a revision that comes only after the scan. -/
def glimpse : List Operation := [.read ⟨"limit", [], none⟩, .read ⟨"limit", [], some 3⟩]

theorem glimpse_is_snapshot :
    ∃ (as : List Answered) (snapshot : List Outcome),
      ((execute {} (.stamped 2) glimpse).run (run race).table).1 = .ok snapshot ∧
      as.map Answered.op = glimpse ∧ as.map Answered.snapshot = snapshot ∧
      ((execute {} (.stamped 2) glimpse).meet
        (tablesAt (race ++ rollback) fun j => 8 * (j + 1)) 0).1 = .ok (as.map Answered.outcome) ∧
      ∀ a ∈ as, a.Consistent {} (.stamped 2) := by
  obtain ⟨as, -, -, -, consistent⟩ := read_batches_are_snapshots Scope.separated_sample (race ++ rollback)
    (fun h c hc => (rollback_within h c hc).1) (fun h c hc => (rollback_within h c hc).2)
    rollback_roomy (show ∀ i j, i ≤ j → 8 * (i + 1) ≤ 8 * (j + 1) by omega) {} (.stamped 2)
    (show ∀ op ∈ glimpse, op.isRead by decide)
  -- the scan comes when the race is over
  have scan : tablesAt (race ++ rollback) (fun j => 8 * (j + 1)) 0 = (run race).table := rfl
  obtain ⟨snapshot, goes⟩ := exists_eq_ok_of_isOk
    (show ((execute {} (.stamped 2) glimpse).run (run race).table).1.isOk by decide +kernel)
  rw [scan] at consistent
  exact ⟨as, snapshot, goes, consistent snapshot goes⟩

end System

end ScopedConfig
