import Mathlib.Data.List.Induction
import ScopedConfig.Proofs.Guests

/-!
# Sessions by their visits

There are three ways of running a session amid others. `Session.meet` hands each request a table of
its own, `Session.amid` lets transactions of others and faults come before it, and `Guest.run` runs the
session beside the handles of a system. Each serves another kind of statement: about reads, about
anything that others may do, and about what the log of a system tells.

All three come to the same when the requests come to the same tables, as a session goes on by its
answers alone. `Session.Visits` says so much: with its requests answered by these tables, the session
comes to this rest. What is visited is what `meet` notes (`Visits.meet_eq`); sessions amid others make
visits as long as no request fails (`Session.exists_meet_eq_amid`), and so do guests (`Guest.visits`).
As the handles beside a guest only put transactions through, a guest is a session amid others
(`Guest.exists_amid`). Where it only reads, its schedule alone says which tables it visits
(`Guest.meet_eq`), and what is shown of batches of reads holds of it (`Guest.read_batch_consistent`).
-/

namespace ScopedConfig

open Layout Store

variable {U : Scope → Prop} {t : Table} {vs vs' : List Visit}

/-- The table after the request. -/
def Visit.after (v : Visit) : Table := (v.table.answer v.request).2

/-- The transaction that went through, if one did. -/
def Visit.passages (v : Visit) : List Passage :=
  if v.request.isTransaction && (v.table.answer v.request).1.isOk then [⟨v.table, v.after⟩] else []

namespace Session

variable {α : Type} {x y z : Session α} {result : Except StoreError α}

/-- With its requests answered by these tables, one after another, the session comes to the rest. -/
inductive Visits {α : Type} : Session α → List Visit → Session α → Prop where
  | refl (x : Session α) : Visits x [] x
  | ask {request : Request} {next : Except BackendError request.Answer → Session α} {t : Table}
      {vs : List Visit} {y : Session α} (rest : Visits (next (t.answer request).1) vs y) :
      Visits (ask request next) (⟨request, t⟩ :: vs) y

namespace Visits

theorem trans (h : x.Visits vs y) (h' : y.Visits vs' z) : x.Visits (vs ++ vs') z := by
  induction h with
  | refl x => exact h'
  | ask rest ih => exact .ask (ih h')

/-- **A session meets what it visits.** -/
theorem meet_eq {tables : Nat → Table} (h : x.Visits vs (done result)) {i : Nat}
    (met : ∀ j v, vs[j]? = some v → v.table = tables (i + j)) : x.meet tables i = (result, vs) := by
  generalize ended : done result = y at h
  induction h generalizing i with
  | refl x =>
      subst ended
      rfl
  | @ask request next t vs y rest ih =>
      obtain rfl : t = tables i := met 0 ⟨request, t⟩ rfl
      have later : ∀ j v, vs[j]? = some v → v.table = tables (i + 1 + j) := by
        intro j v hv
        rw [Nat.add_assoc, Nat.add_comm 1 j]
        exact met (j + 1) v hv
      rw [meet, ih later ended]

end Visits

/-! ## Amid others

Without faults a request comes to the table that the others leave, and is answered by it. The other
way round, visits are a session amid others if transactions lead from each of them to the next. -/

variable {turns turns' : Nat → Turn} {i : Nat}

/-- Only the turns to come count. -/
theorem amid_congr (same : ∀ j, i ≤ j → turns j = turns' j) (x : Session α) (t : Table) :
    x.amid turns i t = x.amid turns' i t := by
  induction x generalizing i t with
  | done result => rfl
  | ask request next ih =>
      have later : ∀ j, i + 1 ≤ j → turns j = turns' j := fun j le => same j (Nat.le_of_succ_le le)
      simp only [amid, same i (Nat.le_refl i), ih _ later]

/-- A request that is served is a visit to the table that the others leave. -/
theorem amid_served {request : Request} {next : Except BackendError request.Answer → Session α}
    (served : (turns i).fault = none) :
    let v : Visit := ⟨request, (turns i).arrive t⟩
    let rest := (next (v.table.answer request).1).amid turns (i + 1) v.after
    (ask request next).amid turns i t = { rest with own := v.passages ++ rest.own } := by
  intro v rest
  simp only [amid, Turn.answer, served, Visit.passages]
  split <;> rfl

theorem Visits.of_amid (faultless : ∀ j, (turns j).fault = none) (x : Session α) (i : Nat) (t : Table) :
    ∃ vs, x.Visits vs (done (x.amid turns i t).result) ∧
      (x.amid turns i t).own = vs.flatMap Visit.passages := by
  induction x generalizing i t with
  | done result => exact ⟨[], .refl _, rfl⟩
  | ask request next ih =>
      let v : Visit := ⟨request, (turns i).arrive t⟩
      obtain ⟨vs, visits, own⟩ := ih (v.table.answer request).1 (i + 1) v.after
      rw [amid_served (faultless i)]
      refine ⟨v :: vs, .ask visits, ?_⟩
      rw [List.flatMap_cons, ← own]

/-- **Without faults a session amid others answers what it meets**, at the tables that the others
leave. -/
theorem exists_meet_eq_amid (faultless : ∀ j, (turns j).fault = none) (x : Session α) (i : Nat)
    (t : Table) : ∃ tables vs, x.meet tables 0 = ((x.amid turns i t).result, vs) ∧
      (x.amid turns i t).own = vs.flatMap Visit.passages := by
  obtain ⟨vs, visits, own⟩ := Visits.of_amid faultless x i t
  refine ⟨fun j => (vs[j]?.map Visit.table).getD t, vs, visits.meet_eq ?_, own⟩
  intro j v hv
  rw [Nat.zero_add, hv]
  rfl

/-- Before each visit others may have put transactions through, and nothing else has happened. -/
def Paced : Table → List Visit → Prop
  | _, [] => True
  | t, v :: vs => (∃ others, v.table = (⟨others, none⟩ : Turn).arrive t) ∧ Paced v.after vs

/-- The table after some visits. -/
def tableAfter (t : Table) (vs : List Visit) : Table := vs.foldl (fun _ v => v.after) t

theorem paced_concat_iff {v : Visit} : Paced t (vs ++ [v]) ↔
    Paced t vs ∧ ∃ others, v.table = (⟨others, none⟩ : Turn).arrive (tableAfter t vs) := by
  induction vs generalizing t with
  | nil => simp [Paced, tableAfter]
  | cons w vs ih => simp [Paced, tableAfter, ih, and_assoc]

/-- **A session that makes such visits is one amid others.** -/
theorem Visits.exists_amid (h : x.Visits vs (done result)) (paced : Paced t vs) (i : Nat) :
    ∃ turns : Nat → Turn, (∀ j, (turns j).fault = none) ∧
      (x.amid turns i t).result = result ∧ (x.amid turns i t).own = vs.flatMap Visit.passages := by
  generalize ended : done result = y at h
  induction h generalizing i t with
  | refl x =>
      subst ended
      exact ⟨fun _ => ⟨[], none⟩, fun _ => rfl, rfl, rfl⟩
  | @ask request next t' vs y rest ih =>
      obtain ⟨⟨others, arrive⟩, paced⟩ := paced
      obtain ⟨turns, faultless, answers, own⟩ := ih paced (i + 1) ended
      -- the turn before this request, and then the turns before the others
      let turns' := Function.update turns i ⟨others, none⟩
      have here : turns' i = ⟨others, none⟩ := Function.update_self ..
      have later : ∀ j, j ≠ i → turns' j = turns j := fun j ne => Function.update_of_ne ne ..
      have served : ∀ j, (turns' j).fault = none := by
        intro j
        by_cases same : j = i
        · rw [same, here]
        · rw [later j same]
          exact faultless j
      have course := amid_congr (fun j (le : i + 1 ≤ j) => later j (Nat.ne_of_gt le))
        (next (t'.answer request).1) (t'.answer request).2
      refine ⟨turns', served, ?_⟩
      obtain rfl : t' = (⟨others, none⟩ : Turn).arrive t := arrive
      rw [amid_served (served i), here, List.flatMap_cons, ← own]
      have results := congrArg Course.result course
      exact ⟨results.trans answers, congrArg (_ ++ Course.own ·) course⟩

end Session

theorem Store.execute_reads (settings : Settings) (ids : Nat → BatchId) {ops : List Operation}
    (reads : ∀ op ∈ ops, op.isRead) : (execute settings ids ops).Reads := by
  rw [execute_eq_of_reads settings ids reads]
  apply Session.Reads.bind (catalogIf_reads _)
  intro c
  apply Session.Reads.bind (.done _)
  intro _
  exact (Session.Reads.collect (answer_reads settings.fallback c) ops).bind fun _ => .done _

/-! ## Guests

The moves of the handles between two requests of a guest are the transactions of others before the
second one. A move puts one transaction through at most, so a guest visits tables with nothing but
transactions between them. -/

namespace System

variable {ι : Type} [DecidableEq ι]

/-- A move puts a transaction through, or leaves the table as it is. -/
theorem exists_arrive_step (σ : System ι) (m : Move ι) :
    ∃ others, (σ.step m).table = (⟨others, none⟩ : Turn).arrive σ.table := by
  have nothing : ∃ others, σ.table = (⟨others, none⟩ : Turn).arrive σ.table := ⟨[], rfl⟩
  cases m with
  | call h c =>
      rw [step]
      split <;> exact nothing
  | fail h e =>
      rw [step]
      split <;> exact nothing
  | serve h =>
      rw [step]
      split
      · next c request next commits earlier calls =>
        simp only
        split
        · next goes =>
          cases request with
          | transact ops => exact ⟨[ops], rfl⟩
          | get | scan | floor => simp [Request.isTransaction] at goes
        · exact nothing
      · exact nothing

end System

namespace Guest

variable {ι α : Type} [DecidableEq ι] {σ : System ι} {x : Session α} {g : Guest ι α}
  {schedule : List (Option (Move ι))} {result : Except StoreError α}

theorem run_concat (σ : System ι) (x : Session α) (schedule : List (Option (Move ι)))
    (m : Option (Move ι)) : run σ x (schedule ++ [m]) = (run σ x schedule).step m :=
  List.foldl_concat ..

/-- **A guest makes its visits.** -/
theorem visits (σ : System ι) (x : Session α) (schedule : List (Option (Move ι))) :
    x.Visits ((run σ x schedule).stops.map Stop.toVisit) (run σ x schedule).rest := by
  induction schedule using List.reverseRecOn with
  | nil => exact .refl x
  | append_singleton schedule m ih =>
      rw [run_concat]
      cases m with
      | some m => exact ih
      | none =>
          rw [step, serve]
          split
          · exact ih
          · next request next asks =>
            rw [asks] at ih
            simp only [Scene.serve, List.map_append, List.map_cons, List.map_nil]
            exact ih.trans (.ask (.refl _))

/-- What happens between the requests of a guest is transactions of the handles. -/
theorem paced (σ : System ι) (x : Session α) (schedule : List (Option (Move ι))) :
    Session.Paced σ.table ((run σ x schedule).stops.map Stop.toVisit) ∧
      ∃ others, (run σ x schedule).host.table = (⟨others, none⟩ : Turn).arrive
        (Session.tableAfter σ.table ((run σ x schedule).stops.map Stop.toVisit)) := by
  induction schedule using List.reverseRecOn with
  | nil => exact ⟨trivial, [], rfl⟩
  | append_singleton schedule m ih =>
      obtain ⟨paced, others, here⟩ := ih
      rw [run_concat]
      cases m with
      | some m =>
          obtain ⟨more, moved⟩ := (run σ x schedule).host.exists_arrive_step m
          refine ⟨paced, others ++ more, ?_⟩
          rw [here] at moved
          simpa [Turn.arrive, step] using moved
      | none =>
          rw [step, serve]
          split
          · exact ⟨paced, others, here⟩
          · next request next asks =>
            simp only [Scene.serve, List.map_append, List.map_cons, List.map_nil]
            refine ⟨Session.paced_concat_iff.mpr ⟨paced, others, here⟩, [], ?_⟩
            simp [Session.tableAfter, Turn.arrive, Visit.after, scene]

/-- **A guest is a session amid others without faults**, with the transactions of its own that its
stops tell. -/
theorem exists_amid (ended : (run σ x schedule).rest = .done result) :
    ∃ turns : Nat → Turn, (∀ j, (turns j).fault = none) ∧
      (x.amid turns 0 σ.table).result = result ∧ (x.amid turns 0 σ.table).own =
        ((run σ x schedule).stops.map Stop.toVisit).flatMap Visit.passages := by
  have visits := visits σ x schedule
  rw [ended] at visits
  exact visits.exists_amid (paced σ x schedule).1 0

/-! ### Guests that only read

Such a guest leaves no trace in the system, so the handles come on as they would without it, and the
schedule alone says at which moments its requests are answered. -/

/-- How many moves of the handles come before the `j`-th request of a guest. -/
def clock : List (Option (Move ι)) → Nat → Nat
  | [], _ => 0
  | some _ :: schedule, j => clock schedule j + 1
  | none :: _, 0 => 0
  | none :: schedule, j + 1 => clock schedule j

omit [DecidableEq ι] in
theorem clock_mono {i j : Nat} (le : i ≤ j) : clock schedule i ≤ clock schedule j := by
  induction schedule generalizing i j with
  | nil => exact Nat.le_refl 0
  | cons m schedule ih =>
      cases m with
      | some m => exact Nat.succ_le_succ (ih le)
      | none =>
          cases i with
          | zero => exact Nat.zero_le _
          | succ i =>
              cases j with
              | zero => cases le
              | succ j => exact ih (Nat.le_of_succ_le_succ le)

theorem stops_foldl_of_done (done : g.rest = .done result) (schedule : List (Option (Move ι))) :
    (schedule.foldl step g).stops = g.stops := by
  induction schedule generalizing g with
  | nil => rfl
  | cons m schedule ih =>
      have one : (g.step m).rest = .done result := rest_foldl_of_done done [m]
      rw [List.foldl_cons, ih one]
      cases m with
      | some m => rfl
      | none => rw [step, serve, done]

/-- **The requests of a reading guest are answered at the moments of its schedule.** -/
theorem table_of_stop {moves : List (Move ι)} (reads : g.rest.Reads) (host : g.host = System.run moves)
    {j : Nat} {v : Stop} (hv : (schedule.foldl step g).stops[g.stops.length + j]? = some v) :
    v.table = System.tablesAt (moves ++ schedule.reduceOption)
      (fun j => moves.length + clock schedule j) j := by
  induction schedule generalizing g moves j with
  | nil =>
      rw [List.foldl_nil, List.getElem?_eq_none (Nat.le_add_right _ _)] at hv
      cases hv
  | cons m schedule ih =>
      rw [List.foldl_cons] at hv
      cases m with
      | some m =>
          have moved : (g.step (some m)).host = System.run (moves ++ [m]) := by
            simp [step, host, System.run]
          have table := ih (g := g.step (some m)) reads moved hv
          simp only [System.tablesAt, List.reduceOption_cons_of_some, clock, List.append_assoc,
            List.singleton_append, List.length_append, List.length_singleton] at table ⊢
          rw [table, Nat.add_assoc, Nat.add_comm 1]
      | none =>
          cases rest : g.rest with
          | done result =>
              -- there are no stops any more
              have stays : (g.step none).stops = g.stops ∧ (g.step none).rest = .done result := by
                simp [step, serve, rest]
              rw [stops_foldl_of_done stays.2, stays.1,
                List.getElem?_eq_none (Nat.le_add_right _ _)] at hv
              cases hv
          | ask request next =>
              rw [rest] at reads
              let rest' := next (g.host.table.answer request).1
              let stops' : List Stop := g.stops ++ [⟨⟨request, g.host.table⟩, g.host.log.length⟩]
              have served : g.step none = ⟨g.host, rest', stops'⟩ := by
                simp [step, serve, rest, scene, Scene.serve, Table.answer_of_reading reads.1, rest', stops']
              rw [served] at hv
              cases j with
              | zero =>
                  -- the first stop from here on is here
                  obtain ⟨-, more, stops⟩ := prefix_foldl ⟨g.host, rest', stops'⟩ schedule
                  rw [← stops, List.getElem?_append_left (by simp [stops'])] at hv
                  obtain rfl : _ = v := by simpa [stops'] using hv
                  simp [System.tablesAt, clock, host]
              | succ j =>
                  have table := ih (g := ⟨g.host, rest', stops'⟩) (reads.2 _) host
                    (j := j) (by simpa [stops', Nat.add_assoc, Nat.add_comm 1] using hv)
                  simpa [System.tablesAt, clock] using table

/-- **A guest that only reads answers what its session meets on the way of the handles.** -/
theorem meet_eq {moves : List (Move ι)} (reads : x.Reads)
    (ended : (run (System.run moves) x schedule).rest = .done result) :
    x.meet (System.tablesAt (moves ++ schedule.reduceOption)
      fun j => moves.length + clock schedule j) 0 =
        (result, (run (System.run moves) x schedule).stops.map Stop.toVisit) := by
  have visits := visits (System.run moves) x schedule
  rw [ended] at visits
  apply visits.meet_eq
  intro j v hv
  rw [List.getElem?_map, Option.map_eq_some_iff] at hv
  obtain ⟨stop, at_j, rfl⟩ := hv
  rw [Nat.zero_add]
  exact table_of_stop (g := ⟨System.run moves, x, []⟩) reads rfl (by simpa [run] using at_j)

/-- **A batch of reads beside a system is a snapshot**: where the batch, undisturbed at the moment of
its first request, answers, the guest answers consistently with that. -/
theorem read_batch_consistent (sep : Scope.Separated U) {moves : List (Move ι)}
    (within : ∀ h c, .call h c ∈ moves ++ schedule.reduceOption → c.Within U)
    (fits : ∀ h c, .call h c ∈ moves ++ schedule.reduceOption → c.Fits)
    (roomy : ∀ k ∈ (System.run (moves ++ schedule.reduceOption)).log, k.before.Roomy)
    (settings : Settings) (ids : Nat → BatchId) {ops : List Operation} (reads : ∀ op ∈ ops, op.isRead)
    {result : Except StoreError (List Outcome)}
    (ended : (run (System.run moves) (execute settings ids ops) schedule).rest = .done result)
    {snapshot : List Outcome} (scan : ((execute settings ids ops).run (System.tablesAt
      (moves ++ schedule.reduceOption) (fun j => moves.length + clock schedule j) 0)).1 = .ok snapshot) :
    ∃ as : List Answered, as.map Answered.op = ops ∧ as.map Answered.snapshot = snapshot ∧
      result = .ok (as.map Answered.outcome) ∧ ∀ a ∈ as, a.Consistent settings ids := by
  have ordered : ∀ i j, i ≤ j → moves.length + clock schedule i ≤ moves.length + clock schedule j :=
    fun i j le => Nat.add_le_add_left (clock_mono le) _
  obtain ⟨as, -, -, -, answered⟩ :=
    (System.tablesAt_unfolds sep _ within fits roomy ordered).execute_meet sep settings ids reads
  obtain ⟨ops, snapshots, outcomes, consistent⟩ := answered snapshot scan
  rw [meet_eq (execute_reads settings ids reads) ended] at outcomes
  exact ⟨as, ops, snapshots, outcomes, consistent⟩

end Guest

end ScopedConfig
