import ScopedConfig.Proofs.Puts

/-!
# Transactions and the puts they leave

What is stored after any number of transactions is what the puts of those that went through make of it:
under each key the last value, with their number as its version (`Table.Shows.after`). Within a
transaction each operation answers what the puts before it make of the table, and the transaction fails
at the first expectation that does not hold by then (`Table.Shows.transact_eq_ok_iff`,
`Table.Shows.transact_eq_error_iff`). What is said of answers and failures speaks of puts only; the
tables come in with `Table.Shows`, which one operation keeps and hence any number of them.
-/

namespace ScopedConfig

/-! ## What puts leave

A list of puts by itself, without a table: under each key there are the values put there, of which
the last one counts, and their number is the version. -/

/-- Puts, one after another. -/
abbrev Puts := List (String × Bytes)

namespace Puts

/-- The values that are put under a key. -/
def valuesAt (puts : Puts) (key : String) : List Bytes :=
  puts.filterMap fun p => if p.1 = key then some p.2 else none

/-- What is left under a key: the last value, and how many there were. -/
def stored? (puts : Puts) (key : String) : Option Versioned :=
  (puts.valuesAt key).getLast?.map fun value => ⟨value, (puts.valuesAt key).length⟩

/-- The version that a key is left at. -/
def version? (puts : Puts) (key : String) : Option Nat := (puts.stored? key).map Versioned.version

/-- The version is the number of values. -/
theorem getD_version? (puts : Puts) (key : String) :
    (puts.version? key).getD 0 = (puts.valuesAt key).length := by
  rw [version?, stored?]
  cases h : (puts.valuesAt key).getLast? with
  | none => simp [List.getLast?_eq_none_iff.mp h]
  | some value => rfl

/-- One more put. -/
theorem stored?_concat (puts : Puts) (key k : String) (value : Bytes) :
    stored? (puts ++ [(key, value)]) k =
      if k = key then some ⟨value, (puts.version? key).getD 0 + 1⟩ else puts.stored? k := by
  have values : valuesAt (puts ++ [(key, value)]) k =
      puts.valuesAt k ++ if key = k then [value] else [] := by
    rw [valuesAt, List.filterMap_append]
    by_cases same : key = k <;> simp [valuesAt, same]
  rw [getD_version?, stored?, values]
  by_cases same : k = key
  · subst same
    simp
  · simp [same, Ne.symm same, stored?]

end Puts

/-! ## What operations answer

The puts that an operation sees are those before the transaction and those of the operations before
it. `AllAnswer` and `FailsFirst` say so by positions in the list; the lemmas here turn them into
recursions over it. -/

namespace Op

/-- The puts among the first operations of a list. -/
def putsBefore (ops : List Op) (i : Nat) : Puts := (ops.take i).filterMap put?

theorem putsBefore_zero (ops : List Op) : putsBefore ops 0 = [] := rfl

theorem putsBefore_succ (op : Op) (ops : List Op) (i : Nat) :
    putsBefore (op :: ops) (i + 1) = op.put?.toList ++ putsBefore ops i := by
  rw [putsBefore, List.take_succ_cons, List.filterMap_cons]
  cases op.put? <;> rfl

/-- What an operation answers where puts have been made. -/
inductive Answers (puts : Puts) : Op → OpResult → Prop
  | get {key : String} : Answers puts (.get key) (.value (puts.stored? key))
  | put {key : String} {value : Bytes} :
      Answers puts (.put key value) (.written ((puts.valuesAt key).length + 1))
  | expect {key : String} {version : Option Nat} (holds : puts.version? key = version) :
      Answers puts (.expect key version) .matched
  | scan {pre : String} {rows : List Row} (sorted : rows.Pairwise fun a b => a.1 < b.1)
      (mem : ∀ r, r ∈ rows ↔ startsWith pre r.1 ∧ puts.stored? r.1 = some r.2) :
      Answers puts (.scan pre) (.rows rows)

/-- The answers to operations in a row, each after the puts before it. -/
structure AllAnswer (puts : Puts) (ops : List Op) (results : List OpResult) : Prop where
  length_eq : results.length = ops.length
  answers : ∀ i op result, ops[i]? = some op → results[i]? = some result →
    Answers (puts ++ putsBefore ops i) op result

/-- The operation at a place of a list expects a version that its key is not at by then. -/
def FailsAt (puts : Puts) (ops : List Op) (i : Nat) (e : BackendError) : Prop :=
  ∃ key expected, ops[i]? = some (.expect key expected) ∧
    Puts.version? (puts ++ putsBefore ops i) key ≠ expected ∧
    e = .conditionFailed key expected (Puts.version? (puts ++ putsBefore ops i) key)

/-- It is the first one of the list to do so. -/
def FailsFirst (puts : Puts) (ops : List Op) (e : BackendError) : Prop :=
  ∃ i, FailsAt puts ops i e ∧ ∀ j < i, ∀ e', ¬ FailsAt puts ops j e'

variable {puts : Puts} {op : Op} {ops : List Op} {results : List OpResult} {e : BackendError}

theorem allAnswer_nil_iff : AllAnswer puts [] results ↔ results = [] := by
  constructor
  · exact fun h => List.eq_nil_of_length_eq_zero h.length_eq
  · rintro rfl
    exact ⟨rfl, by simp⟩

theorem allAnswer_cons_iff :
    AllAnswer puts (op :: ops) results ↔ ∃ result rest, results = result :: rest ∧
      Answers puts op result ∧ AllAnswer (puts ++ op.put?.toList) ops rest := by
  constructor
  · rintro ⟨length, answers⟩
    cases results with
    | nil => cases length
    | cons result rest =>
        refine ⟨result, rest, rfl, ?_, Nat.succ.inj length, fun i op' result' hop hresult => ?_⟩
        · simpa [putsBefore_zero] using answers 0 op result rfl rfl
        · -- an operation further on sees the put of the first one as a put before the transaction
          have := answers (i + 1) op' result' hop hresult
          rwa [putsBefore_succ, ← List.append_assoc] at this
  · rintro ⟨result, rest, rfl, first, length, answers⟩
    refine ⟨congrArg Nat.succ length, fun i op' result' hop hresult => ?_⟩
    cases i with
    | zero =>
        cases hop
        cases hresult
        simpa [putsBefore_zero] using first
    | succ i =>
        rw [putsBefore_succ, ← List.append_assoc]
        exact answers i op' result' hop hresult

theorem not_failsAt_nil (i : Nat) : ¬ FailsAt puts [] i e := by
  rintro ⟨key, expected, found, -⟩
  cases found

theorem failsAt_zero_iff :
    FailsAt puts (op :: ops) 0 e ↔ ∃ key expected, op = .expect key expected ∧
      puts.version? key ≠ expected ∧ e = .conditionFailed key expected (puts.version? key) := by
  simp [FailsAt, putsBefore_zero]

/-- A failure further on sees the put of the first operation. -/
theorem failsAt_succ_iff {i : Nat} :
    FailsAt puts (op :: ops) (i + 1) e ↔ FailsAt (puts ++ op.put?.toList) ops i e := by
  simp [FailsAt, putsBefore_succ]

/-- The first failure of a list is that of its first operation, or it is that of the others. -/
theorem failsFirst_cons_iff :
    FailsFirst puts (op :: ops) e ↔ FailsAt puts (op :: ops) 0 e ∨
      (∀ e', ¬ FailsAt puts (op :: ops) 0 e') ∧ FailsFirst (puts ++ op.put?.toList) ops e := by
  constructor
  · rintro ⟨i, fails, first⟩
    cases i with
    | zero => exact .inl fails
    | succ i =>
        -- nothing fails before it, the first operation of the list least of all
        refine .inr ⟨first 0 (Nat.succ_pos i), i, failsAt_succ_iff.mp fails, fun j lt e' h => ?_⟩
        exact first (j + 1) (Nat.succ_lt_succ lt) e' (failsAt_succ_iff.mpr h)
  · rintro (fails | ⟨holds, i, fails, first⟩)
    · exact ⟨0, fails, fun j lt => absurd lt (Nat.not_lt_zero j)⟩
    · refine ⟨i + 1, failsAt_succ_iff.mpr fails, fun j lt => ?_⟩
      cases j with
      | zero => exact holds
      | succ j => exact fun e' h => first j (Nat.lt_of_succ_lt_succ lt) e' (failsAt_succ_iff.mp h)

end Op

open Op

namespace Table

/-! ## Within a transaction

A single operation on a table that shows some puts answers what they say, and leaves a table that
shows its own put as well. A whole list follows by induction. -/

/-- The table is what puts have made of the empty one. -/
def Shows (t : Table) (puts : Puts) : Prop := ∀ key, t.get? key = puts.stored? key

theorem shows_empty : empty.Shows [] := fun _ => rfl

namespace Shows

variable {t t' : Table} {puts : Puts} {op : Op} {ops : List Op} {result : OpResult}
  {results : List OpResult} {e : BackendError}

theorem version? (h : t.Shows puts) (key : String) : t.version? key = puts.version? key := by
  rw [Table.version?, h key, Puts.version?]

theorem put (h : t.Shows puts) (key : String) (value : Bytes) :
    (t.put key value).Shows (puts ++ [(key, value)]) := by
  intro k
  rw [get?_put, Puts.stored?_concat, h.version?, h k]

/-- Tables that show puts, with more puts made. -/
theorem putAll (h : t.Shows puts) (more : Puts) : (t.putAll more).Shows (puts ++ more) := by
  induction more generalizing t puts with
  | nil => rwa [List.append_nil]
  | cons p more ih =>
      have := ih (h.put p.1 p.2)
      rwa [List.append_assoc] at this

/-- The rows of a scan are known by what is stored. -/
theorem scan_eq_iff (h : t.Shows puts) {pre : String} {rows : List Row} :
    t.scan pre = rows ↔ (rows.Pairwise fun a b => a.1 < b.1) ∧
      ∀ r, r ∈ rows ↔ startsWith pre r.1 ∧ puts.stored? r.1 = some r.2 := by
  have mem (r : Row) : r ∈ t.scan pre ↔ startsWith pre r.1 ∧ puts.stored? r.1 = some r.2 := by
    rw [mem_scan_iff, and_comm, ← h r.1, ← mem_rows_iff]
  constructor
  · rintro rfl
    exact ⟨t.sorted_scan pre, mem⟩
  · rintro ⟨sorted, mem'⟩
    exact rows_eq_of_mem_iff (t.sorted_scan pre) sorted fun r => (mem r).trans (mem' r).symm

/-- **An operation goes through with the answer that the puts before it give**, and makes its own. -/
theorem apply_eq_ok_iff (h : t.Shows puts) :
    t.apply op = .ok (result, t') ↔ op.Answers puts result ∧ t' = t.putAll op.put?.toList := by
  cases op with
  | get key =>
      constructor
      · rintro ⟨⟩
        exact ⟨h key ▸ .get, rfl⟩
      · rintro ⟨⟨⟩, rfl⟩
        rw [apply, h key]
  | put key value =>
      have version : (t.version? key).getD 0 = (puts.valuesAt key).length := by
        rw [h.version?, puts.getD_version?]
      constructor
      · rintro ⟨⟩
        exact ⟨version ▸ .put, rfl⟩
      · rintro ⟨⟨⟩, rfl⟩
        rw [apply, version]
        rfl
  | expect key version =>
      rw [apply, h.version?]
      split
      · next holds =>
        constructor
        · rintro ⟨⟩
          exact ⟨.expect holds, rfl⟩
        · rintro ⟨⟨⟩, rfl⟩
          rfl
      · next fails =>
        constructor
        · rintro ⟨⟩
        · rintro ⟨answers, -⟩
          cases answers with
          | expect holds => exact absurd holds fails
  | scan pre =>
      constructor
      · rintro ⟨⟩
        obtain ⟨sorted, mem⟩ := h.scan_eq_iff.mp rfl
        exact ⟨.scan sorted mem, rfl⟩
      · rintro ⟨answers, rfl⟩
        cases answers with
        | scan sorted mem => rw [apply, h.scan_eq_iff.mpr ⟨sorted, mem⟩]

/-- Only an expectation fails, and only one that does not hold. -/
theorem apply_eq_error_iff (h : t.Shows puts) :
    t.apply op = .error e ↔ FailsAt puts (op :: ops) 0 e := by
  rw [failsAt_zero_iff]
  cases op with
  | get | put | scan => simp [apply]
  | expect key version =>
      rw [apply, h.version?]
      split
      · next holds => simp [holds]
      · next fails =>
        constructor
        · rintro ⟨⟩
          exact ⟨key, version, rfl, fails, rfl⟩
        · rintro ⟨_, _, ⟨⟩, -, rfl⟩
          rfl

/-- **Each operation of a list answers what the puts before it give.** -/
theorem applyAll_eq_ok_iff (h : t.Shows puts) :
    t.applyAll ops = .ok (results, t') ↔
      AllAnswer puts ops results ∧ t' = t.putAll (ops.filterMap Op.put?) := by
  induction ops generalizing t puts results with
  | nil =>
      rw [applyAll, allAnswer_nil_iff]
      simp [Table.putAll, eq_comm]
  | cons op ops ih =>
      -- the put of the first operation comes before those of the rest
      have puts_cons : (t.putAll op.put?.toList).putAll (ops.filterMap Op.put?) =
          t.putAll ((op :: ops).filterMap Op.put?) := by
        rw [List.filterMap_cons]
        cases op.put? <;> rfl
      simp only [applyAll, bind_eq_ok_iff, allAnswer_cons_iff]
      constructor
      · rintro ⟨⟨result, mid⟩, step, ⟨results, _⟩, more, ⟨⟩⟩
        obtain ⟨answers, rfl⟩ := h.apply_eq_ok_iff.mp step
        obtain ⟨rest, rfl⟩ := (ih (h.putAll _)).mp more
        exact ⟨⟨result, results, rfl, answers, rest⟩, puts_cons⟩
      · rintro ⟨⟨result, results, rfl, answers, rest⟩, rfl⟩
        exact ⟨(result, _), h.apply_eq_ok_iff.mpr ⟨answers, rfl⟩, (results, _),
          (ih (h.putAll _)).mpr ⟨rest, puts_cons.symm⟩, rfl⟩

/-- **A list of operations fails at the first expectation that does not hold by then.** -/
theorem refuses_iff (h : t.Shows puts) : t.Refuses ops e ↔ FailsFirst puts ops e := by
  induction ops generalizing t puts with
  | nil =>
      refine iff_of_false Refuses.not_nil ?_
      rintro ⟨i, fails, -⟩
      exact not_failsAt_nil i fails
  | cons op ops ih =>
      rw [Refuses.cons_iff, failsFirst_cons_iff]
      simp only [← h.apply_eq_error_iff]
      -- Either side fails at once, or goes on from the table after the first operation.
      refine or_congr_right ?_
      constructor
      · rintro ⟨result, mid, step, rest⟩
        obtain ⟨-, rfl⟩ := h.apply_eq_ok_iff.mp step
        refine ⟨fun e' fails => ?_, (ih (h.putAll _)).mp rest⟩
        cases step.symm.trans fails
      · rintro ⟨holds, rest⟩
        cases step : t.apply op with
        | error e' => exact absurd step (holds e')
        | ok answer =>
            obtain ⟨result, mid⟩ := answer
            obtain ⟨-, rfl⟩ := h.apply_eq_ok_iff.mp step
            exact ⟨result, _, rfl, (ih (h.putAll _)).mpr rest⟩

theorem transact_eq_ok_iff (h : t.Shows puts) :
    (t.transact ops).1 = .ok results ↔ AllAnswer puts ops results := by
  have answered (t' : Table) : t.applyAll ops = .ok (results, t') ↔ _ := h.applyAll_eq_ok_iff
  unfold transact
  cases run : t.applyAll ops with
  | error e =>
      refine iff_of_false (by simp) fun h => ?_
      cases run.symm.trans ((answered _).mpr ⟨h, rfl⟩)
  | ok a =>
      constructor
      · rintro ⟨⟩
        exact ((answered _).mp run).1
      · intro h
        cases run.symm.trans ((answered _).mpr ⟨h, rfl⟩)
        rfl

theorem transact_eq_error_iff (h : t.Shows puts) :
    (t.transact ops).1 = .error e ↔ FailsFirst puts ops e := by
  rw [← h.refuses_iff]
  unfold Refuses transact
  cases t.applyAll ops with
  | error e' => simp
  | ok a => simp

end Shows

/-! ## One transaction after another

What a transaction leaves is what its puts make of the table, if it goes through, and the table as
it was, if not. So any number of them leave the committed puts. -/

/-- The table after transactions, one after another. -/
def after (t : Table) (calls : List (List Op)) : Table :=
  calls.foldl (fun t ops => (t.transact ops).2) t

/-- The puts of those transactions that go through. -/
def committed (t : Table) : List (List Op) → Puts
  | [] => []
  | ops :: calls =>
    (if (t.transact ops).1.isOk then ops.filterMap Op.put? else []) ++
      (t.transact ops).2.committed calls

/-- **A transaction makes all of its puts or none.** -/
theorem transact_snd (t : Table) (ops : List Op) :
    (t.transact ops).2 =
      t.putAll (if (t.transact ops).1.isOk then ops.filterMap Op.put? else []) := by
  cases h : (t.transact ops).1 with
  | error e => exact transact_of_error h
  | ok results => exact (commits_of_transact h).eq_putAll

/-- **After any transactions the table is what the committed puts have made of it.** -/
theorem Shows.after {t : Table} {puts : Puts} (h : t.Shows puts) (calls : List (List Op)) :
    (t.after calls).Shows (puts ++ t.committed calls) := by
  induction calls generalizing t puts with
  | nil => rwa [committed, List.append_nil]
  | cons ops calls ih =>
      have next : (t.transact ops).2.Shows _ := transact_snd t ops ▸ h.putAll _
      rw [committed, ← List.append_assoc]
      exact ih next

/-- **Transactions are atomic, and versions count puts.** -/
theorem transactions_count_puts (calls : List (List Op)) (ops : List Op) :
    (∀ key, (empty.after calls).get? key = (empty.committed calls).stored? key) ∧
    (∀ results, ((empty.after calls).transact ops).1 = .ok results ↔
      AllAnswer (empty.committed calls) ops results) ∧
    (∀ e, ((empty.after calls).transact ops).1 = .error e ↔
      FailsFirst (empty.committed calls) ops e) ∧
    (∀ e, ((empty.after calls).transact ops).1 = .error e →
      ((empty.after calls).transact ops).2 = empty.after calls) := by
  have shows : (empty.after calls).Shows (empty.committed calls) := shows_empty.after calls
  exact ⟨shows, fun results => shows.transact_eq_ok_iff, fun e => shows.transact_eq_error_iff,
    fun e => transact_of_error⟩

/-- A put that is taken back does not count. -/
example : (empty.after [[.put "a" [1]], [.put "a" [2], .expect "b" (some 1)], [.put "a" [3]]]).get?
    "a" = some ⟨[3], 2⟩ := by decide +kernel

end Table

end ScopedConfig
