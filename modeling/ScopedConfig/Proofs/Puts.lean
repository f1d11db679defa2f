import ScopedConfig.Proofs.Tables

/-!
# What transactions put, and what refuses them

A transaction that goes through makes its puts, one after another (`Commits.eq_putAll`), so it leaves
other keys alone (`Commits.get?_eq`), and the order of the puts is of no account unless they put
different values under one key (`putAll_perm`). One that does not go through ends at the first
expectation that does not hold (`Refuses.expect_iff`, `Refuses.append_iff`).
-/

namespace ScopedConfig

/-- What an operation puts, and where. -/
def Op.put? : Op → Option (String × Bytes)
  | .put key value => some (key, value)
  | _ => none

namespace Table

variable {t t' : Table} {key key' : String} {value value' : Bytes} {ops ops' : List Op}

/-- **Tables are known by their look-ups.** -/
theorem eq_of_get?_eq (h : ∀ k, t.get? k = t'.get? k) : t = t' := by
  have rows : t.rows = t'.rows := by
    apply rows_eq_of_mem_iff t.sorted t'.sorted
    intro r
    show (r.1, r.2) ∈ t.rows ↔ (r.1, r.2) ∈ t'.rows
    rw [mem_rows_iff, mem_rows_iff, h]
  cases t
  cases t'
  cases rows
  rfl

/-! ## Puts

A table is known by its look-ups, and a look-up after some puts by those under its key. All that is
said here about the order of puts comes from these two. -/

/-- Puts, one after another. -/
def putAll (t : Table) (puts : List (String × Bytes)) : Table :=
  puts.foldl (fun t p => t.put p.1 p.2) t

@[simp] theorem putAll_cons (t : Table) (p : String × Bytes) (puts : List (String × Bytes)) :
    t.putAll (p :: puts) = (t.put p.1 p.2).putAll puts := rfl

/-- Other keys stay as they are. -/
theorem get?_putAll_of_not_mem {puts : List (String × Bytes)} (h : key ∉ puts.map Prod.fst) :
    (t.putAll puts).get? key = t.get? key := by
  induction puts generalizing t with
  | nil => rfl
  | cons p puts ih =>
      simp only [List.map_cons, List.mem_cons, not_or] at h
      rw [putAll_cons, ih h.2, get?_put_of_ne h.1]

/-- Each put moves its key on by one version. -/
theorem version?_putAll (t : Table) (puts : List (String × Bytes)) (key : String) :
    ((t.putAll puts).version? key).getD 0 =
      (t.version? key).getD 0 + (puts.map Prod.fst).count key := by
  induction puts generalizing t with
  | nil => rfl
  | cons p puts ih =>
      rw [putAll_cons, ih, version?_put, List.map_cons, List.count_cons]
      by_cases same : key = p.1
      · subst same
        simp
        omega
      · simp [same, Ne.symm same]

/-- Puts of different keys, or of one value, may come in either order. -/
theorem put_comm (h : key = key' → value = value') :
    (t.put key value).put key' value' = (t.put key' value').put key value := by
  by_cases same : key = key'
  · cases same
    cases h rfl
    rfl
  · apply eq_of_get?_eq
    intro k
    simp only [get?_put, version?_put]
    by_cases first : k = key
    · have other : k ≠ key' := fun eq => same (first.symm.trans eq)
      simp [first, same]
    · by_cases second : k = key'
      · simp [second, Ne.symm same]
      · simp [first, second]

/-- **The order of puts is of no account, unless they put different values under one key.** -/
theorem putAll_perm {puts puts' : List (String × Bytes)} (perm : puts.Perm puts')
    (consistent : ∀ p ∈ puts, ∀ q ∈ puts, p.1 = q.1 → p.2 = q.2) :
    t.putAll puts = t.putAll puts' := by
  refine perm.foldl_eq' (fun p hp q hq t => ?_) t
  exact put_comm (consistent p hp q hq)

/-- **Puts of two sides may come in either order, if the sides agree wherever they meet.** -/
theorem putAll_comm {puts puts' : List (String × Bytes)}
    (agree : ∀ p ∈ puts, ∀ q ∈ puts', p.1 = q.1 → p.2 = q.2) :
    (t.putAll puts).putAll puts' = (t.putAll puts').putAll puts := by
  -- each put of the one side passes all those of the other
  have pass : ∀ p : String × Bytes, (∀ q ∈ puts', p.1 = q.1 → p.2 = q.2) → ∀ t : Table,
      (t.put p.1 p.2).putAll puts' = (t.putAll puts').put p.1 p.2 := by
    intro p
    clear agree
    induction puts' with
    | nil => exact fun _ t => rfl
    | cons q puts' ih =>
        intro agree t
        obtain ⟨first, rest⟩ := List.forall_mem_cons.mp agree
        rw [putAll_cons, put_comm first, ih rest, putAll_cons]
  induction puts generalizing t with
  | nil => rfl
  | cons p puts ih =>
      obtain ⟨first, rest⟩ := List.forall_mem_cons.mp agree
      rw [putAll_cons, ih rest, pass p first, putAll_cons]

namespace Commits

/-- **A transaction that goes through makes its puts.** -/
theorem eq_putAll (h : t.Commits ops t') : t' = t.putAll (ops.filterMap Op.put?) := by
  induction ops generalizing t with
  | nil => exact nil_iff.mp h
  | cons op ops ih =>
      cases op with
      | put key value => exact ih (put_iff.mp h)
      | expect key version => exact ih (expect_iff.mp h).2
      | get | scan =>
          obtain ⟨result, mid, step, rest⟩ := cons_iff.mp h
          cases step
          exact ih rest

/-- A key that is not put stays as it is. -/
theorem get?_eq (h : t.Commits ops t') (absent : key ∉ (ops.filterMap Op.put?).map Prod.fst) :
    t'.get? key = t.get? key := by
  rw [h.eq_putAll]
  exact get?_putAll_of_not_mem absent

end Commits

/-! ## Refusals

`Refuses` is read along the list of operations, as `Commits` is: the first operation fails, or it
goes through and the rest is refused. -/

/-- One of the operations fails, after those before it went through. -/
def Refuses (t : Table) (ops : List Op) (e : BackendError) : Prop := t.applyAll ops = .error e

namespace Refuses

variable {e : BackendError}

theorem of_transact (h : (t.transact ops).1 = .error e) : t.Refuses ops e := by
  unfold transact at h
  unfold Refuses
  cases hops : t.applyAll ops with
  | error e' =>
      rw [hops] at h
      cases h
      rfl
  | ok a =>
      rw [hops] at h
      cases h

theorem not_commits (h : t.Refuses ops e) : ¬ t.Commits ops t' := by
  rintro ⟨results, commits⟩
  cases commits.symm.trans h

theorem not_nil : ¬ t.Refuses [] e := nofun

theorem cons_iff {op : Op} :
    t.Refuses (op :: ops) e ↔
      t.apply op = .error e ∨ ∃ result mid, t.apply op = .ok (result, mid) ∧ mid.Refuses ops e := by
  unfold Refuses
  rw [applyAll]
  cases step : t.apply op with
  | error e' => simp [bind, Except.bind]
  | ok a =>
      cases rest : a.2.applyAll ops with
      | error e' => simp [bind, Except.bind, rest, Prod.ext_iff]
      | ok b => simp [bind, Except.bind, rest, pure, Except.pure, Prod.ext_iff]

@[simp] theorem put_iff :
    t.Refuses (.put key value :: ops) e ↔ (t.put key value).Refuses ops e := by
  rw [cons_iff]
  simp [apply]

/-- An expectation refuses if it does not hold, and says which key it was about. -/
theorem expect_iff {version : Option Nat} :
    t.Refuses (.expect key version :: ops) e ↔
      (t.version? key ≠ version ∧ e = .conditionFailed key version (t.version? key)) ∨
      (t.version? key = version ∧ t.Refuses ops e) := by
  rw [cons_iff]
  by_cases holds : t.version? key = version
  · simp [apply, holds]
  · simp [apply, holds, eq_comm]

theorem append_iff :
    t.Refuses (ops ++ ops') e ↔ t.Refuses ops e ∨ ∃ mid, t.Commits ops mid ∧ mid.Refuses ops' e := by
  induction ops generalizing t with
  | nil => simp [not_nil, Commits.nil_iff]
  | cons op ops ih =>
      simp only [List.cons_append, cons_iff, Commits.cons_iff, ih]
      constructor
      · rintro (step | ⟨result, mid, step, rest | ⟨last, commits, rest⟩⟩)
        · exact .inl (.inl step)
        · exact .inl (.inr ⟨result, mid, step, rest⟩)
        · exact .inr ⟨last, ⟨result, mid, step, commits⟩, rest⟩
      · rintro ((step | ⟨result, mid, step, rest⟩) | ⟨last, ⟨result, mid, step, commits⟩, rest⟩)
        · exact .inl step
        · exact .inr ⟨result, mid, step, .inl rest⟩
        · exact .inr ⟨result, mid, step, .inr ⟨last, commits, rest⟩⟩

end Refuses

end Table

end ScopedConfig
