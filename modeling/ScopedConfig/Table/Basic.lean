import ScopedConfig.Bytes

/-!
# Versioned tables

A table holds byte strings under text keys, in the order of the keys by code points. Every put of a
key counts up the key's version from one; nothing is ever removed.
-/

namespace ScopedConfig

/-- A stored value with the number of times its key was put. -/
structure Versioned where
  value : Bytes
  version : Nat
  deriving DecidableEq, Repr

/-- A key and what is stored under it. -/
abbrev Row := String × Versioned

/-- Rows in strictly ascending order of their keys. -/
structure Table where
  rows : List Row
  sorted : rows.Pairwise fun a b => a.1 < b.1

namespace Table

/-- The table without rows. -/
def empty : Table := ⟨[], .nil⟩

/-- What is stored under a key. -/
def get? (t : Table) (key : String) : Option Versioned := t.rows.lookup key

/-! ### Putting -/

/-- Puts a value under a key into rows in ascending order. -/
def putRow (key : String) (value : Bytes) : List Row → List Row
  | [] => [(key, ⟨value, 1⟩)]
  | row :: rows =>
    if key < row.1 then (key, ⟨value, 1⟩) :: row :: rows
    else if key = row.1 then (key, ⟨value, row.2.version + 1⟩) :: rows
    else row :: putRow key value rows

theorem key_of_mem_putRow {key : String} {value : Bytes} {rows : List Row} {r : Row}
    (h : r ∈ putRow key value rows) : r.1 = key ∨ r ∈ rows := by
  induction rows with
  | nil => simp only [putRow, List.mem_singleton] at h; exact .inl (by rw [h])
  | cons row rows ih =>
    rw [putRow] at h
    split at h
    · rcases List.mem_cons.1 h with rfl | h
      · exact .inl rfl
      · exact .inr h
    · split at h
      · rcases List.mem_cons.1 h with rfl | h
        · exact .inl rfl
        · exact .inr (List.mem_cons_of_mem _ h)
      · rcases List.mem_cons.1 h with rfl | h
        · exact .inr List.mem_cons_self
        · exact (ih h).imp_right (List.mem_cons_of_mem _)

theorem sorted_putRow (key : String) (value : Bytes) {rows : List Row}
    (h : rows.Pairwise fun a b => a.1 < b.1) :
    (putRow key value rows).Pairwise fun a b => a.1 < b.1 := by
  induction rows with
  | nil => exact List.pairwise_singleton ..
  | cons row rows ih =>
    have ⟨first, rest⟩ := List.pairwise_cons.1 h
    rw [putRow]
    split
    · next lt =>
      refine List.pairwise_cons.2 ⟨fun r hr => ?_, h⟩
      rcases List.mem_cons.1 hr with rfl | hr
      · exact lt
      · exact String.lt_trans lt (first r hr)
    · next notLt =>
      split
      · next eq => exact List.pairwise_cons.2 ⟨fun r hr => eq ▸ first r hr, rest⟩
      · next ne =>
        refine List.pairwise_cons.2 ⟨fun r hr => ?_, ih rest⟩
        rcases key_of_mem_putRow hr with eq | hr
        · rw [eq]
          exact Std.lt_of_le_of_ne (Std.not_lt.1 notLt) (Ne.symm ne)
        · exact first r hr

/-- The table after a put. -/
def put (t : Table) (key : String) (value : Bytes) : Table :=
  ⟨putRow key value t.rows, sorted_putRow key value t.sorted⟩

end Table

end ScopedConfig
