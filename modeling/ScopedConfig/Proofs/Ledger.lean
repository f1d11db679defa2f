import Mathlib.Logic.Function.Basic
import ScopedConfig.Proofs.Identities
import ScopedConfig.Proofs.Sessions
import ScopedConfig.Proofs.Tables
import ScopedConfig.Store.Write

/-!
# The ledger behind a table

What a store is about, without keys, bytes and versions: for every scope its two revision pointers,
and for every property the values set at its revisions. Scopes stand in their canonical form.
A batch changes a ledger at once; the store stages it step by step, which comes to the same if its
scopes and properties differ (`write_eq`).
-/

namespace ScopedConfig

/-- Revisions are counted from one, so zero is none of them. -/
theorem Revision.one_le_iff {n : Revision} : 1 ≤ n ↔ n ≠ 0 := by
  rw [UInt64.le_iff_toNat_le, Ne, ← UInt64.toNat_inj]
  exact Nat.one_le_iff_ne_zero

/-- The revision pointers of a scope: the highest revision written, and the one that reads see. -/
structure Pointers where
  working : Revision
  active : Option Revision
  deriving DecidableEq

/-- The record of a scope with these pointers. -/
def Pointers.record (p : Pointers) (s : Scope) : ScopeRecord := ⟨s, p.working, p.active⟩

@[ext]
structure Ledger where
  /-- The pointers of every scope that was ever written. -/
  pointers : Scope → Option Pointers
  /-- The values set, each with the batch that set it. -/
  entries : String → Scope → Revision → Option (Value × BatchId)

namespace Ledger

variable {l : Ledger} {s c : Scope} {name : String} {n : Revision}

/-- Nothing was ever written. -/
def empty : Ledger := ⟨fun _ => none, fun _ _ _ => none⟩

/-- The revision that the next write to a scope makes. -/
def next (l : Ledger) (s : Scope) : Revision := ((l.pointers s).map Pointers.working).getD 0 + 1

def set (l : Ledger) (s : Scope) (p : Pointers) : Ledger :=
  { l with pointers := Function.update l.pointers s (some p) }

/-- One more revision of a scope. A new scope begins at the first, with none active. -/
def advance (l : Ledger) (s : Scope) : Ledger :=
  l.set s ⟨l.next s, (l.pointers s).bind Pointers.active⟩

/-- Another active revision of a scope. -/
def activate (l : Ledger) (s : Scope) (n : Revision) : Ledger :=
  match l.pointers s with
  | some p => l.set s { p with active := some n }
  | none => l

/-- One more value. -/
def enter (l : Ledger) (name : String) (s : Scope) (n : Revision) (e : Value × BatchId) : Ledger :=
  { l with entries := fun name' s' n' =>
      if name' = name ∧ s' = s ∧ n' = n then some e else l.entries name' s' n' }

/-- A batch: one more revision of every scope that it names, with all its values set at them. -/
def write (l : Ledger) (batch : BatchId) (placed : List Store.Placed) : Ledger where
  pointers s :=
    if placed.any fun p => p.scope.canonical = s then (l.advance s).pointers s else l.pointers s
  entries name s n :=
    match placed.find? fun p => p.assignment.name = name && p.scope.canonical = s with
    | some p => if n = l.next s then some (p.assignment.value, batch) else l.entries name s n
    | none => l.entries name s n

/-- What a batch answers: for every assignment its revision, under its scope as the batch spells it
first. -/
def receipt (l : Ledger) (batch : BatchId) (placed : List Store.Placed) : WriteReceipt :=
  ⟨batch, placed.map fun p =>
    ⟨p.assignment.name, ((placed.map Store.Placed.scope).find? (·.same p.scope)).getD p.scope,
      l.next p.scope.canonical⟩⟩

/-- The record of a scope, or a blank one. -/
def record (l : Ledger) (s : Scope) : ScopeRecord :=
  match l.pointers s.canonical with
  | some p => p.record s.canonical
  | none => .blank s

/-! ## Reading the ledger

What is read of a ledger after each of the changes. -/

@[simp] theorem pointers_set (p : Pointers) :
    (l.set s p).pointers c = if c = s then some p else l.pointers c := by
  simp [set, Function.update_apply]

@[simp] theorem entries_set (p : Pointers) : (l.set s p).entries = l.entries := rfl

@[simp] theorem pointers_enter (e : Value × BatchId) : (l.enter name s n e).pointers = l.pointers :=
  rfl

theorem entries_enter {e : Value × BatchId} {name' : String} {n' : Revision} :
    (l.enter name s n e).entries name' c n' =
      if name' = name ∧ c = s ∧ n' = n then some e else l.entries name' c n' := rfl

/-- Another scope keeps its pointers, and this one its active revision. -/
theorem pointers_advance :
    (l.advance s).pointers c =
      if c = s then some ⟨l.next s, (l.pointers s).bind Pointers.active⟩ else l.pointers c :=
  pointers_set _

@[simp] theorem entries_advance : (l.advance s).entries = l.entries := rfl

/-- Only a recorded scope has an active revision to change. -/
theorem activate_eq {p : Pointers} (h : l.pointers s = some p) :
    l.activate s n = l.set s { p with active := some n } := by
  rw [activate, h]

theorem record_scope (l : Ledger) (s : Scope) : (l.record s).scope = s.canonical := by
  rw [record]
  split <;> rfl

/-- The record of a scope has its pointers and its canonical form. -/
theorem record_eq {p : Pointers} (h : l.pointers s.canonical = some p) :
    l.record s = p.record s.canonical := by
  rw [record, h]

/-- The record that a write leaves. -/
theorem record_advance (l : Ledger) (s : Scope) :
    (l.record s).advance =
      Pointers.record ⟨l.next s.canonical, (l.pointers s.canonical).bind Pointers.active⟩
        s.canonical := by
  rw [record, next]
  cases l.pointers s.canonical <;> rfl

/-! ## Batches step by step

The store advances each of its scopes once and then enters the values one by one. A batch as a whole
is defined by what it looks like afterwards. The two are the same because the steps do not touch
each other: the scopes differ, and so do the keys of the values. -/

section Batch

variable {scopes : List Scope} {placed : List Store.Placed} {batch : BatchId}

/-- The next revision of other scopes stays. -/
theorem next_advance : (l.advance s).next c = if c = s then l.next s + 1 else l.next c := by
  rw [next, pointers_advance]
  split
  · rfl
  · rfl

theorem entries_advanceAll :
    (scopes.foldl (fun l s => l.advance s.canonical) l).entries = l.entries := by
  induction scopes generalizing l with
  | nil => rfl
  | cons s scopes ih => rw [List.foldl_cons, ih, entries_advance]

/-- Scopes that differ do not get in each other's way. -/
theorem pointers_advanceAll (distinct : (scopes.map Scope.canonical).Nodup) :
    (scopes.foldl (fun l s => l.advance s.canonical) l).pointers c =
      if c ∈ scopes.map Scope.canonical then (l.advance c).pointers c else l.pointers c := by
  induction scopes generalizing l with
  | nil => rfl
  | cons s scopes ih =>
      rw [List.map_cons, List.nodup_cons] at distinct
      rw [List.foldl_cons, ih distinct.2, List.map_cons]
      by_cases eq : c = s.canonical
      · -- the scope does not come again
        rw [if_neg (eq ▸ distinct.1), if_pos (by simp [eq]), eq]
      · -- another scope comes first, and leaves the pointers of this one as they are
        rw [pointers_advance, next_advance, pointers_advance, if_pos rfl, if_neg eq, if_neg eq,
          pointers_advance, if_pos rfl]
        simp only [List.mem_cons, eq, false_or]

/-- One value after another, under different names, scopes or revisions. -/
theorem entries_enterAll {revision : Scope → Revision}
    (distinct : placed.Pairwise fun p q =>
      ¬ (p.assignment.name = q.assignment.name ∧ p.scope.canonical = q.scope.canonical)) :
    (placed.foldl (fun l p => l.enter p.assignment.name p.scope.canonical
        (revision p.scope.canonical) (p.assignment.value, batch)) l).entries name c n =
      match placed.find? fun p => p.assignment.name = name && p.scope.canonical = c with
      | some p => if n = revision c then some (p.assignment.value, batch) else l.entries name c n
      | none => l.entries name c n := by
  induction placed generalizing l with
  | nil => rfl
  | cons p placed ih =>
      obtain ⟨first, rest⟩ := List.pairwise_cons.mp distinct
      rw [List.foldl_cons, ih rest, List.find?_cons, entries_enter]
      by_cases eq : p.assignment.name = name ∧ p.scope.canonical = c
      · obtain ⟨rfl, rfl⟩ := eq
        -- nothing later in the batch overwrites the value
        have none : placed.find? (fun q => q.assignment.name = p.assignment.name &&
            q.scope.canonical = p.scope.canonical) = none := by
          refine List.find?_eq_none.mpr fun q hq h => first q hq ?_
          simp only [Bool.and_eq_true, decide_eq_true_eq] at h
          exact ⟨h.1.symm, h.2.symm⟩
        rw [none]
        simp
      · have skip : (decide (p.assignment.name = name) && decide (p.scope.canonical = c)) = false := by
          simpa using eq
        have other : ¬ (name = p.assignment.name ∧ c = p.scope.canonical ∧
            n = revision p.scope.canonical) := fun h => eq ⟨h.1.symm, h.2.1.symm⟩
        rw [skip, if_neg other]

/-- **A batch is one revision more of each of its scopes, then one value after another.** -/
theorem write_eq (distinct : (scopes.map Scope.canonical).Nodup)
    (covers : ∀ c, c ∈ scopes.map Scope.canonical ↔ ∃ p ∈ placed, p.scope.canonical = c)
    (apart : placed.Pairwise fun p q =>
      ¬ (p.assignment.name = q.assignment.name ∧ p.scope.canonical = q.scope.canonical)) :
    l.write batch placed =
      placed.foldl (fun l' p => l'.enter p.assignment.name p.scope.canonical
        (l.next p.scope.canonical) (p.assignment.value, batch))
        (scopes.foldl (fun l s => l.advance s.canonical) l) := by
  -- values do not touch pointers
  have pointers_enterAll : ∀ l' : Ledger, (placed.foldl (fun l' p => l'.enter p.assignment.name
      p.scope.canonical (l.next p.scope.canonical) (p.assignment.value, batch)) l').pointers =
      l'.pointers := by
    clear apart covers
    induction placed with
    | nil => exact fun l' => rfl
    | cons p placed ih => exact fun l' => by rw [List.foldl_cons, ih, pointers_enter]
  rw [write, Ledger.mk.injEq]
  constructor
  · funext c
    rw [pointers_enterAll, pointers_advanceAll distinct]
    simp only [covers, List.any_eq_true, decide_eq_true_eq]
  · funext name c n
    rw [entries_enterAll apart, entries_advanceAll]

end Batch

end Ledger

end ScopedConfig
