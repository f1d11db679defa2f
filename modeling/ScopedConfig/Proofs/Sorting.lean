import Mathlib.Data.List.Sort
import ScopedConfig.Sorting

/-!
# What sorting comes to

`sortBy` is insertion sort as a program runs it, by an order that answers yes or no. It comes to what
the library's insertion sort comes to (`sortBy_eq_insertionSort`), and what is known of that one carries
over: the elements are those of the list (`sortBy_perm`), they stand in ascending order
(`sorted_sortBy`), and they stand in no other one if the order tells them all apart
(`sortBy_eq_iff_perm`).

Elements of the same rank keep their places. That shows when some of the elements are selected: it makes
no difference whether one sorts before or after that (`filterMap_sortBy`).
-/

namespace ScopedConfig

variable {α : Type} {le : α → α → Bool}

/-! ## The library's insertion sort

Both are the same recursion; only the order is a relation there. -/

theorem insertBy_eq_orderedInsert (le : α → α → Bool) (x : α) (xs : List α) :
    insertBy le x xs = xs.orderedInsert (fun a b => le a b) x := by
  induction xs with
  | nil => rfl
  | cons y ys ih => rw [insertBy, ih, List.orderedInsert_cons]

/-- **Sorting is the library's insertion sort.** -/
theorem sortBy_eq_insertionSort (le : α → α → Bool) (xs : List α) :
    sortBy le xs = xs.insertionSort (fun a b => le a b) := by
  induction xs with
  | nil => rfl
  | cons x xs ih => rw [sortBy, ih, insertBy_eq_orderedInsert, List.insertionSort_cons]

theorem sortBy_perm (le : α → α → Bool) (xs : List α) : (sortBy le xs).Perm xs := by
  rw [sortBy_eq_insertionSort]
  exact List.perm_insertionSort _ xs

theorem sorted_sortBy (total : ∀ a b, le a b ∨ le b a)
    (trans : ∀ a b c, le a b → le b c → le a c) (xs : List α) :
    (sortBy le xs).Pairwise fun a b => le a b := by
  have : Std.Total fun a b => le a b = true := ⟨total⟩
  have : IsTrans α fun a b => le a b = true := ⟨trans⟩
  rw [sortBy_eq_insertionSort]
  exact List.pairwise_insertionSort _ xs

/-- Lists with the same elements are sorted alike if the order tells all elements apart. -/
theorem sortBy_eq_iff_perm (total : ∀ a b, le a b ∨ le b a)
    (trans : ∀ a b c, le a b → le b c → le a c) (antisymm : ∀ a b, le a b → le b a → a = b)
    {xs ys : List α} : sortBy le xs = sortBy le ys ↔ xs.Perm ys := by
  constructor
  · intro h
    exact (sortBy_perm le xs).symm.trans (h ▸ sortBy_perm le ys)
  · intro h
    have perm : (sortBy le xs).Perm (sortBy le ys) :=
      (sortBy_perm le xs).trans (h.trans (sortBy_perm le ys).symm)
    exact List.Perm.eq_of_pairwise (fun a b _ _ => antisymm a b) (sorted_sortBy total trans xs)
      (sorted_sortBy total trans ys) perm

/-! ## Selections

A selection need not keep the elements as they are, as long as it keeps how they compare. -/

section Selection

variable {β : Type} {le' : β → β → Bool} {f : α → Option β}

theorem filterMap_insertBy (trans : ∀ a b c, le a b → le b c → le a c)
    (keeps : ∀ a b a' b', f a = some a' → f b = some b' → le' a' b' = le a b) (x : α) {xs : List α}
    (sorted : xs.Pairwise fun a b => le a b) :
    (insertBy le x xs).filterMap f =
      (f x).elim (xs.filterMap f) fun x' => insertBy le' x' (xs.filterMap f) := by
  induction xs with
  | nil => cases hx : f x <;> simp [insertBy, hx]
  | cons y ys ih =>
      obtain ⟨first, rest⟩ := List.pairwise_cons.mp sorted
      rw [insertBy]
      split
      · next le_xy =>
        cases hx : f x with
        | none => exact List.filterMap_cons_none hx
        | some x' =>
            -- `x` comes before all of them, so `x'` comes before all that is selected
            have before : ∀ z' ∈ (y :: ys).filterMap f, le' x' z' := by
              intro z' hz'
              obtain ⟨z, hz, hfz⟩ := List.mem_filterMap.mp hz'
              rw [keeps x z x' z' hx hfz]
              rcases List.mem_cons.mp hz with rfl | hz
              · exact le_xy
              · exact trans _ _ _ le_xy (first z hz)
            rw [List.filterMap_cons_some hx, Option.elim_some]
            cases selected : (y :: ys).filterMap f with
            | nil => rfl
            | cons z' zs' => rw [insertBy, if_pos (before z' (by rw [selected]; exact List.mem_cons_self))]
      · next not_le =>
        cases hy : f y with
        | none => rw [List.filterMap_cons_none hy, List.filterMap_cons_none hy, ih rest]
        | some y' =>
            rw [List.filterMap_cons_some hy, List.filterMap_cons_some hy, ih rest]
            cases hx : f x with
            | none => rfl
            | some x' => simp [insertBy, keeps x y x' y' hx hy, not_le]

/-- **Of what is selected from a list the order is that of the list**, also where the elements have the
same rank. -/
theorem filterMap_sortBy (total : ∀ a b, le a b ∨ le b a)
    (trans : ∀ a b c, le a b → le b c → le a c)
    (keeps : ∀ a b a' b', f a = some a' → f b = some b' → le' a' b' = le a b) (xs : List α) :
    (sortBy le xs).filterMap f = sortBy le' (xs.filterMap f) := by
  induction xs with
  | nil => rfl
  | cons x xs ih =>
      rw [sortBy, filterMap_insertBy trans keeps x (sorted_sortBy total trans xs), ih]
      cases hx : f x with
      | none => rw [List.filterMap_cons_none hx]; rfl
      | some x' => rw [List.filterMap_cons_some hx]; rfl

end Selection

end ScopedConfig
