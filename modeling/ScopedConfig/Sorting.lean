/-!
# Stable sorting

Insertion sort by a Boolean order: elements that the order does not separate keep their places
relative to one another. It is defined here, as the store runs without anything but the core library and
is evaluated in proofs, where the merge sort of the core library does not reduce.
-/

namespace ScopedConfig

variable {α : Type}

/-- Puts `x` before the first element that it may precede. -/
def insertBy (le : α → α → Bool) (x : α) : List α → List α
  | [] => [x]
  | y :: ys => if le x y then x :: y :: ys else y :: insertBy le x ys

/-- The elements of a list in ascending order. -/
def sortBy (le : α → α → Bool) : List α → List α
  | [] => []
  | x :: xs => insertBy le x (sortBy le xs)

end ScopedConfig
