import Mathlib.Data.List.Sort

/-!
# Sorting by a rank

A sorting function that is known only by what it promises: the result has the same items
and is ordered by their ranks. Items of equal rank may come in any order.
-/

namespace SortSlice

variable {α : Type}

structure Sorter (rank : α → Nat) where
  sort : List α → List α
  perm : ∀ items, (sort items).Perm items
  ordered : ∀ items, (sort items).Pairwise fun left right => rank left ≤ rank right

/-- Insertion sort is one of them. -/
def insertion (rank : α → Nat) : Sorter rank where
  sort := List.insertionSort fun left right => rank left ≤ rank right
  perm := List.perm_insertionSort _
  ordered items := by
    have total : Std.Total fun left right : α => rank left ≤ rank right :=
      ⟨fun left right => Nat.le_total (rank left) (rank right)⟩
    have trans : IsTrans α fun left right : α => rank left ≤ rank right :=
      ⟨fun _ _ _ => Nat.le_trans⟩
    exact List.pairwise_insertionSort _ items

end SortSlice
