import Mathlib.Algebra.Order.Floor.Div
import Mathlib.Data.List.Basic

/-!
# Chunks of a list

A list cut into pieces of one size, with a shorter last piece. Put together again, the
pieces are the list.
-/

namespace Chunks

open List Nat

variable {α : Type*} {size rounds : Nat} {items : List α}

/-- The loop that cuts off one piece after the other, with a bound on its rounds. -/
def cut (size : Nat) : Nat → List α → List (List α)
  | _, [] => []
  | 0, _ => []
  | rounds + 1, items => items.take size :: cut size rounds (items.drop size)

/-- The pieces of a list. -/
def chunksOf (size : Nat) (items : List α) : List (List α) := cut size items.length items

theorem flatten_cut (pos : 0 < size) (enough : items.length ≤ rounds) :
    (cut size rounds items).flatten = items := by
  induction rounds generalizing items with
  | zero =>
    obtain rfl := eq_nil_of_length_eq_zero (le_zero.mp enough)
    rfl
  | succ rounds ih =>
    cases items with
    | nil => rfl
    | cons item rest =>
      have shorter : ((item :: rest).drop size).length ≤ rounds := by
        rw [length_drop]
        omega
      rw [cut, flatten_cons, ih shorter, take_append_drop]
      simp

theorem flatten_chunksOf (pos : 0 < size) (items : List α) :
    (chunksOf size items).flatten = items := flatten_cut pos (le_refl _)

@[simp] theorem chunksOf_nil : chunksOf size ([] : List α) = [] := rfl

variable (pos : 0 < size)

include pos

/-- More rounds than there are items change nothing. -/
theorem cut_of_enough {more : Nat} (enough : items.length ≤ rounds)
    (enoughToo : items.length ≤ more) : cut size rounds items = cut size more items := by
  induction rounds generalizing items more with
  | zero =>
    obtain rfl := eq_nil_of_length_eq_zero (le_zero.mp enough)
    simp [cut]
  | succ rounds ih =>
    cases items with
    | nil => simp [cut]
    | cons item rest =>
      obtain ⟨more, rfl⟩ := exists_eq_succ_of_ne_zero
        (pos_iff_ne_zero.mp (lt_of_lt_of_le (succ_pos rest.length) enoughToo))
      have shorter : ((item :: rest).drop size).length ≤ rest.length := by
        rw [length_drop, length_cons]
        omega
      rw [length_cons, add_le_add_iff_right] at enough enoughToo
      rw [cut, cut, ih (shorter.trans enough) (shorter.trans enoughToo)]
      · simp
      · simp

theorem chunksOf_of_ne_nil (nonempty : items ≠ []) :
    chunksOf size items = items.take size :: chunksOf size (items.drop size) := by
  cases items with
  | nil => exact absurd rfl nonempty
  | cons item rest =>
    have shorter : ((item :: rest).drop size).length ≤ rest.length := by
      rw [length_drop, length_cons]
      omega
    rw [chunksOf, length_cons, cut, cut_of_enough pos shorter le_rfl, chunksOf]
    simp

/-- The induction over the pieces. -/
theorem induction_on_chunks {motive : List α → Prop} (nil : motive [])
    (chunk : ∀ items, items ≠ [] → motive (items.drop size) → motive items) (items : List α) :
    motive items := by
  induction length : items.length using Nat.strong_induction_on generalizing items with
  | h length' ih =>
    by_cases empty : items = []
    · rw [empty]
      exact nil
    · apply chunk items empty
      refine ih _ ?_ _ rfl
      have := length_pos_iff.mpr empty
      rw [length_drop]
      omega

variable {chunk : List α}

theorem ne_nil_of_mem_chunksOf (member : chunk ∈ chunksOf size items) : chunk ≠ [] := by
  induction items using induction_on_chunks pos with
  | nil => cases member
  | chunk items nonempty ih =>
    rw [chunksOf_of_ne_nil pos nonempty] at member
    rcases mem_cons.mp member with rfl | isLater
    · intro empty
      rcases take_eq_nil_iff.mp empty with zero | noItems
      · exact absurd zero (pos_iff_ne_zero.mp pos)
      · exact nonempty noItems
    · exact ih isLater

theorem length_le_of_mem_chunksOf (member : chunk ∈ chunksOf size items) : chunk.length ≤ size := by
  induction items using induction_on_chunks pos with
  | nil => cases member
  | chunk items nonempty ih =>
    rw [chunksOf_of_ne_nil pos nonempty] at member
    rcases mem_cons.mp member with rfl | isLater
    · exact length_take_le size items
    · exact ih isLater

/-- All pieces but the last are full. -/
theorem length_eq_of_mem_dropLast_chunksOf
    (member : chunk ∈ (chunksOf size items).dropLast) : chunk.length = size := by
  induction items using induction_on_chunks pos with
  | nil => cases member
  | chunk items nonempty ih =>
    rw [chunksOf_of_ne_nil pos nonempty] at member
    by_cases last : items.drop size = []
    · rw [last] at member
      cases member
    · have more : chunksOf size (items.drop size) ≠ [] := by
        rw [chunksOf_of_ne_nil pos last]
        exact cons_ne_nil _ _
      rw [dropLast_cons_of_ne_nil more] at member
      rcases mem_cons.mp member with rfl | isLater
      · rw [drop_eq_nil_iff, not_le] at last
        exact length_take_of_le last.le
      · exact ih isLater

theorem length_chunksOf (items : List α) :
    (chunksOf size items).length = items.length ⌈/⌉ size := by
  induction items using induction_on_chunks pos with
  | nil => simp
  | chunk items nonempty ih =>
    have some := length_pos_iff.mpr nonempty
    rw [chunksOf_of_ne_nil pos nonempty, length_cons, ih, length_drop,
      ceilDiv_eq_add_pred_div, ceilDiv_eq_add_pred_div]
    rcases le_total size items.length with long | short
    · rw [← add_div_right _ pos]
      congr 1
      omega
    · rw [Nat.sub_eq_zero_of_le short, Nat.div_eq_of_lt (by omega)]
      symm
      apply Nat.div_eq_of_lt_le
      · omega
      · omega

end Chunks
