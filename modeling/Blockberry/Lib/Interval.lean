import Mathlib

/-!
# Gap-free sets of integers

A set of integers without gaps is an order-connected one. Such a set grows at its
upper end only: what may be added is the successor of its greatest element, or
anything if it is empty.
-/

namespace GapFree

/-- `after` has no gaps, contains `before`, and all it has in addition lies above
`before`. -/
structure Continues (before after : Set ℤ) : Prop where
  ordConnected : after.OrdConnected
  subset : before ⊆ after
  above : ∀ a ∈ after, a ∉ before → ∀ b ∈ before, b < a

/-- The element may be added at the upper end. -/
def Next (s : Set ℤ) (h : ℤ) : Prop := s = ∅ ∨ IsGreatest s (h - 1)

variable {s t u : Set ℤ} {h : ℤ}

theorem Continues.refl (gapFree : s.OrdConnected) : Continues s s :=
  ⟨gapFree, subset_rfl, fun _ member new => absurd member new⟩

theorem Continues.trans (first : Continues s t) (second : Continues t u) : Continues s u where
  ordConnected := second.ordConnected
  subset := first.subset.trans second.subset
  above := by
    intro a member new b earlier
    by_cases already : a ∈ t
    · exact first.above a already new b earlier
    · exact second.above a member already b (first.subset earlier)

theorem Next.lt (next : Next s h) {b : ℤ} (member : b ∈ s) : b < h := by
  rcases next with rfl | greatest
  · contradiction
  · exact Int.lt_of_le_sub_one (greatest.2 member)

/-- After the addition the successor may be added next. -/
theorem Next.succ (next : Next s h) : Next (insert h s) (h + 1) := by
  right
  rw [Int.add_sub_cancel]
  refine ⟨Set.mem_insert h s, ?_⟩
  rintro b (rfl | member)
  · exact le_refl b
  · exact (next.lt member).le

theorem Next.continues (next : Next s h) (gapFree : s.OrdConnected) : Continues s (insert h s) where
  ordConnected := by
    constructor
    rintro a (rfl | lower) b (rfl | upper) c ⟨above, below⟩
    · exact Or.inl (le_antisymm below above)
    · exact absurd (next.lt upper) (not_lt.mpr (above.trans below))
    · rcases below.eq_or_lt with rfl | strictlyBelow
      · exact Or.inl rfl
      · rcases next with rfl | greatest
        · contradiction
        · exact Or.inr (gapFree.out lower greatest.1 ⟨above, Int.le_sub_one_of_lt strictlyBelow⟩)
    · exact Or.inr (gapFree.out lower upper ⟨above, below⟩)
  subset := Set.subset_insert h s
  above := by
    rintro a (rfl | member) new b earlier
    · exact next.lt earlier
    · exact absurd member new

/-- The least of the new elements came next. -/
theorem Continues.next (continues : Continues s t) (member : h ∈ t) (new : h ∉ s)
    (least : ∀ a ∈ t, a ∉ s → h ≤ a) : Next s h := by
  rcases s.eq_empty_or_nonempty with empty | ⟨b, earlier⟩
  · exact Or.inl empty
  · have below := continues.above h member new b earlier
    have predecessor : h - 1 ∈ t := continues.ordConnected.out (continues.subset earlier) member
        ⟨Int.le_sub_one_of_lt below, (Int.sub_one_lt_of_le le_rfl).le⟩
    refine Or.inr ⟨?_, ?_⟩
    · by_contra notEarlier
      exact absurd (least (h - 1) predecessor notEarlier) (by omega)
    · intro a other
      exact Int.le_sub_one_of_lt (continues.above h member new a other)

end GapFree
