import Mathlib

/-!
# Binary search in a list ordered by rank

The search halves an interval of positions until it is empty. In an ordered list the position that
is left parts the items that rank below the target from the others.
-/

namespace BinarySearch

open List

variable {α : Type*} (rank : α → Int)

/-- The loop on the positions from `low` up to `high`; every turn makes them fewer. -/
def narrow (items : List α) (target : α) : Nat → Nat → Nat → Nat
  | 0, low, _ => low
  | fuel + 1, low, high =>
    if low < high then
      match items[(low + high) / 2]? with
      | some item =>
        if rank item < rank target then narrow items target fuel ((low + high) / 2 + 1) high
        else narrow items target fuel low ((low + high) / 2)
      | none => low
    else low

/-- The position of the target, or where it would be inserted, and whether it is there. -/
def binarySearch [DecidableEq α] (items : List α) (target : α) : Nat × Bool :=
  let index := narrow rank items target items.length 0 items.length
  (index, items[index]? = some target)

/-- An item is inserted before a position. -/
def insertAt (items : List α) (index : Nat) (item : α) : List α :=
  items.take index ++ item :: items.drop index

/-- The items in front of `low` rank below the target, those from `high` on do not. -/
structure Between (items : List α) (target : α) (low high : Nat) : Prop where
  low_le : low ≤ high
  high_le : high ≤ items.length
  below : ∀ index item, items[index]? = some item → index < low → rank item < rank target
  above : ∀ index item, items[index]? = some item → high ≤ index → rank target ≤ rank item

/-- The items are ordered by rank. -/
def Ordered (items : List α) : Prop := items.Pairwise fun left right => rank left ≤ rank right

variable {rank} {items : List α} {target : α}

theorem Ordered.rank_le (ordered : Ordered rank items) {first second : Nat} {left right : α}
    (isLeft : items[first]? = some left) (isRight : items[second]? = some right)
    (le : first ≤ second) : rank left ≤ rank right := by
  cases Nat.lt_or_eq_of_le le with
  | inl lt =>
    obtain ⟨leftBound, rfl⟩ := List.getElem?_eq_some_iff.mp isLeft
    obtain ⟨rightBound, rfl⟩ := List.getElem?_eq_some_iff.mp isRight
    exact pairwise_iff_getElem.mp ordered _ _ leftBound rightBound lt
  | inr same =>
    subst same
    rw [isLeft, Option.some_inj] at isRight
    rw [isRight]

theorem narrow_between (ordered : Ordered rank items) (fuel low high : Nat)
    (between : Between rank items target low high) (enough : high - low ≤ fuel) :
    Between rank items target (narrow rank items target fuel low high)
      (narrow rank items target fuel low high) := by
  induction fuel generalizing low high with
  | zero =>
    have same : high = low := by
      have le := between.low_le
      omega
    exact same ▸ between
  | succ fuel ih =>
    have highLe := between.high_le
    rw [narrow]
    split
    next less =>
      have inside : (low + high) / 2 < items.length := by omega
      rw [List.getElem?_eq_getElem inside]
      have isMiddle := List.getElem?_eq_getElem inside
      dsimp only
      split
      next small =>
        apply ih
        · refine ⟨by omega, highLe, fun index item found before => ?_, between.above⟩
          exact (ordered.rank_le found isMiddle (by omega)).trans_lt small
        · omega
      next large =>
        apply ih
        · refine ⟨by omega, by omega, between.below, fun index item found behind => ?_⟩
          exact (not_lt.mp large).trans (ordered.rank_le isMiddle found behind)
        · omega
    next notLess =>
      have same : high = low := by
        have le := between.low_le
        omega
      exact same ▸ between

variable [DecidableEq α]

/-- The position that the search ends with parts the list. -/
theorem binarySearch_between (ordered : Ordered rank items) (target : α) :
    Between rank items target (binarySearch rank items target).1
      (binarySearch rank items target).1 := by
  apply narrow_between ordered
  · refine ⟨Nat.zero_le _, le_refl _, fun index item _ before => ?_,
      fun index item found behind => ?_⟩
    · omega
    · have inside := (List.getElem?_eq_some_iff.mp found).1
      omega
  · omega

theorem getElem_of_found (found : (binarySearch rank items target).2 = true) :
    items[(binarySearch rank items target).1]? = some target :=
  of_decide_eq_true found

/-- The target is found exactly if it is in the list. -/
theorem binarySearch_found (ordered : Ordered rank items)
    (injective : ∀ left right, rank left = rank right → left = right) :
    (binarySearch rank items target).2 = true ↔ target ∈ items := by
  have between := binarySearch_between ordered target
  constructor
  · exact fun found => mem_of_getElem? (getElem_of_found found)
  · intro member
    apply decide_eq_true
    obtain ⟨index, isTarget⟩ := mem_iff_getElem?.mp member
    have behind : (binarySearch rank items target).1 ≤ index := by
      by_contra before
      exact lt_irrefl _ (between.below index target isTarget (not_le.mp before))
    have inside := (List.getElem?_eq_some_iff.mp isTarget).1
    have isItem := List.getElem?_eq_getElem (behind.trans_lt inside)
    refine isItem.trans (congrArg some ?_)
    apply injective
    exact le_antisymm (ordered.rank_le isItem isTarget behind)
      (between.above _ _ isItem (le_refl _))

/-- The item before the position is the greatest that ranks below the target. -/
theorem binarySearch_pred (ordered : Ordered rank items)
    (pos : 0 < (binarySearch rank items target).1) :
    ∃ item, items[(binarySearch rank items target).1 - 1]? = some item ∧ rank item < rank target ∧
      ∀ other ∈ items, rank other < rank target → rank other ≤ rank item := by
  have between := binarySearch_between ordered target
  have inside : (binarySearch rank items target).1 - 1 < items.length := by
    have bound := between.high_le
    omega
  have isItem := List.getElem?_eq_getElem inside
  refine ⟨_, isItem, between.below _ _ isItem (by omega), fun other member small => ?_⟩
  obtain ⟨index, isOther⟩ := mem_iff_getElem?.mp member
  have before : index < (binarySearch rank items target).1 := by
    by_contra behind
    exact (between.above index other isOther (not_lt.mp behind)).not_gt small
  exact ordered.rank_le isOther isItem (by omega)

/-! ## Insertion -/

omit [DecidableEq α] in
theorem mem_insertAt {index : Nat} {item other : α} :
    other ∈ insertAt items index item ↔ other = item ∨ other ∈ items := by
  have whole : other ∈ items ↔ other ∈ items.take index ∨ other ∈ items.drop index := by
    rw [← mem_append, take_append_drop]
  rw [insertAt, mem_append, mem_cons, whole]
  tauto

/-- A new item inserted at the position that the search ends with keeps a strict order. -/
theorem pairwise_insertAt (strict : items.Pairwise fun left right => rank left < rank right)
    (injective : ∀ left right, rank left = rank right → left = right) (absent : target ∉ items) :
    (insertAt items (binarySearch rank items target).1 target).Pairwise
      fun left right => rank left < rank right := by
  have between := binarySearch_between (strict.imp le_of_lt) target
  have before : ∀ item ∈ items.take (binarySearch rank items target).1,
      rank item < rank target := by
    intro item member
    obtain ⟨index, bound, isItem⟩ := mem_take_iff_getElem.mp member
    exact between.below index item (List.getElem?_eq_some_iff.mpr ⟨_, isItem⟩) (by omega)
  have behind : ∀ item ∈ items.drop (binarySearch rank items target).1,
      rank target < rank item := by
    intro item member
    obtain ⟨index, bound, isItem⟩ := mem_drop_iff_getElem.mp member
    refine lt_of_le_of_ne
      (between.above _ item (List.getElem?_eq_some_iff.mpr ⟨_, isItem⟩) (by omega)) ?_
    intro same
    exact absent (injective _ _ same ▸ mem_of_mem_drop member)
  rw [insertAt, pairwise_append, pairwise_cons]
  refine ⟨strict.sublist (take_sublist _ _),
    ⟨behind, strict.sublist (drop_sublist _ _)⟩, fun item inFront other inRest => ?_⟩
  cases mem_cons.mp inRest with
  | inl isTarget => exact isTarget ▸ before item inFront
  | inr inRest => exact (before item inFront).trans (behind other inRest)

end BinarySearch
