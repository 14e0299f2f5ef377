import Mathlib.Algebra.BigOperators.Group.Finset.Basic
import Mathlib.Algebra.Order.BigOperators.Group.Finset
import Mathlib.Data.Fintype.BigOperators
import Mathlib.Tactic.Linarith
import Mathlib.Tactic.Ring

/-!
# Smooth weighted round robin

A round selects a candidate of maximal priority, raises every priority by the weight and charges
the selected one the total. The priorities sum to zero, stay within a window, and return to zero
after a full cycle, in which every candidate is selected as often as its weight says.
-/

namespace RoundRobin

open Finset Finset

variable {ι : Type*} [Fintype ι] {weight : ι → ℤ}

/-- Sum of all weights. -/
def total (weight : ι → ℤ) : ℤ := ∑ i, weight i

theorem weight_le_total (nonneg : ∀ i, 0 ≤ weight i) (i : ι) : weight i ≤ total weight :=
  single_le_sum (fun j _ => nonneg j) (mem_univ i)

variable [DecidableEq ι]

/-- Priorities after a round that selects `chosen`. -/
def advance (weight priority : ι → ℤ) (chosen : ι) : ι → ℤ := fun i =>
  priority i + weight i - if i = chosen then total weight else 0

inductive Reaches (weight : ι → ℤ) : ℕ → (ι → ℤ) → (ι → ℕ) → Prop where
  | start : Reaches weight 0 (fun _ => 0) (fun _ => 0)
  | round {rounds : ℕ} {priority : ι → ℤ} {count : ι → ℕ} {chosen : ι} :
      Reaches weight rounds priority count →
      (∀ i, priority i ≤ priority chosen) →
      Reaches weight (rounds + 1) (advance weight priority chosen)
        (Function.update count chosen (count chosen + 1))

theorem sum_advance (priority : ι → ℤ) (chosen : ι) :
    ∑ i, advance weight priority chosen i = ∑ i, priority i := by
  simp only [advance, sum_sub_distrib, sum_add_distrib, sum_ite_eq', mem_univ, ↓reduceIte]
  simp [total]

namespace Reaches

variable {rounds : ℕ} {priority : ι → ℤ} {count : ι → ℕ}
  (reached : Reaches weight rounds priority count)

include reached

theorem sum_eq_zero : ∑ i, priority i = 0 := by
  induction reached with
  | start => simp
  | round _ _ ih => rw [sum_advance, ih]

/-- A priority is what the candidate is owed for all rounds, less what it was
charged for its selections. -/
theorem priority_eq (i : ι) : priority i = rounds * weight i - count i * total weight := by
  induction reached with
  | start => simp
  | @round rounds priority count chosen _ _ ih =>
    simp only [advance, ih, Function.update_apply]
    split
    next same =>
      subst same
      push_cast
      ring
    next =>
      push_cast
      ring

/-- Since priorities sum to zero, a maximal one is not negative. -/
theorem chosen_nonneg {chosen : ι}
    (maximal : ∀ i, priority i ≤ priority chosen) : 0 ≤ priority chosen := by
  by_contra negative
  have sumNegative : ∑ i, priority i < 0 := by
    apply sum_neg (fun i _ => (maximal i).trans_lt (not_le.mp negative))
    exact ⟨chosen, mem_univ chosen⟩
  rw [reached.sum_eq_zero] at sumNegative
  exact lt_irrefl 0 sumNegative

omit reached

variable (nonneg : ∀ i, 0 ≤ weight i)

include nonneg

include reached

/-- No candidate falls behind by a whole total: only a nonnegative priority is
ever charged. -/
theorem lower_bound (i : ι) : weight i - total weight ≤ priority i := by
  induction reached with
  | start => exact sub_nonpos.mpr (weight_le_total nonneg i)
  | @round rounds priority count chosen earlier maximal ih =>
    have chosenNonneg := earlier.chosen_nonneg maximal
    have weightNonneg := nonneg i
    simp only [advance]
    split
    next same =>
      subst same
      omega
    next => omega

/-- The other candidates' lower bounds cap every priority from above. -/
theorem upper_bound (i : ι) :
    priority i ≤ ((Fintype.card ι : ℤ) - 2) * total weight + weight i := by
  have others : ∑ j ∈ univ.erase i, (weight j - total weight) ≤
      ∑ j ∈ univ.erase i, priority j :=
    sum_le_sum fun j _ => reached.lower_bound nonneg j
  have prioritySplit := add_sum_erase univ priority (mem_univ i)
  have weightSplit := add_sum_erase univ weight (mem_univ i)
  have card : ((univ.erase i).card : ℤ) = Fintype.card ι - 1 := by
    rw [card_erase_of_mem (mem_univ i), card_univ, Nat.cast_sub (Fintype.card_pos_iff.mpr ⟨i⟩)]
    simp
  rw [reached.sum_eq_zero] at prioritySplit
  rw [sum_sub_distrib, sum_const, nsmul_eq_mul, card] at others
  rw [← total] at weightSplit
  nlinarith

/-- No candidate is selected more often than its share of the rounds so far,
rounded up by less than one. -/
theorem count_mul_total_le (i : ι) :
    count i * total weight ≤ (rounds - 1) * weight i + total weight := by
  have lower := reached.lower_bound nonneg i
  rw [reached.priority_eq] at lower
  linarith

omit reached

omit nonneg

/-- After as many rounds as the total weight, all priorities are zero. -/
theorem priority_full_cycle (positive : ∀ i, 0 < weight i)
    (reached : Reaches weight rounds priority count)
    (fullCycle : (rounds : ℤ) = total weight) (i : ι) : priority i = 0 := by
  have nonneg : ∀ j, 0 ≤ weight j := fun j => (positive j).le
  have multiple : ∀ j, priority j = (weight j - count j) * total weight := by
    intro j
    rw [reached.priority_eq, fullCycle]
    ring
  have priorityNonneg : ∀ j, 0 ≤ priority j := by
    intro j
    have above : -total weight < priority j := by
      have lower := reached.lower_bound nonneg j
      have weightPositive := positive j
      omega
    have totalPositive : 0 < total weight := (positive j).trans_le (weight_le_total nonneg j)
    rw [multiple j] at above ⊢
    have share : -1 < weight j - count j := by nlinarith
    exact mul_nonneg (by omega) totalPositive.le
  exact (sum_eq_zero_iff_of_nonneg fun j _ => priorityNonneg j).mp
    reached.sum_eq_zero i (mem_univ i)

/-- Over a full cycle every candidate is selected as often as its weight. -/
theorem count_full_cycle (positive : ∀ i, 0 < weight i)
    (reached : Reaches weight rounds priority count)
    (fullCycle : (rounds : ℤ) = total weight) (i : ι) : (count i : ℤ) = weight i := by
  have balanced := reached.priority_full_cycle positive fullCycle i
  have totalPositive : 0 < total weight :=
    (positive i).trans_le (weight_le_total (fun j => (positive j).le) i)
  rw [reached.priority_eq, fullCycle] at balanced
  have equal : total weight * (weight i - count i) = 0 := by linarith
  rcases mul_eq_zero.mp equal with zero | zero
  · omega
  · omega

end Reaches

end RoundRobin
