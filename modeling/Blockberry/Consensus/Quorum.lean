import Blockberry.Consensus.Validators

/-!
# The quorum threshold

The branch of `Quorum` for small totals is the exact `⌊2T/3⌋ + 1`; the division-first branch for
large totals falls one short when the total leaves remainder two modulo three.
-/

namespace Blockberry.Consensus

open Machine

/-- Largest total for which `Quorum` multiplies first. -/
def multiplyFirstLimit : Int := (2 ^ 63 - 1) / 2

/-- The value of `Quorum` over the integers. -/
def threshold (total : Int) : Int :=
  if total > multiplyFirstLimit then total / 3 * 2 + 1 else 2 * total / 3 + 1

variable {total : Int}

theorem threshold_pos (nonneg : 0 ≤ total) : 1 ≤ threshold total := by
  simp only [threshold]
  split <;> omega

theorem threshold_le (pos : 1 ≤ total) : threshold total ≤ total := by
  simp only [threshold]
  split <;> omega

/-- Both branches give more than half of the total, which is what makes a
quorum unique. -/
theorem lt_two_mul_threshold (pos : 1 ≤ total) : total < 2 * threshold total := by
  simp only [threshold]
  split
  next large =>
    rw [multiplyFirstLimit] at large
    omega
  next => omega

/-- The division-first branch misses the two-thirds bound exactly on the totals
that are two modulo three. -/
theorem two_thirds_iff : 2 * total < 3 * threshold total ↔
      total ≤ multiplyFirstLimit ∨ total % 3 ≠ 2 := by
  simp only [threshold]
  split <;> omega

theorem faulty_lt_overlap {quorum : Int} (twoThirds : 2 * total < 3 * quorum) :
    (total - 1) / 3 < 2 * quorum - total := by
  omega

namespace SimpleValidatorSet

variable {vs : SimpleValidatorSet}

theorem gt_maxValue_half_iff :
    vs.totalPower > Int64.maxValue / 2 ↔ vs.totalPower.toInt > multiplyFirstLimit := by
  rw [gt_iff_lt, Int64.lt_iff_toInt_lt]
  have half : (Int64.maxValue / 2).toInt = multiplyFirstLimit := by decide
  rw [half]

def QuorumExact (vs : SimpleValidatorSet) : Prop :=
  if vs.totalPower > Int64.maxValue / 2 then
    (vs.totalPower / 3).toInt = vs.totalPower.toInt / 3 ∧
      (vs.totalPower / 3 * 2).toInt = vs.totalPower.toInt / 3 * 2 ∧
      (vs.totalPower / 3 * 2 + 1).toInt = vs.totalPower.toInt / 3 * 2 + 1
  else
    (2 * vs.totalPower).toInt = 2 * vs.totalPower.toInt ∧
      ((2 * vs.totalPower) / 3).toInt = 2 * vs.totalPower.toInt / 3 ∧
      ((2 * vs.totalPower) / 3 + 1).toInt = 2 * vs.totalPower.toInt / 3 + 1

theorem quorumExact (nonneg : 0 ≤ vs.totalPower.toInt) : vs.QuorumExact := by
  have bound := vs.totalPower.toInt_lt
  have one : (1 : Int64).toInt = 1 := by decide
  have two : (2 : Int64).toInt = 2 := by decide
  have three : (3 : Int64).toInt = 3 := by decide
  simp only [QuorumExact]
  split
  next large =>
    have third : (vs.totalPower / 3).toInt = vs.totalPower.toInt / 3 := by
      rw [toInt_div_of_nonneg nonneg (by rw [three]; decide), three]
    have doubled : (vs.totalPower / 3 * 2).toInt = vs.totalPower.toInt / 3 * 2 := by
      rw [toInt_mul_of_inRange (by rw [third, two]; constructor <;> omega), third, two]
    refine ⟨third, doubled, ?_⟩
    rw [toInt_add_of_inRange (by rw [doubled, one]; constructor <;> omega), doubled, one]
  next small =>
    rw [gt_maxValue_half_iff, multiplyFirstLimit] at small
    have doubled : (2 * vs.totalPower).toInt = 2 * vs.totalPower.toInt := by
      rw [toInt_mul_of_inRange (by rw [two]; constructor <;> omega), two]
    have third : ((2 * vs.totalPower) / 3).toInt = 2 * vs.totalPower.toInt / 3 := by
      rw [toInt_div_of_nonneg (by omega) (by rw [three]; decide), doubled, three]
    refine ⟨doubled, third, ?_⟩
    rw [toInt_add_of_inRange (by rw [third, one]; constructor <;> omega), third, one]

theorem toInt_quorum (nonneg : 0 ≤ vs.totalPower.toInt) :
    vs.quorum.toInt = threshold vs.totalPower.toInt := by
  have exact := quorumExact nonneg
  simp only [QuorumExact] at exact
  simp only [quorum, threshold, ← gt_maxValue_half_iff]
  split at exact
  next large => simp only [large, ↓reduceIte, exact.2.2]
  next small => simp only [small, ↓reduceIte, exact.2.2]

theorem toInt_quorum_of_exact (exact : vs.Exact) : vs.quorum.toInt = threshold vs.powerSum := by
  rw [← exact.total_eq, toInt_quorum]
  rw [exact.total_eq]
  exact powerSum_nonneg exact

open WeightedGroup in
/-- The group weighs what two quorums share at least. -/
structure Overlap (vs : SimpleValidatorSet) (group : Finset Nat) : Prop where
  subset : group ⊆ vs.members
  nonempty : group.Nonempty
  le_power : 2 * vs.quorum.toInt - vs.powerSum ≤ power vs.powerAt group
  third : 2 * vs.powerSum < 3 * vs.quorum.toInt → vs.powerSum < 3 * power vs.powerAt group

open WeightedGroup in
theorem overlap_inter (exact : vs.Exact) (nonempty : vs.validators ≠ []) {left right : Finset Nat}
    (leftSubset : left ⊆ vs.members) (rightSubset : right ⊆ vs.members)
    (leftQuorum : vs.quorum.toInt ≤ power vs.powerAt left)
    (rightQuorum : vs.quorum.toInt ≤ power vs.powerAt right) : vs.Overlap (left ∩ right) := by
  have nonneg : ∀ position ∈ vs.members, 0 ≤ vs.powerAt position :=
    fun position _ => powerAt_nonneg exact position
  have majority : power vs.powerAt vs.members < 2 * vs.quorum.toInt := by
    rw [power_members, toInt_quorum_of_exact exact]
    exact lt_two_mul_threshold (powerSum_pos exact nonempty)
  have meet := not_disjoint_of_majorities nonneg leftSubset rightSubset majority leftQuorum
    rightQuorum
  have shared := power_add_le nonneg leftSubset rightSubset
  rw [power_members] at shared
  exact ⟨Finset.inter_subset_left.trans leftSubset, Finset.not_disjoint_iff_nonempty_inter.mp meet,
    by omega, by omega⟩

end SimpleValidatorSet

end Blockberry.Consensus
