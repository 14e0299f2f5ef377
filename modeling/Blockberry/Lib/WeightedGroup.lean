import Mathlib.Algebra.BigOperators.Group.Finset.Basic
import Mathlib.Algebra.Order.BigOperators.Group.Finset
import Mathlib.Data.Int.Order.Basic
import Mathlib.Tactic.Ring

/-!
# Weighted groups and quorums

Members carry integer weights, and a group weighs their sum. Needed are how much two groups share
when the whole membership bounds their union, how a list with repetitions weighs more than the
group it names, and that for some weights the repetitions lift it over two thirds.
-/

namespace WeightedGroup

open Finset

variable {ι : Type*} (weight : ι → ℤ)

/-- Total weight of a group. -/
def power (group : Finset ι) : ℤ := ∑ member ∈ group, weight member

variable {weight}

theorem power_mono {small large : Finset ι}
    (nonneg : ∀ member ∈ large, 0 ≤ weight member) (subset : small ⊆ large) :
    power weight small ≤ power weight large :=
  sum_le_sum_of_subset_of_nonneg subset fun member inLarge _ => nonneg member inLarge

theorem power_nonneg {group : Finset ι}
    (nonneg : ∀ member ∈ group, 0 ≤ weight member) : 0 ≤ power weight group :=
  sum_nonneg nonneg

variable [DecidableEq ι]

theorem power_insert {group : Finset ι} {member : ι} (fresh : member ∉ group) :
    power weight (insert member group) = weight member + power weight group :=
  sum_insert fresh

/-- Two groups of one membership weigh together at most the membership plus what
they share. -/
theorem power_add_le {all left right : Finset ι} (nonneg : ∀ member ∈ all, 0 ≤ weight member)
    (leftSubset : left ⊆ all) (rightSubset : right ⊆ all) :
    power weight left + power weight right ≤ power weight all + power weight (left ∩ right) := by
  have unionLe : power weight (left ∪ right) ≤ power weight all :=
    power_mono nonneg (union_subset leftSubset rightSubset)
  have split : power weight (left ∪ right) + power weight (left ∩ right) =
      power weight left + power weight right := sum_union_inter
  omega

/-- Groups that share no member cannot both hold more than half of the
membership. -/
theorem not_disjoint_of_majorities {all left right : Finset ι} {quorum : ℤ}
    (nonneg : ∀ member ∈ all, 0 ≤ weight member)
    (leftSubset : left ⊆ all) (rightSubset : right ⊆ all)
    (majority : power weight all < 2 * quorum)
    (leftQuorum : quorum ≤ power weight left)
    (rightQuorum : quorum ≤ power weight right) : ¬Disjoint left right := by
  intro disjoint
  have shared := power_add_le nonneg leftSubset rightSubset
  rw [disjoint_iff_inter_eq_empty.mp disjoint] at shared
  simp only [power, sum_empty] at shared leftQuorum rightQuorum majority
  omega

/-- Weight of the entries of a list beyond the first one of each member. -/
def surplus (weight : ι → ℤ) (members : List ι) : ℤ :=
  ∑ member ∈ members.toFinset, (members.count member - 1) * weight member

/-- Adding up a list counts the group it names once and the surplus on top. -/
theorem sum_map_eq (members : List ι) : (members.map weight).sum =
      power weight members.toFinset + surplus weight members := by
  rw [sum_list_map_count, power, surplus, ← sum_add_distrib]
  apply sum_congr rfl
  intro member _
  rw [nsmul_eq_mul]
  ring

/-- A list without repetitions has no surplus. -/
theorem surplus_of_nodup {members : List ι} (nodup : members.Nodup) :
    surplus weight members = 0 := by
  apply sum_eq_zero
  intro member inMembers
  rw [List.count_eq_one_of_mem nodup (List.mem_toFinset.mp inMembers)]
  simp

/-! ## Repetitions that make a difference -/

def twoWeights (heavy absent : ι) (own other : ℤ) (member : ι) : ℤ :=
  if member = heavy then own else if member = absent then other else 1

section TwoWeights

variable {heavy absent : ι} {own other : ℤ}

theorem twoWeights_pos (ownPos : 0 < own) (otherPos : 0 < other) (member : ι) :
    0 < twoWeights heavy absent own other member := by
  rw [twoWeights]
  split
  · exact ownPos
  split
  · exact otherPos
  · exact Int.one_pos

theorem power_twoWeights {all : Finset ι} (heavyMem : heavy ∈ all) (absentMem : absent ∈ all)
    (different : heavy ≠ absent) :
    power (twoWeights heavy absent own other) all = own + other + (all.card - 2) ∧
      power (twoWeights heavy absent own other) (all.erase absent) = own + (all.card - 2) := by
  have heavyLeft : heavy ∈ all.erase absent := mem_erase.mpr ⟨different, heavyMem⟩
  have ones : ∑ member ∈ (all.erase absent).erase heavy, twoWeights heavy absent own other member =
      ((all.erase absent).erase heavy).card := by
    rw [sum_eq_card_nsmul (b := 1)]
    · simp
    · intro member inside
      rw [mem_erase, mem_erase] at inside
      simp [twoWeights, inside.1, inside.2.1]
  have rest : power (twoWeights heavy absent own other) (all.erase absent) =
      own + (all.card - 2) := by
    have two : 2 ≤ all.card := one_lt_card.mpr ⟨heavy, heavyMem, absent, absentMem, different⟩
    rw [power, ← add_sum_erase _ _ heavyLeft, ones, card_erase_of_mem heavyLeft,
      card_erase_of_mem absentMem]
    simp only [twoWeights, ↓reduceIte]
    omega
  refine ⟨?_, rest⟩
  have whole : power (twoWeights heavy absent own other) all =
      other + power (twoWeights heavy absent own other) (all.erase absent) := by
    rw [power, ← add_sum_erase _ _ absentMem]
    simp [twoWeights, different.symm, power]
  rw [whole, rest]
  ring

theorem sum_map_twoWeights {entries : List ι} (notListed : absent ∉ entries) :
    (entries.map (twoWeights heavy absent own other)).sum =
      entries.count heavy * (own - 1) + entries.length := by
  induction entries with
  | nil => simp
  | cons first entries ih =>
    rw [List.mem_cons, not_or] at notListed
    rw [List.map_cons, List.sum_cons, ih notListed.2, List.count_cons, List.length_cons]
    by_cases isHeavy : first = heavy
    · simp [twoWeights, isHeavy]
      ring
    · have notAbsent : first ≠ absent := Ne.symm notListed.1
      simp [twoWeights, isHeavy, notAbsent]
      ring

end TwoWeights

/-- The smallest weight with which `times` further repetitions make up for the members that are not
listed. -/
theorem exists_own_weight (members others : ℕ) {times : ℕ} (repeated : 0 < times) :
    ∃ own : ℕ, 0 < own ∧ own ≤ members + 1 ∧ members ≤ times * own + others ∧
      times * own + own ≤ 2 * members + times + 1 := by
  have enough : members - others < times * ((members - others) / times + 1) :=
    Nat.lt_mul_div_succ _ repeated
  have within : times * ((members - others) / times) ≤ members - others := Nat.mul_div_le _ _
  have small : (members - others) / times ≤ members - others := Nat.div_le_self _ _
  refine ⟨(members - others) / times + 1, Nat.succ_pos _, ?_, ?_, ?_⟩
  · omega
  · omega
  · rw [Nat.mul_succ]
    omega

/-- A list that names a member twice can weigh more than two thirds of the membership although the
group it names does not, as long as some member is outside of the group. -/
theorem exists_weight_of_repeated {all group : Finset ι} {entries : List ι} {heavy absent : ι}
    (subset : group ⊆ all) (listed : entries.toFinset ⊆ group) (twice : 2 ≤ entries.count heavy)
    (absentMem : absent ∈ all) (absentOut : absent ∉ group) :
    ∃ weight : ι → ℤ, (∀ member, 0 < weight member) ∧ power weight all ≤ 4 * all.card ∧
      power weight group < 2 * power weight all / 3 + 1 ∧
      2 * power weight all / 3 + 1 ≤ (entries.map weight).sum ∧
      (entries.map weight).sum ≤ 2 * all.card + entries.length := by
  have heavyMem : heavy ∈ group :=
    listed (List.mem_toFinset.mpr (List.count_pos_iff.mp (by omega)))
  have notListed : absent ∉ entries :=
    fun inside => absentOut (listed (List.mem_toFinset.mpr inside))
  have different : heavy ≠ absent := fun same => absentOut (same ▸ heavyMem)
  have two : 1 < all.card :=
    one_lt_card.mpr ⟨heavy, subset heavyMem, absent, absentMem, different⟩
  have countLe : entries.count heavy ≤ entries.length := List.count_le_length
  obtain ⟨times, isTimes⟩ := Nat.exists_eq_add_of_le' (Nat.one_le_of_lt twice)
  have repeated : 0 < times := by omega
  obtain ⟨own, ownPos, ownLe, enough, within⟩ := exists_own_weight (all.card - 1)
    (entries.length - entries.count heavy) repeated
  obtain ⟨other, isOther⟩ : ∃ other : ℤ, other = (own + (all.card - 2) + 1) / 2 := ⟨_, rfl⟩
  have positive : ∀ member, 0 < twoWeights heavy absent own other member :=
    twoWeights_pos (Int.natCast_pos.mpr ownPos) (by omega)
  obtain ⟨weighAll, weighRest⟩ := @power_twoWeights _ _ heavy absent own other all
    (subset heavyMem) absentMem different
  have groupLe : power (twoWeights heavy absent own other) group ≤ own + (all.card - 2) := by
    rw [← weighRest]
    apply power_mono
    · exact fun member _ => (positive member).le
    · intro member inGroup
      exact mem_erase.mpr ⟨fun same => absentOut (same ▸ inGroup), subset inGroup⟩
  have weighList : (entries.map (twoWeights heavy absent own other)).sum =
      (times * own : ℕ) + own - (times + 1) + entries.length := by
    rw [sum_map_twoWeights notListed, isTimes]
    push_cast
    ring
  refine ⟨_, positive, ?_, ?_, ?_, ?_⟩
  · omega
  · omega
  · omega
  · omega

end WeightedGroup
