import Mathlib
import Blockberry.Consensus.Validators
import Blockberry.Types.Block

/-!
# The proposer of a round

`GetProposer` takes the validators in turn, by the remainder of the sum of height and round. The
remainder of a negative sum is negative, and no position of the slice.
-/

namespace Blockberry.Consensus

open Machine List Int64

namespace SimpleValidatorSet

/-- `GetProposer`; `none` is the panic of a negative index, and an empty set has the proposer
nil. -/
def getProposer (vs : SimpleValidatorSet) (height : Int64) (round : Int32) :
    Option (Option Validator) :=
  if vs.validators.length = 0 then some none
  else
    let idx := (height + round.toInt64).toInt.tmod vs.validators.length
    if idx < 0 then none else vs.validators[idx.toNat]?.map some

variable {vs : SimpleValidatorSet} {height : Int64} {round : Int32}

theorem toInt_height_add_round (nonneg : 0 ≤ height) (small : height ≤ maxBlockHeight) :
    (height + round.toInt64).toInt = height.toInt + round.toInt := by
  have bottom : 0 ≤ height.toInt := le_iff_toInt_le.mp nonneg
  have top : height.toInt ≤ 4611686018427387903 := le_iff_toInt_le.mp small
  have below := round.toInt_lt
  have above := round.le_toInt
  rw [toInt_add_of_inRange, Int32.toInt_toInt64]
  rw [Int32.toInt_toInt64]
  exact ⟨by omega, by omega⟩

theorem toInt_round_add {more : Nat} (notBefore : 0 ≤ round)
    (inRange : round.toInt + more ≤ 2 ^ 31 - 1) :
    (round + Int32.ofNat more).toInt = round.toInt + more := by
  have bottom : 0 ≤ round.toInt := Int32.le_iff_toInt_le.mp notBefore
  rw [Int32.toInt_add, Int32.toInt_ofNat_of_lt (by omega), Int.bmod_eq_of_le (by omega) (by omega)]

variable (nonempty : vs.validators ≠ [])

include nonempty

theorem getProposer_eq {turn : Nat} (isTurn : (height + round.toInt64).toInt = turn) :
    vs.getProposer height round = vs.validators[turn % vs.validators.length]?.map some := by
  rw [getProposer, if_neg (mt length_eq_zero_iff.mp nonempty), isTurn, ← Int.ofNat_tmod]
  rfl

theorem map_getProposer (nonneg : 0 ≤ height)
    (small : height ≤ maxBlockHeight) (notBefore : 0 ≤ round)
    (inRange : round.toInt + vs.validators.length - 1 ≤ 2 ^ 31 - 1) :
    ((range vs.validators.length).map fun k =>
        vs.getProposer height (round + Int32.ofNat k)) =
      (vs.validators.rotate (height.toInt + round.toInt).toNat).map fun v => some (some v) := by
  have bottom : 0 ≤ height.toInt := le_iff_toInt_le.mp nonneg
  have first : 0 ≤ round.toInt := Int32.le_iff_toInt_le.mp notBefore
  apply ext_getElem
  · simp
  · intro k inList _
    rw [length_map, length_range] at inList
    have isTurn : (height + (round + Int32.ofNat k).toInt64).toInt =
        (k + (height.toInt + round.toInt).toNat : Nat) := by
      rw [toInt_height_add_round nonneg small, toInt_round_add notBefore (by omega)]
      omega
    rw [getElem_map, getElem_range, getProposer_eq nonempty isTurn, getElem_map,
      getElem_rotate, getElem?_eq_getElem (Nat.mod_lt _ (by omega)), Option.map_some]

theorem getProposer_succ (nonneg : 0 ≤ height)
    (small : height ≤ maxBlockHeight) (smaller : height + 1 ≤ maxBlockHeight)
    (notBefore : 0 ≤ round) (inRange : round.toInt + 1 ≤ 2 ^ 31 - 1) :
    vs.getProposer (height + 1) round = vs.getProposer height (round + 1) := by
  have bottom : 0 ≤ height.toInt := le_iff_toInt_le.mp nonneg
  have top : height.toInt ≤ 4611686018427387903 := le_iff_toInt_le.mp small
  have first : 0 ≤ round.toInt := Int32.le_iff_toInt_le.mp notBefore
  have one : toInt 1 = 1 := rfl
  have next : (height + 1).toInt = height.toInt + 1 := toInt_add_of_inRange ⟨by omega, by omega⟩
  have nextRound : (round + 1).toInt = round.toInt + 1 := @toInt_round_add round 1 notBefore inRange
  have nextNonneg : 0 ≤ height + 1 := by
    rw [le_iff_toInt_le, next]
    exact Int.add_nonneg bottom (by decide)
  have left : (height + 1 + round.toInt64).toInt = (height.toInt + 1 + round.toInt).toNat := by
    rw [toInt_height_add_round nextNonneg smaller, next]
    omega
  have right : (height + (round + 1).toInt64).toInt = (height.toInt + 1 + round.toInt).toNat := by
    rw [toInt_height_add_round nonneg small, nextRound]
    omega
  rw [getProposer_eq nonempty left, getProposer_eq nonempty right]

end SimpleValidatorSet

/-- From any round on, as many rounds as there are validators have each of them as the proposer
once, and a height more is a round more. -/
theorem getProposer_rotates (vs : SimpleValidatorSet) (nonempty : vs.validators ≠ [])
    (height : Int64) (nonneg : 0 ≤ height) (small : height ≤ maxBlockHeight) :
    (∀ round : Int32, 0 ≤ round → round.toInt + vs.validators.length - 1 ≤ 2 ^ 31 - 1 →
      ((List.range vs.validators.length).map fun k =>
          vs.getProposer height (round + Int32.ofNat k)).Perm
        (vs.validators.map fun v => some (some v))) ∧
    ∀ round : Int32, 0 ≤ round → round.toInt + 1 ≤ 2 ^ 31 - 1 → height + 1 ≤ maxBlockHeight →
      vs.getProposer (height + 1) round = vs.getProposer height (round + 1) := by
  constructor
  · intro round notBefore inRange
    rw [SimpleValidatorSet.map_getProposer nonempty nonneg small notBefore inRange]
    exact (List.rotate_perm _ _).map _
  · intro round notBefore inRange smaller
    exact SimpleValidatorSet.getProposer_succ nonempty nonneg small smaller notBefore inRange

def twoValidators : SimpleValidatorSet := ⟨[⟨0, [1], [], 1, 0⟩, ⟨1, [2], [], 1, 0⟩], 2, 0⟩

/-- The last two rounds of the last height. -/
theorem getProposer_rotates_lastRounds :
    ((List.range 2).map fun k =>
        twoValidators.getProposer maxBlockHeight (2147483646 + Int32.ofNat k)).Perm
      (twoValidators.validators.map fun v => some (some v)) :=
  (getProposer_rotates twoValidators (by decide) maxBlockHeight (by decide) (by decide)).1
    2147483646 (by decide) (by decide)

end Blockberry.Consensus
