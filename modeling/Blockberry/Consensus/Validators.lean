import Blockberry.Types.Basic
import Blockberry.Lib.Machine
import Blockberry.Lib.WeightedGroup

/-!
# Simple validator sets

`SimpleValidatorSet` caches the total power of its validators in an `int64` that is not guarded
against overflow. The set is read here as a weighted group over slice positions, which is how
signatures and votes name validators.
-/

namespace Blockberry.Consensus

open Machine List WeightedGroup

structure Validator where
  index : UInt16
  address : Bytes
  publicKey : Bytes
  votingPower : Int64
  proposerPriority : Int64
  deriving DecidableEq, Repr

/-- The slice-backed validator set, without its lock. -/
structure SimpleValidatorSet where
  validators : List Validator
  totalPower : Int64
  epoch : UInt64
  deriving DecidableEq, Repr

/-- The errors of `NewSimpleValidatorSet`, with the values their texts print. -/
inductive ValidatorError where
  | nilValidator (index : Nat)
  | invalidVotingPower (index : Nat) (power : Int64)
  | duplicateValidator (address : Bytes)
  deriving DecidableEq, Repr

/-- The validation loop of `NewSimpleValidatorSet`: the next index, the
addresses seen so far and the running total. -/
def checkValidators : Nat → List Bytes → Int64 → List (Option Validator) →
    Except ValidatorError Int64
  | _, _, totalPower, [] => .ok totalPower
  | i, _, _, none :: _ => .error (.nilValidator i)
  | i, seen, totalPower, some v :: rest =>
    if v.votingPower ≤ 0 then
      .error (.invalidVotingPower i v.votingPower)
    else if v.address ∈ seen then
      .error (.duplicateValidator v.address)
    else
      checkValidators (i + 1) (v.address :: seen) (totalPower + v.votingPower) rest

def copyValidators (validators : List (Option Validator)) : List Validator :=
  validators.reduceOption.mapIdx fun i v => { v with index := UInt16.ofNat i }

def newSimpleValidatorSet (validators : List (Option Validator)) (epoch : UInt64) :
    Except ValidatorError SimpleValidatorSet :=
  if validators.length = 0 then
    .ok { validators := [], totalPower := 0, epoch }
  else do
    let totalPower ← checkValidators 0 [] 0 validators
    return { validators := copyValidators validators, totalPower, epoch }

namespace SimpleValidatorSet

variable (vs : SimpleValidatorSet)

def count : Nat := vs.validators.length

/-- `GetByIndex`; `none` for an index out of range. -/
def getByIndex (index : UInt16) : Option Validator := vs.validators[index.toNat]?

def totalVotingPower : Int64 := vs.totalPower

/-- `Quorum`, with the division-first branch for large totals. -/
def quorum : Int64 :=
  if vs.totalPower > Int64.maxValue / 2 then
    vs.totalPower / 3 * 2 + 1
  else
    (2 * vs.totalPower) / 3 + 1

/-- The slice positions of the validators. -/
def members : Finset Nat := Finset.range vs.validators.length

def powerAt (position : Nat) : Int :=
  ((vs.validators[position]?).map (·.votingPower.toInt)).getD 0

/-- Exact sum of the voting powers, over the integers. -/
def powerSum : Int := exactSum (vs.validators.map Validator.votingPower)

structure Exact : Prop where
  positive : ∀ v ∈ vs.validators, 0 < v.votingPower.toInt
  total_eq : vs.totalPower.toInt = vs.powerSum

end SimpleValidatorSet

/-- Acceptance by the validation loop: no nil entry, positive powers, fresh and
distinct addresses, and the wrapped running total. -/
theorem checkValidators_ok {validators : List (Option Validator)} {i : Nat}
    {seen : List Bytes} {start totalPower : Int64}
    (accepted : checkValidators i seen start validators = .ok totalPower) :
    ∃ present : List Validator, validators = present.map some ∧
      (∀ v ∈ present, 0 < v.votingPower.toInt) ∧
      (present.map Validator.address).Nodup ∧
      (∀ v ∈ present, v.address ∉ seen) ∧
      totalPower = (present.map Validator.votingPower).foldl (· + ·) start := by
  induction validators generalizing i seen start with
  | nil =>
    simp only [checkValidators, Except.ok.injEq] at accepted
    subst accepted
    exact ⟨[], by simp⟩
  | cons entry rest ih =>
    cases entry with
    | none => simp [checkValidators] at accepted
    | some v =>
      simp only [checkValidators] at accepted
      by_cases nonpositive : v.votingPower ≤ 0
      · simp [nonpositive] at accepted
      by_cases duplicate : v.address ∈ seen
      · simp [nonpositive, duplicate] at accepted
      rw [if_neg nonpositive, if_neg duplicate] at accepted
      obtain ⟨present, rfl, positive, nodup, fresh, total⟩ := ih accepted
      have headPositive : 0 < v.votingPower.toInt := by
        have := Int64.lt_iff_toInt_lt.mp (Int64.not_le.mp nonpositive)
        simpa using this
      have headFresh : v.address ∉ present.map Validator.address := by
        intro member
        obtain ⟨other, otherMem, equal⟩ := mem_map.mp member
        exact fresh other otherMem (by simp [equal])
      refine ⟨v :: present, by simp, ?_, ?_, ?_, by simpa using total⟩
      · simpa using ⟨headPositive, positive⟩
      · simpa using ⟨by simpa using headFresh, nodup⟩
      · simp only [mem_cons, forall_eq_or_imp]
        exact ⟨duplicate, fun other member inSeen =>
          fresh other member (mem_cons_of_mem _ inSeen)⟩

theorem newSimpleValidatorSet_ok {validators : List (Option Validator)}
    {epoch : UInt64} {vs : SimpleValidatorSet}
    (built : newSimpleValidatorSet validators epoch = .ok vs) :
    ∃ present : List Validator, validators = present.map some ∧
      (∀ v ∈ present, 0 < v.votingPower.toInt) ∧
      (present.map Validator.address).Nodup ∧
      vs.validators = present.mapIdx (fun i v => { v with index := UInt16.ofNat i }) ∧
      vs.totalPower = (present.map Validator.votingPower).foldl (· + ·) 0 ∧
      vs.epoch = epoch := by
  unfold newSimpleValidatorSet at built
  split at built
  next empty =>
    cases built
    exact ⟨[], by simpa using length_eq_zero_iff.mp empty, by simp⟩
  next nonempty =>
    cases checked : checkValidators 0 [] 0 validators with
    | error failure => simp [checked, bind, Except.bind] at built
    | ok totalPower =>
      simp only [checked, bind, Except.bind, pure, Except.pure, Except.ok.injEq] at built
      obtain ⟨present, rfl, positive, nodup, -, total⟩ := checkValidators_ok checked
      subst built
      refine ⟨present, rfl, positive, nodup, ?_, total, rfl⟩
      change ((present.map some).filterMap id).mapIdx _ = _
      rw [filterMap_map, Function.id_comp, filterMap_some]

namespace SimpleValidatorSet

variable {vs : SimpleValidatorSet}

theorem powerSum_eq_of_mapIdx {present : List Validator} (validators_eq : vs.validators =
      present.mapIdx (fun i v => { v with index := UInt16.ofNat i })) :
    vs.powerSum = exactSum (present.map Validator.votingPower) := by
  have powers : vs.validators.map Validator.votingPower = present.map Validator.votingPower := by
    rw [validators_eq]
    apply ext_getElem <;> simp
  rw [powerSum, powers]

theorem exact_of_new {validators : List (Option Validator)} {epoch : UInt64}
    (built : newSimpleValidatorSet validators epoch = .ok vs)
    (bounded : vs.powerSum ≤ 2 ^ 63 - 1) : vs.Exact := by
  obtain ⟨present, -, positive, -, validators_eq, total, -⟩ :=
    newSimpleValidatorSet_ok built
  have sumEq := powerSum_eq_of_mapIdx validators_eq
  constructor
  · intro v member
    rw [validators_eq, mem_mapIdx] at member
    obtain ⟨i, inBounds, rfl⟩ := member
    exact positive present[i] (getElem_mem inBounds)
  · have nonneg : 0 ≤ exactSum (present.map Validator.votingPower) := by
      apply exactSum_nonneg
      intro word member
      obtain ⟨v, inPresent, rfl⟩ := mem_map.mp member
      exact (positive v inPresent).le
    rw [total, toInt_foldl_add, sumEq]
    simp only [Int64.toInt_zero, zero_add]
    exact wrap_of_inRange ⟨by omega, by omega⟩

theorem power_members : power vs.powerAt vs.members = vs.powerSum := by
  simp only [power, members, powerAt, powerSum, exactSum]
  induction vs.validators with
  | nil => simp
  | cons v rest ih =>
    rw [length_cons, Finset.sum_range_succ', map_cons, map_cons, sum_cons, ← ih, add_comm]
    simp

theorem powerAt_nonneg (exact : vs.Exact) (position : Nat) : 0 ≤ vs.powerAt position := by
  unfold powerAt
  cases found : vs.validators[position]? with
  | none => simp
  | some v => simpa using (exact.positive v (mem_of_getElem? found)).le

theorem powerSum_nonneg (exact : vs.Exact) : 0 ≤ vs.powerSum := by
  rw [← power_members]
  exact power_nonneg fun position _ => powerAt_nonneg exact position

theorem powerSum_pos (exact : vs.Exact) (nonempty : vs.validators ≠ []) : 0 < vs.powerSum := by
  obtain ⟨v, rest, cons⟩ := exists_cons_of_ne_nil nonempty
  have headPositive : 0 < v.votingPower.toInt := exact.positive v (by simp [cons])
  have restNonneg : 0 ≤ exactSum (rest.map Validator.votingPower) := by
    apply exactSum_nonneg
    intro word member
    obtain ⟨other, inRest, rfl⟩ := mem_map.mp member
    exact (exact.positive other (by simp [cons, inRest])).le
  simp only [powerSum, cons, map_cons, exactSum_cons]
  omega

end SimpleValidatorSet

end Blockberry.Consensus
