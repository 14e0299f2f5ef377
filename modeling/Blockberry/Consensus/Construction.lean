import Blockberry.Consensus.Validators

/-!
# Constructing a validator set

`NewSimpleValidatorSet` adds the powers up in an `int64` and numbers the validators with `uint16`
indices, without a check. The set is right exactly for lists whose powers fit in an `int64` and
which have no more validators than there are indices.
-/

namespace Blockberry.Consensus

open Machine Validator List Validator UInt16 Option List

namespace SimpleValidatorSet

/-- The set reports the total of the powers and finds its validators by index. -/
structure Faithful (vs : SimpleValidatorSet) (validators : List Validator) : Prop where
  total_eq : vs.totalVotingPower.toInt = exactSum (validators.map votingPower)
  total_pos : validators ≠ [] → 0 < vs.totalVotingPower
  distinct : (vs.validators.map address).Nodup
  indexed : ∀ v ∈ vs.validators, ∃ found, vs.getByIndex v.index = some found ∧
    found.address = v.address ∧ found.publicKey = v.publicKey ∧
    found.votingPower = v.votingPower

/-- The set as the constructor makes it from validators that it accepts. -/
structure Built (vs : SimpleValidatorSet) (validators : List Validator) : Prop where
  positive : ∀ v ∈ validators, 0 < v.votingPower.toInt
  distinct : (validators.map address).Nodup
  validators_eq : vs.validators =
    validators.mapIdx fun i v => { v with index := UInt16.ofNat i }
  total_eq : vs.totalPower = (validators.map votingPower).foldl (· + ·) 0

variable {vs : SimpleValidatorSet} {validators : List Validator}

theorem built_of_new {epoch : UInt64}
    (ok : newSimpleValidatorSet (validators.map some) epoch = .ok vs) : vs.Built validators := by
  obtain ⟨present, same, positive, distinct, validators_eq, total_eq, -⟩ :=
    newSimpleValidatorSet_ok ok
  cases map_injective_iff.mpr (some_injective Validator) same
  exact ⟨positive, distinct, validators_eq, total_eq⟩

theorem checkValidators_of_distinct {i : Nat} {seen : List Bytes} {start : Int64}
    (positive : ∀ v ∈ validators, 0 < v.votingPower.toInt)
    (distinct : (validators.map address).Nodup) (fresh : ∀ v ∈ validators, v.address ∉ seen) :
    ∃ total, checkValidators i seen start (validators.map some) = .ok total := by
  induction validators generalizing i seen start with
  | nil => exact ⟨start, rfl⟩
  | cons v rest ih =>
    rw [forall_mem_cons] at positive fresh
    rw [map_cons, nodup_cons] at distinct
    have accepted : ¬v.votingPower ≤ 0 := by
      rw [Int64.le_iff_toInt_le, Int64.toInt_zero]
      exact not_le.mpr positive.1
    rw [map_cons, checkValidators, if_neg accepted, if_neg fresh.1]
    apply ih positive.2 distinct.2
    intro w inRest
    rw [mem_cons, not_or]
    exact ⟨fun same => distinct.1 (same ▸ mem_map_of_mem inRest), fresh.2 w inRest⟩

/-- The constructor accepts validators of positive powers with distinct addresses. -/
theorem exists_new_of_distinct (positive : ∀ v ∈ validators, 0 < v.votingPower.toInt)
    (distinct : (validators.map address).Nodup) (epoch : UInt64) :
    ∃ vs, newSimpleValidatorSet (validators.map some) epoch = .ok vs := by
  obtain ⟨total, checked⟩ := @checkValidators_of_distinct validators 0 [] 0 positive distinct
    fun _ _ => not_mem_nil
  rw [newSimpleValidatorSet]
  split
  next => exact ⟨_, rfl⟩
  next =>
    rw [checked]
    exact ⟨_, rfl⟩

theorem getByIndex_ofNat (vs : SimpleValidatorSet) {i : Nat} (small : i < 2 ^ 16) :
    vs.getByIndex (UInt16.ofNat i) = vs.validators[i]? := by
  rw [getByIndex, toNat_ofNat', Nat.mod_eq_of_lt small]

namespace Built

variable (built : vs.Built validators)

include built

theorem getElem? (i : Nat) :
    vs.validators[i]? = validators[i]?.map fun v => { v with index := UInt16.ofNat i } := by
  rw [built.validators_eq, getElem?_mapIdx]

theorem addresses_eq : vs.validators.map address = validators.map address := by
  rw [built.validators_eq]
  apply ext_getElem <;> simp

theorem exactSum_nonneg : 0 ≤ exactSum (validators.map votingPower) := by
  apply Machine.exactSum_nonneg
  intro power member
  obtain ⟨v, inList, rfl⟩ := mem_map.mp member
  exact (built.positive v inList).le

/-- The reported total is the sum of the powers exactly if the sum is an `int64`. -/
theorem total_eq_iff : vs.totalVotingPower.toInt = exactSum (validators.map votingPower) ↔
      exactSum (validators.map votingPower) ≤ 2 ^ 63 - 1 := by
  have nonneg := built.exactSum_nonneg
  constructor
  · intro same
    rw [← same]
    exact Int.le_sub_one_of_lt vs.totalVotingPower.toInt_lt
  · intro bounded
    rw [totalVotingPower, built.total_eq, toInt_foldl_add, Int64.toInt_zero, zero_add]
    exact wrap_of_inRange ⟨by omega, by omega⟩

theorem exactSum_pos (nonempty : validators ≠ []) : 0 < exactSum (validators.map votingPower) := by
  cases validators with
  | nil => contradiction
  | cons v rest =>
    have head := built.positive v mem_cons_self
    have tail : 0 ≤ exactSum (rest.map votingPower) := by
      apply Machine.exactSum_nonneg
      intro power member
      obtain ⟨w, inRest, rfl⟩ := mem_map.mp member
      exact (built.positive w (mem_cons_of_mem v inRest)).le
    rw [map_cons, exactSum_cons]
    exact Int.add_pos_of_pos_of_nonneg head tail

theorem length_le_of_indexed
    (indexed : ∀ v ∈ vs.validators, ∃ found, vs.getByIndex v.index = some found ∧
      found.address = v.address) : validators.length ≤ 2 ^ 16 := by
  by_contra tooMany
  have inside : 2 ^ 16 < validators.length := Nat.not_le.mp tooMany
  have first : 0 < validators.length := (Nat.two_pow_pos 16).trans inside
  have last := built.getElem? (2 ^ 16)
  rw [getElem?_eq_getElem inside, map_some] at last
  obtain ⟨found, isFound, sameAddress⟩ := indexed _ (mem_of_getElem? last)
  have atZero : vs.getByIndex (UInt16.ofNat (2 ^ 16)) = vs.validators[0]? := rfl
  rw [atZero, built.getElem? 0, getElem?_eq_getElem first, map_some] at isFound
  cases isFound
  have distinct := nodup_iff_injective_getElem.mp built.distinct
  have positions : (⟨0, by simpa using first⟩ : Fin (validators.map address).length) =
      ⟨2 ^ 16, by simpa using inside⟩ := by
    apply distinct
    simpa using sameAddress
  cases positions

theorem indexed_of_length_le (few : validators.length ≤ 2 ^ 16) :
    ∀ v ∈ vs.validators, vs.getByIndex v.index = some v := by
  intro v member
  obtain ⟨i, inside, isV⟩ := getElem_of_mem member
  have found := getElem?_eq_getElem inside
  have insideList : i < validators.length := by
    rwa [built.validators_eq, length_mapIdx] at inside
  have index : v.index = UInt16.ofNat i := by
    rw [built.getElem? i, getElem?_eq_getElem insideList, map_some] at found
    rw [← isV, ← some.inj found]
  rw [index, vs.getByIndex_ofNat (insideList.trans_le few), getElem?_eq_getElem inside, isV]

end Built

/-- A set that the constructor accepts reports the exact total and finds every validator under its
index exactly when the powers sum to an `int64` and there are at most 65536 validators. -/
theorem newSimpleValidatorSet_faithful_iff (validators : List Validator) (epoch : UInt64)
    (vs : SimpleValidatorSet)
    (ok : newSimpleValidatorSet (validators.map some) epoch = .ok vs) :
    vs.Faithful validators ↔
      exactSum (validators.map Validator.votingPower) ≤ 2 ^ 63 - 1 ∧
        validators.length ≤ 2 ^ 16 := by
  have built := built_of_new ok
  constructor
  · intro faithful
    refine ⟨built.total_eq_iff.mp faithful.total_eq, built.length_le_of_indexed ?_⟩
    intro v member
    obtain ⟨found, isFound, sameAddress, -⟩ := faithful.indexed v member
    exact ⟨found, isFound, sameAddress⟩
  · intro bounds
    have total := built.total_eq_iff.mpr bounds.1
    constructor
    · exact total
    · intro nonempty
      rw [Int64.lt_iff_toInt_lt, total, Int64.toInt_zero]
      exact built.exactSum_pos nonempty
    · rw [built.addresses_eq]
      exact built.distinct
    · intro v member
      exact ⟨v, built.indexed_of_length_le bounds.2 v member, rfl, rfl, rfl⟩

/-- Two validators of powers two and three. -/
theorem newSimpleValidatorSet_faithful_two :
    ∃ vs, newSimpleValidatorSet
        ([⟨0, [1], [], 2, 0⟩, ⟨0, [2], [], 3, 0⟩].map some) 0 = .ok vs ∧
      vs.Faithful [⟨0, [1], [], 2, 0⟩, ⟨0, [2], [], 3, 0⟩] :=
  ⟨_, rfl, (newSimpleValidatorSet_faithful_iff _ 0 _ rfl).mpr (by decide)⟩

/-- Two validators of power 2^62: the constructor accepts them and reports a negative total. -/
theorem total_overflows :
    ∃ vs, newSimpleValidatorSet
        ([⟨0, [1], [], 4611686018427387904, 0⟩, ⟨0, [2], [], 4611686018427387904, 0⟩].map some)
        0 = .ok vs ∧
      vs.totalVotingPower < 0 ∧
      ¬vs.Faithful
        [⟨0, [1], [], 4611686018427387904, 0⟩, ⟨0, [2], [], 4611686018427387904, 0⟩] := by
  refine ⟨_, rfl, by decide, ?_⟩
  intro faithful
  have positive := faithful.total_pos (cons_ne_nil _ _)
  revert positive
  decide

end SimpleValidatorSet

end Blockberry.Consensus
