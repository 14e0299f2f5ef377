import Blockberry.Lib.FiniteMap
import Blockberry.Lib.Run
import Blockberry.Consensus.Quorum

/-!
# Vote sets of a round

A `RoundVoteSet` keeps one vote slot for each validator and a map from block hash to accumulated
power. The invariant that ties the map to the slots gives the uniqueness of a two-thirds majority,
its persistence, and its independence of the iteration order.
-/

namespace Blockberry.Consensus

open Machine FiniteMap SimpleValidatorSet WeightedGroup Finset

/-- A `VoteType`, an unrestricted Go `int`. -/
abbrev VoteType := Int

/-- A consensus vote; an empty hash is a nil vote. -/
structure Vote where
  type : VoteType
  height : Int64
  round : Int32
  blockHash : Bytes
  validatorIndex : UInt16
  signature : Bytes
  deriving DecidableEq, Repr

structure RoundVoteSet where
  round : Int32
  validatorSet : Option SimpleValidatorSet
  voteType : VoteType
  votes : List (Option Vote)
  voteCounts : Finmap fun _ : Bytes => Int64

def newRoundVoteSet (round : Int32) (valSet : Option SimpleValidatorSet)
    (voteType : VoteType) : RoundVoteSet where
  round
  validatorSet := valSet
  voteType
  votes := List.replicate ((valSet.map (·.count)).getD 0) none
  voteCounts := ∅

namespace RoundVoteSet

variable (rvs : RoundVoteSet)

/-- `voteCounts[hash]`, zero for an absent hash. -/
def voteCount (hash : Bytes) : Int64 :=
  valueOr 0 rvs.voteCounts hash

/-- `AddVote`: the vote set afterwards and whether the vote was added. -/
def addVote (vote : Vote) : RoundVoteSet × Bool :=
  if vote.type ≠ rvs.voteType ∨ vote.round ≠ rvs.round then
    (rvs, false)
  else
    match rvs.votes[vote.validatorIndex.toNat]? with
    | none => (rvs, false)
    | some (some _) => (rvs, false)
    | some none =>
      let votingPower :=
        match rvs.validatorSet with
        | none => 0
        | some validatorSet =>
          match validatorSet.getByIndex vote.validatorIndex with
          | none => 0
          | some v => v.votingPower
      ({ rvs with
          votes := rvs.votes.set vote.validatorIndex.toNat (some vote)
          voteCounts := rvs.voteCounts.insert vote.blockHash
            (rvs.voteCount vote.blockHash + votingPower) }, true)

/-- `HasTwoThirdsMajority`, with the iteration order of the map made explicit. -/
def hasTwoThirdsMajority (order : List Bytes) : Bool × Option Bytes :=
  match rvs.validatorSet with
  | none => (false, none)
  | some validatorSet =>
    match order.find? fun hash => validatorSet.quorum ≤ rvs.voteCount hash with
    | none => (false, none)
    | some hash => (true, some hash)

/-- `TotalVotingPower`, with the iteration order of the map made explicit. -/
def totalVotingPower (order : List Bytes) : Int64 :=
  (order.map rvs.voteCount).foldl (· + ·) 0

/-! ## The ledger invariant -/

def votedHash (position : Nat) : Option Bytes :=
  (rvs.votes[position]?.join).map Vote.blockHash

def votersFor (hash : Bytes) : Finset Nat :=
  (Finset.range rvs.votes.length).filter fun position =>
    rvs.votedHash position = some hash

def voters : Finset Nat :=
  (Finset.range rvs.votes.length).filter fun position =>
    (rvs.votedHash position).isSome

/-- The count of every hash is the exact power behind it, and the map has a key
for exactly the hashes that were voted for. -/
structure Ledger (vs : SimpleValidatorSet) (rvs : RoundVoteSet) : Prop where
  validatorSet_eq : rvs.validatorSet = some vs
  length_eq : rvs.votes.length = vs.validators.length
  count_eq : ∀ hash, (rvs.voteCount hash).toInt =
    WeightedGroup.power vs.powerAt (rvs.votersFor hash)
  key_of_vote : ∀ position hash, rvs.votedHash position = some hash →
    hash ∈ rvs.voteCounts

variable {vs : SimpleValidatorSet} {rvs : RoundVoteSet}

/-- Everything `AddVote` can do: leave the set alone, or fill an empty slot and
add the validator's power to the hash. -/
theorem addVote_cases (ledger : Ledger vs rvs) (vote : Vote) : rvs.addVote vote = (rvs, false) ∨
      ∃ v, vs.validators[vote.validatorIndex.toNat]? = some v ∧
        rvs.votes[vote.validatorIndex.toNat]? = some none ∧
        rvs.addVote vote = ({ rvs with
              votes := rvs.votes.set vote.validatorIndex.toNat (some vote)
              voteCounts := rvs.voteCounts.insert vote.blockHash
                (rvs.voteCount vote.blockHash + v.votingPower) }, true) := by
  simp only [addVote, ledger.validatorSet_eq, getByIndex]
  by_cases foreign : vote.type ≠ rvs.voteType ∨ vote.round ≠ rvs.round
  · exact Or.inl (if_pos foreign)
  · simp only [if_neg foreign]
    cases slot : rvs.votes[vote.validatorIndex.toNat]? with
    | none => exact Or.inl rfl
    | some stored =>
      cases stored with
      | some earlier => exact Or.inl rfl
      | none =>
        have inBounds := (List.getElem?_eq_some_iff.mp slot).1
        rw [ledger.length_eq] at inBounds
        refine Or.inr ⟨vs.validators[vote.validatorIndex.toNat],
          List.getElem?_eq_getElem inBounds, rfl, ?_⟩
        simp only [List.getElem?_eq_getElem inBounds]

theorem ledger_new (vs : SimpleValidatorSet) (round : Int32) (voteType : VoteType) :
    Ledger vs (newRoundVoteSet round (some vs) voteType) := by
  have unvoted : ∀ position,
      (newRoundVoteSet round (some vs) voteType).votedHash position = none := by
    intro position
    simp only [newRoundVoteSet, votedHash, List.getElem?_replicate]
    split <;> rfl
  refine ⟨rfl, ?_, ?_, ?_⟩
  · simp [newRoundVoteSet, count]
  · intro hash
    have nobody : (newRoundVoteSet round (some vs) voteType).votersFor hash = ∅ := by
      simp [votersFor, unvoted]
    rw [nobody]
    simp [voteCount, newRoundVoteSet, power]
  · intro position hash voted
    simp [unvoted] at voted

theorem votedHash_set {rvs : RoundVoteSet} {vote : Vote} {counts : Finmap fun _ : Bytes => Int64}
    (empty : rvs.votes[vote.validatorIndex.toNat]? = some none) (position : Nat) :
    votedHash { rvs with
        votes := rvs.votes.set vote.validatorIndex.toNat (some vote)
        voteCounts := counts } position =
      if position = vote.validatorIndex.toNat then some vote.blockHash
      else rvs.votedHash position := by
  have inBounds := (List.getElem?_eq_some_iff.mp empty).1
  simp only [votedHash, List.getElem?_set]
  by_cases same : vote.validatorIndex.toNat = position
  · subst same
    simp [inBounds]
  · simp [same, Ne.symm same]

/-- Filling an empty slot adds it to the voters for the hash of the vote and to
no other group. -/
theorem votersFor_set {rvs : RoundVoteSet} {vote : Vote} {counts : Finmap fun _ : Bytes => Int64}
    (empty : rvs.votes[vote.validatorIndex.toNat]? = some none) (hash : Bytes) :
    votersFor { rvs with
        votes := rvs.votes.set vote.validatorIndex.toNat (some vote)
        voteCounts := counts } hash =
      if hash = vote.blockHash then
        insert vote.validatorIndex.toNat (rvs.votersFor hash)
      else rvs.votersFor hash := by
  have inBounds := (List.getElem?_eq_some_iff.mp empty).1
  have unvoted : rvs.votedHash vote.validatorIndex.toNat = none := by
    simp [votedHash, empty]
  ext position
  simp only [votersFor, mem_filter, mem_range, List.length_set, votedHash_set empty]
  by_cases slot : position = vote.validatorIndex.toNat
  · subst slot
    by_cases sameHash : hash = vote.blockHash
    · simp [sameHash, inBounds]
    · simp [sameHash, Ne.symm sameHash, unvoted]
  · by_cases sameHash : hash = vote.blockHash
    · simp [sameHash, slot]
    · simp [sameHash, slot]

theorem votersFor_subset_members (ledger : Ledger vs rvs) (hash : Bytes) :
    rvs.votersFor hash ⊆ vs.members := by
  intro position voting
  simp only [votersFor, mem_filter, ledger.length_eq] at voting
  exact voting.1

/-- One vote keeps the ledger: the addition to the count is exact because the
group still weighs at most the whole set. -/
theorem ledger_addVote (exact : vs.Exact) (ledger : Ledger vs rvs) (vote : Vote) :
    Ledger vs (rvs.addVote vote).1 := by
  rcases addVote_cases ledger vote with unchanged | ⟨v, found, empty, added⟩
  · rw [unchanged]
    exact ledger
  rw [added]
  have powerEq : vs.powerAt vote.validatorIndex.toNat = v.votingPower.toInt := by
    simp [powerAt, found]
  have fresh : vote.validatorIndex.toNat ∉ rvs.votersFor vote.blockHash := by
    simp [votersFor, votedHash, empty]
  have joined : power vs.powerAt (insert vote.validatorIndex.toNat (rvs.votersFor vote.blockHash)) =
      v.votingPower.toInt + (rvs.voteCount vote.blockHash).toInt := by
    rw [power_insert fresh, powerEq, ledger.count_eq]
  refine ⟨ledger.validatorSet_eq, by simpa using ledger.length_eq, ?_, ?_⟩
  · intro hash
    rw [votersFor_set empty]
    simp only [voteCount, valueOr_insert]
    split
    next same =>
      subst same
      have inMembers : insert vote.validatorIndex.toNat
          (rvs.votersFor vote.blockHash) ⊆ vs.members := by
        apply insert_subset _ (votersFor_subset_members ledger _)
        simpa [members] using (List.getElem?_eq_some_iff.mp found).1
      have bounded := power_mono (fun position _ => powerAt_nonneg exact position) inMembers
      have nonneg := @WeightedGroup.power_nonneg _ vs.powerAt (rvs.votersFor vote.blockHash)
        fun position _ => powerAt_nonneg exact position
      have headPositive := exact.positive v (List.mem_of_getElem? found)
      have representable := vs.totalPower.toInt_lt
      rw [power_members, ← exact.total_eq, joined] at bounded
      rw [← ledger.count_eq] at nonneg
      rw [joined]
      change (rvs.voteCount vote.blockHash + v.votingPower).toInt = _
      rw [toInt_add_of_inRange ⟨by omega, by omega⟩, add_comm]
    next different => exact ledger.count_eq hash
  · intro position hash voted
    rw [votedHash_set empty] at voted
    rw [Finmap.mem_insert]
    split at voted
    next => exact Or.inl (Option.some.inj voted).symm
    next => exact Or.inr (ledger.key_of_vote position hash voted)

theorem votersFor_subset_addVote (ledger : Ledger vs rvs) (vote : Vote)
    (hash : Bytes) : rvs.votersFor hash ⊆ (rvs.addVote vote).1.votersFor hash := by
  rcases addVote_cases ledger vote with unchanged | ⟨v, -, empty, added⟩
  · rw [unchanged]
  · rw [added, votersFor_set empty]
    split
    next => exact subset_insert _ _
    next => exact Finset.Subset.refl _

theorem votersFor_disjoint {left right : Bytes} (different : left ≠ right) :
    Disjoint (rvs.votersFor left) (rvs.votersFor right) := by
  rw [disjoint_left]
  intro position votesLeft votesRight
  simp only [votersFor, mem_filter] at votesLeft votesRight
  exact different (Option.some.inj (votesLeft.2.symm.trans votesRight.2))

/-! ## Totals and majorities -/

variable {order : List Bytes}

theorem exactSum_voteCounts (ledger : Ledger vs rvs)
    (enumerates : Enumerates order rvs.voteCounts) :
    exactSum (order.map rvs.voteCount) = power vs.powerAt rvs.voters := by
  have fibre : ∀ hash, rvs.votersFor hash =
      rvs.voters.filter fun position => (rvs.votedHash position).getD [] = hash ∧
        (rvs.votedHash position).isSome := by
    intro hash
    ext position
    simp only [votersFor, voters, mem_filter, mem_range]
    cases rvs.votedHash position <;> simp
  have fibre' : ∀ hash, rvs.votersFor hash =
      rvs.voters.filter fun position => (rvs.votedHash position).getD [] = hash := by
    intro hash
    rw [fibre hash]
    apply filter_congr
    intro position voting
    simp only [voters, mem_filter] at voting
    simp [voting.2]
  have mapsTo : ∀ position ∈ rvs.voters, (rvs.votedHash position).getD [] ∈ order.toFinset := by
    intro position voting
    simp only [voters, mem_filter] at voting
    obtain ⟨hash, voted⟩ := Option.isSome_iff_exists.mp voting.2
    rw [voted, List.mem_toFinset, enumerates.mem_iff]
    exact ledger.key_of_vote position hash voted
  calc exactSum (order.map rvs.voteCount)
      = (order.map fun hash =>
          power vs.powerAt (rvs.votersFor hash)).sum := by
        simp [exactSum, Function.comp_def, ledger.count_eq]
    _ = ∑ hash ∈ order.toFinset, power vs.powerAt (rvs.votersFor hash) :=
        (List.sum_toFinset _ enumerates.nodup).symm
    _ = power vs.powerAt rvs.voters := by
        simp only [power, fibre']
        exact sum_fiberwise_of_maps_to mapsTo vs.powerAt

theorem toInt_totalVotingPower_le (exact : vs.Exact) (ledger : Ledger vs rvs)
    (enumerates : Enumerates order rvs.voteCounts) :
    (rvs.totalVotingPower order).toInt ≤ vs.totalVotingPower.toInt := by
  have nonneg : ∀ group : Finset Nat, ∀ position ∈ group, 0 ≤ vs.powerAt position :=
    fun _ position _ => powerAt_nonneg exact position
  have inMembers : rvs.voters ⊆ vs.members := by
    intro position voting
    simp only [voters, mem_filter, ledger.length_eq] at voting
    exact voting.1
  have bounded := power_mono (nonneg _) inMembers
  have votersNonneg := power_nonneg (nonneg rvs.voters)
  have representable := vs.totalPower.toInt_lt
  rw [power_members, ← exact.total_eq] at bounded
  rw [totalVotingPower, toInt_foldl_add, exactSum_voteCounts ledger enumerates,
    Int64.toInt_zero, zero_add, wrap_of_inRange ⟨by omega, by omega⟩]
  exact bounded

/-- Two hashes with a quorum, counted at any two moments that one ledger bounds,
are the same hash. -/
theorem quorum_unique (exact : vs.Exact) (nonempty : vs.validators ≠ [])
    (ledger : Ledger vs rvs) {left right : Bytes}
    (leftQuorum : vs.quorum ≤ rvs.voteCount left)
    (rightQuorum : vs.quorum ≤ rvs.voteCount right) : left = right := by
  by_contra different
  rw [Int64.le_iff_toInt_le, ledger.count_eq] at leftQuorum rightQuorum
  have majority : power vs.powerAt vs.members < 2 * vs.quorum.toInt := by
    rw [power_members, toInt_quorum_of_exact exact]
    exact lt_two_mul_threshold (powerSum_pos exact nonempty)
  exact not_disjoint_of_majorities (fun position _ => powerAt_nonneg exact position)
    (votersFor_subset_members ledger left) (votersFor_subset_members ledger right)
    majority leftQuorum rightQuorum (votersFor_disjoint different)

theorem mem_voteCounts_of_quorum (exact : vs.Exact) (ledger : Ledger vs rvs)
    {hash : Bytes} (quorum : vs.quorum ≤ rvs.voteCount hash) :
    hash ∈ rvs.voteCounts := by
  rw [Int64.le_iff_toInt_le, ledger.count_eq] at quorum
  have positive := threshold_pos (powerSum_nonneg exact)
  rw [← toInt_quorum_of_exact exact] at positive
  have nonempty : (rvs.votersFor hash).Nonempty := by
    rw [nonempty_iff_ne_empty]
    intro empty
    rw [empty] at quorum
    simp only [power, sum_empty] at quorum
    omega
  obtain ⟨position, voting⟩ := nonempty
  simp only [votersFor, mem_filter] at voting
  exact ledger.key_of_vote position hash voting.2

theorem hasTwoThirdsMajority_eq_iff (exact : vs.Exact) (nonempty : vs.validators ≠ [])
    (ledger : Ledger vs rvs)
    (enumerates : Enumerates order rvs.voteCounts) (hash : Bytes) :
    rvs.hasTwoThirdsMajority order = (true, some hash) ↔ vs.quorum ≤ rvs.voteCount hash := by
  simp only [hasTwoThirdsMajority, ledger.validatorSet_eq]
  cases found : order.find? fun other => vs.quorum ≤ rvs.voteCount other with
  | none =>
    simp only [Prod.mk.injEq, Bool.false_eq_true, reduceCtorEq, and_self, false_iff]
    intro quorum
    have key := mem_voteCounts_of_quorum exact ledger quorum
    have missed := List.find?_eq_none.mp found hash ((enumerates.mem_iff hash).mpr key)
    exact missed (by simpa using quorum)
  | some other =>
    have otherQuorum : vs.quorum ≤ rvs.voteCount other := by
      simpa using List.find?_some found
    simp only [Prod.mk.injEq, Option.some.injEq, true_and]
    constructor
    · intro same
      rw [← same]
      exact otherQuorum
    · intro quorum
      exact quorum_unique exact nonempty ledger otherQuorum quorum

theorem hasTwoThirdsMajority_none_or (rvs : RoundVoteSet) (order : List Bytes) :
    rvs.hasTwoThirdsMajority order = (false, none) ∨
      ∃ hash, rvs.hasTwoThirdsMajority order = (true, some hash) := by
  simp only [hasTwoThirdsMajority]
  split
  next => exact Or.inl rfl
  next =>
    split
    next => exact Or.inl rfl
    next hash _ => exact Or.inr ⟨hash, rfl⟩

theorem hasTwoThirdsMajority_order (exact : vs.Exact) (nonempty : vs.validators ≠ [])
    (ledger : Ledger vs rvs) {left right : List Bytes}
    (leftEnumerates : Enumerates left rvs.voteCounts)
    (rightEnumerates : Enumerates right rvs.voteCounts) :
    rvs.hasTwoThirdsMajority left = rvs.hasTwoThirdsMajority right := by
  have agree : ∀ hash, rvs.hasTwoThirdsMajority left = (true, some hash) ↔
      rvs.hasTwoThirdsMajority right = (true, some hash) := fun hash =>
    (hasTwoThirdsMajority_eq_iff exact nonempty ledger leftEnumerates hash).trans
      (hasTwoThirdsMajority_eq_iff exact nonempty ledger rightEnumerates hash).symm
  rcases hasTwoThirdsMajority_none_or rvs left with leftNone | ⟨hash, leftSome⟩
  · rcases hasTwoThirdsMajority_none_or rvs right with rightNone | ⟨hash, rightSome⟩
    · rw [leftNone, rightNone]
    · rw [rightSome, (agree hash).mpr rightSome]
  · rw [leftSome, (agree hash).mp leftSome]

/-! ## Runs of votes -/

/-- The vote set after a sequence of `AddVote` calls. -/
def addVotes (rvs : RoundVoteSet) (votes : List Vote) : RoundVoteSet :=
  Run.after (fun state vote => (state.addVote vote).1) rvs votes

theorem ledger_addVotes (exact : vs.Exact) (ledger : Ledger vs rvs)
    (votes : List Vote) : Ledger vs (rvs.addVotes votes) :=
  Run.invariant_after votes ledger fun _ vote held => ledger_addVote exact held vote

theorem voteCount_le_addVotes (exact : vs.Exact) (ledger : Ledger vs rvs)
    (votes : List Vote) (hash : Bytes) :
    rvs.voteCount hash ≤ (rvs.addVotes votes).voteCount hash := by
  let grown (state : RoundVoteSet) : Prop :=
    Ledger vs state ∧ rvs.votersFor hash ⊆ state.votersFor hash
  have preserved : ∀ state vote, grown state → grown (state.addVote vote).1 :=
    fun _ vote held => ⟨ledger_addVote exact held.1 vote,
      held.2.trans (votersFor_subset_addVote held.1 vote hash)⟩
  have grows : grown (rvs.addVotes votes) :=
    Run.invariant_after votes ⟨ledger, Finset.Subset.refl _⟩ preserved
  rw [Int64.le_iff_toInt_le, ledger.count_eq, grows.1.count_eq]
  exact power_mono (fun position _ => powerAt_nonneg exact position) grows.2

end RoundVoteSet

open RoundVoteSet in
/-- Over every sequence of votes the counts are the exact powers of disjoint groups of voters, the
votes weigh at most the whole set, at most one hash ever reaches the quorum, and a majority is
reported the same in every iteration order and for ever after. -/
theorem roundVoteSet_safe {validators : List (Option Validator)} {epoch : UInt64}
    {vs : SimpleValidatorSet} (built : newSimpleValidatorSet validators epoch = .ok vs)
    (nonempty : vs.validators ≠ []) (bounded : vs.powerSum ≤ 2 ^ 63 - 1)
    (round : Int32) (voteType : VoteType) (votes : List Vote) :
    let rvs := (newRoundVoteSet round (some vs) voteType).addVotes votes
    (∀ hash, (rvs.voteCount hash).toInt =
        power vs.powerAt (rvs.votersFor hash)) ∧
      (∀ left right, left ≠ right →
        Disjoint (rvs.votersFor left) (rvs.votersFor right)) ∧
      (∀ order, Enumerates order rvs.voteCounts →
        (rvs.totalVotingPower order).toInt ≤ vs.totalVotingPower.toInt) ∧
      (∀ later left right, vs.quorum ≤ rvs.voteCount left →
        vs.quorum ≤ (rvs.addVotes later).voteCount right → left = right) ∧
      (∀ left right, Enumerates left rvs.voteCounts →
        Enumerates right rvs.voteCounts →
        rvs.hasTwoThirdsMajority left = rvs.hasTwoThirdsMajority right) ∧
      (∀ order hash later laterOrder, Enumerates order rvs.voteCounts →
        Enumerates laterOrder (rvs.addVotes later).voteCounts →
        rvs.hasTwoThirdsMajority order = (true, some hash) →
        (rvs.addVotes later).hasTwoThirdsMajority laterOrder = (true, some hash)) := by
  intro rvs
  have exact := exact_of_new built bounded
  have ledger : Ledger vs rvs := ledger_addVotes exact (ledger_new vs round voteType) votes
  refine ⟨ledger.count_eq, fun left right => votersFor_disjoint, ?_, ?_, ?_, ?_⟩
  · intro order enumerates
    exact toInt_totalVotingPower_le exact ledger enumerates
  · intro later left right leftQuorum rightQuorum
    have grown := voteCount_le_addVotes exact ledger later left
    exact quorum_unique exact nonempty (ledger_addVotes exact ledger later)
      (Int64.le_trans leftQuorum grown) rightQuorum
  · intro left right leftEnumerates rightEnumerates
    exact hasTwoThirdsMajority_order exact nonempty ledger leftEnumerates rightEnumerates
  · intro order hash later laterOrder enumerates laterEnumerates reported
    have quorum := (hasTwoThirdsMajority_eq_iff exact nonempty ledger enumerates hash).mp
      reported
    have grown := voteCount_le_addVotes exact ledger later hash
    exact (hasTwoThirdsMajority_eq_iff exact nonempty
      (ledger_addVotes exact ledger later) laterEnumerates hash).mpr
      (Int64.le_trans quorum grown)

/-- Three validators of power 100. -/
def trio : SimpleValidatorSet where
  validators := [0, 1, 2].map fun i : UInt16 =>
    { index := i, address := [i.toUInt8], publicKey := [], votingPower := 100,
      proposerPriority := 0 }
  totalPower := 300
  epoch := 0

/-- A prevote of round 0. -/
def prevote (validatorIndex : UInt16) (blockHash : Bytes) : Vote :=
  { type := 1, height := 5, round := 0, blockHash, validatorIndex, signature := [] }

/-- A run in which validator 1 also votes for a second block. -/
theorem roundVoteSet_safe_trio :
    let rvs := (newRoundVoteSet 0 (some trio) 1).addVotes
      [prevote 0 [7], prevote 1 [7], prevote 1 [8], prevote 2 [7]]
    (rvs.voteCount [7]).toInt = power trio.powerAt (rvs.votersFor [7]) ∧
      rvs.voteCount [7] = 300 ∧ Disjoint (rvs.votersFor [7]) (rvs.votersFor [8]) := by
  have safe := @roundVoteSet_safe (trio.validators.map some) 0 trio
    (by decide) (by decide) (by decide) 0 1
    [prevote 0 [7], prevote 1 [7], prevote 1 [8], prevote 2 [7]]
  exact ⟨safe.1 [7], by decide, safe.2.1 [7] [8] (by decide)⟩

end Blockberry.Consensus
