import Blockberry.Consensus.VoteSet

/-!
# Vote sets of a height

A `HeightVoteSet` makes the vote set of a round when the first vote for the round comes. Nodes get
the votes in different orders and may get different votes. Two of them report majorities for
different blocks only if validators as heavy as what two quorums share have voted for both.
-/

namespace Blockberry.Consensus

open FiniteMap SimpleValidatorSet WeightedGroup RoundVoteSet

structure HeightVoteSet where
  height : Int64
  validatorSet : Option SimpleValidatorSet
  rounds : Finmap fun _ : Int32 => RoundVoteSet

def newHeightVoteSet (height : Int64) (valSet : Option SimpleValidatorSet) : HeightVoteSet where
  height
  validatorSet := valSet
  rounds := ∅

namespace HeightVoteSet

/-- The type of the first vote of a round is the type of all that are counted in it. -/
def addVote (hvs : HeightVoteSet) (vote : Vote) : HeightVoteSet × Bool :=
  if vote.height ≠ hvs.height then (hvs, false)
  else
    let rvs := (hvs.rounds.lookup vote.round).getD
      (newRoundVoteSet vote.round hvs.validatorSet vote.type)
    let (rvs, added) := rvs.addVote vote
    ({ hvs with rounds := hvs.rounds.insert vote.round rvs }, added)

def getVotes (hvs : HeightVoteSet) (round : Int32) : Option RoundVoteSet :=
  hvs.rounds.lookup round

def hasTwoThirdsMajority (hvs : HeightVoteSet) (round : Int32) (order : List Bytes) :
    Bool × Option Bytes :=
  match hvs.getVotes round with
  | none => (false, none)
  | some rvs => rvs.hasTwoThirdsMajority order

def addVotes (hvs : HeightVoteSet) (votes : List Vote) : HeightVoteSet :=
  Run.after (fun state vote => (state.addVote vote).1) hvs votes

end HeightVoteSet

/-- Where a validator may vote once. -/
def Vote.slot (vote : Vote) : VoteType × Int64 × Int32 × UInt16 :=
  (vote.type, vote.height, vote.round, vote.validatorIndex)

/-- A vote set counts exactly, and every vote in it has come and is in its place. -/
structure RoundLedger (vs : SimpleValidatorSet) (height : Int64) (came : Vote → Prop)
    (round : Int32) (rvs : RoundVoteSet) : Prop where
  ledger : Ledger vs rvs
  round_eq : rvs.round = round
  recorded : ∀ position vote, rvs.votes[position]? = some (some vote) →
    came vote ∧ vote.height = height ∧ vote.round = round ∧ vote.validatorIndex.toNat = position

variable {vs : SimpleValidatorSet} {height : Int64} {came : Vote → Prop} {round : Int32}
  {rvs : RoundVoteSet} {vote : Vote}

theorem roundLedger_new (vs : SimpleValidatorSet) (round : Int32) (voteType : VoteType) :
    RoundLedger vs height came round (newRoundVoteSet round (some vs) voteType) where
  ledger := ledger_new vs round voteType
  round_eq := rfl
  recorded position vote found := by
    simp only [newRoundVoteSet, List.getElem?_replicate] at found
    split at found <;> cases found

theorem RoundLedger.more (held : RoundLedger vs height came round rvs) (vote : Vote) :
    RoundLedger vs height (fun other => came other ∨ other = vote) round rvs :=
  ⟨held.ledger, held.round_eq, fun position other found =>
    (held.recorded position other found).imp_left .inl⟩

theorem RoundLedger.addVote (exact : vs.Exact) (held : RoundLedger vs height came round rvs)
    (own : vote.height = height) : RoundLedger vs height (fun other => came other ∨ other = vote)
      round (rvs.addVote vote).1 := by
  have ledger := ledger_addVote exact held.ledger vote
  revert ledger
  unfold RoundVoteSet.addVote
  split
  next => exact fun _ => held.more vote
  next same =>
    split
    next => exact fun _ => held.more vote
    next => exact fun _ => held.more vote
    next =>
      intro ledger
      refine ⟨ledger, held.round_eq, fun position other found => ?_⟩
      rw [List.getElem?_set] at found
      split at found
      next inPlace =>
        split at found
        next =>
          cases found
          exact ⟨.inr rfl, own, (not_not.mp (not_or.mp same).2).trans held.round_eq, inPlace⟩
        next => cases found
      next => exact (held.more vote).recorded position other found

/-- What a node has after some votes. -/
structure HeightLedger (vs : SimpleValidatorSet) (height : Int64) (came : Vote → Prop)
    (hvs : HeightVoteSet) : Prop where
  height_eq : hvs.height = height
  validatorSet_eq : hvs.validatorSet = some vs
  rounds : ∀ round rvs, hvs.getVotes round = some rvs → RoundLedger vs height came round rvs

variable {hvs : HeightVoteSet}

theorem HeightLedger.addVote (exact : vs.Exact) (held : HeightLedger vs height came hvs)
    (vote : Vote) :
    HeightLedger vs height (fun other => came other ∨ other = vote) (hvs.addVote vote).1 := by
  rw [HeightVoteSet.addVote]
  split
  next =>
    exact ⟨held.height_eq, held.validatorSet_eq, fun round rvs found =>
      (held.rounds round rvs found).more vote⟩
  next own =>
    refine ⟨held.height_eq, held.validatorSet_eq, fun round stored found => ?_⟩
    simp only [HeightVoteSet.getVotes, lookup_insert] at found
    split at found
    next same =>
      subst same
      rw [← Option.some.inj found]
      apply RoundLedger.addVote exact _ ((not_not.mp own).trans held.height_eq)
      -- the vote set of the round was there or is made for the vote
      cases known : hvs.rounds.lookup vote.round with
      | none =>
        rw [held.validatorSet_eq]
        exact roundLedger_new vs vote.round vote.type
      | some rvs => exact held.rounds vote.round rvs known
    next => exact (held.rounds round stored found).more vote

theorem heightLedger_addVotes (exact : vs.Exact) (votes : List Vote)
    (held : HeightLedger vs height came hvs) :
    HeightLedger vs height (fun vote => came vote ∨ vote ∈ votes) (hvs.addVotes votes) := by
  induction votes generalizing came hvs with
  | nil => simpa [HeightVoteSet.addVotes] using held
  | cons vote votes ih =>
    have later := ih (held.addVote exact vote)
    simp only [or_assoc, ← List.mem_cons] at later
    exact later

/-- A majority comes from votes of the node for the block, with the power of the quorum. -/
theorem exists_voters (exact : vs.Exact) (nonempty : vs.validators ≠ []) {votes : List Vote}
    {round : Int32} {order : List Bytes} {hash : Bytes} :
    let node := (newHeightVoteSet height (some vs)).addVotes votes
    (∀ rvs ∈ node.getVotes round, Enumerates order rvs.voteCounts) →
    node.hasTwoThirdsMajority round order = (true, some hash) →
    ∃ group ⊆ vs.members, vs.quorum.toInt ≤ power vs.powerAt group ∧
      ∀ position ∈ group, ∃ vote ∈ votes, vote.height = height ∧ vote.round = round ∧
        vote.validatorIndex.toNat = position ∧ vote.blockHash = hash := by
  intro node enumerates majority
  have fresh : HeightLedger vs height (fun _ => False) (newHeightVoteSet height (some vs)) :=
    ⟨rfl, rfl, fun _ _ found => by cases found⟩
  rw [HeightVoteSet.hasTwoThirdsMajority] at majority
  split at majority
  next => cases majority
  next rvs found =>
    have held := (heightLedger_addVotes exact votes fresh).rounds round rvs found
    have quorum := (hasTwoThirdsMajority_eq_iff exact nonempty held.ledger (enumerates rvs found)
      hash).mp majority
    rw [Int64.le_iff_toInt_le, held.ledger.count_eq] at quorum
    refine ⟨rvs.votersFor hash, votersFor_subset_members held.ledger hash, quorum, ?_⟩
    intro position voting
    obtain ⟨vote, stored, isHash⟩ := Option.map_eq_some_iff.mp (Finset.mem_filter.mp voting).2
    obtain ⟨impossible | came, inHeight, inRound, inPlace⟩ :=
      held.recorded position vote (Option.join_eq_some_iff.mp stored)
    · exact impossible.elim
    · exact ⟨vote, came, inHeight, inRound, inPlace, isHash⟩

/-- Two nodes with any votes of one type report majorities for the same block, unless validators
gave them different votes for one slot; these have at least twice the quorum less the total, more
than a third of it where the quorum exceeds two thirds. -/
theorem majorities_accountable {validators : List (Option Validator)} {epoch : UInt64}
    {vs : SimpleValidatorSet} (built : newSimpleValidatorSet validators epoch = .ok vs)
    (nonempty : vs.validators ≠ []) (bounded : vs.powerSum ≤ 2 ^ 63 - 1) (height : Int64)
    (round : Int32) (voteType : VoteType) (left right : List Vote)
    (oneType : ∀ vote ∈ left ++ right, vote.type = voteType) (leftOrder rightOrder : List Bytes)
    (leftHash rightHash : Bytes) :
    let node (votes : List Vote) := (newHeightVoteSet height (some vs)).addVotes votes
    (∀ rvs ∈ (node left).getVotes round, Enumerates leftOrder rvs.voteCounts) →
    (∀ rvs ∈ (node right).getVotes round, Enumerates rightOrder rvs.voteCounts) →
    (node left).hasTwoThirdsMajority round leftOrder = (true, some leftHash) →
    (node right).hasTwoThirdsMajority round rightOrder = (true, some rightHash) →
    leftHash = rightHash ∨ ∃ group, vs.Overlap group ∧
      ∀ position ∈ group, ∃ vote ∈ left, ∃ other ∈ right, vote.slot = other.slot ∧
        vote.validatorIndex.toNat = position ∧ vote.blockHash ≠ other.blockHash := by
  intro node leftEnumerates rightEnumerates leftMajority rightMajority
  have exact := exact_of_new built bounded
  obtain ⟨leftGroup, leftSubset, leftQuorum, leftVotes⟩ :=
    exists_voters exact nonempty leftEnumerates leftMajority
  obtain ⟨rightGroup, rightSubset, rightQuorum, rightVotes⟩ :=
    exists_voters exact nonempty rightEnumerates rightMajority
  rw [or_iff_not_imp_left]
  intro different
  refine ⟨leftGroup ∩ rightGroup,
    overlap_inter exact nonempty leftSubset rightSubset leftQuorum rightQuorum, ?_⟩
  intro position both
  obtain ⟨inLeft, inRight⟩ := Finset.mem_inter.mp both
  obtain ⟨vote, came, atHeight, inRound, inPlace, isLeft⟩ := leftVotes position inLeft
  obtain ⟨other, came', atHeight', inRound', inPlace', isRight⟩ := rightVotes position inRight
  refine ⟨vote, came, other, came', ?_, inPlace, isLeft ▸ isRight ▸ different⟩
  rw [Vote.slot, Vote.slot, oneType vote (List.mem_append_left _ came),
    oneType other (List.mem_append_right _ came'), atHeight, atHeight', inRound, inRound',
    UInt16.toNat_inj.mp (inPlace.trans inPlace'.symm)]

/-- Two of three validators vote twice. -/
theorem majorities_accountable_trio : ∃ group ⊆ trio.members,
    300 < 3 * power trio.powerAt group ∧ group.Nonempty := by
  have accountable := @majorities_accountable (trio.validators.map some) 0 trio (by decide)
    (by decide) (by decide) 5 0 1 [prevote 0 [7], prevote 1 [7], prevote 2 [7]]
    [prevote 2 [8], prevote 1 [8], prevote 0 [8]] (by decide) [[7]] [[8]] [7] [8]
    (by decide +kernel) (by decide +kernel) (by decide +kernel) (by decide +kernel)
  obtain ⟨group, overlap, -⟩ := accountable.resolve_left (by decide)
  exact ⟨group, overlap.subset, overlap.third (by decide), overlap.nonempty⟩

end Blockberry.Consensus
