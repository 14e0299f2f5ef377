import Blockberry.Consensus.Commit
import Blockberry.Consensus.Construction

/-!
# Commits with repeated entries

Whether an entry of a commit counts depends on the public keys alone, and how much it counts on the
voting powers. A commit in which no validator has two entries that count is verified soundly for
all voting powers. One in which some validator has two, and some validator has none, is accepted
without a quorum of signers for suitable voting powers of the same validators.
-/

namespace Blockberry.Consensus

open Machine WeightedGroup List Option Finset Validator List

namespace SimpleValidatorSet

variable (verify : Bytes → Bytes → Bytes → Bool) (vs : SimpleValidatorSet)
variable (height : Int64) (blockHash : Bytes) (commit : Commit)

def Counts (sig : CommitSig) : Prop :=
  (vs.countedValidator verify height blockHash commit sig).isSome = true

def SignedOnce : Prop :=
  commit.signatures.Pairwise fun earlier later =>
    vs.Counts verify height blockHash commit earlier →
      vs.Counts verify height blockHash commit later →
        earlier.validatorIndex ≠ later.validatorIndex

def SignedByAll : Prop :=
  ∀ position ∈ vs.members, vs.hasSigned verify height blockHash commit position = true

def RepeatsHarmless : Prop :=
  commit.height = height → commit.blockHash = blockHash →
    vs.SignedOnce verify height blockHash commit ∨ vs.SignedByAll verify height blockHash commit

def QuorumSigned : Prop :=
  vs.verifyCommit verify height blockHash (some commit) = .ok () →
    vs.quorum.toInt ≤ power vs.powerAt (vs.signers verify height blockHash commit)

def SameKeys (other : SimpleValidatorSet) : Prop :=
  other.validators.map publicKey = vs.validators.map publicKey

def QuorumSignedForKeys : Prop :=
  ∀ validators epoch other, newSimpleValidatorSet validators epoch = .ok other →
    other.powerSum ≤ 2 ^ 63 - 1 → vs.SameKeys other →
      other.QuorumSigned verify height blockHash commit

variable {verify vs height blockHash commit} {other : SimpleValidatorSet}

theorem signedOnce_iff_nodup : vs.SignedOnce verify height blockHash commit ↔
      (vs.countedPositions verify height blockHash commit).Nodup := by
  rw [SignedOnce, countedPositions, Nodup, pairwise_filterMap]
  simp only [Counts, map_eq_some_iff, isSome_iff_exists]
  constructor
  · intro once
    apply once.imp
    rintro earlier later different _ ⟨first, isFirst, rfl⟩ _ ⟨second, isSecond, rfl⟩ same
    exact different ⟨first, isFirst⟩ ⟨second, isSecond⟩ (UInt16.toNat_inj.mp same)
  · intro nodup
    apply nodup.imp
    rintro earlier later different ⟨first, isFirst⟩ ⟨second, isSecond⟩ same
    exact different _ ⟨first, isFirst, rfl⟩ _ ⟨second, isSecond, rfl⟩ (congrArg _ same)

section Keys

variable (same : vs.SameKeys other)

include same

theorem SameKeys.getElem? (i : Nat) :
    other.validators[i]?.map publicKey = vs.validators[i]?.map publicKey := by
  rw [← getElem?_map, same, getElem?_map]

theorem SameKeys.members_eq : other.members = vs.members := by
  have lengths := congrArg length same
  rw [length_map, length_map] at lengths
  rw [members, members, lengths]

theorem SameKeys.countedPositions_eq : other.countedPositions verify height blockHash commit =
      vs.countedPositions verify height blockHash commit := by
  rw [countedPositions, countedPositions]
  congr
  funext sig
  have keys := SameKeys.getElem? same sig.validatorIndex.toNat
  rw [countedValidator, countedValidator]
  cases sig.signature with
  | none => rfl
  | some signature =>
    cases found : other.validators[sig.validatorIndex.toNat]? with
    | none =>
      rw [found, map_none, eq_comm, map_eq_none_iff] at keys
      rw [keys]
    | some validator =>
      rw [found, map_some, eq_comm, map_eq_some_iff] at keys
      obtain ⟨validator', found', sameKey⟩ := keys
      simp only [found', sameKey]
      split
      next => rfl
      split
      next => rfl
      next =>
        split
        next => rfl
        next => rfl

theorem SameKeys.signers_eq : other.signers verify height blockHash commit =
      vs.signers verify height blockHash commit := by
  rw [signers, signers, SameKeys.members_eq same]
  congr
  funext position
  have keys := SameKeys.getElem? same position
  rw [hasSigned, hasSigned]
  congr
  funext sig
  cases sig.signature with
  | none => rfl
  | some signature =>
    cases found : other.validators[position]? with
    | none =>
      rw [found, map_none, eq_comm, map_eq_none_iff] at keys
      rw [keys]
    | some validator =>
      rw [found, map_some, eq_comm, map_eq_some_iff] at keys
      obtain ⟨validator', found', sameKey⟩ := keys
      simp only [found', sameKey]

end Keys

/-! ## Commits that are verified soundly -/

theorem quorumSigned_of_signedOnce (exact : vs.Exact)
    (once : vs.SignedOnce verify height blockHash commit) :
    vs.QuorumSigned verify height blockHash commit :=
  quorum_signed_of_nodup exact (signedOnce_iff_nodup.mp once)

/-- Nothing counts without validators. -/
theorem signedOnce_of_empty (empty : vs.validators = []) :
    vs.SignedOnce verify height blockHash commit := by
  have nothing : (vs.countedPositions verify height blockHash commit).toFinset ⊆ ∅ := by
    apply countedPositions_subset_signers.trans
    apply (Finset.filter_subset _ _).trans
    simp [members, empty]
  have noEntries := toFinset_eq_empty_iff _ |>.mp (Finset.subset_empty.mp nothing)
  rw [signedOnce_iff_nodup, noEntries]
  exact nodup_nil

theorem quorumSigned_of_signedByAll (exact : vs.Exact)
    (all : vs.SignedByAll verify height blockHash commit) :
    vs.QuorumSigned verify height blockHash commit := by
  by_cases empty : vs.validators = []
  · exact quorumSigned_of_signedOnce exact (signedOnce_of_empty empty)
  · intro _
    have everyone : vs.signers verify height blockHash commit = vs.members :=
      filter_true_of_mem all
    rw [everyone, power_members, toInt_quorum_of_exact exact]
    exact threshold_le (powerSum_pos exact empty)

/-! ## Other voting powers -/

def reweighed (vs : SimpleValidatorSet) (weight : Nat → Int) : List Validator :=
  vs.validators.mapIdx fun i v => { v with votingPower := Int64.ofInt (weight i) }

section Reweighed

variable {weight : Nat → Int}

theorem addresses_reweighed :
    (vs.reweighed weight).map address = vs.validators.map address := by
  rw [reweighed]
  apply ext_getElem <;> simp

variable (inRange : ∀ i ∈ vs.members, InRange (weight i))

include inRange

theorem toInt_reweighed {i : Nat} {v : Validator} (found : (vs.reweighed weight)[i]? = some v) :
    v.votingPower.toInt = weight i := by
  rw [reweighed, List.getElem?_mapIdx, map_eq_some_iff] at found
  obtain ⟨w, atPosition, rfl⟩ := found
  have inside := (List.getElem?_eq_some_iff.mp atPosition).1
  exact Int64.toInt_ofInt.trans (wrap_of_inRange (inRange i (Finset.mem_range.mpr inside)))

theorem powerAt_reweighed (built : other.Built (vs.reweighed weight)) {i : Nat}
    (inside : i ∈ vs.members) : other.powerAt i = weight i := by
  have bound : i < (vs.reweighed weight).length := by
    simpa [reweighed, members] using inside
  have found := getElem?_eq_getElem bound
  have isWeight := toInt_reweighed inRange found
  rw [powerAt, built.getElem? i, found]
  exact isWeight

theorem power_reweighed (built : other.Built (vs.reweighed weight)) {group : Finset Nat}
    (subset : group ⊆ vs.members) : power other.powerAt group = power weight group :=
  sum_congr rfl fun _ inGroup => powerAt_reweighed inRange built (subset inGroup)

omit inRange

theorem sameKeys_reweighed (built : other.Built (vs.reweighed weight)) : vs.SameKeys other := by
  rw [SameKeys, built.validators_eq, reweighed]
  apply ext_getElem <;> simp

/-- The constructor accepts the validators with any positive powers. -/
theorem exists_reweighed {validators : List (Option Validator)} {epoch : UInt64}
    (isNew : newSimpleValidatorSet validators epoch = .ok vs) (positive : ∀ i, 0 < weight i)
    (inRange : ∀ i ∈ vs.members, InRange (weight i)) :
    ∃ other, newSimpleValidatorSet ((vs.reweighed weight).map some) epoch = .ok other ∧
      other.Built (vs.reweighed weight) := by
  obtain ⟨present, rfl, -⟩ := newSimpleValidatorSet_ok isNew
  have built := built_of_new isNew
  have distinct : ((vs.reweighed weight).map address).Nodup := by
    rw [addresses_reweighed, built.addresses_eq]
    exact built.distinct
  have powers : ∀ v ∈ vs.reweighed weight, 0 < v.votingPower.toInt := by
    intro v member
    obtain ⟨i, found⟩ := mem_iff_getElem?.mp member
    rw [toInt_reweighed inRange found]
    exact positive i
  obtain ⟨other, isOther⟩ := exists_new_of_distinct powers distinct epoch
  exact ⟨other, isOther, built_of_new isOther⟩

end Reweighed

/-- Where a validator has two entries that count and another has none, the second entry makes up
for the missing signature under suitable voting powers. -/
theorem not_quorumSignedForKeys {validators : List (Option Validator)} {epoch : UInt64}
    (isNew : newSimpleValidatorSet validators epoch = .ok vs)
    (short : vs.validators.length + commit.signatures.length < 2 ^ 60)
    (sameHeight : commit.height = height) (sameHash : commit.blockHash = blockHash)
    (repeated : ¬vs.SignedOnce verify height blockHash commit)
    (missing : ¬vs.SignedByAll verify height blockHash commit) :
    ¬vs.QuorumSignedForKeys verify height blockHash commit := by
  intro sound
  rw [signedOnce_iff_nodup, nodup_iff_count_le_one] at repeated
  simp only [not_forall, not_le] at repeated
  obtain ⟨heavy, twice⟩ := repeated
  simp only [SignedByAll, not_forall] at missing
  obtain ⟨absent, absentMem, notSigned⟩ := missing
  have signersSubset : vs.signers verify height blockHash commit ⊆ vs.members :=
    Finset.filter_subset _ _
  have absentOut : absent ∉ vs.signers verify height blockHash commit :=
    fun signed => notSigned (Finset.mem_filter.mp signed).2
  obtain ⟨weight, positive, total, tooLittle, reached, bounded⟩ :=
    exists_weight_of_repeated signersSubset countedPositions_subset_signers twice absentMem
      absentOut
  have entries : (vs.countedPositions verify height blockHash commit).length ≤
      commit.signatures.length := length_filterMap_le _ _
  have card : vs.members.card = vs.validators.length := card_range _
  have nonneg : 0 ≤ power weight vs.members := power_nonneg fun i _ => (positive i).le
  have inRange : ∀ i ∈ vs.members, InRange (weight i) := by
    intro i inside
    have single : weight i ≤ power weight vs.members :=
      single_le_sum (fun j _ => (positive j).le) inside
    have pos := positive i
    exact ⟨by omega, by omega⟩
  obtain ⟨other, isOther, built⟩ := exists_reweighed isNew positive inRange
  have same := sameKeys_reweighed built
  have totalEq : other.powerSum = power weight vs.members := by
    rw [← power_members, SameKeys.members_eq same, power_reweighed inRange built subset_rfl]
  have exact := exact_of_new isOther (by omega)
  have quorumEq : other.quorum.toInt = 2 * power weight vs.members / 3 + 1 := by
    rw [toInt_quorum_of_exact exact, totalEq, threshold, if_neg]
    rw [multiplyFirstLimit]
    omega
  have accepted : other.verifyCommit verify height blockHash (some commit) = .ok () := by
    rw [verifyCommit_eq_ok_iff, Int64.le_iff_toInt_le, toInt_countedPower,
      SameKeys.countedPositions_eq same, quorumEq]
    have powers : (vs.countedPositions verify height blockHash commit).map other.powerAt =
        (vs.countedPositions verify height blockHash commit).map weight := by
      apply map_congr_left
      intro position counted
      apply powerAt_reweighed inRange built
      exact signersSubset (countedPositions_subset_signers (mem_toFinset.mpr counted))
    rw [powers, wrap_of_inRange ⟨by omega, by omega⟩]
    exact ⟨sameHeight, sameHash, reached⟩
  have signed := sound _ _ other isOther (by omega) same accepted
  rw [quorumEq, SameKeys.signers_eq same, power_reweighed inRange built signersSubset] at signed
  omega

/-- A commit is accepted only with a quorum of distinct signers, whatever the voting powers, if no
validator has two entries that count or all validators have signed; and, for slices that fit in
memory, only then. -/
theorem verifyCommit_quorum_iff (verify : Bytes → Bytes → Bytes → Bool)
    {validators : List (Option Validator)} {epoch : UInt64} {vs : SimpleValidatorSet}
    (isNew : newSimpleValidatorSet validators epoch = .ok vs) (height : Int64) (blockHash : Bytes)
    (commit : Commit) :
    (vs.RepeatsHarmless verify height blockHash commit →
      vs.QuorumSignedForKeys verify height blockHash commit) ∧
    (vs.validators.length + commit.signatures.length < 2 ^ 60 →
      vs.QuorumSignedForKeys verify height blockHash commit →
        vs.RepeatsHarmless verify height blockHash commit) := by
  constructor
  · intro harmless validators' epoch' other isOther bounded same accepted
    have exact := exact_of_new isOther bounded
    obtain ⟨sameHeight, sameHash, -⟩ := verifyCommit_eq_ok_iff.mp accepted
    rcases harmless sameHeight sameHash with once | all
    · apply quorumSigned_of_signedOnce exact _ accepted
      rw [signedOnce_iff_nodup, SameKeys.countedPositions_eq same]
      exact signedOnce_iff_nodup.mp once
    · apply quorumSigned_of_signedByAll exact _ accepted
      have everyone : vs.signers verify height blockHash commit = vs.members :=
        Finset.filter_true_of_mem all
      rw [← SameKeys.signers_eq same, ← SameKeys.members_eq same] at everyone
      exact Finset.filter_eq_self.mp everyone
  · intro short sound sameHeight sameHash
    by_contra neither
    rw [not_or] at neither
    exact not_quorumSignedForKeys isNew short sameHeight sameHash neither.1 neither.2 sound

def signedByThree : Commit :=
  { height := 10, round := 0, blockHash := [7]
    signatures := [0, 1, 2].map fun i =>
      { validatorIndex := i, signature := some (replicate signatureSize i.toUInt8) } }

/-- The commit of three validators is accepted, and they hold the quorum. -/
theorem verifyCommit_quorum_three :
    fourValidatorSet.verifyCommit echoVerify 10 [7] (some signedByThree) = .ok () ∧
      fourValidatorSet.quorum.toInt ≤ power fourValidatorSet.powerAt
        (fourValidatorSet.signers echoVerify 10 [7] signedByThree) := by
  have isNew : newSimpleValidatorSet fourValidators 0 = .ok fourValidatorSet := by decide
  have accepted :
      fourValidatorSet.verifyCommit echoVerify 10 [7] (some signedByThree) = .ok () := by
    decide
  refine ⟨accepted, (verifyCommit_quorum_iff echoVerify isNew 10 [7] signedByThree).1 ?_
    fourValidators 0 fourValidatorSet isNew (by decide) rfl accepted⟩
  intro _ _
  left
  rw [signedOnce_iff_nodup]
  decide

end SimpleValidatorSet

def repeatingCommit : Commit :=
  { height := 10, round := 0, blockHash := [1, 2, 3, 4]
    signatures := replicate 3
      { validatorIndex := 0, signature := some (replicate signatureSize 0) } }

/-- One signer with a quarter of the power passes for a quorum. -/
theorem verifyCommit_accepts_repeats :
    newSimpleValidatorSet fourValidators 0 = .ok fourValidatorSet ∧
      fourValidatorSet.powerSum ≤ 2 ^ 63 - 1 ∧
      fourValidatorSet.verifyCommit echoVerify 10 [1, 2, 3, 4]
        (some repeatingCommit) = .ok () ∧
      WeightedGroup.power fourValidatorSet.powerAt
          (fourValidatorSet.signers echoVerify 10 [1, 2, 3, 4] repeatingCommit) = 100 ∧
      fourValidatorSet.quorum.toInt = 267 := by
  decide

end Blockberry.Consensus
