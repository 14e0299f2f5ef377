import Blockberry.Consensus.Quorum
import Blockberry.Lib.BigEndian

/-!
# Commit verification

`VerifyCommit` adds a validator's power for every entry that names it, so repeated entries count
again. Without them an accepted commit is signed by a quorum, and two accepted commits share
signers. `ed25519.Verify` is a parameter.
-/

namespace Blockberry.Consensus

open Machine WeightedGroup SimpleValidatorSet List BigEndian WeightedGroup

/-- One entry of a commit; `none` is a nil signature. -/
structure CommitSig where
  validatorIndex : UInt16
  signature : Option Bytes
  deriving DecidableEq, Repr

/-- Aggregated precommits for a block. -/
structure Commit where
  height : Int64
  round : Int32
  blockHash : Bytes
  signatures : List CommitSig
  deriving DecidableEq, Repr

/-- The errors of `VerifyCommit`, with the values their texts print. -/
inductive CommitError where
  | nilCommit
  | heightMismatch (got expected : Int64)
  | blockHashMismatch
  | insufficientQuorum (got need : Int64)
  deriving DecidableEq, Repr

def publicKeySize : Nat := 32

def signatureSize : Nat := 64

/-- The conversion `byte(word)` of an `int64`. -/
def byte64 (word : Int64) : UInt8 := word.toUInt64.toUInt8

/-- The conversion `byte(word)` of an `int32`. -/
def byte32 (word : Int32) : UInt8 := word.toUInt32.toUInt8

def makeCommitSignBytes (height : Int64) (round : Int32) (blockHash : Bytes) : Bytes :=
  [byte64 (height >>> 56), byte64 (height >>> 48), byte64 (height >>> 40),
    byte64 (height >>> 32), byte64 (height >>> 24), byte64 (height >>> 16),
    byte64 (height >>> 8), byte64 height,
    byte32 (round >>> 24), byte32 (round >>> 16), byte32 (round >>> 8),
    byte32 round] ++ blockHash

namespace SimpleValidatorSet

variable (verify : Bytes → Bytes → Bytes → Bool) (vs : SimpleValidatorSet)
variable (height : Int64) (blockHash : Bytes) (commit : Commit)

def countedValidator (sig : CommitSig) : Option Validator :=
  match sig.signature with
  | none => none
  | some signature =>
    match vs.validators[sig.validatorIndex.toNat]? with
    | none => none
    | some validator =>
      if validator.publicKey.length ≠ publicKeySize then none
      else if signature.length ≠ signatureSize then none
      else if !verify validator.publicKey
          (makeCommitSignBytes height commit.round blockHash) signature then none
      else some validator

/-- The accumulated voting power of a commit's signatures. -/
def countedPower : Int64 :=
  commit.signatures.foldl (fun votingPower sig =>
    match vs.countedValidator verify height blockHash commit sig with
    | none => votingPower
    | some validator => votingPower + validator.votingPower) 0

def verifyCommit (commit : Option Commit) : Except CommitError Unit :=
  match commit with
  | none => .error .nilCommit
  | some commit =>
    if commit.height ≠ height then
      .error (.heightMismatch commit.height height)
    else if commit.blockHash ≠ blockHash then
      .error .blockHashMismatch
    else
      let votingPower := vs.countedPower verify height blockHash commit
      let quorum :=
        if vs.totalPower > Int64.maxValue / 2 then
          vs.totalPower / 3 * 2 + 1
        else
          (2 * vs.totalPower) / 3 + 1
      if votingPower < quorum then
        .error (.insufficientQuorum votingPower quorum)
      else
        .ok ()

def hasSigned (position : Nat) : Bool :=
  commit.signatures.any fun sig =>
    match sig.signature, vs.validators[position]? with
    | some signature, some validator =>
      sig.validatorIndex.toNat == position &&
        verify validator.publicKey
          (makeCommitSignBytes height commit.round blockHash) signature
    | _, _ => false

/-- The distinct validators that signed the commit, as slice positions. -/
def signers : Finset Nat :=
  vs.members.filter fun position => vs.hasSigned verify height blockHash commit position

/-- Positions named by the entries that the loop counts, with repetitions. -/
def countedPositions : List Nat :=
  commit.signatures.filterMap fun sig =>
    (vs.countedValidator verify height blockHash commit sig).map
      fun _ => sig.validatorIndex.toNat

variable {verify vs height blockHash commit}

/-- The inlined threshold of `VerifyCommit` is `Quorum`, and it is compared with
the counted power once the commit matches height and block. -/
theorem verifyCommit_eq_ok_iff : vs.verifyCommit verify height blockHash (some commit) = .ok () ↔
      commit.height = height ∧ commit.blockHash = blockHash ∧
        vs.quorum ≤ vs.countedPower verify height blockHash commit := by
  simp only [verifyCommit]
  by_cases sameHeight : commit.height = height
  · by_cases sameHash : commit.blockHash = blockHash
    · simp only [sameHeight, sameHash, ne_eq, not_true_eq_false, ↓reduceIte, true_and]
      change (if _ < vs.quorum then _ else _) = _ ↔ _
      by_cases short : vs.countedPower verify height blockHash commit < vs.quorum
      · simp [short, Int64.not_le.mpr short]
      · simp [short, Int64.not_lt.mp short]
    · simp [sameHeight, sameHash]
  · simp [sameHeight]

/-- A counted entry names the position of the validator it adds and carries a
signature that the predicate accepts. -/
theorem countedValidator_some {sig : CommitSig} {validator : Validator}
    (counted : vs.countedValidator verify height blockHash commit sig = some validator) :
    vs.validators[sig.validatorIndex.toNat]? = some validator ∧
      ∃ signature, sig.signature = some signature ∧ verify validator.publicKey
          (makeCommitSignBytes height commit.round blockHash) signature = true := by
  simp only [countedValidator] at counted
  cases present : sig.signature with
  | none => simp [present] at counted
  | some signature =>
    cases found : vs.validators[sig.validatorIndex.toNat]? with
    | none => simp [present, found] at counted
    | some other =>
      simp only [present, found] at counted
      split at counted
      · simp at counted
      split at counted
      · simp at counted
      split at counted
      · simp at counted
      next valid =>
        cases counted
        exact ⟨rfl, signature, rfl, by simpa using valid⟩

theorem toInt_countedPower : (vs.countedPower verify height blockHash commit).toInt =
      wrap ((vs.countedPositions verify height blockHash commit).map vs.powerAt).sum := by
  have loop : ∀ (signatures : List CommitSig) (start : Int64),
      (signatures.foldl (fun votingPower sig =>
        match vs.countedValidator verify height blockHash commit sig with
        | none => votingPower
        | some validator => votingPower + validator.votingPower) start).toInt =
      wrap (start.toInt + ((signatures.filterMap fun sig =>
        (vs.countedValidator verify height blockHash commit sig).map
          fun _ => sig.validatorIndex.toNat).map vs.powerAt).sum) := by
    intro signatures
    induction signatures with
    | nil =>
      intro start
      simp [wrap_of_inRange (inRange_toInt start)]
    | cons sig rest ih =>
      intro start
      cases counted : vs.countedValidator verify height blockHash commit sig with
      | none => simpa [counted] using ih start
      | some validator =>
        have powerEq : vs.powerAt sig.validatorIndex.toNat = validator.votingPower.toInt := by
          simp [powerAt, (countedValidator_some counted).1]
        simp only [foldl_cons, filterMap_cons, counted, Option.map_some, map_cons, sum_cons]
        rw [ih, toInt_add, powerEq, ← add_assoc]
        simp only [wrap, Int.bmod_add_bmod]
  simpa [countedPower, countedPositions] using loop commit.signatures 0

/-- Counted validators are signers; the converse fails only for keys or
signatures of the wrong length. -/
theorem countedPositions_subset_signers :
    (vs.countedPositions verify height blockHash commit).toFinset ⊆
      vs.signers verify height blockHash commit := by
  intro position member
  simp only [countedPositions, mem_toFinset, mem_filterMap, Option.map_eq_some_iff] at member
  rcases member with ⟨sig, sigMem, validator, counted, rfl⟩
  rcases countedValidator_some counted with ⟨found, signature, present, valid⟩
  have inBounds := (List.getElem?_eq_some_iff.mp found).1
  simp only [signers, members, Finset.mem_filter, Finset.mem_range, hasSigned, any_eq_true]
  exact ⟨inBounds, sig, sigMem, by simp [present, found, valid]⟩

/-- An accepted commit is for this height and block, and its counted entries
reach the quorum once repeated ones are added. -/
theorem counted_of_verifyCommit_ok
    (accepted : vs.verifyCommit verify height blockHash (some commit) = .ok ()) :
    commit.height = height ∧ commit.blockHash = blockHash ∧ vs.quorum.toInt ≤ wrap (power vs.powerAt
            (vs.countedPositions verify height blockHash commit).toFinset +
          surplus vs.powerAt (vs.countedPositions verify height blockHash commit)) := by
  rw [← sum_map_eq, ← toInt_countedPower, ← Int64.le_iff_toInt_le]
  exact verifyCommit_eq_ok_iff.mp accepted

/-- A commit that names no counted validator twice is verified soundly. -/
theorem quorum_signed_of_nodup (exact : vs.Exact)
    (nodup : (vs.countedPositions verify height blockHash commit).Nodup)
    (accepted : vs.verifyCommit verify height blockHash (some commit) = .ok ()) :
    vs.quorum.toInt ≤ power vs.powerAt (vs.signers verify height blockHash commit) := by
  have nonneg : ∀ group : Finset Nat, ∀ position ∈ group, 0 ≤ vs.powerAt position :=
    fun _ position _ => powerAt_nonneg exact position
  have countedLe : power vs.powerAt (vs.countedPositions verify height blockHash commit).toFinset ≤
      power vs.powerAt (vs.signers verify height blockHash commit) :=
    power_mono (nonneg _) countedPositions_subset_signers
  have signersLe : power vs.powerAt
      (vs.signers verify height blockHash commit) ≤ vs.totalPower.toInt := by
    rw [exact.total_eq, ← power_members]
    exact power_mono (nonneg _) (Finset.filter_subset _ _)
  have countedNonneg : 0 ≤ power vs.powerAt
      (vs.countedPositions verify height blockHash commit).toFinset :=
    power_nonneg (nonneg _)
  have representable := vs.totalPower.toInt_lt
  rcases counted_of_verifyCommit_ok accepted with ⟨-, -, reached⟩
  rw [surplus_of_nodup nodup, add_zero, wrap_of_inRange ⟨by omega, by omega⟩] at reached
  exact reached.trans countedLe

/-- Commits of one height that name no counted validator twice are for the same block, or
validators as heavy as what two quorums share have signed both. -/
theorem commits_accountable (exact : vs.Exact) (nonempty : vs.validators ≠ [])
    {left right : Commit} {leftHash rightHash : Bytes}
    (leftOnce : (vs.countedPositions verify height leftHash left).Nodup)
    (rightOnce : (vs.countedPositions verify height rightHash right).Nodup)
    (leftAccepted : vs.verifyCommit verify height leftHash (some left) = .ok ())
    (rightAccepted : vs.verifyCommit verify height rightHash (some right) = .ok ()) :
    leftHash = rightHash ∨ makeCommitSignBytes height left.round leftHash ≠
        makeCommitSignBytes height right.round rightHash ∧
      ∃ group, vs.Overlap group ∧ ∀ position ∈ group,
        vs.hasSigned verify height leftHash left position = true ∧
          vs.hasSigned verify height rightHash right position = true := by
  rw [or_iff_not_imp_left]
  intro different
  refine ⟨?_, _, overlap_inter exact nonempty (Finset.filter_subset _ _) (Finset.filter_subset _ _)
    (quorum_signed_of_nodup exact leftOnce leftAccepted)
    (quorum_signed_of_nodup exact rightOnce rightAccepted), ?_⟩
  · intro same
    rw [makeCommitSignBytes, makeCommitSignBytes] at same
    exact different (append_inj_right same (by simp))
  · intro position both
    obtain ⟨inLeft, inRight⟩ := Finset.mem_inter.mp both
    exact ⟨(Finset.mem_filter.mp inLeft).2, (Finset.mem_filter.mp inRight).2⟩

end SimpleValidatorSet

/-- A stand-in for `ed25519.Verify` under which a key's only valid signature
repeats its first byte. -/
def echoVerify (publicKey _message signature : Bytes) : Bool :=
  signature == List.replicate signatureSize (publicKey.headD 0)

/-- Four validators of power 100, as in the package's own quorum test. -/
def fourValidators : List (Option Validator) :=
  [0, 1, 2, 3].map fun i => some
    { index := 0, address := [i], publicKey := List.replicate publicKeySize i,
      votingPower := 100, proposerPriority := 0 }

def fourValidatorSet : SimpleValidatorSet :=
  { validators := copyValidators fourValidators, totalPower := 400, epoch := 0 }

def signedByAll (blockHash : Bytes) : Commit :=
  { height := 10, round := 0, blockHash
    signatures := [0, 1, 2, 3].map fun i =>
      { validatorIndex := i, signature := some (List.replicate signatureSize i.toUInt8) } }

/-- All four validators sign two blocks. -/
theorem commits_accountable_four : ∃ group, fourValidatorSet.Overlap group := by
  have exact := @exact_of_new fourValidatorSet fourValidators 0 (by decide) (by decide)
  have accountable := @commits_accountable echoVerify fourValidatorSet 10 exact (by decide)
    (signedByAll [7]) (signedByAll [8]) [7] [8] (by decide) (by decide) (by decide) (by decide)
  obtain ⟨-, group, overlap, -⟩ := accountable.resolve_left (by decide)
  exact ⟨group, overlap⟩

/-! ## What the threshold promises -/

structure SafeQuorum (vs : SimpleValidatorSet) : Prop where
  exact : vs.QuorumExact
  threshold_eq : ∀ verify height blockHash commit,
    commit.height = height → commit.blockHash = blockHash →
      vs.verifyCommit verify height blockHash (some commit) =
        if vs.countedPower verify height blockHash commit < vs.quorum then
          .error (.insufficientQuorum
            (vs.countedPower verify height blockHash commit) vs.quorum)
        else .ok ()
  one_le : 1 ≤ vs.quorum.toInt
  le_total : vs.quorum.toInt ≤ vs.totalVotingPower.toInt
  two_thirds : 3 * vs.quorum.toInt > 2 * vs.totalVotingPower.toInt
  overlap : ∀ left ⊆ vs.members, ∀ right ⊆ vs.members,
    vs.quorum.toInt ≤ power vs.powerAt left →
    vs.quorum.toInt ≤ power vs.powerAt right →
      (vs.totalVotingPower.toInt - 1) / 3 <
        power vs.powerAt (left ∩ right)

/-- `Quorum` keeps its promises except for totals above half of the `int64`
range that leave remainder two modulo three. -/
theorem safeQuorum_iff {validators : List (Option Validator)} {epoch : UInt64}
    {vs : SimpleValidatorSet} (built : newSimpleValidatorSet validators epoch = .ok vs)
    (nonempty : 1 ≤ vs.powerSum) (bounded : vs.powerSum ≤ 2 ^ 63 - 1) :
    SafeQuorum vs ↔
      vs.powerSum ≤ (2 ^ 63 - 1) / 2 ∨ vs.powerSum % 3 ≠ 2 := by
  have exact := exact_of_new built bounded
  have quorumEq := toInt_quorum_of_exact exact
  have totalEq : vs.totalVotingPower.toInt = vs.powerSum := exact.total_eq
  rw [← multiplyFirstLimit, ← two_thirds_iff]
  constructor
  · intro safe
    have twoThirds := safe.two_thirds
    rw [quorumEq, totalEq] at twoThirds
    exact twoThirds
  · intro twoThirds
    refine ⟨?_, ?_, ?_, ?_, ?_, ?_⟩
    · apply quorumExact
      rw [exact.total_eq]
      omega
    · intro verify height blockHash commit sameHeight sameHash
      simp only [verifyCommit, sameHeight, sameHash, ne_eq,
        not_true_eq_false, ↓reduceIte]
      rfl
    · rw [quorumEq]
      exact threshold_pos (by omega)
    · rw [quorumEq, totalEq]
      exact threshold_le nonempty
    · rw [quorumEq, totalEq]
      exact twoThirds
    · intro left leftSubset right rightSubset leftQuorum rightQuorum
      have shared := power_add_le
        (fun position _ => powerAt_nonneg exact position)
        leftSubset rightSubset
      have beyond := faulty_lt_overlap twoThirds
      rw [power_members] at shared
      rw [totalEq]
      omega

/-- A single validator that holds the whole power. -/
def soleValidator (power : Int64) : Validator :=
  { index := 0, address := [1], publicKey := [], votingPower := power,
    proposerPriority := 0 }

theorem safeQuorum_four :
    SafeQuorum { validators := [soleValidator 4], totalPower := 4, epoch := 0 } :=
  (@safeQuorum_iff [some (soleValidator 4)] 0 _
    (by decide) (by decide) (by decide)).mpr (by decide)

/-- At a total of `2 ^ 62 + 1` the threshold is below two thirds. -/
theorem quorum_below_two_thirds :
    newSimpleValidatorSet [some (soleValidator 4611686018427387905)] 0 =
        .ok { validators := [soleValidator 4611686018427387905],
              totalPower := 4611686018427387905, epoch := 0 } ∧
      ¬SafeQuorum { validators := [soleValidator 4611686018427387905],
                    totalPower := 4611686018427387905, epoch := 0 } := by
  refine ⟨by decide, fun safe => ?_⟩
  exact absurd safe.two_thirds (by decide)

/-! ## The bytes that are signed -/

theorem byte_shift {width : Nat} (word : BitVec width) (shift : Nat) (inside : shift + 8 ≤ width) :
    UInt8.ofBitVec ((word.sshiftRight shift).setWidth 8) =
      UInt8.ofNat (word.toNat / 2 ^ shift) := by
  have bits : (word.sshiftRight shift).setWidth 8 = word.extractLsb' shift 8 := by
    apply BitVec.eq_of_getLsbD_eq
    intro i small
    have inWord : ¬width ≤ i := by omega
    rw [BitVec.getLsbD_setWidth, BitVec.getLsbD_extractLsb', BitVec.getLsbD_sshiftRight,
      if_pos (by omega)]
    simp [inWord]
  rw [bits, BitVec.extractLsb', Nat.shiftRight_eq_div_pow]
  rfl

theorem makeCommitSignBytes_eq (height : Int64) (round : Int32) (blockHash : Bytes) :
    makeCommitSignBytes height round blockHash =
      encodeWord height ++ encode 4 round.toUInt32.toNat ++ blockHash := by
  have ofHeight := byte_shift height.toBitVec
  have ofRound := byte_shift round.toBitVec
  have lowHeight := height.toBitVec.sshiftRight_zero ▸ ofHeight 0 (by decide)
  have lowRound := round.toBitVec.sshiftRight_zero ▸ ofRound 0 (by decide)
  rw [makeCommitSignBytes]
  congr 1
  simp only [encodeWord, encode, cons_append, nil_append,
    List.cons.injEq, and_true]
  exact ⟨ofHeight 56 (by decide), ofHeight 48 (by decide), ofHeight 40 (by decide),
    ofHeight 32 (by decide), ofHeight 24 (by decide), ofHeight 16 (by decide),
    ofHeight 8 (by decide), lowHeight, ofRound 24 (by decide), ofRound 16 (by decide),
    ofRound 8 (by decide), lowRound⟩

/-- The bytes to sign say the height, the round and the hash. -/
theorem makeCommitSignBytes_inj {height height' : Int64} {round round' : Int32}
    {blockHash blockHash' : Bytes} :
    makeCommitSignBytes height round blockHash = makeCommitSignBytes height' round' blockHash' ↔
      height = height' ∧ round = round' ∧ blockHash = blockHash' := by
  constructor
  · intro same
    rw [makeCommitSignBytes_eq, makeCommitSignBytes_eq] at same
    obtain ⟨sameWords, sameHash⟩ := append_inj same (by simp)
    obtain ⟨sameHeight, sameRound⟩ := append_inj sameWords (by simp)
    have sameWord := BigEndian.encode_inj (UInt32.toNat_lt _) (UInt32.toNat_lt _) sameRound
    exact ⟨BigEndian.encodeWord_inj.mp sameHeight,
      Int32.toBitVec_inj.mp (BitVec.toNat_inj.mp sameWord), sameHash⟩
  · rintro ⟨rfl, rfl, rfl⟩
    rfl

end Blockberry.Consensus
