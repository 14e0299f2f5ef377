import Mathlib.Data.List.Chain
import Blockberry.Lib.Fallible
import Blockberry.Sync.Reactor

/-!
# What a response does

A response is checked by one loop and stored by a second one. Here is what either
loop can do, once for all stores and once for stores that keep the contract of the
interface; what is proved about responses elsewhere rests on these facts.
-/

namespace Blockberry.Sync

open BlockStore SyncReactor List CheckFailure

variable {σ : Type} [BlockStore σ] {hashBlock : Bytes → Bytes}

namespace SyncReactor

/-- Everything a response can do to the reactor and to the store: it is turned down
as it stands, or its blocks pass the checks and go through the storing loop. -/
theorem handleBlocksResponse_cases (hashBlock : Bytes → Bytes) (r : SyncReactor σ)
    (schedule : Schedule) (peerID : PeerID) (message : Option (List BlockData)) :
    (message = none ∧
        r.handleBlocksResponse hashBlock schedule peerID message = ⟨r, [], .invalidMessage⟩) ∨
      ∃ blocks, message = some blocks ∧ (r.blockStore = none ∧
            r.handleBlocksResponse hashBlock schedule peerID message =
              ⟨r.clearPending peerID, [], .ok⟩ ∨
          ∃ store, r.blockStore = some store ∧ (blocks = [] ∧
                r.handleBlocksResponse hashBlock schedule peerID message =
                  ⟨((r.clearPending peerID).checkSync schedule).1,
                    ((r.clearPending peerID).checkSync schedule).2, .ok⟩ ∨
              (∃ failure, checkBlocks store 0 (height store + 1) blocks = .error failure ∧
                r.handleBlocksResponse hashBlock schedule peerID message =
                  (r.clearPending peerID).rejectResponse peerID failure) ∨
              ∃ checked, blocks ≠ [] ∧ checkBlocks store 0 (height store + 1) blocks = .ok checked ∧
                let stored := (r.clearPending peerID).storeBlocks hashBlock peerID store checked
                let synced := { r.clearPending peerID with
                  blockStore := some stored.1 }.checkSync schedule
                r.handleBlocksResponse hashBlock schedule peerID message =
                  ⟨synced.1, stored.2 ++ synced.2, .ok⟩)) := by
  cases message with
  | none => exact Or.inl ⟨rfl, rfl⟩
  | some blocks =>
    refine Or.inr ⟨blocks, rfl, ?_⟩
    have sameStore : (r.clearPending peerID).blockStore = r.blockStore := rfl
    simp only [handleBlocksResponse, sameStore]
    cases r.blockStore with
    | none => exact Or.inl ⟨rfl, rfl⟩
    | some store =>
      refine Or.inr ⟨store, rfl, ?_⟩
      by_cases empty : blocks = []
      · exact Or.inl ⟨empty, by simp [empty]⟩
      · right
        have nonzero : ¬blocks.length = 0 := fun zero =>
          empty (length_eq_zero_iff.mp zero)
        simp only [if_neg nonzero]
        cases checkBlocks store 0 (height store + 1) blocks with
        | error failure => exact Or.inl ⟨failure, rfl, rfl⟩
        | ok checked => exact Or.inr ⟨checked, empty, rfl, rfl⟩

variable {r : SyncReactor σ} {store : σ}

theorem handleBlocksResponse_of_checked (hashBlock : Bytes → Bytes)
    (hasStore : r.blockStore = some store) {blocks : List BlockData}
    (nonempty : blocks ≠ [])
    {checked : List PeerBlock}
    (passed : checkBlocks store 0 (height store + 1) blocks = .ok checked)
    (schedule : Schedule) (peerID : PeerID) :
    let stored := (r.clearPending peerID).storeBlocks hashBlock peerID store checked
    let synced := { r.clearPending peerID with blockStore := some stored.1 }.checkSync schedule
    r.handleBlocksResponse hashBlock schedule peerID (some blocks) =
      ⟨synced.1, stored.2 ++ synced.2, .ok⟩ := by
  have sameStore : (r.clearPending peerID).blockStore = some store := hasStore
  simp [handleBlocksResponse, sameStore, nonempty, passed]

theorem handleBlocksResponse_of_failure (hashBlock : Bytes → Bytes)
    (hasStore : r.blockStore = some store) {blocks : List BlockData}
    (nonempty : blocks ≠ [])
    {failure : CheckFailure}
    (failed : checkBlocks store 0 (height store + 1) blocks = .error failure)
    (schedule : Schedule) (peerID : PeerID) :
    r.handleBlocksResponse hashBlock schedule peerID (some blocks) =
      (r.clearPending peerID).rejectResponse peerID failure := by
  have sameStore : (r.clearPending peerID).blockStore = some store := hasStore
  simp [handleBlocksResponse, sameStore, nonempty, failed]

theorem validator_handleBlocksResponse (hashBlock : Bytes → Bytes) (r : SyncReactor σ)
    (schedule : Schedule) (peerID : PeerID) (message : Option (List BlockData)) :
    (r.handleBlocksResponse hashBlock schedule peerID message).reactor.validator = r.validator := by
  rcases handleBlocksResponse_cases hashBlock r schedule peerID message with
    ⟨-, outcome⟩ | ⟨blocks, -, ⟨-, outcome⟩ | ⟨store, -, ⟨-, outcome⟩ |
      ⟨failure, -, outcome⟩ | ⟨checked, -, -, outcome⟩⟩⟩
  · rw [outcome]
  · rw [outcome]
    rfl
  · rw [outcome]
    exact (frame_checkSync _ schedule).validator
  · rw [outcome]
    cases failure <;> rfl
  · rw [outcome]
    exact (frame_checkSync _ schedule).validator

/-! ## Saved blocks were checked -/

variable {err : Option StoreError} {peerID : PeerID} {h : Int64}

/-- The storing loop saves only blocks whose hash is right and which the
reactor's validator accepts. -/
theorem saved_of_storeBlock {block : PeerBlock} {hash data : Bytes}
    (saved : Call.saveBlock h hash data err ∈ (r.storeBlock hashBlock peerID store block).2) :
    hashBlock data = hash ∧ r.validator.getD defaultBlockValidator h hash data = none := by
  simp only [storeBlock] at saved
  split at saved
  next => contradiction
  split at saved
  next => exact absurd saved (by simp [penalize])
  next sameHash =>
    split at saved
    next => exact absurd saved (by simp [penalize])
    next accepted =>
      rcases mem_cons.mp saved with isCall | later
      · cases isCall
        exact ⟨not_not.mp sameHash, accepted⟩
      · split at later <;> simp at later

theorem saved_of_storeBlocks {blocks : List PeerBlock} {hash data : Bytes}
    (saved : Call.saveBlock h hash data err ∈ (r.storeBlocks hashBlock peerID store blocks).2) :
    hashBlock data = hash ∧ r.validator.getD defaultBlockValidator h hash data = none := by
  induction blocks generalizing store with
  | nil => contradiction
  | cons block rest ih =>
    rcases mem_append.mp saved with now | later
    · exact saved_of_storeBlock now
    · exact ih later

theorem not_saved_of_checkSync {schedule : Schedule} {hash data : Bytes} :
    Call.saveBlock h hash data err ∉ (r.checkSync schedule).2 := by
  intro made
  rcases calls_checkSync made with ⟨peerID, since, other⟩ | other <;> contradiction

theorem saved_of_handleBlocksResponse {schedule : Schedule}
    {message : Option (List BlockData)} {hash data : Bytes}
    (saved : Call.saveBlock h hash data err ∈
      (r.handleBlocksResponse hashBlock schedule peerID message).calls) :
    hashBlock data = hash ∧ r.validator.getD defaultBlockValidator h hash data = none := by
  rcases handleBlocksResponse_cases hashBlock r schedule peerID message with
    ⟨-, outcome⟩ | ⟨blocks, -, ⟨-, outcome⟩ | ⟨store, -, ⟨-, outcome⟩ |
      ⟨failure, -, outcome⟩ | ⟨checked, -, -, outcome⟩⟩⟩
  · simp [outcome] at saved
  · simp [outcome] at saved
  · rw [outcome] at saved
    exact absurd saved not_saved_of_checkSync
  · rw [outcome] at saved
    cases failure <;> simp [rejectResponse, penalize] at saved
  · rw [outcome] at saved
    rcases mem_append.mp saved with stored | requested
    · exact (saved_of_storeBlocks stored :)
    · exact absurd requested not_saved_of_checkSync

end SyncReactor

namespace PeerBlock

/-- The message the block was read from. -/
def toBlockData (block : PeerBlock) : BlockData :=
  ⟨some block.height, block.hash, block.data⟩

/-- The block passes `ValidateBlockData`. -/
def WellFormed (block : PeerBlock) : Prop :=
  validateBlockData (some block.height) block.hash block.data = none

/-- The heights of the blocks are `first`, `first + 1` and so on. -/
def Consecutive : Int64 → List PeerBlock → Prop
  | _, [] => True
  | first, block :: rest => block.height = first ∧ Consecutive (first + 1) rest

end PeerBlock

open PeerBlock

variable {blocks : List BlockData} {store : σ} {expected : Int64} {checked : List PeerBlock}

/-- The three outcomes of one iteration of the checking loop, which do not depend on the blocks
that follow. -/
theorem checkBlocks_cons_cases (store : σ) (i : Nat) (expected : Int64) (block : BlockData) :
    (∃ failure, failure ≠ nilHeight ∧
        (block.height = none → validateBlockData none block.hash block.data ≠ none) ∧
        ∀ rest, checkBlocks store i expected (block :: rest) = .error failure) ∨
      (block.height = none ∧ validateBlockData none block.hash block.data = none ∧
        ∀ rest, checkBlocks store i expected (block :: rest) = .error nilHeight) ∨
      ∃ first : PeerBlock, block = first.toBlockData ∧ first.WellFormed ∧
        (if i = 0 then first.height ≤ expected else first.height = expected) ∧
        ∀ rest, checkBlocks store i expected (block :: rest) =
          (checkBlocks store (i + 1) (first.height + 1) rest).map (first :: ·) := by
  rcases block with ⟨_ | height, hash, data⟩
  · cases valid : validateBlockData none hash data with
    | some cause =>
      refine .inl ⟨invalidBlock i cause, by simp, by simp, ?_⟩
      intro rest
      simp [checkBlocks, valid]
    | none =>
      refine .inr (.inl ⟨rfl, rfl, ?_⟩)
      intro rest
      simp [checkBlocks, valid]
  · cases valid : validateBlockData (some height) hash data with
    | some cause =>
      refine .inl ⟨invalidBlock i cause, by simp, by simp, ?_⟩
      intro rest
      simp [checkBlocks, valid]
    | none =>
      simp only [checkBlocks, valid]
      by_cases isFirst : i = 0
      · simp only [if_pos isFirst]
        by_cases above : height > expected
        · have notBelow : ¬height < expected := Int64.not_lt.mpr (Int64.le_of_lt above)
          exact .inl ⟨nonContiguousBlock expected height, by simp, by simp,
            fun _ => by simp [notBelow, above]⟩
        · exact .inr (.inr ⟨⟨height, hash, data⟩, rfl, valid, Int64.not_lt.mp above,
            fun _ => by simp [above]⟩)
      · simp only [if_neg isFirst]
        by_cases same : height = expected
        · exact .inr (.inr ⟨⟨height, hash, data⟩, rfl, valid, same, fun _ => by simp [same]⟩)
        · exact .inl ⟨_, by simp, by simp, fun _ => if_pos same⟩

theorem checkBlocks_cons_eq_ok_iff {i : Nat} {block : BlockData} :
    checkBlocks store i expected (block :: blocks) = .ok checked ↔
      ∃ (first : PeerBlock) (rest : List PeerBlock), block = first.toBlockData ∧
        checked = first :: rest ∧ first.WellFormed ∧
        (if i = 0 then first.height ≤ expected else first.height = expected) ∧
        checkBlocks store (i + 1) (first.height + 1) blocks = .ok rest := by
  constructor
  · intro passed
    rcases checkBlocks_cons_cases store i expected block with
      ⟨failure, -, -, outcome⟩ | ⟨-, -, outcome⟩ | ⟨first, isBlock, valid, inOrder, outcome⟩
    · cases (outcome blocks).symm.trans passed
    · cases (outcome blocks).symm.trans passed
    · rcases Fallible.map_eq_ok_iff.mp ((outcome blocks).symm.trans passed) with
        ⟨rest, restOk, rfl⟩
      exact ⟨first, rest, isBlock, rfl, valid, inOrder, restOk⟩
  · rintro ⟨first, rest, rfl, rfl, valid, inOrder, restOk⟩
    rw [WellFormed] at valid
    simp only [checkBlocks, toBlockData, valid]
    split at inOrder
    next isFirst =>
      rw [if_pos isFirst, if_neg (Int64.not_lt.mpr inOrder)]
      split <;> rw [restOk] <;> rfl
    next notFirst =>
      rw [if_neg notFirst, if_neg (not_not.mpr inOrder), ← inOrder, restOk]
      rfl

/-- After the first block, the loop accepts exactly the blocks that are well formed
and continue at the expected height. -/
theorem checkBlocks_succ_eq_ok_iff {i : Nat} :
    checkBlocks store (i + 1) expected blocks = .ok checked ↔
      blocks = checked.map toBlockData ∧ (∀ b ∈ checked, b.WellFormed) ∧
        Consecutive expected checked := by
  induction blocks generalizing i expected checked with
  | nil =>
    simp only [checkBlocks, Except.ok.injEq]
    constructor
    · rintro rfl
      simp [Consecutive]
    · rintro ⟨empty, -⟩
      exact (map_eq_nil_iff.mp empty.symm).symm
  | cons block blocks ih =>
    rw [checkBlocks_cons_eq_ok_iff]
    constructor
    · rintro ⟨first, rest, rfl, rfl, valid, inOrder, restOk⟩
      rcases ih.mp restOk with ⟨rfl, restValid, consecutive⟩
      refine ⟨rfl, forall_mem_cons.mpr ⟨valid, restValid⟩, inOrder, ?_⟩
      rw [← show first.height = expected from inOrder]
      exact consecutive
    · rintro ⟨same, valid, consecutive⟩
      cases checked with
      | nil => contradiction
      | cons first rest =>
        rcases List.cons.inj same with ⟨rfl, rfl⟩
        rcases consecutive with ⟨rfl, consecutive⟩
        rcases forall_mem_cons.mp valid with ⟨firstValid, restValid⟩
        exact ⟨first, rest, rfl, rfl, firstValid, rfl, ih.mpr ⟨rfl, restValid, consecutive⟩⟩

variable {rest : List PeerBlock}

/-- The loop accepts exactly the responses whose blocks are well formed and
consecutive and do not start above the expected height. -/
theorem checkBlocks_zero_eq_ok_iff {first : PeerBlock} :
    checkBlocks store 0 expected blocks = .ok (first :: rest) ↔
      blocks = (first :: rest).map toBlockData ∧ (∀ b ∈ first :: rest, b.WellFormed) ∧
        first.height ≤ expected ∧ Consecutive first.height (first :: rest) := by
  cases blocks with
  | nil => simp [checkBlocks]
  | cons block blocks =>
    simp only [checkBlocks_cons_eq_ok_iff, checkBlocks_succ_eq_ok_iff, Consecutive,
      forall_mem_cons, map_cons, List.cons.injEq]
    constructor
    · rintro ⟨_, _, rfl, ⟨rfl, rfl⟩, valid, notAbove, rfl, restValid, consecutive⟩
      exact ⟨⟨rfl, rfl⟩, ⟨valid, restValid⟩, notAbove, trivial, consecutive⟩
    · rintro ⟨⟨rfl, rfl⟩, ⟨valid, restValid⟩, notAbove, -, consecutive⟩
      exact ⟨first, rest, rfl, ⟨rfl, rfl⟩, valid, notAbove, rfl, restValid, consecutive⟩

theorem checkBlocks_ne_nilHeight (i : Nat) (expected : Int64) (blocks : List PeerBlock) :
    checkBlocks store i expected (blocks.map toBlockData) ≠ .error nilHeight := by
  induction blocks generalizing i expected with
  | nil => simp [checkBlocks]
  | cons b rest ih =>
    rcases checkBlocks_cons_cases store i expected b.toBlockData with
      ⟨failure, other, -, outcome⟩ | ⟨absent, -⟩ | ⟨first, -, -, -, outcome⟩
    · rw [map_cons, outcome]
      exact fun same => other (Except.error.inj same)
    · cases absent
    · rw [map_cons, outcome, ne_eq, Fallible.map_eq_error_iff]
      exact ih (i + 1) _

omit [BlockStore σ] in
theorem rejectResponse_penalises {r : SyncReactor σ} (network : r.networkSet = true)
    {failure : CheckFailure} (possible : failure ≠ .nilHeight) (peerID : PeerID) :
    ∃ points reason message, Call.addPenalty peerID points reason message ∈
      (r.rejectResponse peerID failure).calls := by
  cases failure with
  | invalidBlock | nonContiguousBlock =>
    simp [rejectResponse, penalize, network]
  | nilHeight => contradiction

theorem toBlockData_injective : Function.Injective toBlockData := by
  rintro ⟨h, x, d⟩ ⟨h', x', d'⟩ same
  cases same
  rfl

/-- The blocks pass the checking loop as they are. -/
def PassesChecks (store : σ) (blocks : List PeerBlock) : Prop :=
  SyncReactor.checkBlocks store 0 (height store + 1) (blocks.map toBlockData) = .ok blocks

theorem passesChecks_cons_iff {first : PeerBlock} : PassesChecks store (first :: rest) ↔
      (∀ b ∈ first :: rest, b.WellFormed) ∧ first.height ≤ height store + 1 ∧
        Consecutive first.height (first :: rest) := by
  rw [PassesChecks, checkBlocks_zero_eq_ok_iff]
  exact and_iff_right rfl

/-- Blocks with heights pass the checks or fail them in a way that is penalised. -/
theorem passesChecks_or_failure (store : σ) (blocks : List PeerBlock) : PassesChecks store blocks ∨
      ∃ failure, failure ≠ nilHeight ∧
        checkBlocks store 0 (height store + 1) (blocks.map toBlockData) = .error failure := by
  cases result : checkBlocks store 0 (height store + 1)
      (blocks.map toBlockData) with
  | error failure =>
    right
    refine ⟨failure, ?_, rfl⟩
    rintro rfl
    exact checkBlocks_ne_nilHeight 0 _ _ result
  | ok checked =>
    left
    cases blocks with
    | nil => rfl
    | cons b rest =>
      rcases checkBlocks_cons_eq_ok_iff.mp result with ⟨first, later, -, rfl, -⟩
      have same := (checkBlocks_zero_eq_ok_iff.mp result).1
      rw [PassesChecks, result, map_injective_iff.mpr toBlockData_injective same]

theorem toInt_height_succ {block : PeerBlock} (wellFormed : block.WellFormed) :
    (block.height + 1).toInt = block.height.toInt + 1 := by
  rcases (validateBlockData_some_eq_none_iff.mp wellFormed).1 with ⟨nonneg, small⟩
  rw [Int64.le_iff_toInt_le] at nonneg small
  have lower : 0 ≤ block.height.toInt := nonneg
  have upper : block.height.toInt ≤ 4611686018427387903 := small
  have one : (1 : Int64).toInt = 1 := rfl
  have inRange : Machine.InRange (block.height.toInt + (1 : Int64).toInt) := by
    rw [one]
    exact ⟨by omega, by omega⟩
  rw [Machine.toInt_add_of_inRange inRange, one]

/-- Every block is one above the block before it. -/
abbrev Ascending (blocks : List PeerBlock) : Prop :=
  blocks.IsChain fun b c => c.height.toInt = b.height.toInt + 1

theorem Ascending.lt {b c : PeerBlock} (ascending : Ascending (b :: rest)) (later : c ∈ rest) :
    b.height.toInt < c.height.toInt := by
  have increasing : (b :: rest).IsChain fun b c => b.height.toInt < c.height.toInt :=
    ascending.imp fun b c step => by omega
  have trans : IsTrans PeerBlock fun b c => b.height.toInt < c.height.toInt :=
    ⟨fun _ _ _ => Int.lt_trans⟩
  exact rel_of_pairwise_cons (isChain_iff_pairwise.mp increasing) later

theorem Ascending.height_ne {b c : PeerBlock}
    (ascending : Ascending (b :: rest)) (later : c ∈ rest) : c.height ≠ b.height := by
  intro same
  exact absurd (ascending.lt later) (by rw [same]; exact Int.lt_irrefl _)

theorem Ascending.left {first second : List PeerBlock}
    (ascending : Ascending (first ++ second)) : Ascending first :=
  (isChain_append.mp ascending).1

theorem Ascending.right {first second : List PeerBlock}
    (ascending : Ascending (first ++ second)) : Ascending second :=
  (isChain_append.mp ascending).2.1

theorem ascending_of_consecutive {first : Int64} {blocks : List PeerBlock}
    (wellFormed : ∀ b ∈ blocks, b.WellFormed) (consecutive : Consecutive first blocks) :
    Ascending blocks := by
  induction blocks generalizing first with
  | nil => exact List.IsChain.nil
  | cons b rest ih =>
    rcases forall_mem_cons.mp wellFormed with ⟨bValid, restValid⟩
    rcases consecutive with ⟨rfl, consecutive⟩
    refine isChain_cons.mpr ⟨?_, ih restValid consecutive⟩
    intro c isHead
    cases rest with
    | nil => contradiction
    | cons d rest =>
      cases isHead
      rw [consecutive.1, toInt_height_succ bValid]

theorem ascending_of_checkBlocks (passed : checkBlocks store 0 expected blocks = .ok checked) :
    Ascending checked := by
  cases checked with
  | nil => exact List.IsChain.nil
  | cons first rest =>
    rcases checkBlocks_zero_eq_ok_iff.mp passed with ⟨-, wellFormed, -, consecutive⟩
    exact ascending_of_consecutive wellFormed consecutive

section Lawful

variable {σ : Type} [LawfulBlockStore σ] {r : SyncReactor σ} {peerID : PeerID} {store : σ}
  {block : PeerBlock}

open LawfulBlockStore

variable (hashBlock) in
structure Acceptable (validator : Option BlockValidator) (store : σ) (block : PeerBlock) :
    Prop where
  free : hasBlock store block.height = false
  hash_eq : hashBlock block.data = block.hash
  accepted : validator.getD defaultBlockValidator block.height block.hash block.data = none
  fresh : hashKnown store block.hash = false
  available : available store block.height = true

theorem Acceptable.saved (acceptable : Acceptable hashBlock r.validator store block) :
    (saveBlock store block.height block.hash block.data).2 = none :=
  (saveBlock_ok_iff store block.height block.hash block.data).mpr
    ⟨acceptable.free, acceptable.fresh, acceptable.available⟩

theorem storeBlock_of_acceptable (acceptable : Acceptable hashBlock r.validator store block) :
    r.storeBlock hashBlock peerID store block =
      ((saveBlock store block.height block.hash block.data).1,
        .saveBlock block.height block.hash block.data none ::
          if r.peerManagerSet then [.markBlockReceived peerID block.height] else []) := by
  simp [storeBlock, acceptable.free, acceptable.hash_eq, acceptable.accepted, acceptable.saved]

theorem storeBlock_of_not_acceptable (not : ¬Acceptable hashBlock r.validator store block) :
    (r.storeBlock hashBlock peerID store block).1 = store := by
  simp only [storeBlock]
  split
  next => rfl
  next free =>
    split
    next => rfl
    next sameHash =>
      split
      next => rfl
      next accepted =>
        apply saveBlock_failed
        intro saved
        rcases (saveBlock_ok_iff store block.height block.hash block.data).mp saved with
          ⟨free, fresh, available⟩
        exact not ⟨free, not_not.mp sameHash, accepted, fresh, available⟩

/-- Storing one block can spoil another one only through its height or its hash. -/
theorem acceptable_saveBlock_iff {other : PeerBlock}
    (acceptable : Acceptable hashBlock r.validator store block)
    (different : other.height ≠ block.height) :
    Acceptable hashBlock r.validator (saveBlock store block.height block.hash block.data).1 other ↔
      Acceptable hashBlock r.validator store other ∧ other.hash ≠ block.hash := by
  have hasEq := hasBlock_saveBlock acceptable.saved other.height
  have knownEq := hashKnown_saveBlock store _ _ _ acceptable.saved other.hash
  have availableEq := available_saveBlock store block.height block.hash block.data
  constructor
  · rintro ⟨free, sameHash, accepted, fresh, available⟩
    rw [hasEq, Bool.or_eq_false_iff] at free
    rw [knownEq, Bool.or_eq_false_iff, beq_eq_false_iff_ne] at fresh
    rw [availableEq] at available
    exact ⟨⟨free.2, sameHash, accepted, fresh.2, available⟩, fresh.1⟩
  · rintro ⟨⟨free, sameHash, accepted, fresh, available⟩, otherHash⟩
    refine ⟨?_, sameHash, accepted, ?_, ?_⟩
    · simp [hasEq, free, different]
    · simp [knownEq, fresh, otherHash]
    · rw [availableEq]
      exact available

@[simp] theorem storeBlocks_nil : r.storeBlocks hashBlock peerID store [] = (store, []) := rfl

@[simp] theorem storeBlocks_cons_store (rest : List PeerBlock) :
    (r.storeBlocks hashBlock peerID store (block :: rest)).1 =
      (r.storeBlocks hashBlock peerID (r.storeBlock hashBlock peerID store block).1 rest).1 :=
  rfl

@[simp] theorem storeBlocks_cons_calls (rest : List PeerBlock) :
    (r.storeBlocks hashBlock peerID store (block :: rest)).2 =
      (r.storeBlock hashBlock peerID store block).2 ++ (r.storeBlocks hashBlock peerID
          (r.storeBlock hashBlock peerID store block).1 rest).2 :=
  rfl

/-- What the storing of acceptable blocks keeps holds of the store in the end. -/
theorem storeBlocks_preserves (holds : σ → Prop) {blocks : List PeerBlock}
    (kept : ∀ store, ∀ b ∈ blocks, Acceptable hashBlock r.validator store b → holds store →
      holds (saveBlock store b.height b.hash b.data).1) (initially : holds store) :
    holds (r.storeBlocks hashBlock peerID store blocks).1 := by
  induction blocks generalizing store with
  | nil => exact initially
  | cons block rest ih =>
    rw [storeBlocks_cons_store]
    apply ih fun store b later => kept store b (mem_cons_of_mem _ later)
    by_cases acceptable : Acceptable hashBlock r.validator store block
    · rw [storeBlock_of_acceptable acceptable]
      exact kept store block mem_cons_self acceptable initially
    · rw [storeBlock_of_not_acceptable acceptable]
      exact initially

theorem heights_subset_storeBlocks (store : σ) (blocks : List PeerBlock) :
    heights store ⊆ heights (r.storeBlocks hashBlock peerID store blocks).1 := by
  refine storeBlocks_preserves (heights store ⊆ heights ·) ?_ subset_rfl
  intro _ _ _ acceptable contained
  rw [heights_saveBlock acceptable.saved]
  exact contained.trans (Set.subset_insert _ _)

theorem heights_storeBlocks_subset (store : σ) (blocks : List PeerBlock) :
    heights (r.storeBlocks hashBlock peerID store blocks).1 ⊆
      heights store ∪ {h | ∃ b ∈ blocks, b.height.toInt = h} := by
  refine storeBlocks_preserves (heights · ⊆ _) ?_ Set.subset_union_left
  intro _ b member acceptable contained
  rw [heights_saveBlock acceptable.saved]
  exact Set.insert_subset (Or.inr ⟨b, member, rfl⟩) contained

theorem height_le_storeBlocks (store : σ) (blocks : List PeerBlock) :
    height store ≤ height (r.storeBlocks hashBlock peerID store blocks).1 := by
  refine storeBlocks_preserves (BlockStore.height store ≤ BlockStore.height ·) ?_ ?_
  · intro next _ _ _ atLeast
    exact Int64.le_trans atLeast (height_le_saveBlock next _ _ _)
  · exact Int64.le_refl _

/-- An acceptable block is stored unless a block before it has the same hash. -/
theorem mem_heights_storeBlocks {earlier later : List PeerBlock}
    (ascending : Ascending (earlier ++ block :: later))
    (acceptable : Acceptable hashBlock r.validator store block)
    (newHash : ∀ b ∈ earlier, b.hash ≠ block.hash) :
    block.height.toInt ∈
      heights (r.storeBlocks hashBlock peerID store (earlier ++ block :: later)).1 := by
  induction earlier generalizing store with
  | nil =>
    rw [nil_append, storeBlocks_cons_store, storeBlock_of_acceptable acceptable]
    apply heights_subset_storeBlocks
    rw [heights_saveBlock acceptable.saved]
    exact Set.mem_insert _ _
  | cons b earlier ih =>
    rcases forall_mem_cons.mp newHash with ⟨otherHash, newHash⟩
    rw [cons_append, storeBlocks_cons_store]
    by_cases bAcceptable : Acceptable hashBlock r.validator store b
    · have higher : block.height ≠ b.height :=
        ascending.height_ne (mem_append_right _ mem_cons_self)
      rw [storeBlock_of_acceptable bAcceptable]
      exact ih ascending.tail
        ((acceptable_saveBlock_iff bAcceptable higher).mpr ⟨acceptable, otherHash.symm⟩) newHash
    · rw [storeBlock_of_not_acceptable bAcceptable]
      exact ih ascending.tail acceptable newHash

/-- A response leaves the store, or passes the checks and goes through the storing loop. -/
theorem blockStore_handleBlocksResponse (hashBlock : Bytes → Bytes)
    (hasStore : r.blockStore = some store) (schedule : Schedule) (peerID : PeerID)
    (message : Option (List BlockData)) :
    ((r.handleBlocksResponse hashBlock schedule peerID message).reactor.blockStore = some store ∧
        ∀ blocks checked, message = some blocks →
          checkBlocks store 0 (height store + 1) blocks = .ok checked → checked = []) ∨
      ∃ blocks checked, message = some blocks ∧
        checkBlocks store 0 (height store + 1) blocks = .ok checked ∧
        (r.handleBlocksResponse hashBlock schedule peerID message).reactor.blockStore =
          some ((r.clearPending peerID).storeBlocks hashBlock peerID store checked).1 := by
  rcases handleBlocksResponse_cases hashBlock r schedule peerID message with
    ⟨rfl, outcome⟩ | ⟨blocks, rfl, ⟨noStore, -⟩ | ⟨store', hasStore', ⟨rfl, outcome⟩ |
      ⟨failure, failed, outcome⟩ | ⟨checked, -, passed, outcome⟩⟩⟩
  · rw [outcome]
    exact .inl ⟨hasStore, by simp⟩
  · cases hasStore.symm.trans noStore
  · rw [outcome, (frame_checkSync _ schedule).blockStore]
    refine .inl ⟨hasStore, ?_⟩
    rintro _ _ ⟨⟩ ⟨⟩
    rfl
  · cases hasStore.symm.trans hasStore'
    refine .inl ⟨?_, ?_⟩
    · rw [outcome]
      cases failure <;> exact hasStore
    · rintro _ _ ⟨⟩ passed
      cases failed.symm.trans passed
  · cases hasStore.symm.trans hasStore'
    rw [outcome, (frame_checkSync _ schedule).blockStore]
    exact .inr ⟨blocks, checked, rfl, passed, rfl⟩

end Lawful

end Blockberry.Sync
