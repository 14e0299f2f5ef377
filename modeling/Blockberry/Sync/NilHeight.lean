import Blockberry.BlockStore.Memory
import Blockberry.Sync.Response

/-!
# Responses with an absent height

The decoder leaves the height of a block nil when it is not on the wire, and `ValidateBlockData`
skips the check of a nil height. `handleBlocksResponse` panics exactly for the responses in which
the checking loop reaches a well-formed block without a height.
-/

namespace Blockberry.Sync

open BlockStore

namespace SyncReactor

variable {σ : Type} [BlockStore σ] {store : σ} {i : Nat} {expected : Int64}
  {blocks : List BlockData}

/-- The checking loop reaches a block without a height that passes `ValidateBlockData`. -/
def ReadsNilHeight (store : σ) (i : Nat) (expected : Int64) (blocks : List BlockData) : Prop :=
  ∃ before block after checked, blocks = before ++ block :: after ∧
    checkBlocks store i expected before = .ok checked ∧ block.height = none ∧
    validateBlockData none block.hash block.data = none

theorem checkBlocks_eq_nilHeight_iff : checkBlocks store i expected blocks = .error .nilHeight ↔
      ReadsNilHeight store i expected blocks := by
  induction blocks generalizing i expected with
  | nil =>
    refine iff_of_false (by simp [checkBlocks]) ?_
    rintro ⟨before, block, after, checked, isSplit, -⟩
    simp at isSplit
  | cons block rest ih =>
    rcases checkBlocks_cons_cases store i expected block with
      ⟨failure, other, fails, outcome⟩ | ⟨absent, valid, outcome⟩ | ⟨first, rfl, -, -, outcome⟩
    · refine iff_of_false (by simp [outcome, other]) ?_
      rintro ⟨before, found, after, checked, isSplit, passed, absent, valid⟩
      cases before with
      | nil =>
        cases isSplit
        exact fails absent valid
      | cons head before =>
        cases isSplit
        rw [outcome] at passed
        cases passed
    · exact iff_of_true (outcome rest) ⟨[], block, rest, [], rfl, rfl, absent, valid⟩
    · rw [outcome, Fallible.map_eq_error_iff, ih]
      constructor
      · rintro ⟨before, found, after, checked, rfl, passed, absent, valid⟩
        refine ⟨first.toBlockData :: before, found, after, first :: checked, rfl, ?_, absent, valid⟩
        rw [outcome, passed]
        rfl
      · rintro ⟨before, found, after, checked, isSplit, passed, absent, valid⟩
        cases before with
        | nil =>
          cases isSplit
          cases absent
        | cons head before =>
          cases isSplit
          rw [outcome] at passed
          obtain ⟨tail, passedTail, -⟩ := Fallible.map_eq_ok_iff.mp passed
          exact ⟨before, found, after, tail, rfl, passedTail, absent, valid⟩

/-- For every store, every reactor and every decoded response: the handler returns exactly when
its checking loop reaches no well-formed block without a height. -/
theorem handleBlocksResponse_returns_iff (hashBlock : Bytes → Bytes) (r : SyncReactor σ)
    (schedule : Schedule) (peerID : PeerID) (message : Option (List BlockData)) :
    (r.handleBlocksResponse hashBlock schedule peerID message).result ≠ .panicked ↔
      ∀ store blocks, r.blockStore = some store → message = some blocks →
        ¬ReadsNilHeight store 0 (height store + 1) blocks := by
  rcases handleBlocksResponse_cases hashBlock r schedule peerID message with
    ⟨rfl, outcome⟩ | ⟨blocks, rfl, ⟨noStore, outcome⟩ | ⟨store, hasStore, ⟨rfl, outcome⟩ |
      ⟨failure, failed, outcome⟩ | ⟨checked, -, passed, outcome⟩⟩⟩
  · rw [outcome]
    exact iff_of_true (by simp) (by simp)
  · rw [outcome]
    exact iff_of_true (by simp) (by simp [noStore])
  · rw [outcome]
    refine iff_of_true (by simp) ?_
    rintro _ _ _ ⟨⟩ reads
    rw [← checkBlocks_eq_nilHeight_iff] at reads
    cases reads
  · have only : (∀ store' blocks', r.blockStore = some store' → some blocks = some blocks' →
          ¬ReadsNilHeight store' 0 (height store' + 1) blocks') ↔ failure ≠ .nilHeight := by
      simp [hasStore, ← checkBlocks_eq_nilHeight_iff, failed]
    rw [outcome, only]
    cases failure <;> simp [rejectResponse]
  · rw [outcome]
    simp [hasStore, ← checkBlocks_eq_nilHeight_iff, passed]

/-- A response with one block that has a hash and data but no height. -/
theorem nil_height_panics :
    ((newSyncReactor (some MemoryBlockStore.empty) true true 10).handleBlocksResponse id
      ⟨0, [], []⟩ "peer" (some [⟨none, [1], [1]⟩])).result = .panicked :=
  rfl

end SyncReactor

end Blockberry.Sync
