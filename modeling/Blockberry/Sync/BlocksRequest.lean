import Blockberry.BlockStore.Memory
import Blockberry.Lib.LongestRun
import Blockberry.Sync.Reactor

/-!
# Serving blocks

`handleBlocksRequest` answers with the blocks from the requested height on. Its loop stops at the
batch size, at the height of the store and at the first height without a block.
-/

namespace Blockberry.Sync

open BlockStore List Int64 LongestRun

def maxBatchSize : Int32 := 1000

def minBatchSize : Int32 := 1

def clampBatchSize (size maxSize : Int32) : Int32 :=
  let maxSize := if maxSize ≤ 0 then maxBatchSize else maxSize
  if size < minBatchSize then minBatchSize
  else if size > maxSize then maxSize
  else size

structure BlocksRequest where
  batchSize : Option Int32
  since : Option Int64
  deriving DecidableEq, Repr

inductive BlocksCall where
  | markBlockSent (peerID : PeerID) (height : Int64)
  | sendBlocksResponse (peerID : PeerID) (blocks : List BlockData)
  deriving DecidableEq, Repr

inductive BlocksRequestError where
  | invalidMessage
  | encoding (message : String)
  | sending (message : String)
  deriving DecidableEq, Repr

structure BlocksRequestOutcome where
  calls : List BlocksCall := []
  err : Option BlocksRequestError := none
  deriving DecidableEq, Repr

/-- The errors of the encoder and of the network, if any. -/
structure SendEnv where
  encodeErr : List BlockData → Option String
  sendErr : PeerID → Option String

namespace SyncReactor

section Serving

variable {σ : Type} [BlockStore σ] (r : SyncReactor σ) (peerID : PeerID)

/-- `MarkBlockSent`, if there is a peer manager. -/
def markSent (height : Int64) : List BlocksCall :=
  if r.peerManagerSet then [.markBlockSent peerID height] else []

/-- The loop of `handleBlocksRequest`, with room for some more blocks. -/
def collectBlocks (store : σ) (ourHeight : Int64) : Nat → Int64 → List BlockData × List BlocksCall
  | 0, _ => ([], [])
  | room + 1, height =>
    if height ≤ ourHeight then
      match loadBlock store height with
      | none => ([], [])
      | some (hash, data) =>
        let (blocks, calls) := collectBlocks store ourHeight room (height + 1)
        (⟨some height, hash, data⟩ :: blocks, r.markSent peerID height ++ calls)
    else ([], [])

def sendBlocksResponse (env : SendEnv) (blocks : List BlockData) : BlocksRequestOutcome :=
  if !r.networkSet then {}
  else
    match env.encodeErr blocks with
    | some message => { err := some (.encoding message) }
    | none =>
      { calls := [.sendBlocksResponse peerID blocks]
        err := (env.sendErr peerID).map .sending }

/-- `handleBlocksRequest`; `none` is a message that does not unmarshal. -/
def handleBlocksRequest (env : SendEnv) (message : Option BlocksRequest) :
    BlocksRequestOutcome :=
  match message with
  | some ⟨some size, some since⟩ =>
    let batchSize := clampBatchSize size maxBatchSize
    match validateHeight since with
    | some _ => { err := some .invalidMessage }
    | none =>
      match r.blockStore with
      | none => {}
      | some store =>
        let (blocks, marks) :=
          r.collectBlocks peerID store (height store) batchSize.toInt.toNat since
        if blocks.length = 0 then { calls := marks }
        else
          let sent := r.sendBlocksResponse peerID env blocks
          { sent with calls := marks ++ sent.calls }
  | _ => { err := some .invalidMessage }

end Serving

/-- The height that comes some blocks after another. -/
def heightAfter (since : Int64) (i : Nat) : Int64 := since + Int64.ofNat i

def heightsFrom (since : Int64) (count : Nat) : List Int64 :=
  (List.range count).map (heightAfter since)

section Calls

variable {σ : Type} {r : SyncReactor σ} {peerID : PeerID}

theorem flatMap_markSent (heights : List Int64) : heights.flatMap (r.markSent peerID) =
      if r.peerManagerSet then heights.map (.markBlockSent peerID) else [] := by
  induction heights with
  | nil => rw [flatMap_nil, map_nil, ite_self]
  | cons height heights ih =>
    rw [flatMap_cons, ih, markSent]
    split <;> rfl

theorem calls_sendBlocksResponse (env : SendEnv) (blocks : List BlockData) :
    (r.sendBlocksResponse peerID env blocks).calls =
      if r.networkSet = false ∨ (env.encodeErr blocks).isSome = true then []
      else [.sendBlocksResponse peerID blocks] := by
  rw [sendBlocksResponse]
  cases r.networkSet with
  | false => rfl
  | true =>
    cases env.encodeErr blocks with
    | none | some => rfl

end Calls

section Loop

variable {σ : Type} [BlockStore σ] {r : SyncReactor σ} {peerID : PeerID} {store : σ}

/-- A block that the loop can take. -/
def Servable (store : σ) (since : Int64) (i : Nat) : Prop :=
  heightAfter since i ≤ height store ∧ (loadBlock store (heightAfter since i)).isSome = true

/-- The block carries its height, and what is stored there. -/
def Answers (store : σ) (height : Int64) (block : BlockData) : Prop :=
  block.height = some height ∧ loadBlock store height = some (block.hash, block.data)

variable (since : Int64)

theorem heightAfter_zero : heightAfter since 0 = since := Int64.add_zero since

theorem heightAfter_succ (i : Nat) : heightAfter (since + 1) i = heightAfter since (i + 1) := by
  have next : Int64.ofNat (i + 1) = Int64.ofNat i + 1 := ofNat_add i 1
  rw [heightAfter, heightAfter, next, Int64.add_assoc, Int64.add_comm 1]

theorem servable_succ : (fun i => Servable store since (i + 1)) = Servable store (since + 1) := by
  funext i
  rw [Servable, Servable, heightAfter_succ]

theorem heightsFrom_succ (count : Nat) :
    heightsFrom since (count + 1) = since :: heightsFrom (since + 1) count := by
  have later : heightAfter since ∘ Nat.succ = heightAfter (since + 1) := by
    funext i
    exact (heightAfter_succ since i).symm
  rw [heightsFrom, heightsFrom, range_succ_eq_map, map_cons, map_map, later, heightAfter_zero]

theorem collectBlocks_stop {room : Nat} {since : Int64} (stop : ¬Servable store since 0) :
    r.collectBlocks peerID store (height store) room since = ([], []) := by
  rw [Servable, heightAfter_zero] at stop
  cases room with
  | zero => rfl
  | succ room =>
    rw [collectBlocks]
    split
    next below =>
      cases loaded : loadBlock store since with
      | none => rfl
      | some block => exact absurd ⟨below, by rw [loaded]; rfl⟩ stop
    next => rfl

/-- The loop takes the longest run of stored blocks for which it has room. -/
theorem collectBlocks_spec (room : Nat) (since : Int64) :
    ∃ count blocks, IsGreatest (lengths (Servable store since) room) count ∧
      List.Forall₂ (Answers store) (heightsFrom since count) blocks ∧
      r.collectBlocks peerID store (height store) room since =
        (blocks, (heightsFrom since count).flatMap (r.markSent peerID)) := by
  induction room generalizing since with
  | zero => exact ⟨0, [], isGreatest_of_no_room, .nil, rfl⟩
  | succ room ih =>
    by_cases first : Servable store since 0
    · obtain ⟨count, blocks, greatest, answers, collected⟩ := ih (since + 1)
      rw [← servable_succ] at greatest
      obtain ⟨below, isSome⟩ := first
      rw [heightAfter_zero] at below isSome
      obtain ⟨⟨hash, data⟩, loaded⟩ := Option.isSome_iff_exists.mp isSome
      refine ⟨count + 1, ⟨some since, hash, data⟩ :: blocks,
        isGreatest_succ ⟨?_, ?_⟩ greatest, ?_, ?_⟩
      · rwa [heightAfter_zero]
      · rwa [heightAfter_zero]
      · rw [heightsFrom_succ]
        exact .cons ⟨rfl, loaded⟩ answers
      · rw [collectBlocks, if_pos below, loaded, heightsFrom_succ, flatMap_cons]
        dsimp only
        rw [collected]
    · exact ⟨0, [], isGreatest_of_stop first, .nil, collectBlocks_stop first⟩

theorem toInt_clampBatchSize_le (size : Int32) :
    (clampBatchSize size maxBatchSize).toInt ≤ 1000 := by
  have default : ¬maxBatchSize ≤ 0 := by decide
  rw [clampBatchSize, if_neg default]
  split
  next => decide
  next =>
    split
    next => decide
    next notAbove => exact Int32.le_iff_toInt_le.mp (Int32.not_lt.mp notAbove)

theorem toInt_heightAfter {since : Int64} (nonneg : 0 ≤ since) (small : since ≤ maxBlockHeight)
    {i : Nat} (inBatch : i < 1000) : (heightAfter since i).toInt = since.toInt + i := by
  have low : 0 ≤ since.toInt := le_iff_toInt_le.mp nonneg
  have high : since.toInt ≤ 4611686018427387903 := le_iff_toInt_le.mp small
  have offset : (Int64.ofNat i).toInt = i := toInt_ofNat_of_lt (by omega)
  rw [heightAfter, Machine.toInt_add_of_inRange, offset]
  rw [offset]
  exact ⟨by omega, by omega⟩

/-- The reactor marks and sends the longest run of stored blocks from the requested height on,
up to the clamped batch size and its own height, and sends nothing if the run is empty. -/
theorem handleBlocksRequest_serves_longest_run (isStore : r.blockStore = some store)
    (env : SendEnv) (size : Int32) {since : Int64} (nonneg : 0 ≤ since)
    (small : since ≤ maxBlockHeight) :
    ∃ count blocks,
      IsGreatest (LongestRun.lengths (Servable store since)
        (clampBatchSize size maxBatchSize).toInt.toNat) count ∧
      (∀ i < count, (heightAfter since i).toInt = since.toInt + i) ∧
      List.Forall₂ (Answers store) (heightsFrom since count) blocks ∧
      (r.handleBlocksRequest peerID env (some ⟨some size, some since⟩)).calls =
        (if r.peerManagerSet then (heightsFrom since count).map (.markBlockSent peerID) else []) ++
          (if count = 0 ∨ r.networkSet = false ∨ (env.encodeErr blocks).isSome = true then []
            else [.sendBlocksResponse peerID blocks]) := by
  obtain ⟨count, blocks, greatest, answers, collected⟩ :=
    @collectBlocks_spec σ _ r peerID store (clampBatchSize size maxBatchSize).toInt.toNat since
  have bounded : count ≤ 1000 := by
    have clamped := toInt_clampBatchSize_le size
    have room := greatest.1.1
    omega
  have length : blocks.length = count := by
    rw [← answers.length_eq, heightsFrom, length_map, length_range]
  refine ⟨count, blocks, greatest, ?_, answers, ?_⟩
  · intro i before
    exact toInt_heightAfter nonneg small (before.trans_le bounded)
  · have valid : validateHeight since = none := validateHeight_eq_none_iff.mpr ⟨nonneg, small⟩
    rw [handleBlocksRequest]
    dsimp only
    rw [valid, isStore]
    dsimp only
    rw [collected, flatMap_markSent, length]
    split
    next none => rw [if_pos (Or.inl none), append_nil]
    next some => simp only [calls_sendBlocksResponse, some, false_or]

end Loop

/-- A store with blocks at the heights 1, 2 and 4. -/
def gapped : MemoryBlockStore :=
  [1, 2, 4].foldl (fun store n => (saveBlock store (Int64.ofNat n) [n.toUInt8] [n.toUInt8]).1)
    MemoryBlockStore.empty

def gappedReactor : SyncReactor MemoryBlockStore := newSyncReactor (some gapped) true true 100

/-- The answer to a request for ten blocks ends before the gap. -/
theorem gap_ends_answer :
    (gappedReactor.handleBlocksRequest "peer" ⟨fun _ => none, fun _ => none⟩
        (some ⟨some 10, some 1⟩)).calls =
      [.markBlockSent "peer" 1, .markBlockSent "peer" 2,
        .sendBlocksResponse "peer" [⟨some 1, [1], [1]⟩, ⟨some 2, [2], [2]⟩]] ∧
    ∃ count blocks,
      IsGreatest (LongestRun.lengths (Servable gapped 1)
        (clampBatchSize 10 maxBatchSize).toInt.toNat) count ∧
      List.Forall₂ (Answers gapped) (heightsFrom 1 count) blocks := by
  refine ⟨by decide +kernel, ?_⟩
  obtain ⟨count, blocks, greatest, -, answers, -⟩ :=
    @handleBlocksRequest_serves_longest_run MemoryBlockStore _ gappedReactor "peer" gapped rfl
      ⟨fun _ => none, fun _ => none⟩ 10 1 (by decide) (by decide)
  exact ⟨count, blocks, greatest, answers⟩

end SyncReactor

end Blockberry.Sync
