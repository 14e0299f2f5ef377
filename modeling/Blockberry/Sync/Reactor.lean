import Blockberry.Lib.FiniteMap
import Blockberry.Types.Block
import Blockberry.P2P.Calls

/-!
# The sync reactor

`SyncReactor` compares its height with those its peers report, keeps one outstanding request for
each peer, and stores the blocks of the responses. A handler returns the reactor, the calls it
made, and how it ended. What Go leaves to the runtime is the `Schedule`: the clock and the order in
which maps are visited. `network`, `peerManager` and the completion callback matter only through
whether they are set.
-/

namespace Blockberry.Sync

open BlockStore

inductive SyncState where
  | synced
  | syncing
  deriving DecidableEq, Repr

/-- `DefaultBlockValidator`, which rejects every block. -/
def defaultBlockValidator : BlockValidator := fun _ _ _ =>
  some "block validator is required: no block validator configured"

/-- An in-flight request. Instants are nanoseconds. -/
structure PendingRequest where
  peerID : PeerID
  startHeight : Int64
  endHeight : Int64
  requestedAt : Int
  deriving DecidableEq, Repr

structure SyncReactor (σ : Type) where
  blockStore : Option σ
  networkSet : Bool
  peerManagerSet : Bool
  batchSize : Int32
  maxParallel : Int
  requestTimeout : Int
  validator : Option BlockValidator
  state : SyncState
  peerHeights : Finmap fun _ : PeerID => Int64
  pendingRequests : Finmap fun _ : PeerID => PendingRequest
  nextRequestHeight : Int64
  lastRequest : Option Int
  onSyncCompleteSet : Bool

def defaultMaxParallel : Int := 4

def defaultRequestTimeout : Int := 30 * 1000000000

def newSyncReactor {σ : Type} (blockStore : Option σ) (networkSet peerManagerSet : Bool)
    (batchSize : Int32) : SyncReactor σ where
  blockStore
  networkSet
  peerManagerSet
  batchSize
  maxParallel := defaultMaxParallel
  requestTimeout := defaultRequestTimeout
  validator := none
  state := .synced
  peerHeights := ∅
  pendingRequests := ∅
  nextRequestHeight := 0
  lastRequest := none
  onSyncCompleteSet := false

/-- The choices of the runtime during one call. -/
structure Schedule where
  now : Int
  peerOrder : List PeerID
  pendingOrder : List PeerID

/-- A request to be sent once the lock is released. -/
structure BlockRequest where
  peerID : PeerID
  start : Int64
  deriving DecidableEq, Repr

/-- A block of a response whose height has been read. -/
structure PeerBlock where
  height : Int64
  hash : Bytes
  data : Bytes
  deriving DecidableEq, Repr

/-- Ways in which the loop that checks a response leaves it. -/
inductive CheckFailure where
  | invalidBlock (index : Nat) (cause : ValidationError)
  | nonContiguousBlock (expected got : Int64)
  | nilHeight
  deriving DecidableEq, Repr

/-- How `handleBlocksResponse` ended. -/
inductive ResponseResult where
  | ok
  | invalidMessage
  | invalidBlock (index : Nat)
  | nonContiguousBlock (expected got : Int64)
  | panicked
  deriving DecidableEq, Repr

structure ResponseOutcome (σ : Type) where
  reactor : SyncReactor σ
  calls : List Call
  result : ResponseResult

/-- The first peer in the list without a pending request, and the peers after it.
No peer is the empty identifier. -/
def nextIdlePeer (pending : Finmap fun _ : PeerID => PendingRequest) :
    List PeerID → PeerID × List PeerID
  | [] => ("", [])
  | candidate :: peers =>
    if candidate ∈ pending then nextIdlePeer pending peers else (candidate, peers)

namespace SyncReactor

variable {σ : Type}

/-! ## Requesting blocks -/

def setValidator (r : SyncReactor σ) (v : Option BlockValidator) : SyncReactor σ :=
  { r with validator := v }

def setMaxParallel (r : SyncReactor σ) (n : Int) : SyncReactor σ :=
  { r with maxParallel := if n < 1 then 1 else n }

def setRequestTimeout (r : SyncReactor σ) (d : Int) : SyncReactor σ :=
  { r with requestTimeout := if d < 1000000000 then 1000000000 else d }

def getMaxPeerHeight (r : SyncReactor σ) (order : List PeerID) : Int64 :=
  (order.filterMap fun peerID => r.peerHeights.lookup peerID).foldl
    (fun maxHeight height => if height > maxHeight then height else maxHeight) 0

def transitionToSynced (r : SyncReactor σ) : SyncReactor σ × List Call :=
  match r.state with
  | .synced => (r, [])
  | .syncing =>
    ({ r with state := .synced }, if r.onSyncCompleteSet then [.onSyncComplete] else [])

def transitionToSyncing (r : SyncReactor σ) : SyncReactor σ :=
  { r with state := .syncing }

/-- One iteration of `cleanupTimedOutRequestsLocked`. -/
def cleanupRequest (now : Int) (r : SyncReactor σ) (peerID : PeerID) : SyncReactor σ :=
  match r.pendingRequests.lookup peerID with
  | none => r
  | some req =>
    if now - req.requestedAt > r.requestTimeout then
      { r with
        pendingRequests := r.pendingRequests.erase peerID
        nextRequestHeight :=
          if req.startHeight < r.nextRequestHeight then req.startHeight
          else r.nextRequestHeight }
    else r

def cleanupTimedOutRequestsLocked (r : SyncReactor σ) (schedule : Schedule) :
    SyncReactor σ :=
  schedule.pendingOrder.foldl (cleanupRequest schedule.now) r

def getPeersWithHeightLocked (r : SyncReactor σ) (order : List PeerID)
    (minHeight : Int64) : List PeerID :=
  order.filter fun peerID => (r.peerHeights.lookup peerID).any (· ≥ minHeight)

/-- One pass of the loop that prepares requests: the next range goes to `peerID`. -/
def issueRequest (r : SyncReactor σ) (now : Int) (peerID : PeerID) : SyncReactor σ :=
  let startHeight := r.nextRequestHeight
  let endHeight := startHeight + r.batchSize.toInt64 - 1
  { r with
    pendingRequests := r.pendingRequests.insert peerID ⟨peerID, startHeight, endHeight, now⟩
    nextRequestHeight := endHeight + 1
    lastRequest := some now }

/-- The loop that prepares up to `available` requests. -/
def issueRequests (now : Int) :
    Nat → List PeerID → SyncReactor σ → SyncReactor σ × List BlockRequest
  | 0, _, r => (r, [])
  | available + 1, peers, r =>
    match nextIdlePeer r.pendingRequests peers with
    | (peerID, rest) =>
      if peerID = "" then (r, [])
      else
        let (final, requests) := issueRequests now available rest (r.issueRequest now peerID)
        (final, ⟨peerID, r.nextRequestHeight⟩ :: requests)

/-- `requestBlocks` initialises the cursor if it is not above `since`. -/
def raiseCursor (r : SyncReactor σ) (since : Int64) : SyncReactor σ :=
  if r.nextRequestHeight ≤ since then { r with nextRequestHeight := since + 1 } else r

/-- The rest of `requestBlocks`, from the choice of peers on. -/
def prepareRequests (r : SyncReactor σ) (schedule : Schedule) :
    SyncReactor σ × List BlockRequest :=
  let peers := r.getPeersWithHeightLocked schedule.peerOrder r.nextRequestHeight
  let available := r.maxParallel - r.pendingRequests.keys.card
  if peers.length = 0 then (r, [])
  else if available ≤ 0 then (r, [])
  else issueRequests schedule.now available.toNat peers r

def requestBlocks (r : SyncReactor σ) (schedule : Schedule) (since : Int64) :
    SyncReactor σ × List BlockRequest :=
  ((r.cleanupTimedOutRequestsLocked schedule).raiseCursor since).prepareRequests schedule

/-- The deletion made when a response arrives and when `SendBlocksRequest` fails.
The cursor stays. -/
def clearPending (r : SyncReactor σ) (peerID : PeerID) : SyncReactor σ :=
  { r with pendingRequests := r.pendingRequests.erase peerID }

def updatePeerHeight (r : SyncReactor σ) (peerID : PeerID) (height : Int64) : SyncReactor σ :=
  { r with peerHeights := r.peerHeights.insert peerID height }

def onPeerConnected (r : SyncReactor σ) (peerID : PeerID) (height : Int64) : SyncReactor σ :=
  r.updatePeerHeight peerID height

def onPeerDisconnected (r : SyncReactor σ) (peerID : PeerID) : SyncReactor σ :=
  let r := { r with peerHeights := r.peerHeights.erase peerID }
  match r.pendingRequests.lookup peerID with
  | none => r
  | some req =>
    { r with
      nextRequestHeight :=
        if req.startHeight < r.nextRequestHeight then req.startHeight
        else r.nextRequestHeight
      pendingRequests := r.pendingRequests.erase peerID }

section Store

variable [BlockStore σ]

def checkSync (r : SyncReactor σ) (schedule : Schedule) : SyncReactor σ × List Call :=
  match r.blockStore with
  | none => (r, [])
  | some store =>
    if !r.peerManagerSet || !r.networkSet then (r, [])
    else if r.getMaxPeerHeight schedule.peerOrder ≤ height store then r.transitionToSynced
    else
      let (r, requests) := r.transitionToSyncing.requestBlocks schedule (height store)
      (r, requests.map fun req => .sendBlocksRequest req.peerID req.start)

/-! ## Handling a response -/

def checkBlocks (store : σ) : Nat → Int64 → List BlockData →
    Except CheckFailure (List PeerBlock)
  | _, _, [] => .ok []
  | i, expectedHeight, block :: rest =>
    match validateBlockData block.height block.hash block.data with
    | some cause => .error (.invalidBlock i cause)
    | none =>
      match block.height with
      | none => .error .nilHeight
      | some height =>
        let passed := fun next =>
          (checkBlocks store (i + 1) next rest).map
            (⟨height, block.hash, block.data⟩ :: ·)
        if i = 0 then
          if height < expectedHeight && hasBlock store height then passed (height + 1)
          else if height > expectedHeight then
            .error (.nonContiguousBlock expectedHeight height)
          else passed (height + 1)
        else if height ≠ expectedHeight then
          .error (.nonContiguousBlock expectedHeight height)
        else passed (expectedHeight + 1)

def penalize (r : SyncReactor σ) (peerID : PeerID) (points : Int64)
    (reason : PenaltyReason) (message : String) : List Call :=
  if r.networkSet then [.addPenalty peerID points reason message] else []

/-- The end of `handleBlocksResponse` when a block fails the checks. -/
def rejectResponse (r : SyncReactor σ) (peerID : PeerID) : CheckFailure → ResponseOutcome σ
  | .invalidBlock index cause =>
    ⟨r, r.penalize peerID penaltyInvalidBlock .invalidBlock cause.error,
      .invalidBlock index⟩
  | .nonContiguousBlock expected got =>
    ⟨r, r.penalize peerID penaltyProtocolViolation .protocolViolation
      ("non-contiguous blocks: expected height " ++ toString expected ++ ", got " ++
        toString got),
      .nonContiguousBlock expected got⟩
  | .nilHeight => ⟨r, [], .panicked⟩

variable (hashBlock : Bytes → Bytes)

/-- One iteration of the loop that stores the blocks. -/
def storeBlock (r : SyncReactor σ) (peerID : PeerID) (store : σ) (block : PeerBlock) :
    σ × List Call :=
  if hasBlock store block.height then (store, [])
  else if hashBlock block.data ≠ block.hash then
    (store, r.penalize peerID penaltyInvalidBlock .invalidBlock "block hash mismatch")
  else
    match r.validator.getD defaultBlockValidator block.height block.hash block.data with
    | some err => (store, r.penalize peerID penaltyInvalidBlock .invalidBlock err)
    | none =>
      let (store, err) := saveBlock store block.height block.hash block.data
      (store, .saveBlock block.height block.hash block.data err ::
        if err.isNone && r.peerManagerSet then [.markBlockReceived peerID block.height]
        else [])

def storeBlocks (r : SyncReactor σ) (peerID : PeerID) : σ → List PeerBlock → σ × List Call
  | store, [] => (store, [])
  | store, block :: rest =>
    let (stored, calls) := r.storeBlock hashBlock peerID store block
    let (final, later) := storeBlocks r peerID stored rest
    (final, calls ++ later)

/-- `handleBlocksResponse`, on the decoded blocks or nothing when decoding
failed. -/
def handleBlocksResponse (r : SyncReactor σ) (schedule : Schedule) (peerID : PeerID)
    (message : Option (List BlockData)) : ResponseOutcome σ :=
  match message with
  | none => ⟨r, [], .invalidMessage⟩
  | some blocks =>
    let r := r.clearPending peerID
    match r.blockStore with
    | none => ⟨r, [], .ok⟩
    | some store =>
      if blocks.length = 0 then
        let (r, calls) := r.checkSync schedule
        ⟨r, calls, .ok⟩
      else
        match checkBlocks store 0 (height store + 1) blocks with
        | .error failure => r.rejectResponse peerID failure
        | .ok checked =>
          let (store, stored) := r.storeBlocks hashBlock peerID store checked
          let (r, requested) := { r with blockStore := some store }.checkSync schedule
          ⟨r, stored ++ requested, .ok⟩

end Store

/-! ## What requesting leaves alone -/

/-- Two reactors with the same store and the same settings. -/
structure Frame (r r' : SyncReactor σ) : Prop where
  blockStore : r'.blockStore = r.blockStore
  networkSet : r'.networkSet = r.networkSet
  validator : r'.validator = r.validator
  batchSize : r'.batchSize = r.batchSize

theorem Frame.refl (r : SyncReactor σ) : Frame r r := ⟨rfl, rfl, rfl, rfl⟩

theorem Frame.trans {r r' r'' : SyncReactor σ} (first : Frame r r') (second : Frame r' r'') :
    Frame r r'' :=
  ⟨second.blockStore.trans first.blockStore, second.networkSet.trans first.networkSet,
    second.validator.trans first.validator, second.batchSize.trans first.batchSize⟩

theorem frame_cleanupRequest (now : Int) (r : SyncReactor σ) (peerID : PeerID) :
    Frame r (cleanupRequest now r peerID) := by
  simp only [cleanupRequest]
  split
  next => exact Frame.refl r
  next =>
    split
    next => exact ⟨rfl, rfl, rfl, rfl⟩
    next => exact Frame.refl r

theorem frame_cleanupTimedOutRequestsLocked (r : SyncReactor σ) (schedule : Schedule) :
    Frame r (r.cleanupTimedOutRequestsLocked schedule) := by
  simp only [cleanupTimedOutRequestsLocked]
  induction schedule.pendingOrder generalizing r with
  | nil => exact Frame.refl r
  | cons peerID order ih =>
    exact (frame_cleanupRequest schedule.now r peerID).trans (ih _)

theorem frame_raiseCursor (r : SyncReactor σ) (since : Int64) : Frame r (r.raiseCursor since) := by
  simp only [raiseCursor]
  split
  next => exact ⟨rfl, rfl, rfl, rfl⟩
  next => exact Frame.refl r

theorem frame_issueRequest (r : SyncReactor σ) (now : Int) (peerID : PeerID) :
    Frame r (r.issueRequest now peerID) :=
  ⟨rfl, rfl, rfl, rfl⟩

theorem frame_issueRequests (now : Int) (available : Nat) (peers : List PeerID)
    (r : SyncReactor σ) : Frame r (issueRequests now available peers r).1 := by
  induction available generalizing peers r with
  | zero => exact Frame.refl r
  | succ available ih =>
    simp only [issueRequests]
    split
    next => exact Frame.refl r
    next => exact (frame_issueRequest r now _).trans (ih _ _)

variable (r : SyncReactor σ)

include r

variable (schedule : Schedule)

theorem frame_prepareRequests : Frame r (r.prepareRequests schedule).1 := by
  simp only [prepareRequests]
  split
  next => exact Frame.refl r
  next =>
    split
    next => exact Frame.refl r
    next => exact frame_issueRequests _ _ _ r

theorem frame_requestBlocks (since : Int64) : Frame r (r.requestBlocks schedule since).1 :=
  (frame_cleanupTimedOutRequestsLocked r schedule).trans
    ((frame_raiseCursor _ since).trans (frame_prepareRequests _ schedule))

theorem frame_transitionToSyncing : Frame r r.transitionToSyncing := ⟨rfl, rfl, rfl, rfl⟩

theorem frame_checkSync [BlockStore σ] : Frame r (r.checkSync schedule).1 := by
  simp only [checkSync]
  split
  next => exact Frame.refl r
  split
  next => exact Frame.refl r
  split
  next =>
    simp only [transitionToSynced]
    split
    next => exact Frame.refl r
    next => exact ⟨rfl, rfl, rfl, rfl⟩
  next => exact (frame_transitionToSyncing r).trans (frame_requestBlocks _ schedule _)

omit r

theorem calls_checkSync [BlockStore σ] {r : SyncReactor σ} {schedule : Schedule} {call : Call}
    (made : call ∈ (r.checkSync schedule).2) :
    (∃ peerID since, call = .sendBlocksRequest peerID since) ∨ call = .onSyncComplete := by
  simp only [checkSync] at made
  split at made
  next => contradiction
  split at made
  next => contradiction
  split at made
  next =>
    simp only [transitionToSynced] at made
    split at made
    next => contradiction
    next =>
      split at made
      next => exact Or.inr (List.mem_singleton.mp made)
      next => contradiction
  next =>
    rcases List.mem_map.mp made with ⟨req, -, rfl⟩
    exact Or.inl ⟨req.peerID, req.start, rfl⟩

end SyncReactor

end Blockberry.Sync
