import Blockberry.Lib.FiniteMap
import Blockberry.Lib.Trace
import Blockberry.P2P.Calls
import Blockberry.StateStore.Snapshot

/-!
# The state-sync reactor

`StateSyncReactor` collects snapshot offers, selects one, downloads its chunks and hands them to
the snapshot store. Three functions give up the lock in the middle, so every function is cut into
sections that run under it. A section returns an `Outcome`: the reactor, the calls it made, and the
rest of the function. `System` is the reactor with all suspended functions; its events start a
function or resume one, in any order. The clock, the order of the maps, and how network calls and
the import end are part of the event.
-/

namespace Blockberry.StateSync

open StateStore FiniteMap

inductive StateSyncState where
  | idle
  | discovering
  | downloading
  | applying
  | complete
  | failed
  deriving DecidableEq, Repr

/-- `SnapshotOffer`. A time is its nanoseconds, or none for the zero time. -/
structure SnapshotOffer where
  peerID : PeerID
  height : Int64
  hash : Bytes
  chunks : Int
  appHash : Bytes
  createdAt : Option Int
  deriving DecidableEq, Repr

structure StateSyncReactor where
  networkSet : Bool
  peerManagerSet : Bool
  trustHeight : Int64
  trustHash : Bytes
  chunkRequestTimeout : Int
  maxChunkRetries : Int
  state : StateSyncState
  offers : Finmap fun _ : Bytes => SnapshotOffer
  selectedOffer : Option SnapshotOffer
  chunks : List Bytes
  chunkStatus : List Bool
  pendingChunks : Finmap fun _ : Nat => PeerID
  chunkRetries : Finmap fun _ : Nat => Int
  lastChunkTime : Finmap fun _ : Nat => Int
  onCompleteSet : Bool
  onFailedSet : Bool

def newStateSyncReactor (networkSet peerManagerSet : Bool) (trustHeight : Int64)
    (trustHash : Bytes) (chunkRequestTimeout maxChunkRetries : Int) : StateSyncReactor where
  networkSet
  peerManagerSet
  trustHeight
  trustHash
  chunkRequestTimeout
  maxChunkRetries
  state := .idle
  offers := ∅
  selectedOffer := none
  chunks := []
  chunkStatus := []
  pendingChunks := ∅
  chunkRetries := ∅
  lastChunkTime := ∅
  onCompleteSet := false
  onFailedSet := false

variable (r : StateSyncReactor)

/-- `Start`, on a reactor that is not running. -/
def start : StateSyncReactor := { r with state := .discovering }

/-! ## Messages and calls -/

/-- One entry of a `SnapshotsResponse`. -/
structure SnapshotMetadata where
  height : Option Int64
  hash : Option Bytes
  chunks : Option Int32
  appHash : Option Bytes
  createdAt : Int64
  deriving DecidableEq, Repr

structure SnapshotChunkResponse where
  snapshotHash : Option Bytes
  chunkIndex : Option Int32
  data : Option Bytes
  chunkHash : Option Bytes
  deriving DecidableEq, Repr

inductive StateSyncCall where
  | sendSnapshotsRequest (peerID : PeerID) (minHeight : Int64)
  | sendChunkRequest (peerID : PeerID) (snapshotHash : Bytes) (chunkIndex : Int32)
  | addPenalty (peerID : PeerID) (points : Int64) (reason : PenaltyReason)
      (message : String)
  | importSnapshot (snapshot : Snapshot) (chunks : List Bytes)
  | onComplete (height : Int64) (appHash : Bytes)
  | onFailed (err : String)
  deriving DecidableEq, Repr

/-- What is left of a function that has given up the lock. -/
inductive Suspended where
  | discovering
  | importing (offer : SnapshotOffer)
  | completing (height : Int64) (appHash : Bytes)
  | failing (err : String)
  deriving DecidableEq, Repr

inductive MessageError where
  | invalidMessage
  deriving DecidableEq, Repr

/-- The result of a section. `panic` says that the process has died in it. -/
structure Outcome where
  reactor : StateSyncReactor
  calls : List StateSyncCall := []
  suspended : Option Suspended := none
  err : Option MessageError := none
  panic : Bool := false

/-! ## Discovery -/

/-- `discoverSnapshots` up to the point where it takes the lock for writing. -/
def discoverSnapshots (peers : List PeerID) : Outcome :=
  if r.state ≠ .discovering then { reactor := r }
  else if r.networkSet = false ∨ r.peerManagerSet = false then { reactor := r }
  else
    { reactor := r
      calls := peers.map fun peerID => .sendSnapshotsRequest peerID r.trustHeight
      suspended := some .discovering }

/-- One round of the loop of `selectBestSnapshot`. -/
def betterOffer (best : Option SnapshotOffer) (offer : SnapshotOffer) : Option SnapshotOffer :=
  if offer.height < r.trustHeight then best
  else if offer.height = r.trustHeight ∧ r.trustHash ≠ [] ∧ offer.appHash ≠ r.trustHash then
    best
  else
    match best with
    | none => some offer
    | some chosen => if chosen.height < offer.height then some offer else best

/-- `selectBestSnapshot`. `make` panics when the offer announces a negative number of
chunks. -/
def selectBestSnapshot (order : List Bytes) : Outcome :=
  match (order.filterMap r.offers.lookup).foldl (betterOffer r) none with
  | none => { reactor := r }
  | some best =>
    if best.chunks < 0 then { reactor := r, panic := true }
    else
      { reactor :=
          { r with
            selectedOffer := some best
            chunks := List.replicate best.chunks.toNat []
            chunkStatus := List.replicate best.chunks.toNat false
            state := .downloading } }

/-- The end of `discoverSnapshots`, under the lock. -/
def finishDiscovery (order : List Bytes) : Outcome :=
  if 0 < r.offers.keys.card ∧ r.selectedOffer = none then selectBestSnapshot r order
  else { reactor := r }

/-- The offer that an entry of a `SnapshotsResponse` makes, if no field is missing. -/
def offerOf (peerID : PeerID) (entry : SnapshotMetadata) : Option SnapshotOffer :=
  match entry.height, entry.hash, entry.chunks, entry.appHash with
  | some height, some hash, some chunks, some appHash =>
    some
      { peerID, height, hash, chunks := chunks.toInt, appHash
        createdAt := if entry.createdAt = 0 then none else some entry.createdAt.toInt }
  | _, _, _, _ => none

variable (offer : SnapshotOffer)

def storeOffer : StateSyncReactor :=
  { r with offers := r.offers.insert offer.hash offer }

/-- `handleSnapshotsResponse`; `none` is a response that does not unmarshal. -/
def handleSnapshotsResponse (peerID : PeerID)
    (response : Option (List SnapshotMetadata)) : Outcome :=
  match response with
  | none => { reactor := r, err := some .invalidMessage }
  | some snapshots =>
    if r.state ≠ .discovering then { reactor := r }
    else { reactor := (snapshots.filterMap (offerOf peerID)).foldl storeOffer r }

/-! ## The end of a sync -/

/-- `transitionToFailed` up to the callback. -/
def transitionToFailed (err : String) : Outcome :=
  { reactor := { r with state := .failed }
    suspended := if r.onFailedSet then some (.failing err) else none }

/-- The metadata that the reactor gives to `Import`. -/
def snapshotOf : Snapshot where
  version := snapshotVersion
  height := offer.height
  hash := offer.hash
  chunkSize := 0
  chunks := offer.chunks
  metadata := []
  appHash := offer.appHash
  createdAt := offer.createdAt

/-- `applySnapshotLocked` up to the call of `Import`. -/
def applySnapshotLocked : Outcome :=
  { reactor := { r with state := .applying }
    calls := [.importSnapshot (snapshotOf offer) r.chunks]
    suspended := some (.importing offer) }

/-- `applySnapshotLocked` from the return of `Import` to the callback. -/
def finishImport (err : Option String) : Outcome :=
  match err with
  | some message => transitionToFailed r ("applying snapshot: " ++ message)
  | none =>
    { reactor := { r with state := .complete }
      suspended :=
        if r.onCompleteSet then some (.completing offer.height offer.appHash) else none }

/-! ## Chunks -/

/-- One round of the loop of `checkChunkTimeouts`. -/
def timeOutChunk (now : Int) (r : StateSyncReactor) (idx : Nat) : StateSyncReactor :=
  match r.lastChunkTime.lookup idx with
  | none => r
  | some reqTime =>
    if r.chunkRequestTimeout < now - reqTime then
      { r with
        chunkRetries := r.chunkRetries.insert idx (valueOr 0 r.chunkRetries idx + 1)
        pendingChunks := r.pendingChunks.erase idx
        lastChunkTime := r.lastChunkTime.erase idx }
    else r

def checkChunkTimeouts (now : Int) (order : List Nat) : Outcome :=
  if r.state ≠ .downloading then { reactor := r }
  else { reactor := order.foldl (timeOutChunk now) r }

def getPeersWithSnapshot (hash : Bytes) (order : List Bytes) : List PeerID :=
  ((order.filterMap r.offers.lookup).filter fun offer => offer.hash = hash).map
    SnapshotOffer.peerID

/-- How the calls of one `requestMissingChunks` go, for each chunk. -/
structure RequestEnv where
  sendErr : Nat → Option String
  now : Nat → Int

/-- `sendChunkRequestLocked`: the call it makes and its error. -/
def sendChunkRequestLocked (env : RequestEnv) (peerID : PeerID)
    (snapshotHash : Bytes) (chunkIndex : Nat) : List StateSyncCall × Option String :=
  if r.networkSet then
    ([.sendChunkRequest peerID snapshotHash (Int32.ofNat chunkIndex)], env.sendErr chunkIndex)
  else ([], none)

def markPending (idx : Nat) (peerID : PeerID) (now : Int) : StateSyncReactor :=
  { r with
    pendingChunks := r.pendingChunks.insert idx peerID
    lastChunkTime := r.lastChunkTime.insert idx now }

/-- The loop of `requestMissingChunks` over the chunk indices that are left. -/
def requestChunks (env : RequestEnv) (hash : Bytes) (peers : List PeerID) :
    StateSyncReactor → Nat → List (Bool × Nat) → Outcome
  | r, _, [] => { reactor := r }
  | r, peerIdx, (status, idx) :: rest =>
    if status then requestChunks env hash peers r peerIdx rest
    else if idx ∈ r.pendingChunks then requestChunks env hash peers r peerIdx rest
    else if r.maxChunkRetries ≤ valueOr 0 r.chunkRetries idx then
      transitionToFailed r ("chunk " ++ toString idx ++ " exceeded max retries")
    else
      let peerID := peers.getD (peerIdx % peers.length) ""
      let sent := sendChunkRequestLocked r env peerID hash idx
      let next := match sent.2 with
        | some _ => r
        | none => markPending r idx peerID (env.now idx)
      let later := requestChunks env hash peers next (peerIdx + 1) rest
      { later with calls := sent.1 ++ later.calls }

def requestMissingChunks (env : RequestEnv) (order : List Bytes) : Outcome :=
  if r.state ≠ .downloading then { reactor := r }
  else
    match r.selectedOffer with
    | none => { reactor := r }
    | some offer =>
      if r.chunkStatus.all id then applySnapshotLocked r offer
      else
        let peers := getPeersWithSnapshot r offer.hash order
        if peers = [] then { reactor := r }
        else requestChunks env offer.hash peers r 0 r.chunkStatus.zipIdx

def storeChunk (idx : Nat) (data : Bytes) : StateSyncReactor :=
  { r with
    chunks := r.chunks.set idx data
    chunkStatus := r.chunkStatus.set idx true
    pendingChunks := r.pendingChunks.erase idx
    lastChunkTime := r.lastChunkTime.erase idx }

variable (sha256 : Bytes → Bytes)

/-- `handleChunkResponse` once all fields of the response are present. -/
def receiveChunk (r : StateSyncReactor) (peerID : PeerID)
    (snapshotHash : Bytes) (chunkIndex : Int32) (data chunkHash : Bytes) : Outcome :=
  if r.state ≠ .downloading then { reactor := r }
  else
    match r.selectedOffer with
    | none => { reactor := r }
    | some offer =>
      if snapshotHash ≠ offer.hash then { reactor := r }
      else if chunkIndex.toInt < 0 ∨ r.chunks.length ≤ chunkIndex.toInt then
        { reactor := r }
      else if r.chunkStatus.getD chunkIndex.toInt.toNat false then { reactor := r }
      else if sha256 data ≠ chunkHash then
        { reactor := r
          calls :=
            if r.networkSet then
              [.addPenalty peerID penaltyInvalidBlock .invalidBlock "chunk hash mismatch"]
            else [] }
      else { reactor := storeChunk r chunkIndex.toInt.toNat data }

/-- `handleChunkResponse`; `none` is a response that does not unmarshal. -/
def handleChunkResponse (r : StateSyncReactor) (peerID : PeerID)
    (response : Option SnapshotChunkResponse) : Outcome :=
  match response with
  | some ⟨some snapshotHash, some chunkIndex, some data, some chunkHash⟩ =>
    receiveChunk sha256 r peerID snapshotHash chunkIndex data chunkHash
  | _ => { reactor := r, err := some .invalidMessage }

/-- One round of the loop of `OnPeerDisconnected`. -/
def dropPending (peerID : PeerID) (r : StateSyncReactor) (idx : Nat) : StateSyncReactor :=
  if r.pendingChunks.lookup idx = some peerID then
    { r with
      pendingChunks := r.pendingChunks.erase idx
      lastChunkTime := r.lastChunkTime.erase idx }
  else r

def onPeerDisconnected (peerID : PeerID) (order : List Nat) : Outcome :=
  { reactor := order.foldl (dropPending peerID) r }

/-! ## Interleavings -/

def resume (order : List Bytes) (importErr : Option String) :
    Suspended → Outcome
  | .discovering => finishDiscovery r order
  | .importing offer => finishImport r offer importErr
  | .completing height appHash => { reactor := r, calls := [.onComplete height appHash] }
  | .failing err => { reactor := r, calls := [.onFailed err] }

/-- The reactor and the functions that wait for the lock, for the snapshot store or for
a callback. -/
structure System where
  reactor : StateSyncReactor
  tasks : List Suspended
  crashed : Bool

def started : System where
  reactor := start r
  tasks := []
  crashed := false

inductive Event where
  | discoverSnapshots (peers : List PeerID)
  | checkChunkTimeouts (now : Int) (order : List Nat)
  | requestMissingChunks (env : RequestEnv) (order : List Bytes)
  | handleSnapshotsResponse (peerID : PeerID) (response : Option (List SnapshotMetadata))
  | handleChunkResponse (peerID : PeerID) (response : Option SnapshotChunkResponse)
  | onPeerDisconnected (peerID : PeerID) (order : List Nat)
  | resume (position : Nat) (order : List Bytes) (importErr : Option String)

def oneChunkSync (hash data chunkHash : Bytes) : List Event :=
  [.discoverSnapshots ["peer"],
    .handleSnapshotsResponse "peer" (some [⟨some 5, some hash, some 1, some [1], 0⟩]),
    .resume 0 [hash] none,
    .requestMissingChunks ⟨fun _ => none, fun _ => 0⟩ [hash],
    .handleChunkResponse "peer" (some ⟨some hash, some 0, some data, some chunkHash⟩),
    .requestMissingChunks ⟨fun _ => none, fun _ => 0⟩ [hash],
    .resume 0 [] none,
    .resume 0 [] none]

variable (sys : System)

/-- The suspended function that an event continues, if any. -/
def Event.task : Event → Option Suspended
  | .resume position _ _ => sys.tasks[position]?
  | _ => none

/-- The functions that stay suspended while the event runs. -/
def Event.others : Event → List Suspended
  | .resume position _ _ => sys.tasks.eraseIdx position
  | _ => sys.tasks

/-- The section that an event runs. Resuming at a position where nothing is suspended
does nothing. -/
def Event.outcome : Event → Outcome
  | .discoverSnapshots peers => StateSync.discoverSnapshots sys.reactor peers
  | .checkChunkTimeouts now order => StateSync.checkChunkTimeouts sys.reactor now order
  | .requestMissingChunks env order => StateSync.requestMissingChunks sys.reactor env order
  | .handleSnapshotsResponse peerID response =>
    StateSync.handleSnapshotsResponse sys.reactor peerID response
  | .handleChunkResponse peerID response =>
    StateSync.handleChunkResponse sha256 sys.reactor peerID response
  | .onPeerDisconnected peerID order => StateSync.onPeerDisconnected sys.reactor peerID order
  | .resume position order importErr =>
    match sys.tasks[position]? with
    | some task => StateSync.resume sys.reactor order importErr task
    | none => { reactor := sys.reactor }

/-- One event. A process that has panicked does nothing any more. -/
def step (event : Event) : System :=
  if sys.crashed then sys
  else
    let outcome := event.outcome sha256 sys
    { reactor := outcome.reactor
      tasks := event.others sys ++ outcome.suspended.toList
      crashed := outcome.panic }

def emit (event : Event) : List StateSyncCall :=
  if sys.crashed then [] else (event.outcome sha256 sys).calls

end Blockberry.StateSync
