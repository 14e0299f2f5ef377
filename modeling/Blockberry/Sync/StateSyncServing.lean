import Blockberry.StateStore.SnapshotIdentity
import Blockberry.Sync.StateSyncSafety

/-!
# Panics of the state-sync reactor

The other half of the reactor answers requests from its snapshot store. A negative number of chunks
in the selected offer and a snapshot hash that is too short to name a directory make it panic. A
slice may be cut up to its capacity; the bytes that the decoder leaves between length and capacity
are part of the request here.
-/

namespace Blockberry.StateSync

open FiniteMap StateStore SnapshotInfo StateSync SortSlice

/-! ## Serving snapshots -/

structure ChunkRequest where
  snapshotHash : Option Bytes
  spare : Bytes
  chunkIndex : Option Int32
  deriving DecidableEq, Repr

inductive ServeCall where
  | sendSnapshotsResponse (peerID : PeerID) (snapshots : List SnapshotMetadata)
  | sendChunkResponse (peerID : PeerID) (response : SnapshotChunkResponse)
  deriving DecidableEq, Repr

/-- The result of a request. `panic` says that the process has died in it. -/
structure ServeOutcome where
  calls : List ServeCall := []
  err : Option MessageError := none
  panic : Bool := false

section Serving

variable {T : Type} (sorter : SortSlice.Sorter SnapshotInfo.rank) (sha256 : Bytes → Bytes)

/-- One round of the loop of `handleSnapshotsRequest`. -/
def offerSnapshot (s : FileSnapshotStore T) (info : SnapshotInfo) : Option SnapshotMetadata :=
  match s.load info.hash with
  | .error _ => none
  | .ok snapshot =>
    some
      { height := some info.height
        hash := some info.hash
        chunks := some (Int32.ofInt info.chunks)
        appHash := some snapshot.appHash
        createdAt := Int64.ofInt (info.createdAt.getD zeroUnixNano) }

/-- `handleSnapshotsRequest` for a request with a minimum height, if it unmarshals. -/
def handleSnapshotsRequest (networkSet : Bool) (s : FileSnapshotStore T) (peerID : PeerID)
    (request : Option (Option Int64)) : ServeOutcome :=
  match request with
  | none => { err := some .invalidMessage }
  | some none => { err := some .invalidMessage }
  | some (some minHeight) =>
    let wanted := (s.list sorter).filter fun info => !decide (info.height < minHeight)
    if wanted.any fun info => info.hash.length < 8 then { panic := true }
    else if networkSet then
      { calls := [.sendSnapshotsResponse peerID (wanted.filterMap (offerSnapshot s))] }
    else {}

/-- `handleChunkRequest`; `none` is a request that does not unmarshal. -/
def handleChunkRequest (networkSet : Bool) (s : FileSnapshotStore T) (peerID : PeerID)
    (request : Option ChunkRequest) : ServeOutcome :=
  match request with
  | some ⟨some snapshotHash, spare, some chunkIndex⟩ =>
    if (snapshotHash ++ spare).length < 8 then { panic := true }
    else
      match s.loadChunk sha256 (snapshotHash ++ spare) chunkIndex.toInt with
      | .error _ => {}
      | .ok chunk =>
        if networkSet then
          { calls := [.sendChunkResponse peerID
              ⟨some snapshotHash, some chunkIndex, some chunk.data, some chunk.hash⟩] }
        else {}
  | _ => { err := some .invalidMessage }

end Serving

/-! ## The reactor with its store -/

/-- The reactor, and the snapshot store with its record. -/
structure Backed (T : Type) where
  sync : System
  catalog : Catalog T

inductive BackedEvent (T : Type) where
  | sync (event : Event)
  | handleSnapshotsRequest (peerID : PeerID) (request : Option (Option Int64))
  | handleChunkRequest (peerID : PeerID) (request : Option ChunkRequest)
  | store (event : CatalogEvent T)

/-- `handleChunkResponse` indexes the chunk status after a check against the chunks. -/
def statusPanics (r : StateSyncReactor) : Option SnapshotChunkResponse → Bool
  | some ⟨some snapshotHash, some chunkIndex, some _, some _⟩ =>
    match r.selectedOffer with
    | none => false
    | some offer =>
      decide (r.state = .downloading ∧ snapshotHash = offer.hash ∧ 0 ≤ chunkIndex.toInt ∧
        chunkIndex.toInt < r.chunks.length ∧ r.chunkStatus.length ≤ chunkIndex.toInt)
  | _ => false

def Event.panics (sha256 : Bytes → Bytes) (sys : System) (event : Event) : Bool :=
  (event.outcome sha256 sys).panic ||
    match event with
    | .handleChunkResponse _ response => statusPanics sys.reactor response
    | _ => false

section Backed

variable {T : Type} (lib : Avlberry T) (gzip : Gzip) (sha256 : Bytes → Bytes)
  (sorter : Sorter rank)

/-- Whether an event panics in a process that is alive. What the owner of the store calls is
no step of the reactor. -/
def Backed.panics (node : Backed T) : BackedEvent T → Bool
  | .sync event => event.panics sha256 node.sync
  | .handleSnapshotsRequest peerID request =>
    (handleSnapshotsRequest sorter node.sync.reactor.networkSet node.catalog.store
      peerID request).panic
  | .handleChunkRequest peerID request =>
    (handleChunkRequest sha256 node.sync.reactor.networkSet node.catalog.store peerID
      request).panic
  | .store _ => false

def Backed.step (node : Backed T) (event : BackedEvent T) : Backed T :=
  if node.sync.crashed then node
  else if node.panics sha256 sorter event then
    { node with sync := { node.sync with crashed := true } }
  else
    match event with
    | .sync event => { node with sync := StateSync.step sha256 node.sync event }
    | .store event => { node with catalog := node.catalog.step lib gzip sha256 sorter event }
    | _ => node

/-- The offer that `selectBestSnapshot` selects. -/
def bestOffer (r : StateSyncReactor) (order : List Bytes) : Option SnapshotOffer :=
  (order.filterMap r.offers.lookup).foldl (betterOffer r) none

def Harmless (node : Backed T) : BackedEvent T → Prop
  | .sync (.resume position order _) =>
    node.sync.tasks[position]? = some .discovering →
      0 < node.sync.reactor.offers.keys.card → node.sync.reactor.selectedOffer = none →
        ∀ best, bestOffer node.sync.reactor order = some best → 0 ≤ best.chunks
  | .handleChunkRequest _ (some ⟨some snapshotHash, spare, some _⟩) =>
    8 ≤ snapshotHash.length + spare.length
  | _ => True

end Backed

section Sections

variable {sha256 : Bytes → Bytes} {sys : System} {r : StateSyncReactor}

theorem panic_requestChunks (env : RequestEnv) (hash : Bytes) (peers : List PeerID)
    (r : StateSyncReactor) (peerIdx : Nat) (rest : List (Bool × Nat)) :
    (requestChunks env hash peers r peerIdx rest).panic = false := by
  induction rest generalizing r peerIdx with
  | nil => rfl
  | cons entry rest ih =>
    rw [requestChunks]
    split
    next => exact ih r peerIdx
    split
    next => exact ih r peerIdx
    next =>
      split
      next => rfl
      next => exact ih _ (peerIdx + 1)

theorem panic_requestMissingChunks (env : RequestEnv) (order : List Bytes) :
    (requestMissingChunks r env order).panic = false := by
  rw [requestMissingChunks]
  split
  next => rfl
  split
  next => rfl
  split
  next => rfl
  dsimp only
  split
  next => rfl
  next => exact panic_requestChunks env _ _ r 0 _

variable (peerID : PeerID)

theorem panic_handleSnapshotsResponse (response : Option (List SnapshotMetadata)) :
    (handleSnapshotsResponse r peerID response).panic = false := by
  cases response with
  | none => rfl
  | some snapshots =>
    rw [handleSnapshotsResponse]
    split <;> rfl

theorem panic_receiveChunk (snapshotHash : Bytes) (chunkIndex : Int32) (data chunkHash : Bytes) :
    (receiveChunk sha256 r peerID snapshotHash chunkIndex data chunkHash).panic = false := by
  rw [receiveChunk]
  split
  next => rfl
  split
  next => rfl
  split
  next => rfl
  split
  next => rfl
  next =>
    split
    next => rfl
    next => split <;> rfl

theorem panic_handleChunkResponse (response : Option SnapshotChunkResponse) :
    (handleChunkResponse sha256 r peerID response).panic = false := by
  unfold handleChunkResponse
  split
  next => exact panic_receiveChunk peerID _ _ _ _
  next => rfl

theorem panic_finishImport (offer : SnapshotOffer) (err : Option String) :
    (finishImport r offer err).panic = false := by
  cases err with
  | none | some => rfl

/-- The end of a discovery panics if the offer it selects has a negative number of chunks. -/
theorem panic_finishDiscovery_iff (order : List Bytes) : (finishDiscovery r order).panic = false ↔
      (0 < r.offers.keys.card → r.selectedOffer = none →
        ∀ best, bestOffer r order = some best → 0 ≤ best.chunks) := by
  rw [finishDiscovery]
  split
  next undecided =>
    rw [selectBestSnapshot]
    split
    next nothing =>
      have none : bestOffer r order = none := nothing
      simp [none]
    next best isBest =>
      have some : bestOffer r order = some best := isBest
      split
      next negative => simp [undecided, some, negative]
      next nonneg => simp [undecided, some, Int.not_lt.mp nonneg]
  next decided =>
    constructor
    · intro _ offers unselected
      exact absurd ⟨offers, unselected⟩ decided
    · intro _
      rfl

/-- A chunk index that is checked against the chunks is in range of their status. -/
theorem statusPanics_eq_false (layout : Layout r) (response : Option SnapshotChunkResponse) :
    statusPanics r response = false := by
  unfold statusPanics
  split
  next snapshotHash chunkIndex data chunkHash =>
    split
    next => rfl
    next offer selected =>
      obtain ⟨chunks, chunkStatus⟩ := layout.lengths offer selected
      apply decide_eq_false
      rintro ⟨-, -, -, inChunks, outside⟩
      rw [chunks] at inChunks
      rw [chunkStatus] at outside
      exact absurd inChunks (Int.not_lt.mpr outside)
  next => rfl

theorem panic_resume_iff (order : List Bytes) (importErr : Option String) (task : Suspended) :
    (resume r order importErr task).panic = false ↔
      (task = .discovering → 0 < r.offers.keys.card → r.selectedOffer = none →
        ∀ best, bestOffer r order = some best → 0 ≤ best.chunks) := by
  cases task with
  | discovering =>
    rw [resume, panic_finishDiscovery_iff]
    exact ⟨fun harmless _ => harmless, fun harmless => harmless rfl⟩
  | importing offer =>
    rw [resume, panic_finishImport]
    exact iff_of_true rfl fun isDiscovering => by cases isDiscovering
  | completing | failing => exact iff_of_true rfl fun isDiscovering => by cases isDiscovering

end Sections

section Steps

variable {T : Type} {lib : Avlberry T} {gzip : Gzip} {sha256 : Bytes → Bytes}
  {sorter : Sorter rank} {node : Backed T}

/-- What holds of the reactor and of its store as long as nothing has panicked. -/
structure Backed.Sound (node : Backed T) : Prop where
  alive : node.sync.crashed = false
  valid : Valid node.sync
  represented : node.catalog.Represented

theorem Backed.Sound.sync_panics_iff (sound : node.Sound) (event : Event) :
    event.panics sha256 node.sync = false ↔ Harmless node (.sync event) := by
  unfold Event.panics
  rw [Bool.or_eq_false_iff]
  cases event with
  | discoverSnapshots peers =>
    refine iff_of_true ⟨?_, rfl⟩ trivial
    rw [Event.outcome, discoverSnapshots]
    split
    next => rfl
    next => split <;> rfl
  | checkChunkTimeouts now order =>
    refine iff_of_true ⟨?_, rfl⟩ trivial
    rw [Event.outcome, checkChunkTimeouts]
    split <;> rfl
  | requestMissingChunks env order =>
    exact iff_of_true ⟨panic_requestMissingChunks env order, rfl⟩ trivial
  | handleSnapshotsResponse peerID response =>
    exact iff_of_true ⟨panic_handleSnapshotsResponse peerID response, rfl⟩ trivial
  | handleChunkResponse peerID response =>
    exact iff_of_true ⟨panic_handleChunkResponse peerID response,
      statusPanics_eq_false sound.valid.layout response⟩ trivial
  | onPeerDisconnected peerID order => exact iff_of_true ⟨rfl, rfl⟩ trivial
  | resume position order importErr =>
    rw [Event.outcome]
    cases isTask : node.sync.tasks[position]? with
    | none =>
      refine iff_of_true ⟨rfl, rfl⟩ ?_
      intro isDiscovering
      rw [isTask] at isDiscovering
      cases isDiscovering
    | some task =>
      change (resume node.sync.reactor order importErr task).panic = false ∧ false = false ↔ _
      rw [and_iff_left rfl, panic_resume_iff, Harmless, isTask, Option.some.injEq]

/-- The hashes of the snapshots in the store are long enough to name a directory. -/
theorem Backed.Sound.panic_handleSnapshotsRequest (sound : node.Sound) (networkSet : Bool)
    (peerID : PeerID) (request : Option (Option Int64)) :
    (handleSnapshotsRequest sorter networkSet node.catalog.store peerID request).panic =
      false := by
  unfold handleSnapshotsRequest
  split
  next => rfl
  next => rfl
  next minHeight =>
    dsimp only
    split
    next short =>
      obtain ⟨info, member, isShort⟩ := List.any_eq_true.mp short
      have long := sound.represented.hash_of_listed (List.mem_of_mem_filter member)
      rw [long] at isShort
      cases isShort
    next => split <;> rfl

theorem panic_handleChunkRequest_iff (networkSet : Bool) (s : FileSnapshotStore T)
    (peerID : PeerID) (snapshotHash spare : Bytes) (chunkIndex : Int32) :
    (handleChunkRequest sha256 networkSet s peerID
      (some ⟨some snapshotHash, spare, some chunkIndex⟩)).panic = false ↔
        8 ≤ snapshotHash.length + spare.length := by
  rw [← List.length_append, handleChunkRequest]
  split
  next short => exact iff_of_false Bool.false_ne_true.symm (Nat.not_le.mpr short)
  next long =>
    refine iff_of_true ?_ (Nat.not_lt.mp long)
    split
    next => rfl
    next => split <;> rfl

theorem Backed.Sound.panics_iff (sound : node.Sound) (event : BackedEvent T) :
    node.panics sha256 sorter event = false ↔ Harmless node event := by
  cases event with
  | sync event => exact sound.sync_panics_iff event
  | handleSnapshotsRequest peerID request =>
    exact iff_of_true (sound.panic_handleSnapshotsRequest _ peerID request) trivial
  | handleChunkRequest peerID request =>
    match request with
    | some ⟨some snapshotHash, spare, some chunkIndex⟩ =>
      exact panic_handleChunkRequest_iff _ _ peerID snapshotHash spare chunkIndex
    | some ⟨some snapshotHash, spare, none⟩ => exact iff_of_true rfl trivial
    | some ⟨none, spare, chunkIndex⟩ => exact iff_of_true rfl trivial
    | none => exact iff_of_true rfl trivial
  | store event => exact iff_of_true rfl trivial

theorem Backed.Sound.step (sound : node.Sound) (sizes : HashSizes lib sha256)
    {event : BackedEvent T} (harmless : Harmless node event) :
    (node.step lib gzip sha256 sorter event).Sound := by
  have quiet : node.panics sha256 sorter event = false := (sound.panics_iff event).mpr harmless
  unfold Backed.step
  rw [sound.alive, quiet]
  cases event with
  | sync event =>
    refine ⟨?_, sound.valid.step event, sound.represented⟩
    have running : ¬node.sync.crashed = true := by rw [sound.alive]; exact Bool.false_ne_true
    change (StateSync.step sha256 node.sync event).crashed = false
    rw [step_running running]
    exact (Bool.or_eq_false_iff.mp quiet).1
  | handleSnapshotsRequest | handleChunkRequest => exact sound
  | store event => exact ⟨sound.alive, sound.valid, sound.represented.step sizes event⟩

end Steps

section Runs

variable {T : Type} {lib : Avlberry T} {gzip : Gzip} {sha256 : Bytes → Bytes}
  {sorter : Sorter rank} (networkSet peerManagerSet : Bool)
  (onCompleteSet onFailedSet : Bool) (trustHeight : Int64) (trustHash : Bytes)
  (chunkRequestTimeout : Int) (maxChunkRetries : Int) (stateStore : IAVLStore T) (chunkSize : Int)

/-- A reactor that has been started, and the snapshot store that backs it. -/
def Backed.new : Backed T where
  sync := startedNew networkSet peerManagerSet onCompleteSet onFailedSet trustHeight trustHash
    chunkRequestTimeout maxChunkRetries
  catalog := Catalog.new stateStore chunkSize

/-- No step of a run panics if and only if every step of it is harmless. -/
theorem never_panics_iff_harmless (sizes : HashSizes lib sha256) (events : List (BackedEvent T)) :
    let start := Backed.new networkSet peerManagerSet onCompleteSet onFailedSet trustHeight
      trustHash chunkRequestTimeout maxChunkRetries stateStore chunkSize
    Run.EveryStep (Backed.step lib gzip sha256 sorter)
        (fun node event => node.panics sha256 sorter event = false) start events ↔
      Run.EveryStep (Backed.step lib gzip sha256 sorter) Harmless start events := by
  intro start
  have initial : start.Sound :=
    ⟨rfl, valid_startedNew networkSet peerManagerSet onCompleteSet onFailedSet trustHeight
      trustHash chunkRequestTimeout maxChunkRetries, represented_new stateStore chunkSize⟩
  exact Run.everyStep_iff initial (fun node event sound => sound.panics_iff event)
    (fun node event sound harmless => sound.step sizes harmless) events

end Runs

namespace FlatTree

open StateStore.FlatTree

def backed : Backed FlatTree :=
  Backed.new true true false false 0 [] 10 3 (StateHistory.ofCalls lib oneCommit).store 1024

def discovering : List (BackedEvent FlatTree) := [.sync (.discoverSnapshots ["peer"])]

/-- The answer of a peer that offers one snapshot, and the end of the discovery. -/
def offerOf (chunks : Int32) : List (BackedEvent FlatTree) :=
  [.sync (.handleSnapshotsResponse "peer" (some [⟨some 5, some [1], some chunks, some [], 0⟩])),
    .sync (.resume 0 [[1]] none)]

def requestOf (hash : Bytes) : BackedEvent FlatTree :=
  .handleChunkRequest "peer" (some ⟨some hash, [], some 0⟩)

def sorter : Sorter rank := insertion rank

theorem honest_run_never_panics :
    Run.EveryStep (Backed.step rootless plain firstBytes sorter)
      (fun node event => node.panics firstBytes sorter event = false) backed
      (requestOf ownHash :: discovering ++ offerOf 2) := by
  have longEnough : 8 ≤ ownHash.length + ([] : Bytes).length := by decide
  refine (never_panics_iff_harmless _ _ _ _ _ _ _ _ _ _ hashSizes_firstBytes _).mpr
    ⟨longEnough, trivial, trivial, ?_, trivial⟩
  intro _ _ _ best isBest
  have all : (bestOffer (Run.after (Backed.step rootless plain firstBytes sorter) backed
      (requestOf ownHash :: discovering ++ (offerOf 2).take 1)).sync.reactor [[1]]).all
        (fun best => decide (0 ≤ best.chunks)) = true := by decide +kernel
  exact of_decide_eq_true (Option.all_eq_true _ _ |>.mp all best isBest)

/-- A peer that offers a negative number of chunks, and one that asks for a chunk of an empty
hash, both kill the process. -/
theorem peer_kills_process :
    ¬Run.EveryStep (Backed.step rootless plain firstBytes sorter)
        (fun node event => node.panics firstBytes sorter event = false) backed
        (discovering ++ offerOf (-1)) ∧
      ¬Run.EveryStep (Backed.step rootless plain firstBytes sorter)
        (fun node event => node.panics firstBytes sorter event = false) backed
        [requestOf []] := by
  constructor
  · rintro ⟨-, -, quiet, -⟩
    revert quiet
    decide +kernel
  · rintro ⟨quiet, -⟩
    cases quiet

end FlatTree

end Blockberry.StateSync
