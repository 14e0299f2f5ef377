import Blockberry.Lib.Lease
import Blockberry.Lib.Run
import Blockberry.BlockStore.Memory
import Blockberry.Sync.Response

/-!
# The request cursor

The reactor leases ranges of heights to its peers: `nextRequestHeight` is the cursor and
`pendingRequests` holds the leases. A timeout and a disconnect take a lease back with the cursor. A
response and a failed send leave the cursor, so that heights which the store still lacks are asked
for by nobody.
-/

namespace Blockberry.Sync

open BlockStore LawfulBlockStore Machine Int64 Lease

/-- The handlers of the reactor, each taken as one step. `requestBlocks` may work on a
height that `checkSync` read earlier. -/
inductive SyncEvent where
  | checkSync (schedule : Schedule)
  | requestBlocks (schedule : Schedule) (since : Int64)
  | sendFailed (peerID : PeerID)
  | blocksResponse (peerID : PeerID) (message : Option (List BlockData))
      (schedule : Schedule)
  | updatePeerHeight (peerID : PeerID) (height : Int64)
  | onPeerConnected (peerID : PeerID) (height : Int64)
  | onPeerDisconnected (peerID : PeerID)
  | setValidator (v : Option BlockValidator)
  | setMaxParallel (n : Int)
  | setRequestTimeout (d : Int)

variable {σ : Type}

namespace SyncReactor

def step [BlockStore σ] (hashBlock : Bytes → Bytes) (r : SyncReactor σ) :
    SyncEvent → SyncReactor σ
  | .checkSync schedule => (r.checkSync schedule).1
  | .requestBlocks schedule since => (r.requestBlocks schedule since).1
  | .sendFailed peerID => r.clearPending peerID
  | .blocksResponse peerID message schedule =>
    (r.handleBlocksResponse hashBlock schedule peerID message).reactor
  | .updatePeerHeight peerID height => r.updatePeerHeight peerID height
  | .onPeerConnected peerID height => r.onPeerConnected peerID height
  | .onPeerDisconnected peerID => r.onPeerDisconnected peerID
  | .setValidator v => r.setValidator v
  | .setMaxParallel n => r.setMaxParallel n
  | .setRequestTimeout d => r.setRequestTimeout d

/-- The height is in the range of the peer's pending request. -/
def Requested (r : SyncReactor σ) (peerID : PeerID) (h : Int64) : Prop :=
  ∃ req, r.pendingRequests.lookup peerID = some req ∧ req.startHeight ≤ h ∧ h ≤ req.endHeight

/-- No height that a peer has and the store lacks is passed by the cursor without
being requested. -/
def NoneSkipped [BlockStore σ] (r : SyncReactor σ) : Prop :=
  ∀ store, r.blockStore = some store → ∀ h, height store < h →
    (∃ peerID peerHeight, r.peerHeights.lookup peerID = some peerHeight ∧ h ≤ peerHeight) →
    h < r.nextRequestHeight → ∃ peerID, r.Requested peerID h

variable [LawfulBlockStore σ] (hashBlock : Bytes → Bytes)

variable (r : SyncReactor σ)

/-- The response passes the checks and has an acceptable block at the height or
above it, the first with its hash. -/
def Delivers (store : σ) (blocks : List BlockData) (h : Int64) : Prop :=
  ∃ earlier block later,
    checkBlocks store 0 (height store + 1) blocks = .ok (earlier ++ block :: later) ∧
      Acceptable hashBlock r.validator store block ∧
      (∀ b ∈ earlier, b.hash ≠ block.hash) ∧ h ≤ block.height

/-- A stale height given to `requestBlocks` is at most the present one. -/
def Admissible : SyncEvent → Prop
  | .requestBlocks _ since => ∀ store, r.blockStore = some store → since ≤ height store
  | _ => True

def Harmless : SyncEvent → Prop
  | .sendFailed peerID => ∀ store h, r.blockStore = some store → r.Requested peerID h →
      height store < h → h < r.nextRequestHeight →
        ∃ other, other ≠ peerID ∧ r.Requested other h
  | .blocksResponse peerID (some blocks) _ =>
    ∀ store h, r.blockStore = some store → r.Requested peerID h →
      height store < h → h < r.nextRequestHeight →
        (∃ other, other ≠ peerID ∧ r.Requested other h) ∨ r.Delivers hashBlock store blocks h
  | _ => True

def ranges (peerID : PeerID) : Option (ℤ × ℤ) :=
  (r.pendingRequests.lookup peerID).map fun req =>
    (req.startHeight.toInt, req.endHeight.toInt)

end SyncReactor

open SyncReactor

theorem holds_ranges_iff {r : SyncReactor σ} {peerID : PeerID} {h : Int64} :
    Holds r.ranges peerID h.toInt ↔ r.Requested peerID h := by
  simp only [Holds, ranges, Requested, Option.map_eq_some_iff]
  constructor
  · rintro ⟨low, high, ⟨req, found, pair⟩, above, below⟩
    cases pair
    exact ⟨req, found, Int64.le_iff_toInt_le.mpr above, Int64.le_iff_toInt_le.mpr below⟩
  · rintro ⟨req, found, above, below⟩
    exact ⟨_, _, ⟨req, found, rfl⟩, Int64.le_iff_toInt_le.mp above, Int64.le_iff_toInt_le.mp below⟩

theorem ranges_of_erase {r r' : SyncReactor σ} {peerID : PeerID}
    (erased : r'.pendingRequests = r.pendingRequests.erase peerID) :
    r'.ranges = Function.update r.ranges peerID none := by
  funext other
  by_cases same : other = peerID
  · subst same
    simp [ranges, erased]
  · simp [ranges, erased, same, Finmap.lookup_erase_ne]

theorem ranges_issueRequest (r : SyncReactor σ) (now : Int) (peerID : PeerID) :
    (r.issueRequest now peerID).ranges =
      Function.update r.ranges peerID (some (r.nextRequestHeight.toInt,
        (r.nextRequestHeight + r.batchSize.toInt64 - 1).toInt)) := by
  funext other
  by_cases same : other = peerID
  · subst same
    simp [ranges, issueRequest]
  · simp [ranges, issueRequest, same, Finmap.lookup_insert_of_ne]

structure CursorInv [BlockStore σ] (r : SyncReactor σ) (store : σ) : Prop where
  hasStore : r.blockStore = some store
  batch : 1 ≤ r.batchSize.toInt
  covered : Covered (height store).toInt r.nextRequestHeight.toInt r.ranges

namespace CursorInv

variable [LawfulBlockStore σ] {r r' : SyncReactor σ} {store : σ} {peerID : PeerID}
  (inv : CursorInv r store)

include inv

theorem congr (hasStore : r'.blockStore = r.blockStore) (batch : r'.batchSize = r.batchSize)
    (pending : r'.pendingRequests = r.pendingRequests)
    (next : r'.nextRequestHeight = r.nextRequestHeight) : CursorInv r' store where
  hasStore := hasStore.trans inv.hasStore
  batch := batch ▸ inv.batch
  covered := by
    have sameRanges : r'.ranges = r.ranges := by
      funext other
      simp [ranges, pending]
    rw [next, sameRanges]
    exact inv.covered

theorem rewind {req : PendingRequest} (found : r.pendingRequests.lookup peerID = some req)
    (hasStore : r'.blockStore = r.blockStore) (batch : r'.batchSize = r.batchSize)
    (erased : r'.pendingRequests = r.pendingRequests.erase peerID)
    (next : r'.nextRequestHeight = if req.startHeight < r.nextRequestHeight then req.startHeight
      else r.nextRequestHeight) : CursorInv r' store where
  hasStore := hasStore.trans inv.hasStore
  batch := batch ▸ inv.batch
  covered := by
    have leased : r.ranges peerID = some (req.startHeight.toInt, req.endHeight.toInt) := by
      simp [ranges, found]
    rw [ranges_of_erase erased, next]
    split
    next earlier =>
      exact inv.covered.rewind leased (lt_iff_toInt_lt.mp earlier).le le_rfl
    next notEarlier =>
      exact inv.covered.rewind leased le_rfl (Int64.le_iff_toInt_le.mp (Int64.not_lt.mp notEarlier))

theorem cleanupRequest (now : Int) (peerID : PeerID) :
    CursorInv (SyncReactor.cleanupRequest now r peerID) store := by
  simp only [SyncReactor.cleanupRequest]
  split
  next => exact inv
  next req found =>
    split
    next => exact inv.rewind found rfl rfl rfl rfl
    next => exact inv

theorem cleanupTimedOutRequestsLocked (schedule : Schedule) :
    CursorInv (r.cleanupTimedOutRequestsLocked schedule) store := by
  simp only [SyncReactor.cleanupTimedOutRequestsLocked]
  induction schedule.pendingOrder generalizing r with
  | nil => exact inv
  | cons peerID order ih => exact ih (inv.cleanupRequest schedule.now peerID)

theorem raiseCursor {since : Int64} (stale : since ≤ height store) :
    CursorInv (r.raiseCursor since) store := by
  simp only [SyncReactor.raiseCursor]
  split
  next =>
    refine ⟨inv.hasStore, inv.batch, covered_of_cursor_le ?_⟩
    have notAbove : (since + 1).toInt ≤ since.toInt + 1 := toInt_add_le (by decide)
    have staleInt := Int64.le_iff_toInt_le.mp stale
    change (since + 1).toInt ≤ (height store).toInt + 1
    omega
  next => exact inv

/-- Handing out the next range. If the cursor overflows it becomes negative, so that
no height is passed by it. -/
theorem issueRequest (now : Int)
    (idle : peerID ∉ r.pendingRequests) : CursorInv (r.issueRequest now peerID) store where
  hasStore := inv.hasStore
  batch := inv.batch
  covered := by
    have idleRange : r.ranges peerID = none := by
      simp [ranges, Finmap.lookup_eq_none.mpr idle]
    have batchEq : r.batchSize.toInt64.toInt = r.batchSize.toInt := Int32.toInt_toInt64 r.batchSize
    have cursorEq : (r.issueRequest now peerID).nextRequestHeight =
        r.nextRequestHeight + r.batchSize.toInt64 := Int64.sub_add_cancel _ _
    have positive := inv.batch
    rw [cursorEq, ranges_issueRequest]
    rcases lt_or_ge (r.nextRequestHeight.toInt + r.batchSize.toInt64.toInt) (2 ^ 63) with
      inRange | overflow
    · have lower := r.nextRequestHeight.le_toInt
      have exact : (r.nextRequestHeight + r.batchSize.toInt64).toInt =
          r.nextRequestHeight.toInt + r.batchSize.toInt64.toInt :=
        toInt_add_of_inRange ⟨by omega, inRange⟩
      have one : (1 : Int64).toInt = 1 := rfl
      have endEq : (r.nextRequestHeight + r.batchSize.toInt64 - 1).toInt =
          (r.nextRequestHeight + r.batchSize.toInt64).toInt - 1 :=
        toInt_sub_of_inRange ⟨by omega, by omega⟩
      have nextEq : (r.nextRequestHeight + r.batchSize.toInt64).toInt =
          (r.nextRequestHeight + r.batchSize.toInt64 - 1).toInt + 1 := by omega
      rw [nextEq]
      exact inv.covered.issue idleRange
    · have negative := toInt_add_neg_of_overflow overflow
      have nonneg : 0 ≤ (height store).toInt := Int64.le_iff_toInt_le.mp (height_nonneg store)
      exact covered_of_cursor_le (by omega)

end CursorInv

theorem nextIdlePeer_notMem {pending : Finmap fun _ : PeerID => PendingRequest}
    {peers : List PeerID} (found : (nextIdlePeer pending peers).1 ≠ "") :
    (nextIdlePeer pending peers).1 ∉ pending := by
  induction peers with
  | nil => contradiction
  | cons candidate peers ih =>
    simp only [nextIdlePeer] at found ⊢
    split
    next busy =>
      rw [if_pos busy] at found
      exact ih found
    next idle => exact idle

namespace CursorInv

variable [LawfulBlockStore σ] {r : SyncReactor σ} {store : σ} {peerID : PeerID}
  (inv : CursorInv r store)

include inv

theorem issueRequests (now : Int) (available : Nat) (peers : List PeerID) :
    CursorInv (SyncReactor.issueRequests now available peers r).1 store := by
  induction available generalizing peers r with
  | zero => exact inv
  | succ available ih =>
    simp only [SyncReactor.issueRequests]
    split
    next => exact inv
    next found => exact ih (inv.issueRequest now (nextIdlePeer_notMem found)) _

variable (schedule : Schedule)

theorem prepareRequests : CursorInv (r.prepareRequests schedule).1 store := by
  simp only [SyncReactor.prepareRequests]
  split
  next => exact inv
  next =>
    split
    next => exact inv
    next => exact inv.issueRequests _ _ _

theorem requestBlocks {since : Int64}
    (stale : since ≤ height store) : CursorInv (r.requestBlocks schedule since).1 store :=
  ((inv.cleanupTimedOutRequestsLocked schedule).raiseCursor stale).prepareRequests schedule

theorem checkSync : CursorInv (r.checkSync schedule).1 store := by
  simp only [SyncReactor.checkSync, inv.hasStore]
  split
  next => exact inv
  split
  next =>
    simp only [transitionToSynced]
    split
    next => exact inv
    next => exact inv.congr rfl rfl rfl rfl
  next =>
    have syncing : CursorInv r.transitionToSyncing store := inv.congr rfl rfl rfl rfl
    exact syncing.requestBlocks schedule (Int64.le_refl _)

theorem onPeerDisconnected (peerID : PeerID) : CursorInv (r.onPeerDisconnected peerID) store := by
  simp only [SyncReactor.onPeerDisconnected]
  split
  next => exact inv.congr rfl rfl rfl rfl
  next req found => exact inv.rewind found rfl rfl rfl rfl

theorem clearPending {final : σ} (grown : height store ≤ height final)
    (elsewhere : ∀ h, r.Requested peerID h → height store < h → h < r.nextRequestHeight →
      (∃ other, other ≠ peerID ∧ r.Requested other h) ∨ h ≤ height final) :
    CursorInv { r.clearPending peerID with blockStore := some final } final where
  hasStore := rfl
  batch := inv.batch
  covered := by
    have erased : ({ r.clearPending peerID with blockStore := some final } :
        SyncReactor σ).ranges = Function.update r.ranges peerID none := ranges_of_erase rfl
    rw [erased]
    apply inv.covered.drop (Int64.le_iff_toInt_le.mp grown)
    intro position held notDone passed
    have inRange : InRange position := by
      have lower : 0 ≤ (height store).toInt := Int64.le_iff_toInt_le.mp (height_nonneg store)
      have upper := r.nextRequestHeight.toInt_lt
      exact ⟨by omega, by omega⟩
    rcases exists_toInt_eq inRange with ⟨h, rfl⟩
    rcases elsewhere h (holds_ranges_iff.mp held) (lt_iff_toInt_lt.mpr notDone)
      (lt_iff_toInt_lt.mpr passed) with ⟨other, different, requested⟩ | isDone
    · exact Or.inl ⟨other, different, holds_ranges_iff.mpr requested⟩
    · exact Or.inr (Int64.le_iff_toInt_le.mp isDone)

variable {hashBlock : Bytes → Bytes}

theorem answered {blocks : List BlockData} {schedule : Schedule}
    (harmless : r.Harmless hashBlock (.blocksResponse peerID (some blocks) schedule))
    {final : σ} (grown : height store ≤ height final)
    (delivered : ∀ h, r.Delivers hashBlock store blocks h → h ≤ height final) :
    CursorInv { r.clearPending peerID with blockStore := some final } final :=
  inv.clearPending grown fun h requested notDone passed =>
    (harmless store h inv.hasStore requested notDone passed).imp id (delivered h)

theorem handleBlocksResponse (peerID : PeerID) (message : Option (List BlockData))
    (harmless : r.Harmless hashBlock (.blocksResponse peerID message schedule)) :
    ∃ final, CursorInv
      (r.handleBlocksResponse hashBlock schedule peerID message).reactor final := by
  rcases handleBlocksResponse_cases hashBlock r schedule peerID message with
    ⟨-, outcome⟩ | ⟨blocks, rfl, ⟨noStore, -⟩ | ⟨store', hasStore', found⟩⟩
  · rw [outcome]
    exact ⟨store, inv⟩
  · rw [inv.hasStore] at noStore
    contradiction
  · rw [inv.hasStore] at hasStore'
    cases hasStore'
    rcases found with ⟨rfl, outcome⟩ | ⟨failure, failed, outcome⟩ |
      ⟨checked, -, passed, outcome⟩
    · have answered := inv.answered harmless (Int64.le_refl _) (by
        rintro h ⟨earlier, block, later, checked, -⟩
        simp [checkBlocks] at checked)
      have cleared : CursorInv (r.clearPending peerID) store :=
        answered.congr inv.hasStore rfl rfl rfl
      rw [outcome]
      exact ⟨store, cleared.checkSync schedule⟩
    · have answered := inv.answered harmless (Int64.le_refl _) (by
        rintro h ⟨earlier, block, later, checked, -⟩
        simp [failed] at checked)
      refine ⟨store, ?_⟩
      rw [outcome]
      cases failure <;> exact answered.congr inv.hasStore rfl rfl rfl
    · have grown : height store ≤
          height ((r.clearPending peerID).storeBlocks hashBlock peerID store checked).1 :=
        height_le_storeBlocks store checked
      have answered := inv.answered harmless grown (by
        rintro h ⟨earlier, block, later, checkedEq, acceptable, newHash, below⟩
        cases passed.symm.trans checkedEq
        apply Int64.le_trans below
        apply le_height
        exact mem_heights.mp (@mem_heights_storeBlocks hashBlock _ _ (r.clearPending peerID) peerID
          store block earlier later (ascending_of_checkBlocks passed) acceptable newHash))
      rw [outcome]
      exact ⟨_, answered.checkSync schedule⟩

theorem step {event : SyncEvent}
    (admissible : r.Admissible event) (harmless : r.Harmless hashBlock event) :
    ∃ final, CursorInv (r.step hashBlock event) final := by
  cases event with
  | checkSync schedule => exact ⟨store, inv.checkSync schedule⟩
  | requestBlocks schedule since =>
    exact ⟨store, inv.requestBlocks schedule (admissible store inv.hasStore)⟩
  | sendFailed peerID =>
    have dropped := inv.clearPending (Int64.le_refl _) fun h requested notDone passed =>
      Or.inl (harmless store h inv.hasStore requested notDone passed)
    exact ⟨store, dropped.congr inv.hasStore rfl rfl rfl⟩
  | blocksResponse peerID message schedule =>
    exact inv.handleBlocksResponse schedule peerID message harmless
  | onPeerDisconnected peerID => exact ⟨store, inv.onPeerDisconnected peerID⟩
  | updatePeerHeight | onPeerConnected | setValidator | setMaxParallel | setRequestTimeout =>
    exact ⟨store, inv.congr rfl rfl rfl rfl⟩

end CursorInv

theorem noneSkipped_of_cursorInv [LawfulBlockStore σ] {r : SyncReactor σ} {store : σ}
    (inv : CursorInv r store) : r.NoneSkipped := by
  intro store' hasStore h notStored _ passed
  rw [inv.hasStore] at hasStore
  cases hasStore
  rcases inv.covered h.toInt (lt_iff_toInt_lt.mp notStored)
    (lt_iff_toInt_lt.mp passed) with ⟨peerID, holds⟩
  exact ⟨peerID, holds_ranges_iff.mp holds⟩

theorem cursorInv_newSyncReactor [LawfulBlockStore σ] (store : σ)
    (networkSet peerManagerSet : Bool) {batchSize : Int32} (positive : 1 ≤ batchSize) :
    CursorInv (newSyncReactor (some store) networkSet peerManagerSet batchSize) store where
  hasStore := rfl
  batch := Int32.le_iff_toInt_le.mp positive
  covered := by
    apply covered_of_cursor_le
    have nonneg : 0 ≤ (height store).toInt := Int64.le_iff_toInt_le.mp (height_nonneg store)
    change 0 ≤ (height store).toInt + 1
    omega

/-- Where responses and failed sends drop only requests whose heights are requested elsewhere or
delivered, no needed height is skipped by the cursor in a run from `NewSyncReactor`. -/
theorem cursor_skips_none [LawfulBlockStore σ] (hashBlock : Bytes → Bytes) (store : σ)
    (networkSet peerManagerSet : Bool) {batchSize : Int32} (positive : 1 ≤ batchSize)
    {events : List SyncEvent}
    (every : Run.EveryStep (SyncReactor.step hashBlock)
      (fun r event => r.Admissible event ∧ r.Harmless hashBlock event)
      (newSyncReactor (some store) networkSet peerManagerSet batchSize) events) :
    (Run.after (SyncReactor.step hashBlock)
      (newSyncReactor (some store) networkSet peerManagerSet batchSize) events).NoneSkipped := by
  let holds (r : SyncReactor σ) : Prop := ∃ final, CursorInv r final
  have initial := cursorInv_newSyncReactor store networkSet peerManagerSet positive
  have preserved : ∀ r event, holds r → r.Admissible event ∧ r.Harmless hashBlock event →
      holds (r.step hashBlock event) := by
    rintro r event ⟨final, inv⟩ ⟨admissible, harmless⟩
    exact inv.step admissible harmless
  have reached : holds (Run.after (SyncReactor.step hashBlock) _ events) :=
    every.invariant ⟨store, initial⟩ preserved
  rcases reached with ⟨final, inv⟩
  exact noneSkipped_of_cursorInv inv

/-- A peer at height five, asked for block one in a batch of one, answers with
nothing. -/
def emptyAnswer : List SyncEvent :=
  [.onPeerConnected "peer" 5, .checkSync ⟨0, ["peer"], []⟩,
    .blocksResponse "peer" (some []) ⟨0, ["peer"], []⟩]

/-- The next request asks for block two, and nobody is asked for block one. -/
theorem empty_answer_skips_height :
    ¬(Run.after (SyncReactor.step id)
      (newSyncReactor (some MemoryBlockStore.empty) true true 1) emptyAnswer).NoneSkipped := by
  intro noneSkipped
  have aboveOne : ∀ peerID ∈ (Run.after (SyncReactor.step id)
      (newSyncReactor (some MemoryBlockStore.empty) true true 1)
        emptyAnswer).pendingRequests.keys,
      ∀ req ∈ (Run.after (SyncReactor.step id)
        (newSyncReactor (some MemoryBlockStore.empty) true true 1)
          emptyAnswer).pendingRequests.lookup peerID, ¬req.startHeight ≤ 1 := by
    decide
  rcases noneSkipped MemoryBlockStore.empty rfl 1 (by decide) ⟨"peer", 5, by decide, by decide⟩
    (by decide) with ⟨peerID, req, found, above, -⟩
  exact aboveOne peerID (Finmap.mem_keys.mpr (Finmap.mem_of_lookup_eq_some found)) req found above

/-- A peer at height one answers the request for block one with it. -/
def fullAnswer : List SyncEvent :=
  [.setValidator (some acceptAllBlockValidator), .onPeerConnected "peer" 1,
    .checkSync ⟨0, ["peer"], []⟩,
    .blocksResponse "peer" (some [⟨some 1, [1], [1]⟩]) ⟨0, ["peer"], []⟩]

theorem cursor_skips_none_fullAnswer :
    (Run.after (SyncReactor.step id)
      (newSyncReactor (some MemoryBlockStore.empty) true true 1) fullAnswer).NoneSkipped := by
  apply cursor_skips_none id MemoryBlockStore.empty true true (by decide)
  refine ⟨⟨trivial, trivial⟩, ⟨trivial, trivial⟩, ⟨trivial, trivial⟩, ⟨trivial, ?_⟩, trivial⟩
  rintro store h hasStore ⟨req, found, -, below⟩ - -
  cases hasStore
  have isRequest : some req = some ⟨"peer", 1, 1, 0⟩ := by
    rw [← found]
    decide
  cases isRequest
  exact Or.inr ⟨[], ⟨1, [1], [1]⟩, [], by decide, ⟨by decide, rfl, rfl, by decide, by decide⟩,
    by simp, below⟩

end Blockberry.Sync
