import Blockberry.Sync.StateSync

/-!
# What the state-sync reactor keeps

Whatever the peers send and in whatever order the functions take the lock, a selected offer and a
received chunk stay, the snapshot is imported at most once and only when complete, and at most one
callback runs. `Advance` says once what a section may do to the offer, the chunks and the state;
`Requests` is the upkeep of the request maps, `Accounts` an account of imports and callbacks.
-/

namespace Blockberry.StateSync

open FiniteMap StateStore Suspended List Finmap List

/-! ## What a section does to the download -/

/-- The moves of the state. -/
inductive Moves : StateSyncState → StateSyncState → Prop where
  | select : Moves .discovering .downloading
  | apply : Moves .downloading .applying
  | giveUp : Moves .downloading .failed
  | complete : Moves .applying .complete
  | reject : Moves .applying .failed

theorem Moves.ne_discovering {before after : StateSyncState} (moves : Moves before after) :
    after ≠ .discovering := by
  cases moves <;> decide

theorem Moves.eq_applying {before : StateSyncState} (moves : Moves before .complete) :
    before = .applying := by
  cases moves
  rfl

/-- The offer, the chunks and the state are the same. -/
structure SameDownload (r r' : StateSyncReactor) : Prop where
  selectedOffer : r'.selectedOffer = r.selectedOffer
  chunks : r'.chunks = r.chunks
  chunkStatus : r'.chunkStatus = r.chunkStatus
  state : r'.state = r.state

theorem SameDownload.refl (r : StateSyncReactor) : SameDownload r r := ⟨rfl, rfl, rfl, rfl⟩

theorem SameDownload.trans {r r' r'' : StateSyncReactor} (first : SameDownload r r')
    (second : SameDownload r' r'') : SameDownload r r'' where
  selectedOffer := second.selectedOffer.trans first.selectedOffer
  chunks := second.chunks.trans first.chunks
  chunkStatus := second.chunkStatus.trans first.chunkStatus
  state := second.state.trans first.state

/-- What a section may do to the offer, the chunks and the state, when the message it
handles carries the `accepted` chunks. -/
inductive Advance (accepted : Nat → Bytes → Prop) (r r' : StateSyncReactor) : Prop where
  | stays (same : SameDownload r r')
  | selects (offer : SnapshotOffer) (nonneg : 0 ≤ offer.chunks)
      (unselected : r.selectedOffer = none) (selectedOffer : r'.selectedOffer = some offer)
      (chunks : r'.chunks = replicate offer.chunks.toNat [])
      (chunkStatus : r'.chunkStatus = replicate offer.chunks.toNat false)
      (state : r'.state = .downloading)
  | stores (idx : Nat) (data : Bytes) (isAccepted : accepted idx data)
      (downloading : r.state = .downloading) (missing : r.chunkStatus[idx]? = some false)
      (selectedOffer : r'.selectedOffer = r.selectedOffer)
      (chunks : r'.chunks = r.chunks.set idx data)
      (chunkStatus : r'.chunkStatus = r.chunkStatus.set idx true) (state : r'.state = r.state)
  | ends (selectedOffer : r'.selectedOffer = r.selectedOffer) (chunks : r'.chunks = r.chunks)
      (chunkStatus : r'.chunkStatus = r.chunkStatus) (started : r.state ≠ .discovering)
      (moves : Moves r.state r'.state)

/-- How the offer, the chunks and the state fit together. -/
structure Layout (r : StateSyncReactor) : Prop where
  undecided : r.selectedOffer = none ↔ r.state = .discovering
  unselected : r.selectedOffer = none → r.chunkStatus = []
  lengths : ∀ offer, r.selectedOffer = some offer →
    (r.chunks.length : Int) = offer.chunks ∧ (r.chunkStatus.length : Int) = offer.chunks

theorem SameDownload.layout {r r' : StateSyncReactor} (same : SameDownload r r')
    (layout : Layout r) : Layout r' := by
  obtain ⟨undecided, unselected, lengths⟩ := layout
  constructor
  · rwa [same.selectedOffer, same.state]
  · rwa [same.selectedOffer, same.chunkStatus]
  · rwa [same.selectedOffer, same.chunks, same.chunkStatus]

namespace Advance

variable {accepted : Nat → Bytes → Prop} {r r' : StateSyncReactor} (advance : Advance accepted r r')

include advance

theorem layout (layout : Layout r) : Layout r' := by
  cases advance with
  | stays same => exact same.layout layout
  | selects offer nonneg unselected selectedOffer chunks chunkStatus state =>
    constructor
    · simp [selectedOffer, state]
    · simp [selectedOffer]
    · intro other isOther
      cases selectedOffer.symm.trans isOther
      simp [chunks, chunkStatus, nonneg]
  | stores idx data _ _ _ selectedOffer chunks chunkStatus state =>
    constructor
    · rw [selectedOffer, state]
      exact layout.undecided
    · intro none
      rw [chunkStatus, layout.unselected (selectedOffer ▸ none), set_nil]
    · rw [selectedOffer, chunks, chunkStatus, length_set, length_set]
      exact layout.lengths
  | ends selectedOffer chunks chunkStatus started moves =>
    constructor
    · rw [selectedOffer, layout.undecided]
      exact ⟨fun discovering => absurd discovering started,
        fun discovering => absurd discovering moves.ne_discovering⟩
    · rw [selectedOffer, chunkStatus]
      exact layout.unselected
    · rw [selectedOffer, chunks, chunkStatus]
      exact layout.lengths

theorem selectedOffer_eq {offer : SnapshotOffer}
    (selected : r.selectedOffer = some offer) : r'.selectedOffer = some offer := by
  cases advance with
  | stays same => exact same.selectedOffer.trans selected
  | selects _ _ unselected => cases unselected.symm.trans selected
  | stores _ _ _ _ _ selectedOffer | ends selectedOffer => exact selectedOffer.trans selected

theorem chunk_eq (layout : Layout r) {idx : Nat} (received : r.chunkStatus[idx]? = some true) :
    r'.chunkStatus[idx]? = some true ∧ r'.chunks[idx]? = r.chunks[idx]? := by
  cases advance with
  | stays same =>
    rw [same.chunkStatus, same.chunks]
    exact ⟨received, rfl⟩
  | selects _ _ unselected =>
    rw [layout.unselected unselected] at received
    cases received
  | stores stored data _ _ missing _ chunks chunkStatus =>
    have different : stored ≠ idx := by
      rintro rfl
      rw [missing] at received
      cases received
    rw [chunks, chunkStatus, getElem?_set_ne different, getElem?_set_ne different]
    exact ⟨received, rfl⟩
  | ends _ chunks chunkStatus =>
    rw [chunkStatus, chunks]
    exact ⟨received, rfl⟩

theorem state_eq_or_moves (layout : Layout r) : r'.state = r.state ∨ Moves r.state r'.state := by
  cases advance with
  | stays same => exact .inl same.state
  | selects _ _ unselected _ _ _ state =>
    rw [state, layout.undecided.mp unselected]
    exact .inr .select
  | stores _ _ _ _ _ _ _ _ state => exact .inl state
  | ends _ _ _ _ moves => exact .inr moves

end Advance

/-! ## The request maps -/

/-- The outstanding requests are for missing chunks, and a chunk that is requested has a
retry left. -/
structure Requests (r : StateSyncReactor) : Prop where
  keys : ∀ idx, idx ∈ r.pendingChunks ↔ idx ∈ r.lastChunkTime
  missing : ∀ idx ∈ r.pendingChunks, r.chunkStatus[idx]? = some false
  retries : ∀ idx, valueOr 0 r.chunkRetries idx ≤ r.maxChunkRetries
  retriesLeft : ∀ idx ∈ r.pendingChunks, valueOr 0 r.chunkRetries idx < r.maxChunkRetries

/-- The fields that `Requests` reads are the same. -/
structure SameRequests (r r' : StateSyncReactor) : Prop where
  pendingChunks : r'.pendingChunks = r.pendingChunks
  lastChunkTime : r'.lastChunkTime = r.lastChunkTime
  chunkRetries : r'.chunkRetries = r.chunkRetries
  maxChunkRetries : r'.maxChunkRetries = r.maxChunkRetries

theorem SameRequests.refl (r : StateSyncReactor) : SameRequests r r := ⟨rfl, rfl, rfl, rfl⟩

theorem SameRequests.trans {r r' r'' : StateSyncReactor} (first : SameRequests r r')
    (second : SameRequests r' r'') : SameRequests r r'' where
  pendingChunks := second.pendingChunks.trans first.pendingChunks
  lastChunkTime := second.lastChunkTime.trans first.lastChunkTime
  chunkRetries := second.chunkRetries.trans first.chunkRetries
  maxChunkRetries := second.maxChunkRetries.trans first.maxChunkRetries

theorem SameRequests.requests {r r' : StateSyncReactor} (same : SameRequests r r')
    (chunkStatus : r'.chunkStatus = r.chunkStatus) (requests : Requests r) : Requests r' := by
  obtain ⟨keys, missing, retries, retriesLeft⟩ := requests
  constructor
  · rw [same.pendingChunks, same.lastChunkTime]
    exact keys
  · rw [same.pendingChunks, chunkStatus]
    exact missing
  · rw [same.chunkRetries, same.maxChunkRetries]
    exact retries
  · rw [same.pendingChunks, same.chunkRetries, same.maxChunkRetries]
    exact retriesLeft

namespace Requests

variable {r : StateSyncReactor} {idx : Nat} (requests : Requests r)

include requests

theorem forget (idx : Nat) : Requests { r with
      pendingChunks := r.pendingChunks.erase idx
      lastChunkTime := r.lastChunkTime.erase idx } where
  keys other := by
    rw [mem_erase, mem_erase, requests.keys]
  missing other pending := requests.missing other (mem_erase.mp pending).2
  retries := requests.retries
  retriesLeft other pending := requests.retriesLeft other (mem_erase.mp pending).2

theorem timeOutChunk (now : Int) (idx : Nat) : Requests (timeOutChunk now r idx) := by
  unfold StateSync.timeOutChunk
  split
  next => exact requests
  next reqTime requested =>
    split
    next =>
      have pending : idx ∈ r.pendingChunks :=
        (requests.keys idx).mpr (mem_of_lookup_eq_some requested)
      constructor
      · exact (requests.forget idx).keys
      · exact (requests.forget idx).missing
      · intro other
        rw [valueOr_insert]
        split
        next => exact requests.retriesLeft idx pending
        next => exact requests.retries other
      · intro other kept
        obtain ⟨different, otherPending⟩ := mem_erase.mp kept
        rw [valueOr_insert, if_neg different]
        exact requests.retriesLeft other otherPending
    next => exact requests

theorem dropPending (peerID : PeerID) (idx : Nat) : Requests (dropPending peerID r idx) := by
  unfold StateSync.dropPending
  split
  next => exact requests.forget idx
  next => exact requests

theorem markPending (peerID : PeerID) (now : Int) (missing : r.chunkStatus[idx]? = some false)
    (left : valueOr 0 r.chunkRetries idx < r.maxChunkRetries) :
    Requests (markPending r idx peerID now) where
  keys other := by
    simp only [StateSync.markPending, mem_insert, requests.keys]
  missing other pending := by
    rcases mem_insert.mp pending with rfl | earlier
    · exact missing
    · exact requests.missing other earlier
  retries := requests.retries
  retriesLeft other pending := by
    rcases mem_insert.mp pending with rfl | earlier
    · exact left
    · exact requests.retriesLeft other earlier

theorem storeChunk (idx : Nat) (data : Bytes) : Requests (storeChunk r idx data) where
  keys := (requests.forget idx).keys
  missing other pending := by
    obtain ⟨different, earlier⟩ := mem_erase.mp pending
    exact (getElem?_set_ne different.symm).trans (requests.missing other earlier)
  retries := requests.retries
  retriesLeft := (requests.forget idx).retriesLeft

end Requests

/-! ## Imports and callbacks -/

def StateSyncCall.isImport : StateSyncCall → Bool
  | .importSnapshot _ _ => true
  | _ => false

def StateSyncCall.isCallback : StateSyncCall → Bool
  | .onComplete _ _ | .onFailed _ => true
  | _ => false

def Suspended.isImporting : Suspended → Bool
  | .importing _ => true
  | _ => false

def Suspended.isCalling : Suspended → Bool
  | .completing _ _ | .failing _ => true
  | _ => false

/-- How many imports the reactor may still start in a state. -/
def importsLeft : StateSyncState → Nat
  | .idle | .discovering | .downloading => 1
  | .applying | .complete | .failed => 0

/-- How many callbacks the reactor may still prepare in a state. -/
def callbacksLeft : StateSyncState → Nat
  | .idle | .discovering | .downloading | .applying => 1
  | .complete | .failed => 0

/-- How many imports are running in a state. -/
def importsRunning : StateSyncState → Nat
  | .applying => 1
  | .idle | .discovering | .downloading | .complete | .failed => 0

/-- What a section that continues `task` spends of the imports and callbacks of the
state it starts in. -/
structure Accounts (task : List Suspended) (before : StateSyncState) (after : StateSyncState)
    (calls : List StateSyncCall) (suspended : List Suspended) : Prop where
  imports : calls.countP StateSyncCall.isImport + importsLeft after ≤ importsLeft before
  callbacks : calls.countP StateSyncCall.isCallback + suspended.countP Suspended.isCalling +
    callbacksLeft after ≤ callbacksLeft before + task.countP Suspended.isCalling
  importing : suspended.countP Suspended.isImporting + importsRunning before ≤
    importsRunning after + task.countP Suspended.isImporting

/-! ## The sections -/

/-- The import of a snapshot that is complete. -/
structure ImportReady (r : StateSyncReactor) (snapshot : Snapshot) (chunks : List Bytes) :
    Prop where
  allReceived : ∀ status ∈ r.chunkStatus, status = true
  selected : ∃ offer, r.selectedOffer = some offer ∧ snapshot = snapshotOf offer
  chunks_eq : chunks = r.chunks
  downloading : r.state = .downloading

/-- The specification of a section that continues `task` or handles a message with the
`accepted` chunks. -/
structure Sound (accepted : Nat → Bytes → Prop) (task : List Suspended)
    (r : StateSyncReactor) (o : Outcome) : Prop where
  advance : Advance accepted r o.reactor
  imported : ∀ snapshot chunks, .importSnapshot snapshot chunks ∈ o.calls →
    ImportReady r snapshot chunks
  applied : o.reactor.state = .applying →
    r.state = .applying ∨ ∃ snapshot chunks, .importSnapshot snapshot chunks ∈ o.calls
  requests : Layout r → Requests r → Requests o.reactor
  accounts : Accounts task r.state o.reactor.state o.calls o.suspended.toList

/-- A response carries a chunk of the selected snapshot that matches its own hash. -/
def Accepts (sha256 : Bytes → Bytes) (r : StateSyncReactor)
    (response : Option SnapshotChunkResponse) (idx : Nat) (data : Bytes) : Prop :=
  ∃ offer, r.selectedOffer = some offer ∧
    ∃ chunkIndex : Int32, chunkIndex.toInt = idx ∧
      response = some ⟨some offer.hash, some chunkIndex, some data, some (sha256 data)⟩

/-- Calls that are neither imports nor callbacks. -/
def Minor (calls : List StateSyncCall) : Prop :=
  ∀ call ∈ calls, call.isImport = false ∧ call.isCallback = false

theorem Moves.callbacksLeft {before after : StateSyncState} (moves : Moves before after) :
    callbacksLeft before = 1 := by
  cases moves <;> rfl

variable {calls : List StateSyncCall}

theorem Minor.countP_isImport (minor : Minor calls) : calls.countP StateSyncCall.isImport = 0 :=
  countP_eq_zero.mpr fun call member => by simp [(minor call member).1]

theorem Minor.countP_isCallback (minor : Minor calls) : calls.countP StateSyncCall.isCallback = 0 :=
  countP_eq_zero.mpr fun call member => by simp [(minor call member).2]

/-- The source reads the status of a chunk that lies within the announced number. -/
theorem missing_of_getD {r : StateSyncReactor} {offer : SnapshotOffer} {chunkIndex : Int32}
    (layout : Layout r) (selected : r.selectedOffer = some offer)
    (inside : ¬(chunkIndex.toInt < 0 ∨ r.chunks.length ≤ chunkIndex.toInt))
    (isMissing : ¬r.chunkStatus.getD chunkIndex.toInt.toNat false = true) :
    r.chunkStatus[chunkIndex.toInt.toNat]? = some false := by
  obtain ⟨chunksLength, statusLength⟩ := layout.lengths offer selected
  have bound : chunkIndex.toInt.toNat < r.chunkStatus.length := by omega
  rw [getD_eq_getElem?_getD, getElem?_eq_getElem bound, Option.getD_some] at isMissing
  rw [getElem?_eq_getElem bound, Bool.eq_false_of_not_eq_true isMissing]

theorem Minor.imported (minor : Minor calls) {P : Prop} {snapshot : Snapshot} {chunks : List Bytes}
    (member : .importSnapshot snapshot chunks ∈ calls) : P := by
  cases (minor _ member).1

theorem minor_nil : Minor [] := forall_mem_nil _

namespace Sound

variable {accepted : Nat → Bytes → Prop} {task : List Suspended} {r : StateSyncReactor}
  {o : Outcome}

/-- A section that leaves the state alone and suspends at most a discovery. -/
theorem quiet (advance : Advance accepted r o.reactor) (state : o.reactor.state = r.state)
    (requests : Requests r → Requests o.reactor) (minor : Minor o.calls)
    (suspended : o.suspended = none ∨ o.suspended = some .discovering) :
    Sound accepted task r o where
  advance
  imported _ _ := minor.imported
  applied applying := .inl (state ▸ applying)
  requests _ := requests
  accounts := by
    rw [state]
    constructor
    · rw [minor.countP_isImport]
      omega
    · rcases suspended with isNone | isSome
      · rw [minor.countP_isCallback, isNone]
        simp
      · rw [minor.countP_isCallback, isSome]
        simp [isCalling]
    · rcases suspended with isNone | isSome
      · rw [isNone]
        simp
      · rw [isSome]
        simp [isImporting]

theorem idle (minor : Minor o.calls) (reactor : o.reactor = r)
    (suspended : o.suspended = none ∨ o.suspended = some .discovering) :
    Sound accepted task r o := by
  refine quiet (.stays ?_) ?_ ?_ minor suspended
  · rw [reactor]
    exact .refl r
  · rw [reactor]
  · rw [reactor]
    exact id

/-- Work on the request maps before a section belongs to the section. -/
theorem of_same (next : StateSyncReactor) (same : SameDownload r next)
    (requests : Requests r → Requests next) (sound : Sound accepted task next o) :
    Sound accepted task r o where
  advance := by
    cases sound.advance with
    | stays later => exact .stays (same.trans later)
    | selects offer nonneg unselected selectedOffer chunks chunkStatus state =>
      exact .selects offer nonneg (same.selectedOffer ▸ unselected) selectedOffer chunks
        chunkStatus state
    | stores idx data isAccepted downloading missing selectedOffer chunks chunkStatus state =>
      exact .stores idx data isAccepted (same.state ▸ downloading) (same.chunkStatus ▸ missing)
        (selectedOffer.trans same.selectedOffer) (same.chunks ▸ chunks)
        (same.chunkStatus ▸ chunkStatus) (state.trans same.state)
    | ends selectedOffer chunks chunkStatus started moves =>
      exact .ends (selectedOffer.trans same.selectedOffer) (chunks.trans same.chunks)
        (chunkStatus.trans same.chunkStatus) (same.state ▸ started) (same.state ▸ moves)
  imported snapshot chunks member := by
    have ready := sound.imported snapshot chunks member
    exact ⟨same.chunkStatus ▸ ready.allReceived, same.selectedOffer ▸ ready.selected,
      same.chunks ▸ ready.chunks_eq, same.state ▸ ready.downloading⟩
  applied := same.state ▸ sound.applied
  requests layout valid := sound.requests (same.layout layout) (requests valid)
  accounts := same.state ▸ sound.accounts

theorem prepend {calls : List StateSyncCall} (minor : Minor calls)
    (sound : Sound accepted task r o) :
    Sound accepted task r { o with calls := calls ++ o.calls } where
  advance := sound.advance
  imported snapshot chunks member := by
    rcases mem_append.mp member with earlier | later
    · exact minor.imported earlier
    · exact sound.imported snapshot chunks later
  applied applying := by
    rcases sound.applied applying with earlier | ⟨snapshot, chunks, called⟩
    · exact .inl earlier
    · exact .inr ⟨snapshot, chunks, mem_append_right _ called⟩
  requests := sound.requests
  accounts := by
    obtain ⟨imports, callbacks, importing⟩ := sound.accounts
    constructor
    · rw [countP_append, minor.countP_isImport, Nat.zero_add]
      exact imports
    · rw [countP_append, minor.countP_isCallback, Nat.zero_add]
      exact callbacks
    · exact importing

theorem discoverSnapshots (r : StateSyncReactor) (peers : List PeerID) :
    Sound accepted [] r (discoverSnapshots r peers) := by
  unfold StateSync.discoverSnapshots
  split
  next => exact idle minor_nil rfl (.inl rfl)
  split
  next => exact idle minor_nil rfl (.inl rfl)
  refine idle ?_ rfl (.inr rfl)
  intro call member
  obtain ⟨peerID, -, rfl⟩ := mem_map.mp member
  exact ⟨rfl, rfl⟩

theorem finishDiscovery (layout : Layout r) (order : List Bytes) :
    Sound accepted [.discovering] r (finishDiscovery r order) := by
  unfold StateSync.finishDiscovery selectBestSnapshot
  split
  next unselected =>
    split
    next => exact idle minor_nil rfl (.inl rfl)
    next best _ =>
      split
      next => exact idle minor_nil rfl (.inl rfl)
      next nonneg =>
        refine ⟨.selects best (not_lt.mp nonneg) unselected.2 rfl rfl rfl rfl,
          fun _ _ => minor_nil.imported, (fun impossible => by cases impossible), ?_, ?_⟩
        · intro layout requests
          have nonePending (idx : Nat) : idx ∉ r.pendingChunks := by
            intro pending
            have missing := requests.missing idx pending
            rw [layout.unselected unselected.2] at missing
            cases missing
          exact ⟨requests.keys, fun idx pending => absurd pending (nonePending idx),
            requests.retries, requests.retriesLeft⟩
        · rw [layout.undecided.mp unselected.2]
          exact ⟨le_rfl, le_rfl, le_rfl⟩
  next => exact idle minor_nil rfl (.inl rfl)

theorem handleSnapshotsResponse (r : StateSyncReactor) (peerID : PeerID)
    (response : Option (List SnapshotMetadata)) :
    Sound accepted [] r (handleSnapshotsResponse r peerID response) := by
  unfold StateSync.handleSnapshotsResponse
  split
  next => exact idle minor_nil rfl (.inl rfl)
  next snapshots =>
    split
    next => exact idle minor_nil rfl (.inl rfl)
    have same : SameDownload r ((snapshots.filterMap (offerOf peerID)).foldl storeOffer r) ∧
        SameRequests r ((snapshots.filterMap (offerOf peerID)).foldl storeOffer r) :=
      foldlRecOn (motive := fun reached => SameDownload r reached ∧ SameRequests r reached)
        _ _ ⟨.refl r, .refl r⟩ fun reached earlier offer _ =>
          ⟨earlier.1.trans ⟨rfl, rfl, rfl, rfl⟩, earlier.2.trans ⟨rfl, rfl, rfl, rfl⟩⟩
    exact quiet (.stays same.1) same.1.state (same.2.requests same.1.chunkStatus) minor_nil
      (.inl rfl)

theorem foldl {work : StateSyncReactor → Nat → StateSyncReactor}
    (same : ∀ r idx, SameDownload r (work r idx))
    (requests : ∀ r idx, Requests r → Requests (work r idx)) (order : List Nat)
    (r : StateSyncReactor) : Sound accepted [] r { reactor := order.foldl work r } := by
  have reached : SameDownload r (order.foldl work r) ∧
      (Requests r → Requests (order.foldl work r)) :=
    foldlRecOn
      (motive := fun reached => SameDownload r reached ∧ (Requests r → Requests reached))
      order work ⟨.refl r, id⟩ fun reached earlier idx _ =>
        ⟨earlier.1.trans (same reached idx), fun valid => requests reached idx (earlier.2 valid)⟩
  exact quiet (.stays reached.1) reached.1.state reached.2 minor_nil (.inl rfl)

theorem checkChunkTimeouts (r : StateSyncReactor) (now : Int) (order : List Nat) :
    Sound accepted [] r (checkChunkTimeouts r now order) := by
  unfold StateSync.checkChunkTimeouts
  split
  next => exact idle minor_nil rfl (.inl rfl)
  refine foldl ?_ (fun r idx valid => valid.timeOutChunk now idx) order r
  intro r idx
  unfold timeOutChunk
  split
  next => exact .refl r
  next =>
    split
    next => exact ⟨rfl, rfl, rfl, rfl⟩
    next => exact .refl r

theorem onPeerDisconnected (r : StateSyncReactor) (peerID : PeerID) (order : List Nat) :
    Sound accepted [] r (onPeerDisconnected r peerID order) := by
  refine foldl ?_ (fun r idx valid => valid.dropPending peerID idx) order r
  intro r idx
  unfold dropPending
  split
  next => exact ⟨rfl, rfl, rfl, rfl⟩
  next => exact .refl r

theorem transitionToFailed {err : String} (moves : Moves r.state .failed)
    (started : r.state ≠ .discovering)
    (returned : importsRunning r.state ≤ task.countP isImporting) :
    Sound accepted task r (transitionToFailed r err) where
  advance := .ends rfl rfl rfl started moves
  imported _ _ := minor_nil.imported
  applied := fun impossible => by cases impossible
  requests _ := SameRequests.requests (r := r) ⟨rfl, rfl, rfl, rfl⟩ rfl
  accounts := by
    have left := moves.callbacksLeft
    unfold StateSync.transitionToFailed
    constructor
    · exact Nat.zero_le _
    · rw [left]
      cases r.onFailedSet <;> simp [callbacksLeft, isCalling]
    · cases r.onFailedSet <;> simpa [importsRunning, isImporting] using returned

theorem finishImport {offer : SnapshotOffer} (applying : r.state = .applying)
    (err : Option String) : Sound accepted [.importing offer] r (finishImport r offer err) := by
  have started : r.state ≠ .discovering := by simp [applying]
  unfold StateSync.finishImport
  split
  next message =>
    refine transitionToFailed (applying ▸ .reject) started ?_
    rw [applying]
    exact le_rfl
  next =>
    refine ⟨.ends rfl rfl rfl started (applying ▸ .complete),
      fun _ _ => minor_nil.imported, (fun impossible => by cases impossible),
      fun _ => SameRequests.requests (r := r) ⟨rfl, rfl, rfl, rfl⟩ rfl, ?_⟩
    rw [applying]
    constructor
    · exact Nat.zero_le _
    · cases r.onCompleteSet <;> simp [callbacksLeft, isCalling]
    · cases r.onCompleteSet <;> simp [importsRunning, isImporting]

theorem applySnapshotLocked {offer : SnapshotOffer} (downloading : r.state = .downloading)
    (selected : r.selectedOffer = some offer) (allReceived : r.chunkStatus.all id = true) :
    Sound accepted [] r (applySnapshotLocked r offer) where
  advance := by
    refine .ends rfl rfl rfl (by simp [downloading]) ?_
    rw [downloading]
    exact .apply
  imported snapshot chunks member := by
    cases mem_singleton.mp member
    exact ⟨fun status => all_eq_true.mp allReceived status, ⟨offer, selected, rfl⟩, rfl,
      downloading⟩
  applied _ := .inr ⟨_, _, mem_singleton_self _⟩
  requests _ := SameRequests.requests (r := r) ⟨rfl, rfl, rfl, rfl⟩ rfl
  accounts := by
    rw [downloading]
    exact ⟨le_rfl, le_rfl, le_rfl⟩

theorem minor_sendChunkRequestLocked (env : RequestEnv) (peerID : PeerID)
    (snapshotHash : Bytes) (chunkIndex : Nat) :
    Minor (sendChunkRequestLocked r env peerID snapshotHash chunkIndex).1 := by
  unfold sendChunkRequestLocked
  split
  next =>
    intro call member
    rw [mem_singleton.mp member]
    exact ⟨rfl, rfl⟩
  next => exact minor_nil

theorem requestChunks (env : RequestEnv) (hash : Bytes) (peers : List PeerID)
    {remaining : List (Bool × Nat)} {peerIdx : Nat} (downloading : r.state = .downloading)
    (listed : ∀ idx, (false, idx) ∈ remaining → r.chunkStatus[idx]? = some false) :
    Sound accepted [] r (requestChunks env hash peers r peerIdx remaining) := by
  induction remaining generalizing r peerIdx with
  | nil => exact idle minor_nil rfl (.inl rfl)
  | cons entry rest ih =>
    obtain ⟨status, idx⟩ := entry
    have listedRest (other : Nat) (member : (false, other) ∈ rest) :=
      listed other (mem_cons_of_mem _ member)
    unfold StateSync.requestChunks
    split
    next => exact ih downloading listedRest
    next isMissing =>
      split
      next => exact ih downloading listedRest
      split
      next =>
        refine transitionToFailed (downloading ▸ .giveUp) (by simp [downloading]) ?_
        rw [downloading]
        exact le_rfl
      next retriesLeft =>
        let peerID := peers.getD (peerIdx % peers.length) ""
        refine prepend (minor_sendChunkRequestLocked env peerID hash idx) ?_
        split
        next => exact ih downloading listedRest
        have missing : r.chunkStatus[idx]? = some false :=
          listed idx (by simp [Bool.eq_false_of_not_eq_true isMissing])
        refine of_same (markPending r idx peerID (env.now idx)) ⟨rfl, rfl, rfl, rfl⟩
          (fun valid => valid.markPending peerID _ missing (not_le.mp retriesLeft)) ?_
        exact ih downloading listedRest

theorem requestMissingChunks (r : StateSyncReactor) (env : RequestEnv) (order : List Bytes) :
    Sound accepted [] r (requestMissingChunks r env order) := by
  unfold StateSync.requestMissingChunks
  split
  next => exact idle minor_nil rfl (.inl rfl)
  next downloading =>
    have downloading := not_not.mp downloading
    split
    next => exact idle minor_nil rfl (.inl rfl)
    next offer selected =>
      split
      next allReceived => exact applySnapshotLocked downloading selected allReceived
      extract_lets peers
      split
      next => exact idle minor_nil rfl (.inl rfl)
      next =>
        refine requestChunks env offer.hash peers downloading ?_
        intro idx member
        exact mem_zipIdx_iff_getElem?.mp member

theorem receiveChunk (sha256 : Bytes → Bytes) (layout : Layout r) (peerID : PeerID)
    (snapshotHash : Bytes) (chunkIndex : Int32) (data chunkHash : Bytes) :
    Sound (Accepts sha256 r (some ⟨some snapshotHash, some chunkIndex, some data, some chunkHash⟩))
      [] r (receiveChunk sha256 r peerID snapshotHash chunkIndex data chunkHash) := by
  unfold StateSync.receiveChunk
  split
  next => exact idle minor_nil rfl (.inl rfl)
  next downloading =>
    split
    next => exact idle minor_nil rfl (.inl rfl)
    next offer selected =>
      split
      next => exact idle minor_nil rfl (.inl rfl)
      next sameSnapshot =>
        split
        next => exact idle minor_nil rfl (.inl rfl)
        next inside =>
          split
          next => exact idle minor_nil rfl (.inl rfl)
          next isMissing =>
            split
            next =>
              refine idle ?_ rfl (.inl rfl)
              split
              next =>
                intro call member
                rw [mem_singleton.mp member]
                exact ⟨rfl, rfl⟩
              next => exact minor_nil
            next sameHash =>
              have missing : r.chunkStatus[chunkIndex.toInt.toNat]? = some false :=
                missing_of_getD layout selected inside isMissing
              have isAccepted : Accepts sha256 r
                  (some ⟨some snapshotHash, some chunkIndex, some data, some chunkHash⟩)
                  chunkIndex.toInt.toNat data := by
                refine ⟨offer, selected, chunkIndex, ?_, ?_⟩
                · rw [Int.toNat_of_nonneg (by omega)]
                · rw [not_not.mp sameSnapshot, not_not.mp sameHash]
              exact quiet
                (.stores _ data isAccepted (not_not.mp downloading) missing rfl rfl rfl rfl) rfl
                (fun valid => valid.storeChunk _ data) minor_nil (.inl rfl)

theorem handleChunkResponse (sha256 : Bytes → Bytes) (layout : Layout r) (peerID : PeerID)
    (response : Option SnapshotChunkResponse) :
    Sound (Accepts sha256 r response) [] r (handleChunkResponse sha256 r peerID response) := by
  unfold StateSync.handleChunkResponse
  split
  next => exact receiveChunk sha256 layout _ _ _ _ _
  next => exact idle minor_nil rfl (.inl rfl)

theorem callback {call : StateSyncCall} {task : Suspended} (isCallback : call.isCallback = true)
    (isCalling : task.isCalling = true) (notImport : call.isImport = false) :
    Sound accepted [task] r { reactor := r, calls := [call] } where
  advance := .stays (.refl r)
  imported snapshot chunks member := by
    cases mem_singleton.mp member
    cases notImport
  applied := .inl
  requests _ := id
  accounts := by
    constructor
    · simp [notImport]
    · simp [isCallback, isCalling, Nat.add_comm]
    · simp

theorem resume (layout : Layout r) (order : List Bytes) (importErr : Option String)
    {task : Suspended} (applying : task.isImporting = true → r.state = .applying) :
    Sound accepted [task] r (resume r order importErr task) := by
  cases task with
  | discovering => exact finishDiscovery layout order
  | importing offer => exact finishImport (applying rfl) importErr
  | completing | failing => exact callback rfl rfl rfl

end Sound

variable {sha256 : Bytes → Bytes} {sys : System} {log : List StateSyncCall}

/-- The chunks that an event may deliver. -/
def Event.accepts (sha256 : Bytes → Bytes) (r : StateSyncReactor) :
    Event → Nat → Bytes → Prop
  | .handleChunkResponse _ response => Accepts sha256 r response
  | _ => fun _ _ => False

/-- What holds between two events, apart from the log. -/
structure Valid (sys : System) : Prop where
  layout : Layout sys.reactor
  importing : sys.tasks.countP Suspended.isImporting ≤ importsRunning sys.reactor.state

theorem importsRunning_pos {state : StateSyncState} (running : 0 < importsRunning state) :
    state = .applying := by
  cases state <;> first | rfl | cases running

theorem Valid.applying (valid : Valid sys) {task : Suspended} (member : task ∈ sys.tasks)
    (isImporting : task.isImporting = true) : sys.reactor.state = .applying := by
  have running : 0 < sys.tasks.countP Suspended.isImporting :=
    countP_pos_iff.mpr ⟨task, member, isImporting⟩
  exact importsRunning_pos (running.trans_le valid.importing)

theorem Valid.sound (sha256 : Bytes → Bytes) (valid : Valid sys) (event : Event) :
    Sound (event.accepts sha256 sys.reactor) (event.task sys).toList sys.reactor
      (event.outcome sha256 sys) := by
  cases event with
  | discoverSnapshots peers => exact .discoverSnapshots _ peers
  | checkChunkTimeouts now order => exact .checkChunkTimeouts _ now order
  | requestMissingChunks env order => exact .requestMissingChunks _ env order
  | handleSnapshotsResponse peerID response => exact .handleSnapshotsResponse _ peerID response
  | handleChunkResponse peerID response =>
    exact .handleChunkResponse sha256 valid.layout peerID response
  | onPeerDisconnected peerID order => exact .onPeerDisconnected _ peerID order
  | resume position order importErr =>
    simp only [Event.task, Event.outcome]
    split
    next task found =>
      rw [found]
      exact .resume valid.layout order importErr (valid.applying (mem_of_getElem? found))
    next => exact .idle minor_nil rfl (.inl rfl)

/-- The suspended functions are those that stay and the one that is continued. -/
theorem countP_tasks (p : Suspended → Bool) (sys : System) (event : Event) : sys.tasks.countP p =
      (event.others sys).countP p + (event.task sys).toList.countP p := by
  cases event with
  | resume position order importErr =>
    simp only [Event.others, Event.task]
    rcases lt_or_ge position sys.tasks.length with inside | outside
    · rw [getElem?_eq_getElem inside, ← countP_append]
      have moved := (getElem_cons_eraseIdx_perm inside).symm.trans (perm_append_singleton _ _).symm
      exact moved.countP_eq p
    · simp [eraseIdx_of_length_le outside, getElem?_eq_none outside]
  | _ => rfl

theorem step_crashed (crashed : sys.crashed = true) (event : Event) :
    step sha256 sys event = sys := by
  simp [step, crashed]

theorem emit_crashed (crashed : sys.crashed = true) (event : Event) :
    emit sha256 sys event = [] := by
  simp [emit, crashed]

theorem step_running (running : ¬sys.crashed = true) (event : Event) : step sha256 sys event =
      { reactor := (event.outcome sha256 sys).reactor
        tasks := event.others sys ++ (event.outcome sha256 sys).suspended.toList
        crashed := (event.outcome sha256 sys).panic } := by
  simp [step, running]

theorem emit_running (running : ¬sys.crashed = true) (event : Event) :
    emit sha256 sys event = (event.outcome sha256 sys).calls := by
  simp [emit, running]

theorem Valid.advance (sha256 : Bytes → Bytes) (valid : Valid sys) (event : Event) :
    Advance (event.accepts sha256 sys.reactor) sys.reactor (step sha256 sys event).reactor := by
  by_cases crashed : sys.crashed = true
  · rw [step_crashed crashed]
    exact .stays (.refl _)
  · rw [step_running crashed]
    exact (valid.sound sha256 event).advance

theorem Valid.step (valid : Valid sys) (event : Event) : Valid (step sha256 sys event) where
  layout := (valid.advance sha256 event).layout valid.layout
  importing := by
    by_cases crashed : sys.crashed = true
    · rw [step_crashed crashed]
      exact valid.importing
    · have spent := (valid.sound sha256 event).accounts.importing
      have before := valid.importing
      rw [countP_tasks _ sys event] at before
      simp only [step_running crashed, countP_append]
      omega

theorem Requests.step (valid : Valid sys) (requests : Requests sys.reactor) (event : Event) :
    Requests (step sha256 sys event).reactor := by
  by_cases crashed : sys.crashed = true
  · rwa [step_crashed crashed]
  · rw [step_running crashed]
    exact (valid.sound sha256 event).requests valid.layout requests

/-- The imports and callbacks so far, together with those that may follow. -/
structure Accounted (sys : System) (log : List StateSyncCall) : Prop where
  imports : log.countP StateSyncCall.isImport + importsLeft sys.reactor.state ≤ 1
  callbacks : log.countP StateSyncCall.isCallback + sys.tasks.countP Suspended.isCalling +
    callbacksLeft sys.reactor.state ≤ 1

theorem Accounted.step (valid : Valid sys) (accounted : Accounted sys log) (event : Event) :
    Accounted (step sha256 sys event) (log ++ emit sha256 sys event) := by
  by_cases crashed : sys.crashed = true
  · rwa [step_crashed crashed, emit_crashed crashed, append_nil]
  · have spent := (valid.sound sha256 event).accounts
    have split := countP_tasks isCalling sys event
    obtain ⟨imports, callbacks⟩ := accounted
    rw [step_running crashed, emit_running crashed]
    constructor
    · have spentImports := spent.imports
      simp only [countP_append]
      omega
    · have spentCallbacks := spent.callbacks
      simp only [countP_append]
      omega

theorem Valid.applied (valid : Valid sys) {event : Event}
    (applying : (StateSync.step sha256 sys event).reactor.state = .applying) :
    sys.reactor.state = .applying ∨
      ∃ snapshot chunks, .importSnapshot snapshot chunks ∈ emit sha256 sys event := by
  by_cases crashed : sys.crashed = true
  · rw [step_crashed crashed] at applying
    exact .inl applying
  · rw [step_running crashed] at applying
    rw [emit_running crashed]
    exact (valid.sound sha256 event).applied applying

theorem Valid.importReady (valid : Valid sys) {event : Event} {snapshot : Snapshot}
    {chunks : List Bytes} (called : .importSnapshot snapshot chunks ∈ emit sha256 sys event) :
    ImportReady sys.reactor snapshot chunks := by
  by_cases crashed : sys.crashed = true
  · rw [emit_crashed crashed] at called
    cases called
  · rw [emit_running crashed] at called
    exact (valid.sound sha256 event).imported snapshot chunks called

/-! ## Every run of a started reactor -/

/-- The bookkeeping between two events. -/
structure SafeState (r : StateSyncReactor) : Prop where
  lengths : ∀ offer, r.selectedOffer = some offer →
    (r.chunks.length : Int) = offer.chunks ∧ (r.chunkStatus.length : Int) = offer.chunks
  keys : ∀ idx, idx ∈ r.pendingChunks ↔ idx ∈ r.lastChunkTime
  missing : ∀ idx ∈ r.pendingChunks, r.chunkStatus[idx]? = some false
  retries : ∀ idx, valueOr 0 r.chunkRetries idx ≤ r.maxChunkRetries

/-- What an event may change, and when it may import. -/
structure SafeStep (sha256 : Bytes → Bytes) (sys : System) (event : Event) : Prop where
  offerKept : ∀ offer, sys.reactor.selectedOffer = some offer →
    (step sha256 sys event).reactor.selectedOffer = some offer
  chunkKept : ∀ idx : Nat, sys.reactor.chunkStatus[idx]? = some true →
    (step sha256 sys event).reactor.chunkStatus[idx]? = some true ∧
      (step sha256 sys event).reactor.chunks[idx]? = sys.reactor.chunks[idx]?
  stateMoves : (step sha256 sys event).reactor.state = sys.reactor.state ∨
    Moves sys.reactor.state (step sha256 sys event).reactor.state
  importReady : ∀ snapshot chunks, .importSnapshot snapshot chunks ∈ emit sha256 sys event →
    ∀ status ∈ sys.reactor.chunkStatus, status = true

structure SafeRun (sha256 : Bytes → Bytes) (start : System) (events : List Event) : Prop where
  states : SafeState (Run.after (step sha256) start events).reactor
  steps : Run.EveryStep (step sha256) (SafeStep sha256) start events
  importOnce :
    (Run.trace (step sha256) (emit sha256) start events).countP StateSyncCall.isImport ≤ 1
  callbackOnce :
    (Run.trace (step sha256) (emit sha256) start events).countP StateSyncCall.isCallback ≤ 1

theorem Valid.safeStep (valid : Valid sys) (event : Event) : SafeStep sha256 sys event where
  offerKept _ := (valid.advance sha256 event).selectedOffer_eq
  chunkKept _ := (valid.advance sha256 event).chunk_eq valid.layout
  stateMoves := (valid.advance sha256 event).state_eq_or_moves valid.layout
  importReady _ _ called := (valid.importReady called).allReceived

section Started

variable (networkSet peerManagerSet onCompleteSet onFailedSet : Bool) (trustHeight : Int64)
  (trustHash : Bytes) (chunkRequestTimeout maxChunkRetries : Int)

/-- A new reactor with or without callbacks, after `Start`. -/
def startedNew : System :=
  started
    { newStateSyncReactor networkSet peerManagerSet trustHeight trustHash chunkRequestTimeout
        maxChunkRetries with
      onCompleteSet
      onFailedSet }

theorem valid_startedNew :
    Valid (startedNew networkSet peerManagerSet onCompleteSet onFailedSet trustHeight trustHash
      chunkRequestTimeout maxChunkRetries) where
  layout := by
    refine ⟨by simp [startedNew, started, start, newStateSyncReactor], fun _ => rfl, ?_⟩
    intro offer selected
    cases selected
  importing := le_rfl

theorem requests_startedNew (nonneg : 0 ≤ maxChunkRetries) :
    Requests (startedNew networkSet peerManagerSet onCompleteSet onFailedSet trustHeight trustHash
      chunkRequestTimeout maxChunkRetries).reactor where
  keys _ := Iff.rfl
  missing _ pending := absurd pending notMem_empty
  retries _ := by
    change valueOr 0 ∅ _ ≤ maxChunkRetries
    rwa [valueOr_empty]
  retriesLeft _ pending := absurd pending notMem_empty

/-- Every interleaving of the functions of a reactor that is started once is safe. -/
theorem stateSync_safeRun (sha256 : Bytes → Bytes) (nonneg : 0 ≤ maxChunkRetries)
    (events : List Event) :
    SafeRun sha256
      (startedNew networkSet peerManagerSet onCompleteSet onFailedSet trustHeight trustHash
        chunkRequestTimeout maxChunkRetries) events := by
  have valid := valid_startedNew networkSet peerManagerSet onCompleteSet onFailedSet trustHeight
    trustHash chunkRequestTimeout maxChunkRetries
  have requests := requests_startedNew networkSet peerManagerSet onCompleteSet onFailedSet
    trustHeight trustHash chunkRequestTimeout maxChunkRetries nonneg
  let kept (sys : System) (log : List StateSyncCall) : Prop :=
    Valid sys ∧ Requests sys.reactor ∧ Accounted sys log
  have keptStep (sys : System) (log : List StateSyncCall) (event : Event) (held : kept sys log) :
      kept (step sha256 sys event) (log ++ emit sha256 sys event) :=
    ⟨held.1.step event, held.2.1.step held.1 event, held.2.2.step held.1 event⟩
  have initial : kept _ [] := ⟨valid, requests, ⟨le_rfl, le_rfl⟩⟩
  have reached := Run.invariant_trace events initial keptStep
  obtain ⟨layout, requestsKept, accounted⟩ := reached
  constructor
  · exact ⟨layout.layout.lengths, requestsKept.keys, requestsKept.missing, requestsKept.retries⟩
  · exact Run.everyStep_of_invariant events valid
      (fun sys event held => held.step event) fun sys event held => held.safeStep event
  · exact (Nat.le_add_right _ _).trans accounted.imports
  · exact (Nat.le_add_right _ _).trans ((Nat.le_add_right _ _).trans accounted.callbacks)

end Started

/-- A sync that runs to its end and reports completion. -/
theorem stateSync_safeRun_oneChunk :
    (Run.after (step id) (startedNew true true true true 1 [] 10 3)
        (oneChunkSync [9] [7] [7])).reactor.state = .complete ∧
      SafeRun id (startedNew true true true true 1 [] 10 3) (oneChunkSync [9] [7] [7]) :=
  ⟨by decide +kernel, stateSync_safeRun true true true true 1 [] 10 3 id (by decide) _⟩

end Blockberry.StateSync
