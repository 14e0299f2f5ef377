import Blockberry.Lib.FiniteMap
import Blockberry.Lib.Run
import Blockberry.Types.Basic

/-!
# The address book

The address book maps peer IDs to addresses. A peer ID is a string of raw bytes with a text, which
libp2p writes and reads; the entry of a peer has its text as the node ID. Times are in seconds.
Loops over the map visit it in an order that is given; queries that do not change the book are left
out.
-/

namespace Blockberry.Pex

open FiniteMap

structure AddressEntry where
  multiaddr : String
  nodeID : String
  lastSeen : Int64
  latency : Int32
  isSeed : Bool
  lastAttempt : Int64
  attemptCount : Int
  deriving DecidableEq, Repr

structure SeedNode where
  multiaddr : String
  deriving DecidableEq, Repr

structure AddressBook where
  peers : Finmap fun _ : PeerID => AddressEntry
  seeds : List SeedNode
  path : String
  maxAddresses : Int

/-- An order in which a loop visits the map. -/
abbrev VisitOrder := (Finmap fun _ : PeerID => AddressEntry) → List PeerID

namespace AddressBook

def newAddressBookWithLimit (path : String) (maxAddresses : Int) : AddressBook :=
  ⟨∅, [], path, maxAddresses⟩

/-- One iteration of the search for the oldest peer. -/
def older (peers : Finmap fun _ : PeerID => AddressEntry) (oldest : PeerID × Int64)
    (id : PeerID) : PeerID × Int64 :=
  match peers.lookup id with
  | none => oldest
  | some entry =>
    if entry.isSeed then oldest
    else if entry.lastSeen < oldest.2 then (id, entry.lastSeen)
    else oldest

variable (ab : AddressBook)

def evictOldest (order : VisitOrder) : AddressBook :=
  let oldest := ((order ab.peers).foldl (older ab.peers) ("", Int64.maxValue)).1
  if oldest ≠ "" then { ab with peers := ab.peers.erase oldest } else ab

def addPeer (order : VisitOrder) (now : Int64) (peerID : PeerID)
    (multiaddr nodeID : String) (latency : Int32) : AddressBook :=
  match ab.peers.lookup peerID with
  | some entry =>
    let entry := { entry with multiaddr, nodeID, lastSeen := now, latency, attemptCount := 0 }
    { ab with peers := ab.peers.insert peerID entry }
  | none =>
    let ab :=
      if 0 < ab.maxAddresses ∧ ab.maxAddresses ≤ ab.peers.keys.card then ab.evictOldest order
      else ab
    let entry := ⟨multiaddr, nodeID, now, latency, false, 0, 0⟩
    { ab with peers := ab.peers.insert peerID entry }

variable (peerID : PeerID)

def removePeer : AddressBook :=
  { ab with peers := ab.peers.erase peerID }

def getPeer : Option AddressEntry := ab.peers.lookup peerID

def hasPeer : Bool := peerID ∈ ab.peers

/-- The entry of a peer is changed if there is one. -/
def modify (change : AddressEntry → AddressEntry) : AddressBook :=
  match ab.peers.lookup peerID with
  | none => ab
  | some entry => { ab with peers := ab.peers.insert peerID (change entry) }

def markSeed : AddressBook :=
  ab.modify peerID ({ · with isSeed := true })

def updateLastSeen (now : Int64) (peerID : PeerID) : AddressBook :=
  ab.modify peerID ({ · with lastSeen := now })

def updateLatency (latency : Int32) : AddressBook :=
  ab.modify peerID ({ · with latency := latency })

def recordAttempt (now : Int64) (peerID : PeerID) : AddressBook :=
  ab.modify peerID fun entry =>
    { entry with lastAttempt := now, attemptCount := entry.attemptCount + 1 }

def resetAttempts : AddressBook :=
  ab.modify peerID ({ · with attemptCount := 0 })

def addSeeds (seeds : List String) : AddressBook :=
  { ab with seeds := ab.seeds ++ seeds.map SeedNode.mk }

end AddressBook

/-- The texts of peer IDs as libp2p writes and reads them. -/
structure PeerText where
  encode : PeerID → String
  decode : String → Option PeerID
  decode_encode : ∀ id, decode (encode id) = some id

structure AddressInfo where
  multiaddr : Option String
  latency : Option Int32
  nodeId : Option String
  deriving DecidableEq, Repr

/-- One iteration over the addresses of a response; it counts the peers that were added. -/
def acceptAddress (text : PeerText) (order : VisitOrder) (now : Int64) (maxToAccept : Int)
    (progress : AddressBook × Nat) (info : AddressInfo) : AddressBook × Nat :=
  if maxToAccept ≤ progress.2 then progress
  else
    match info.nodeId, info.multiaddr with
    | some nodeId, some multiaddr =>
      match text.decode nodeId with
      | none => progress
      | some newPeerID =>
        (progress.1.addPeer order now newPeerID multiaddr nodeId (info.latency.getD 0),
          progress.2 + 1)
    | _, _ => progress

inductive PexEvent where
  | addressResponse (infos : List AddressInfo) (maxAddresses : Int)
  | peerConnected (peerID : PeerID) (multiaddr : String)
  | peerDisconnected (peerID : PeerID)
  | attempt (nodeID : String) (connected : Bool)
  | addSeeds (seeds : List String)
  | markSeed (peerID : PeerID)
  | updateLatency (peerID : PeerID) (latency : Int32)
  | removePeer (peerID : PeerID)

structure TimedPexEvent where
  now : Int64
  order : VisitOrder
  event : PexEvent

namespace AddressBook

variable (text : PeerText)

variable (ab : AddressBook)

def handleAddressResponse (order : VisitOrder) (now : Int64)
    (maxAddresses : Int) (infos : List AddressInfo) : AddressBook :=
  (infos.foldl (acceptAddress text order now (if maxAddresses ≤ 0 then 100 else maxAddresses))
    (ab, 0)).1

def onPeerConnected (order : VisitOrder) (now : Int64)
    (peerID : PeerID) (multiaddr : String) : AddressBook :=
  let ab := (ab.updateLastSeen now peerID).resetAttempts peerID
  if ab.hasPeer peerID then ab else ab.addPeer order now peerID multiaddr (text.encode peerID) 0

/-- One iteration of `ensureOutboundConnections`. -/
def attempt (now : Int64) (nodeID : String) (connected : Bool) : AddressBook :=
  match text.decode nodeID with
  | none => ab
  | some peerID =>
    let ab := ab.recordAttempt now peerID
    if connected then ab.resetAttempts peerID else ab

def step (timed : TimedPexEvent) : AddressBook :=
  match timed.event with
  | .addressResponse infos maxAddresses =>
    ab.handleAddressResponse text timed.order timed.now maxAddresses infos
  | .peerConnected peerID multiaddr =>
    ab.onPeerConnected text timed.order timed.now peerID multiaddr
  | .peerDisconnected peerID => ab.updateLastSeen timed.now peerID
  | .attempt nodeID connected => ab.attempt text timed.now nodeID connected
  | .addSeeds seeds => ab.addSeeds seeds
  | .markSeed peerID => ab.markSeed peerID
  | .updateLatency peerID latency => ab.updateLatency peerID latency
  | .removePeer peerID => ab.removePeer peerID

end AddressBook

/-! ## Node IDs -/

/-- The node ID of every entry is a text of its peer. -/
def Decodes (text : PeerText) (ab : AddressBook) : Prop :=
  ∀ id entry, ab.peers.lookup id = some entry → text.decode entry.nodeID = some id

namespace Decodes

variable {text : PeerText} {ab : AddressBook} {peerID : PeerID} {now : Int64} {order : VisitOrder}
  (decodes : Decodes text ab)

include decodes

theorem insert {entry : AddressEntry} (isText : text.decode entry.nodeID = some peerID) :
    Decodes text { ab with peers := ab.peers.insert peerID entry } := by
  intro id other found
  rw [lookup_insert] at found
  split at found
  next same =>
    cases found
    exact same ▸ isText
  next => exact decodes id other found

theorem erase (removed : PeerID) : Decodes text { ab with peers := ab.peers.erase removed } := by
  intro id entry found
  rw [lookup_erase] at found
  split at found
  next => cases found
  next => exact decodes id entry found

theorem modify {change : AddressEntry → AddressEntry}
    (keeps : ∀ entry, (change entry).nodeID = entry.nodeID) :
    Decodes text (ab.modify peerID change) := by
  rw [AddressBook.modify]
  split
  next => exact decodes
  next entry found =>
    apply decodes.insert
    rw [keeps]
    exact decodes peerID entry found

theorem updateLastSeen : Decodes text (ab.updateLastSeen now peerID) := decodes.modify fun _ => rfl

theorem recordAttempt : Decodes text (ab.recordAttempt now peerID) := decodes.modify fun _ => rfl

theorem resetAttempts : Decodes text (ab.resetAttempts peerID) := decodes.modify fun _ => rfl

theorem evictOldest : Decodes text (ab.evictOldest order) := by
  simp only [AddressBook.evictOldest]
  split
  next => exact decodes.erase _
  next => exact decodes

theorem addPeer {multiaddr nodeID : String} {latency : Int32}
    (isText : text.decode nodeID = some peerID) :
    Decodes text (ab.addPeer order now peerID multiaddr nodeID latency) := by
  rw [AddressBook.addPeer]
  split
  next => exact decodes.insert isText
  refine insert ?_ isText
  split
  next => exact decodes.evictOldest
  next => exact decodes

theorem handleAddressResponse (maxAddresses : Int) (infos : List AddressInfo) :
    Decodes text (ab.handleAddressResponse text order now maxAddresses infos) := by
  have kept (maxToAccept : Int) (progress : AddressBook × Nat) (start : Decodes text progress.1) :
      Decodes text (infos.foldl (acceptAddress text order now maxToAccept) progress).1 := by
    induction infos generalizing progress with
    | nil => exact start
    | cons info infos ih =>
      apply ih
      rw [acceptAddress]
      split
      next => exact start
      split
      next =>
        split
        next => exact start
        next isText => exact start.addPeer isText
      next => exact start
  exact kept _ (ab, 0) decodes

theorem onPeerConnected (multiaddr : String) :
    Decodes text (ab.onPeerConnected text order now peerID multiaddr) := by
  have seen : Decodes text ((ab.updateLastSeen now peerID).resetAttempts peerID) :=
    decodes.updateLastSeen.resetAttempts
  simp only [AddressBook.onPeerConnected]
  split
  next => exact seen
  next => exact seen.addPeer (text.decode_encode peerID)

theorem attempt (nodeID : String) (connected : Bool) :
    Decodes text (ab.attempt text now nodeID connected) := by
  rw [AddressBook.attempt]
  split
  next => exact decodes
  next peerID _ =>
    have recorded : Decodes text (ab.recordAttempt now peerID) := decodes.recordAttempt
    dsimp only
    split
    next => exact recorded.resetAttempts
    next => exact recorded

theorem step (timed : TimedPexEvent) : Decodes text (ab.step text timed) := by
  obtain ⟨now, order, event⟩ := timed
  cases event with
  | addressResponse infos maxAddresses => exact decodes.handleAddressResponse maxAddresses infos
  | peerConnected peerID multiaddr => exact decodes.onPeerConnected multiaddr
  | peerDisconnected peerID => exact decodes.updateLastSeen
  | attempt nodeID connected => exact decodes.attempt nodeID connected
  | addSeeds seeds => exact decodes
  | markSeed | updateLatency => exact decodes.modify fun _ => rfl
  | removePeer peerID => exact decodes.erase peerID

theorem after (events : List TimedPexEvent) :
    Decodes text (Run.after (AddressBook.step text) ab events) :=
  Run.invariant_after events decodes fun _ timed isText => isText.step timed

end Decodes

namespace AddressBook

variable {text : PeerText} {ab : AddressBook} {peerID : PeerID} {now : Int64} {order : VisitOrder}

theorem path_modify (change : AddressEntry → AddressEntry) :
    (ab.modify peerID change).path = ab.path := by
  rw [modify]
  split
  next => rfl
  next => rfl

theorem path_evictOldest : (ab.evictOldest order).path = ab.path := by
  simp only [evictOldest]
  split
  next => rfl
  next => rfl

theorem path_addPeer (multiaddr nodeID : String) (latency : Int32) :
    (ab.addPeer order now peerID multiaddr nodeID latency).path = ab.path := by
  rw [addPeer]
  split
  next => rfl
  dsimp only
  split
  next => exact path_evictOldest
  next => rfl

theorem path_handleAddressResponse (maxAddresses : Int) (infos : List AddressInfo) :
    (ab.handleAddressResponse text order now maxAddresses infos).path = ab.path := by
  have kept (maxToAccept : Int) (progress : AddressBook × Nat) :
      (infos.foldl (acceptAddress text order now maxToAccept) progress).1.path =
        progress.1.path := by
    induction infos generalizing progress with
    | nil => rfl
    | cons info infos ih =>
      rw [List.foldl_cons, ih, acceptAddress]
      split
      next => rfl
      split
      next =>
        split
        next => rfl
        next => exact path_addPeer ..
      next => rfl
  exact kept _ (ab, 0)

theorem path_step (timed : TimedPexEvent) : (ab.step text timed).path = ab.path := by
  obtain ⟨now, order, event⟩ := timed
  cases event with
  | addressResponse infos maxAddresses => exact path_handleAddressResponse maxAddresses infos
  | peerConnected peerID multiaddr =>
    have seen : ((ab.updateLastSeen now peerID).resetAttempts peerID).path = ab.path :=
      (path_modify _).trans (path_modify _)
    simp only [step, onPeerConnected]
    split
    next => exact seen
    next => exact (path_addPeer ..).trans seen
  | peerDisconnected peerID => exact path_modify _
  | attempt nodeID connected =>
    simp only [step, attempt]
    split
    next => rfl
    next =>
      split
      next => exact (path_modify _).trans (path_modify _)
      next => exact path_modify _
  | addSeeds seeds => rfl
  | markSeed | updateLatency => exact path_modify _
  | removePeer peerID => rfl

theorem path_after (events : List TimedPexEvent) :
    (Run.after (step text) ab events).path = ab.path := by
  induction events generalizing ab with
  | nil => rfl
  | cons timed events ih => exact ih.trans (path_step timed)

end AddressBook

end Blockberry.Pex
