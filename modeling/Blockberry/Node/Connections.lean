import Blockberry.Handlers.Handshake
import Blockberry.P2P.Network

/-!
# Connection events

Modelled is what `handleConnectionEvent` and `handleMessage` do to the network and the handshake
handler; the other reactors and the callbacks do not decide who is let in. A peer is let in unless
the node is stopping or has as many peers in that direction as it may have. Temporary bans are not
looked at.
-/

namespace Blockberry

open P2P Handlers Network

inductive ConnectionState where
  | connected
  | established
  | disconnected
  | other
  deriving DecidableEq, Repr

/-- The parts of a node that decide who is let in. -/
structure ConnectionNode where
  network : Network
  handshake : HandshakeHandler
  stopping : Bool
  maxInboundPeers : Int
  maxOutboundPeers : Int

inductive ConnectionCall where
  | disconnect (peerID : PeerID)
  | startHandshake (peerID : PeerID) (isOutbound : Bool)
  deriving DecidableEq, Repr

structure ConnectionOutcome where
  node : ConnectionNode
  calls : List ConnectionCall

def penaltyInvalidMessage : Int64 := 5

namespace ConnectionNode

/-- There are as many peers in this direction as there may be. -/
def atLimit (n : ConnectionNode) (isOutbound : Bool) : Bool :=
  if isOutbound then n.maxOutboundPeers ≤ n.network.peers.manager.outboundPeerCount
  else n.maxInboundPeers ≤ n.network.peers.manager.inboundPeerCount

/-- The direction is `none` if the underlying node does not know it. -/
def handleConnectionEvent (n : ConnectionNode) (env : NetworkEnv) (peerID : PeerID)
    (state : ConnectionState) (direction : Option Bool) : ConnectionOutcome :=
  if n.stopping then ⟨n, []⟩
  else
    match state with
    | .connected =>
      if n.atLimit (direction.getD false) then ⟨n, [.disconnect peerID]⟩
      else
        ⟨{ n with
            network := n.network.onPeerConnected peerID (direction.getD false)
            handshake := (n.handshake.onPeerConnected env peerID).handler },
          [.startHandshake peerID (direction.getD false)]⟩
    | .disconnected =>
      ⟨{ n with
          network := n.network.onPeerDisconnected peerID
          handshake := n.handshake.onPeerDisconnected peerID }, []⟩
    | _ => ⟨n, []⟩

/-- What a call of the handshake handler does to the network. -/
def applyCall (now : Int) (network : Network) : HandshakeCall → Network
  | .tempBanPeer peerID duration reason => network.tempBanPeer now peerID duration reason
  | .setPublicKey peerID publicKey =>
    { network with peers :=
      { network.peers with manager := network.peers.manager.setPublicKey peerID publicKey } }
  | _ => network

/-- The penalty for a message that could not be handled. -/
def penalize (hours : WholeHours) (n : ConnectionNode) (now : Int) (peerID : PeerID)
    (failed : Bool) : ConnectionNode :=
  if failed then
    { n with network :=
      n.network.addPenalty hours now peerID penaltyInvalidMessage .invalidMessage "" }
  else n

/-- `handleMessage` for the handshake stream. -/
def handleHandshakeMessage (hours : WholeHours) (n : ConnectionNode) (env : NetworkEnv)
    (peerID : PeerID) (message : Except DecodeError HelloMessage) : ConnectionNode :=
  if n.stopping then n
  else
    let outcome := n.handshake.handleMessage env peerID message
    { n with
      handshake := outcome.handler
      network := outcome.calls.foldl (applyCall env.now) n.network }.penalize hours env.now peerID
        outcome.err.isSome

/-- `handleMessage` for the other streams, whose handlers may fail. -/
def handleOtherMessage (hours : WholeHours) (n : ConnectionNode) (env : NetworkEnv)
    (peerID : PeerID) (failed : Bool) : ConnectionNode :=
  if n.stopping then n else n.penalize hours env.now peerID failed

end ConnectionNode

/-- What happens in a node: events of the event loop, calls of the reactors and background
work. -/
inductive NodeEvent where
  | connection (peerID : PeerID) (state : ConnectionState) (direction : Option Bool)
  | handshakeMessage (peerID : PeerID) (message : Except DecodeError HelloMessage)
  | otherMessage (peerID : PeerID) (failed : Bool)
  | addPenalty (peerID : PeerID) (points : Int64) (reason : P2P.PenaltyReason) (message : String)
  | tempBanPeer (peerID : PeerID) (duration : Int) (reason : String)
  | blacklistPeer (peerID : PeerID)
  | cleanupExpiredTempBans
  | cleanupStaleHandshakes (order : List PeerID)
  | decayPenalties
  | stop

/-- An event with what the network says at that time. -/
structure TimedEvent where
  env : NetworkEnv
  event : NodeEvent

namespace ConnectionNode

def handle (hours : WholeHours) (n : ConnectionNode) (timed : TimedEvent) : ConnectionOutcome :=
  match timed.event with
  | .connection peerID state direction =>
    n.handleConnectionEvent timed.env peerID state direction
  | .handshakeMessage peerID message =>
    ⟨n.handleHandshakeMessage hours timed.env peerID message, []⟩
  | .otherMessage peerID failed => ⟨n.handleOtherMessage hours timed.env peerID failed, []⟩
  | .addPenalty peerID points reason message =>
    ⟨{ n with network :=
        n.network.addPenalty hours timed.env.now peerID points reason message }, []⟩
  | .tempBanPeer peerID duration reason =>
    ⟨{ n with network := n.network.tempBanPeer timed.env.now peerID duration reason }, []⟩
  | .blacklistPeer peerID =>
    ⟨{ n with network := n.network.blacklistPeer timed.env.now peerID }, []⟩
  | .cleanupExpiredTempBans =>
    ⟨{ n with network := n.network.cleanupExpiredTempBans timed.env.now }, []⟩
  | .cleanupStaleHandshakes order =>
    ⟨{ n with handshake := (n.handshake.cleanupStaleHandshakes timed.env.now order).1 }, []⟩
  | .decayPenalties =>
    ⟨{ n with network :=
        { n.network with peers := n.network.peers.decayPenalties penaltyDecayRate } }, []⟩
  | .stop => ⟨{ n with stopping := true }, []⟩

def step (hours : WholeHours) (n : ConnectionNode) (timed : TimedEvent) : ConnectionNode :=
  (n.handle hours timed).node

def Connects (p : PeerID) (timed : TimedEvent) (direction : Option Bool) : Prop :=
  timed.event = .connection p .connected direction

/-- A peer that connects is not added and no handshake is started with it. -/
structure Refuses (hours : WholeHours) (p : PeerID) (n : ConnectionNode) (timed : TimedEvent) :
    Prop where
  notAdded : ∀ direction, Connects p timed direction → (n.step hours timed).network.HasPeer p →
    n.network.HasPeer p
  noHandshake : ∀ direction, Connects p timed direction →
    ∀ isOutbound, .startHandshake p isOutbound ∉ (n.handle hours timed).calls

/-- A peer connects only to a node that is stopping or at its limit. -/
def Blocks (p : PeerID) (n : ConnectionNode) (timed : TimedEvent) : Prop :=
  ∀ direction, Connects p timed direction →
    n.stopping = true ∨ n.atLimit (direction.getD false) = true

variable {hours : WholeHours} {n : ConnectionNode} {timed : TimedEvent} {p : PeerID}

theorem node_of_blocks (blocks : Blocks p n timed) {direction : Option Bool}
    (connects : Connects p timed direction) :
    n.step hours timed = n ∧
      ∀ isOutbound, .startHandshake p isOutbound ∉ (n.handle hours timed).calls := by
  rw [step, handle, connects]
  dsimp only
  rw [handleConnectionEvent]
  split
  next => exact ⟨rfl, fun _ member => by cases member⟩
  next notStopping =>
    have isFull := (blocks direction connects).resolve_left notStopping
    rw [if_pos isFull]
    exact ⟨rfl, fun _ member => by simp at member⟩

theorem refuses_iff : Refuses hours p n timed ↔ Blocks p n timed := by
  constructor
  · intro refuses direction connects
    by_contra isFree
    rw [not_or] at isFree
    apply refuses.noHandshake direction connects (direction.getD false)
    rw [handle, connects]
    dsimp only
    rw [handleConnectionEvent, if_neg isFree.1, if_neg isFree.2]
    exact List.mem_singleton_self _
  · intro blocks
    constructor
    · intro direction connects
      rw [(node_of_blocks blocks connects).1]
      exact id
    · intro direction connects
      exact (node_of_blocks blocks connects).2

theorem hasPeer_of_applyCall {network : Network} {now : Int} {call : HandshakeCall}
    (present : (applyCall now network call).HasPeer p) : network.HasPeer p := by
  cases call with
  | tempBanPeer peerID duration reason =>
    exact ((hasPeer_tempBanPeer duration reason).mp present).2
  | setPublicKey peerID publicKey => exact (mem_modify _ _).mp present
  | _ => exact present

theorem hasPeer_of_applyCalls {now : Int} (calls : List HandshakeCall) {network : Network}
    (present : (calls.foldl (applyCall now) network).HasPeer p) : network.HasPeer p := by
  induction calls generalizing network with
  | nil => exact present
  | cons call calls ih => exact hasPeer_of_applyCall (ih present)

theorem hasPeer_of_penalize {now : Int} {peerID : PeerID} {failed : Bool}
    (present : (n.penalize hours now peerID failed).network.HasPeer p) : n.network.HasPeer p := by
  rw [penalize] at present
  split at present
  next => exact hasPeer_of_addPenalty present
  next => exact present

theorem hasPeer_of_step (blocks : Blocks p n timed)
    (present : (n.step hours timed).network.HasPeer p) : n.network.HasPeer p := by
  obtain ⟨env, event⟩ := timed
  cases event with
  | connection peerID state direction =>
    by_cases connects : peerID = p ∧ state = .connected
    · obtain ⟨rfl, rfl⟩ := connects
      rwa [(node_of_blocks blocks rfl).1] at present
    · simp only [step, handle, handleConnectionEvent] at present
      split at present
      next => exact present
      split at present
      next =>
        split at present
        next => exact present
        next =>
          rcases (hasPeer_onPeerConnected _).mp present with same | before
          · exact absurd ⟨same.symm, rfl⟩ connects
          · exact before
      next => exact (hasPeer_onPeerDisconnected.mp present).2
      next => exact present
  | handshakeMessage peerID message =>
    simp only [step, handle, handleHandshakeMessage] at present
    split at present
    next => exact present
    next => exact hasPeer_of_applyCalls _ (hasPeer_of_penalize present)
  | otherMessage peerID failed =>
    simp only [step, handle, handleOtherMessage] at present
    split at present
    next => exact present
    next => exact hasPeer_of_penalize present
  | addPenalty peerID points reason message => exact hasPeer_of_addPenalty present
  | tempBanPeer peerID duration reason =>
    exact ((hasPeer_tempBanPeer duration reason).mp present).2
  | blacklistPeer peerID => exact (hasPeer_recordBan.mp present).2
  | cleanupExpiredTempBans | cleanupStaleHandshakes => exact present
  | decayPenalties => exact (FiniteMap.mem_mapValues ..).mp present
  | stop => exact present

theorem not_hasPeer_after (absent : ¬n.network.HasPeer p) (events : List TimedEvent)
    (every : Run.EveryStep (step hours) (Blocks p) n events) :
    ¬(Run.after (step hours) n events).network.HasPeer p := by
  let absentFrom (n : ConnectionNode) : Prop := ¬n.network.HasPeer p
  have initially : absentFrom n := absent
  apply every.invariant initially
  intro n timed stillAbsent blocks present
  exact stillAbsent (hasPeer_of_step blocks present)

def tempBan (n : ConnectionNode) (now : Int) (p : PeerID) (duration : Int) (reason : String) :
    ConnectionNode :=
  { n with network := n.network.tempBanPeer now p duration reason }

/-- A banned peer is refused until the ban ends exactly if it connects, until then, only to a node
that is stopping or at its limit. Where it never connects to another, the peer manager does not have
it. -/
theorem refuses_banned_iff_blocks (hours : WholeHours) (n : ConnectionNode) (now : Int)
    (p : PeerID) (duration : Int) (reason : String) (events : List TimedEvent) :
    (Run.EveryStep (step hours)
        (fun n timed => timed.env.now < now + duration → Refuses hours p n timed)
        (n.tempBan now p duration reason) events ↔
      Run.EveryStep (step hours)
        (fun n timed => timed.env.now < now + duration → Blocks p n timed)
        (n.tempBan now p duration reason) events) ∧
    (Run.EveryStep (step hours) (Blocks p) (n.tempBan now p duration reason) events →
      ¬(Run.after (step hours) (n.tempBan now p duration reason) events).network.HasPeer p) := by
  constructor
  · simp only [refuses_iff]
  · apply not_hasPeer_after
    intro present
    exact ((hasPeer_tempBanPeer duration reason).mp present).1 rfl

def defaultNode : ConnectionNode where
  network := .newNetwork
  handshake := newHandshakeHandler "chain" 1 "node" [] true true
  stopping := false
  maxInboundPeers := 40
  maxOutboundPeers := 10

/-- A peer with another chain is banned for an hour, disconnects and connects a second later.
The network says that it is banned, and the node lets it in. -/
theorem banned_peer_admitted :
    let env (now : Int) : NetworkEnv := ⟨now, 0, none, none, none⟩
    let banned := Run.after (step exactHours) defaultNode
      [⟨env 0, .connection "p" .connected none⟩,
        ⟨env 1, .handshakeMessage "p" (.ok (.request ⟨some "q", some 1, some "other", some 0,
          some 0⟩))⟩,
        ⟨env 2, .connection "p" .disconnected none⟩]
    let again : TimedEvent := ⟨env 1000000000, .connection "p" .connected none⟩
    banned.network.isTempBanned 1000000000 "p" = true ∧
      (banned.network.peers.manager.getPeer "p").isSome = false ∧
      ((banned.step exactHours again).network.peers.manager.getPeer "p").isSome = true ∧
      (banned.handle exactHours again).calls = [.startHandshake "p" false] := by
  decide +kernel

end ConnectionNode

end Blockberry
