import Blockberry.Lib.FiniteMap
import Blockberry.Lib.Run
import Blockberry.Types.Basic

/-!
# The handshake handler

The handler keeps one record of flags per peer and reacts to three messages, in whatever order they
come. Messages are modelled as decoded; what the wire format can refuse is a `DecodeError`.
Optional fields that the handler does not read, the encoding of its own messages (which cannot
fail) and the timer of the cleanup are left out. A `NetworkEnv` says how the network calls of one
event turn out.
-/

namespace Blockberry.Handlers

open List

structure HelloRequest where
  nodeId : Option String
  version : Option Int32
  chainId : Option String
  timestamp : Option Int64
  latestHeight : Option Int64
  deriving DecidableEq, Repr

structure HelloResponse where
  accepted : Option Bool
  publicKey : Bytes
  deriving DecidableEq, Repr

structure HelloFinalize where
  success : Option Bool
  deriving DecidableEq, Repr

inductive HelloMessage where
  | request (req : HelloRequest)
  | response (resp : HelloResponse)
  | finalize (fin : HelloFinalize)
  deriving DecidableEq, Repr

/-- Why `HandleMessage` cannot make a message of its bytes. -/
inductive DecodeError where
  | invalidMessage
  | readingTypeID
  | unknownMessageType (typeID : UInt32)
  | decodingMessage
  deriving DecidableEq, Repr

inductive HandshakeError where
  | decode (err : DecodeError)
  | missingField (message field : String)
  | chainIDMismatch (expected got : String)
  | versionMismatch (expected got : Int32)
  | peerRejectedHandshake
  | invalidPublicKeyLength (length : Nat)
  | peerIndicatedFailure
  | sendingHelloRequest (cause : String)
  | sendingHelloResponse (cause : String)
  | sendingHelloFinalize (cause : String)
  | preparingStreams (cause : String)
  | finalizingHandshake (cause : String)
  deriving DecidableEq, Repr

/-- A field without which `Validate` fails. -/
def required {α : Type} (message field : String) : Option α → Except HandshakeError α
  | none => .error (.missingField message field)
  | some value => .ok value

/-- The fields of a `HelloRequest` once they are known to be present. -/
structure RequestFields where
  nodeId : String
  version : Int32
  chainId : String
  timestamp : Int64
  latestHeight : Int64
  deriving DecidableEq, Repr

def HelloRequest.validate (req : HelloRequest) : Except HandshakeError RequestFields := do
  let nodeId ← required "HelloRequest" "node_id" req.nodeId
  let version ← required "HelloRequest" "version" req.version
  let chainId ← required "HelloRequest" "chain_id" req.chainId
  let timestamp ← required "HelloRequest" "timestamp" req.timestamp
  let latestHeight ← required "HelloRequest" "latest_height" req.latestHeight
  return { nodeId, version, chainId, timestamp, latestHeight }

def HelloResponse.validate (resp : HelloResponse) : Except HandshakeError Bool :=
  required "HelloResponse" "accepted" resp.accepted

def HelloFinalize.validate (fin : HelloFinalize) : Except HandshakeError Bool :=
  required "HelloFinalize" "success" fin.success

inductive HandshakeState where
  | init
  | complete
  deriving DecidableEq, Repr

structure PeerHandshakeState where
  state : HandshakeState
  startedAt : Int
  peerPubKey : Bytes
  peerNodeID : String
  peerHeight : Int64
  peerVersion : Int32
  peerChainID : String
  sentRequest : Bool
  receivedRequest : Bool
  sentResponse : Bool
  receivedResponse : Bool
  streamsPrepared : Bool
  sentFinalize : Bool
  receivedFinalize : Bool
  deriving DecidableEq, Repr

/-- The zero value of the record but for the time. -/
def newPeerHandshakeState (startedAt : Int) : PeerHandshakeState where
  state := .init
  startedAt
  peerPubKey := []
  peerNodeID := ""
  peerHeight := 0
  peerVersion := 0
  peerChainID := ""
  sentRequest := false
  receivedRequest := false
  sentResponse := false
  receivedResponse := false
  streamsPrepared := false
  sentFinalize := false
  receivedFinalize := false

/-- The completion conditions; the order of the messages does not matter. -/
def PeerHandshakeState.canComplete (state : PeerHandshakeState) : Bool :=
  state.streamsPrepared && state.receivedFinalize && state.state != .complete

structure HandshakeHandler where
  chainID : String
  protocolVersion : Int32
  nodeID : String
  publicKey : Bytes
  timeout : Int
  networkSet : Bool
  peerManagerSet : Bool
  states : Finmap fun _ : PeerID => PeerHandshakeState

/-- Durations are in nanoseconds. -/
def defaultHandshakeTimeout : Int := 30 * 1000000000

def tempBanDurationChainMismatch : Int := 3600 * 1000000000

def tempBanDurationVersionMismatch : Int := 1800 * 1000000000

def publicKeySize : Nat := 32

def newHandshakeHandler (chainID : String) (protocolVersion : Int32) (nodeID : String)
    (publicKey : Bytes) (networkSet peerManagerSet : Bool) : HandshakeHandler where
  chainID
  protocolVersion
  nodeID
  publicKey
  timeout := defaultHandshakeTimeout
  networkSet
  peerManagerSet
  states := ∅

/-- The calls of the network and of the peer manager, with the error they return where
the handler looks at it. -/
inductive HandshakeCall where
  | send (peerID : PeerID) (message : HelloMessage) (err : Option String)
  | prepareStreams (peerID : PeerID) (publicKey : Bytes) (err : Option String)
  | finalizeHandshake (peerID : PeerID) (err : Option String)
  | setPublicKey (peerID : PeerID) (publicKey : Bytes)
  | tempBanPeer (peerID : PeerID) (duration : Int) (reason : String)
  | disconnect (peerID : PeerID)
  deriving DecidableEq, Repr

/-- The clock, the height of the node and the errors of the network calls during one
event. -/
structure NetworkEnv where
  now : Int
  height : Int64
  sendErr : Option String
  prepareStreamsErr : Option String
  finalizeHandshakeErr : Option String

structure HandshakeOutcome where
  handler : HandshakeHandler
  calls : List HandshakeCall
  err : Option HandshakeError

/-- Go on unless there was an error. -/
def HandshakeOutcome.andThen (first : HandshakeOutcome)
    (next : HandshakeHandler → HandshakeOutcome) : HandshakeOutcome :=
  match first.err with
  | some _ => first
  | none =>
    let second := next first.handler
    ⟨second.handler, first.calls ++ second.calls, second.err⟩

namespace HandshakeHandler

variable (h : HandshakeHandler)

def setState (peerID : PeerID) (state : PeerHandshakeState) : HandshakeHandler :=
  { h with states := h.states.insert peerID state }

def getOrCreateState (now : Int) (peerID : PeerID) : HandshakeHandler × PeerHandshakeState :=
  match h.states.lookup peerID with
  | some state => (h, state)
  | none => (h.setState peerID (newPeerHandshakeState now), newPeerHandshakeState now)

/-- A call of the network whose error ends the event. -/
def callNetwork (call : HandshakeCall) (err : Option String)
    (wrap : String → HandshakeError) : HandshakeOutcome :=
  if h.networkSet then ⟨h, [call], err.map wrap⟩ else ⟨h, [], none⟩

/-- A call of the network whose error is ignored. -/
def notify (call : HandshakeCall) : List HandshakeCall :=
  if h.networkSet then [call] else []

def sendOnce (sent : PeerHandshakeState → Bool)
    (mark : PeerHandshakeState → PeerHandshakeState) (wrap : String → HandshakeError)
    (h : HandshakeHandler) (env : NetworkEnv) (peerID : PeerID) (message : HelloMessage) :
    HandshakeOutcome :=
  match h.states.lookup peerID with
  | none => h.callNetwork (.send peerID message env.sendErr) env.sendErr wrap
  | some state =>
    if sent state then ⟨h, [], none⟩
    else (h.setState peerID (mark state)).callNetwork
      (.send peerID message env.sendErr) env.sendErr wrap

variable (env : NetworkEnv)

def helloRequest : HelloRequest where
  nodeId := some h.nodeID
  version := some h.protocolVersion
  chainId := some h.chainID
  timestamp := some (Int64.ofInt env.now)
  latestHeight := some env.height

variable (peerID : PeerID)

def sendHelloRequest : HandshakeOutcome :=
  h.sendOnce (·.sentRequest) ({ · with sentRequest := true }) .sendingHelloRequest env peerID
    (.request (h.helloRequest env))

def sendHelloResponse : HandshakeOutcome :=
  h.sendOnce (·.sentResponse) ({ · with sentResponse := true }) .sendingHelloResponse env peerID
    (.response { accepted := some true, publicKey := h.publicKey })

def sendHelloFinalize : HandshakeOutcome :=
  h.sendOnce (·.sentFinalize) ({ · with sentFinalize := true }) .sendingHelloFinalize env peerID
    (.finalize { success := some true })

def onPeerConnected : HandshakeOutcome :=
  (h.getOrCreateState env.now peerID).1.sendHelloRequest env peerID

def onPeerDisconnected : HandshakeHandler :=
  { h with states := h.states.erase peerID }

def tryComplete : HandshakeOutcome :=
  match h.states.lookup peerID with
  | none => ⟨h, [], none⟩
  | some state =>
    if state.canComplete then
      ((h.setState peerID { state with state := .complete }).callNetwork
        (.finalizeHandshake peerID env.finalizeHandshakeErr) env.finalizeHandshakeErr
        .finalizingHandshake).andThen fun h =>
          ⟨h, if h.peerManagerSet then [.setPublicKey peerID state.peerPubKey] else [], none⟩
    else ⟨h, [], none⟩

def handleHelloRequest (req : HelloRequest) : HandshakeOutcome :=
  match req.validate with
  | .error err => ⟨h, [], some err⟩
  | .ok fields =>
    if fields.chainId ≠ h.chainID then
      ⟨h, h.notify (.tempBanPeer peerID tempBanDurationChainMismatch
          ("chain ID mismatch: expected " ++ h.chainID ++ ", got " ++ fields.chainId)),
        some (.chainIDMismatch h.chainID fields.chainId)⟩
    else if fields.version ≠ h.protocolVersion then
      ⟨h, h.notify (.tempBanPeer peerID tempBanDurationVersionMismatch
          ("version mismatch: expected " ++ toString h.protocolVersion ++ ", got " ++
            toString fields.version)),
        some (.versionMismatch h.protocolVersion fields.version)⟩
    else
      let (h, state) := h.getOrCreateState env.now peerID
      if state.receivedRequest then ⟨h, [], none⟩
      else (h.setState peerID
        { state with
          receivedRequest := true
          peerNodeID := fields.nodeId
          peerVersion := fields.version
          peerChainID := fields.chainId
          peerHeight := fields.latestHeight }).sendHelloResponse env peerID

def handleHelloResponse (resp : HelloResponse) : HandshakeOutcome :=
  match resp.validate with
  | .error err => ⟨h, [], some err⟩
  | .ok accepted =>
    if !accepted then
      ⟨h, h.notify (.disconnect peerID), some .peerRejectedHandshake⟩
    else if resp.publicKey.length ≠ publicKeySize then
      ⟨h, h.notify (.disconnect peerID),
        some (.invalidPublicKeyLength resp.publicKey.length)⟩
    else
      let (h, state) := h.getOrCreateState env.now peerID
      if state.receivedResponse then ⟨h, [], none⟩
      else
        let received :=
          { state with receivedResponse := true, peerPubKey := resp.publicKey }
        ((h.setState peerID received).callNetwork
          (.prepareStreams peerID resp.publicKey env.prepareStreamsErr)
          env.prepareStreamsErr .preparingStreams).andThen fun h =>
        ((h.setState peerID { received with streamsPrepared := true }).sendHelloFinalize
          env peerID).andThen fun h =>
        h.tryComplete env peerID

def handleHelloFinalize (fin : HelloFinalize) : HandshakeOutcome :=
  match fin.validate with
  | .error err => ⟨h, [], some err⟩
  | .ok success =>
    if !success then
      ⟨h, h.notify (.disconnect peerID), some .peerIndicatedFailure⟩
    else
      let (h, state) := h.getOrCreateState env.now peerID
      (h.setState peerID { state with receivedFinalize := true }).tryComplete env peerID

def handleMessage :
    Except DecodeError HelloMessage → HandshakeOutcome
  | .error err => ⟨h, [], some (.decode err)⟩
  | .ok (.request req) => h.handleHelloRequest env peerID req
  | .ok (.response resp) => h.handleHelloResponse env peerID resp
  | .ok (.finalize fin) => h.handleHelloFinalize env peerID fin

/-- One iteration of the cleanup. -/
def cleanupHandshake (now : Int) (progress : HandshakeHandler × List HandshakeCall)
    (peerID : PeerID) : HandshakeHandler × List HandshakeCall :=
  let (h, calls) := progress
  match h.states.lookup peerID with
  | none => progress
  | some state =>
    if state.state ≠ .complete ∧ now - state.startedAt > h.timeout then
      (h.onPeerDisconnected peerID, calls ++ h.notify (.disconnect peerID))
    else progress

/-- Disconnects the peers whose handshake has taken too long. The order in which the
map is visited is that of `peers`. -/
def cleanupStaleHandshakes (now : Int) (peers : List PeerID) :
    HandshakeHandler × List HandshakeCall :=
  peers.foldl (cleanupHandshake now) (h, [])

def getPeerState : HandshakeState × Bool :=
  match h.states.lookup peerID with
  | none => (.init, false)
  | some state => (state.state, true)

def isHandshakeComplete : Bool :=
  let (state, ok) := h.getPeerState peerID
  ok && state == .complete

/-! ## What the cleanup removes -/

variable {h : HandshakeHandler} {now : Int} {calls : List HandshakeCall} {peerID : PeerID}

end HandshakeHandler

end Blockberry.Handlers
