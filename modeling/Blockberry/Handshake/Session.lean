import Blockberry.Handlers.Handshake

/-!
# The handshake with one peer

As long as the network calls succeed, the seven flags and the key of a `PeerHandshakeState` only
say four things: whether the node has greeted the peer, whether the peer has greeted the node
rightly, the key it has shown, and whether it has finalized. A `Session` is these facts, and the
handler follows it through every event.
-/

namespace Blockberry.Handshake

open Handlers HandshakeHandler

/-! ## Sessions -/

structure Session where
  connected : Bool
  greeted : Bool
  key : Option Bytes
  finalized : Bool
  deriving DecidableEq, Repr

/-- What an event means to the session with its peer. -/
inductive Signal where
  | connect
  | greet
  | showKey (key : Bytes)
  | finalize
  | refused
  deriving DecidableEq, Repr

/-- What a session does to the outside. -/
inductive Action where
  | sendRequest
  | sendResponse
  | prepareStreams (key : Bytes)
  | sendFinalize
  | finalizeHandshake
  | setPublicKey (key : Bytes)
  deriving DecidableEq, Repr

namespace Session

def initial : Session := ⟨false, false, none, false⟩

/-- The handshake is complete once the peer has shown its key and finalized. -/
def complete (s : Session) : Bool := s.key.isSome && s.finalized

def next (s : Session) : Signal → Session
  | .connect => { s with connected := true }
  | .greet => { s with greeted := true }
  | .showKey key => { s with key := some (s.key.getD key) }
  | .finalize => { s with finalized := true }
  | .refused => s

/-- The calls at the end of the handshake. -/
def conclude (key : Bytes) : List Action := [.finalizeHandshake, .setPublicKey key]

def actions (s : Session) : Signal → List Action
  | .connect => if s.connected then [] else [.sendRequest]
  | .greet => if s.greeted then [] else [.sendResponse]
  | .showKey key =>
    match s.key with
    | some _ => []
    | none =>
      [.prepareStreams key, .sendFinalize] ++ if s.finalized then conclude key else []
  | .finalize =>
    match s.key with
    | none => []
    | some key => if s.finalized then [] else conclude key
  | .refused => []

end Session

open Session

/-! ## Events of the handler -/

inductive Event where
  | onPeerConnected
  | handleMessage (message : Except DecodeError HelloMessage)
  deriving DecidableEq, Repr

variable (h : HandshakeHandler)

def Event.run (peerID : PeerID) (env : NetworkEnv) :
    Event → HandshakeOutcome
  | onPeerConnected => h.onPeerConnected env peerID
  | handleMessage message => h.handleMessage env peerID message

/-- The handler takes the request for one of its own chain and version. -/
def Matches (req : HelloRequest) : Prop :=
  ∃ fields, req.validate = .ok fields ∧ fields.chainId = h.chainID ∧
    fields.version = h.protocolVersion

/-- How the handler reads an event. -/
def Event.signal : Event → Signal
  | onPeerConnected => .connect
  | handleMessage (.error _) => .refused
  | handleMessage (.ok (.request req)) =>
    match req.validate with
    | .error _ => .refused
    | .ok fields =>
      if fields.chainId = h.chainID ∧ fields.version = h.protocolVersion then .greet
      else .refused
  | handleMessage (.ok (.response resp)) =>
    if resp.accepted = some true ∧ resp.publicKey.length = publicKeySize then
      .showKey resp.publicKey
    else .refused
  | handleMessage (.ok (.finalize fin)) =>
    if fin.success = some true then .finalize else .refused

def Action.calls (env : NetworkEnv) (peerID : PeerID) :
    Action → List HandshakeCall
  | sendRequest => h.notify (.send peerID (.request (h.helloRequest env)) none)
  | sendResponse =>
    h.notify (.send peerID (.response { accepted := some true, publicKey := h.publicKey }) none)
  | prepareStreams key => h.notify (.prepareStreams peerID key none)
  | sendFinalize => h.notify (.send peerID (.finalize { success := some true }) none)
  | finalizeHandshake => h.notify (.finalizeHandshake peerID none)
  | setPublicKey key => if h.peerManagerSet then [.setPublicKey peerID key] else []

/-! ## What the handler does when the calls succeed -/

structure Succeeds (env : NetworkEnv) : Prop where
  send : env.sendErr = none
  prepareStreams : env.prepareStreamsErr = none
  finalizeHandshake : env.finalizeHandshakeErr = none

/-- The two handlers differ in their records only. -/
def SameSetup (h h' : HandshakeHandler) : Prop := h' = { h with states := h'.states }

theorem SameSetup.trans {h h' h'' : HandshakeHandler} (first : SameSetup h h')
    (second : SameSetup h' h'') : SameSetup h h'' := by
  rw [SameSetup, second, first]

theorem SameSetup.calls {h h' : HandshakeHandler} (same : SameSetup h h') (env : NetworkEnv)
    (peerID : PeerID) : Action.calls h' env peerID = Action.calls h env peerID := by
  rw [same]
  rfl

/-- A part of an event leaves the peer with a record and makes the calls of the given
actions. -/
structure Yields (h : HandshakeHandler) (env : NetworkEnv) (peerID : PeerID)
    (outcome : HandshakeOutcome) (state : PeerHandshakeState) (actions : List Action) :
    Prop where
  setup : SameSetup h outcome.handler
  found : outcome.handler.states.lookup peerID = some state
  calls : outcome.calls = actions.flatMap (Action.calls h env peerID)
  err : outcome.err = none

section Parts

variable {h h' : HandshakeHandler} {env : NetworkEnv} {peerID : PeerID}
  {state state' : PeerHandshakeState} {outcome : HandshakeOutcome}
  {actions actions' : List Action}

theorem Yields.of_sameSetup (same : SameSetup h h')
    (yields : Yields h' env peerID outcome state actions) :
    Yields h env peerID outcome state actions :=
  ⟨same.trans yields.setup, yields.found, same.calls env peerID ▸ yields.calls, yields.err⟩

theorem Yields.andThen {next : HandshakeHandler → HandshakeOutcome}
    (first : Yields h env peerID outcome state actions)
    (second : Yields outcome.handler env peerID (next outcome.handler) state' actions') :
    Yields h env peerID (outcome.andThen next) state' (actions ++ actions') := by
  have second := second.of_sameSetup first.setup
  simp only [HandshakeOutcome.andThen, first.err]
  refine ⟨second.setup, second.found, ?_, second.err⟩
  rw [first.calls, second.calls, List.flatMap_append]

theorem sameSetup_setState (h : HandshakeHandler) (peerID : PeerID) (state : PeerHandshakeState) :
    SameSetup h (h.setState peerID state) := rfl

theorem lookup_setState (h : HandshakeHandler) (peerID : PeerID) (state : PeerHandshakeState) :
    (h.setState peerID state).states.lookup peerID = some state :=
  Finmap.lookup_insert _

theorem sameSetup_getOrCreateState (h : HandshakeHandler) (now : Int) (peerID : PeerID) :
    SameSetup h (h.getOrCreateState now peerID).1 := by
  simp only [getOrCreateState]
  split
  next => rfl
  next => rfl

theorem lookup_getOrCreateState (h : HandshakeHandler) (now : Int) (peerID : PeerID) :
    (h.getOrCreateState now peerID).1.states.lookup peerID =
      some (h.getOrCreateState now peerID).2 := by
  simp only [getOrCreateState]
  split
  next found => exact found
  next => exact lookup_setState h peerID _

theorem yields_nothing (env : NetworkEnv) (found : h.states.lookup peerID = some state) :
    Yields h env peerID ⟨h, [], none⟩ state [] := ⟨rfl, found, rfl, rfl⟩

/-- A network call that succeeds, after the record has been written. -/
theorem yields_callNetwork (h : HandshakeHandler) (env : NetworkEnv) (peerID : PeerID)
    (state : PeerHandshakeState) {action : Action} {call : HandshakeCall} {err : Option String}
    (means : action.calls h env peerID = h.notify call) (succeeds : err = none)
    (wrap : String → HandshakeError) :
    Yields h env peerID ((h.setState peerID state).callNetwork call err wrap) state [action] := by
  subst succeeds
  have found := lookup_setState h peerID state
  simp only [callNetwork]
  split
  next isSet =>
    have called : h.notify call = [call] := if_pos isSet
    exact ⟨rfl, found, by simp [means, called], rfl⟩
  next notSet =>
    have silent : h.notify call = [] := if_neg notSet
    exact ⟨rfl, found, by simp [means, silent], rfl⟩

variable (found : h.states.lookup peerID = some state)

include found

variable (succeeds : Succeeds env)

include succeeds

theorem yields_sendOnce {action : Action} {message : HelloMessage}
    (means : action.calls h env peerID = h.notify (.send peerID message none))
    (sent : PeerHandshakeState → Bool) (mark : PeerHandshakeState → PeerHandshakeState)
    (wrap : String → HandshakeError) :
    Yields h env peerID (sendOnce sent mark wrap h env peerID message)
      (if sent state then state else mark state) (if sent state then [] else [action]) := by
  simp only [sendOnce, found]
  split
  next => exact yields_nothing env found
  next =>
    rw [succeeds.send]
    exact yields_callNetwork h env peerID (mark state) means rfl wrap

theorem yields_tryComplete : Yields h env peerID (h.tryComplete env peerID)
      (if state.canComplete then { state with state := .complete } else state)
      (if state.canComplete then conclude state.peerPubKey else []) := by
  simp only [tryComplete, found]
  split
  next =>
    rw [succeeds.finalizeHandshake]
    have means : Action.calls h env peerID .finalizeHandshake =
      h.notify (.finalizeHandshake peerID none) := rfl
    have finalized := yields_callNetwork h env peerID { state with state := .complete } means rfl
      .finalizingHandshake
    exact finalized.andThen ⟨rfl, finalized.found, (List.append_nil _).symm, rfl⟩
  next => exact yields_nothing env found

theorem yields_sendHelloRequest : Yields h env peerID (h.sendHelloRequest env peerID)
      (if state.sentRequest then state else { state with sentRequest := true })
      (if state.sentRequest then [] else [.sendRequest]) :=
  yields_sendOnce found succeeds rfl _ _ _

theorem yields_sendHelloResponse : Yields h env peerID (h.sendHelloResponse env peerID)
      (if state.sentResponse then state else { state with sentResponse := true })
      (if state.sentResponse then [] else [.sendResponse]) :=
  yields_sendOnce found succeeds rfl _ _ _

theorem yields_sendHelloFinalize : Yields h env peerID (h.sendHelloFinalize env peerID)
      (if state.sentFinalize then state else { state with sentFinalize := true })
      (if state.sentFinalize then [] else [.sendFinalize]) :=
  yields_sendOnce found succeeds rfl _ _ _

omit succeeds

omit found

theorem yields_finalize_tryComplete (h : HandshakeHandler) (peerID : PeerID)
    (succeeds : Succeeds env) (unsent : state.sentFinalize = false) :
    let ready := { state with sentFinalize := true }
    Yields h env peerID (((h.setState peerID state).sendHelloFinalize env peerID).andThen
        fun h => h.tryComplete env peerID)
      (if ready.canComplete then { ready with state := .complete } else ready)
      (.sendFinalize :: if ready.canComplete then conclude ready.peerPubKey else []) := by
  intro ready
  have sent := (yields_sendHelloFinalize (lookup_setState h peerID state) succeeds).of_sameSetup
    (sameSetup_setState h peerID state)
  rw [unsent] at sent
  exact sent.andThen (yields_tryComplete sent.found succeeds)

/-- What the first response sets going once its key has been written down. -/
theorem yields_firstResponse (h : HandshakeHandler) (peerID : PeerID) (key : Bytes)
    (received : PeerHandshakeState) (succeeds : Succeeds env)
    (unsent : received.sentFinalize = false) :
    let ready := { received with streamsPrepared := true, sentFinalize := true }
    Yields h env peerID (((h.setState peerID received).callNetwork
        (.prepareStreams peerID key env.prepareStreamsErr) env.prepareStreamsErr
        .preparingStreams).andThen fun h =>
          ((h.setState peerID { received with streamsPrepared := true }).sendHelloFinalize
            env peerID).andThen fun h => h.tryComplete env peerID)
      (if ready.canComplete then { ready with state := .complete } else ready)
      (.prepareStreams key :: .sendFinalize ::
        if ready.canComplete then conclude ready.peerPubKey else []) := by
  intro ready
  have means : Action.calls h env peerID (.prepareStreams key) =
    h.notify (.prepareStreams peerID key none) := rfl
  rw [succeeds.prepareStreams]
  have prepared := yields_callNetwork h env peerID received means rfl .preparingStreams
  exact prepared.andThen (yields_finalize_tryComplete _ peerID succeeds unsent)

end Parts

/-! ## The handler follows the session -/

/-- The flags and the key of a record say what the session says. -/
structure FlagsTrack (s : Session) (state : PeerHandshakeState) : Prop where
  sentRequest : state.sentRequest = s.connected
  receivedRequest : state.receivedRequest = s.greeted
  sentResponse : state.sentResponse = s.greeted
  receivedResponse : state.receivedResponse = s.key.isSome
  peerPubKey : ∀ key ∈ s.key, state.peerPubKey = key
  streamsPrepared : state.streamsPrepared = s.key.isSome
  sentFinalize : state.sentFinalize = s.key.isSome
  receivedFinalize : state.receivedFinalize = s.finalized

structure Tracks (s : Session) (state : PeerHandshakeState) : Prop extends
    FlagsTrack s state where
  complete : (state.state == .complete) = s.complete

/-- The record of the peer, or the one that would be created for it, tracks the
session. -/
def Follows (h : HandshakeHandler) (peerID : PeerID) (s : Session) : Prop :=
  ∀ now, Tracks s (h.getOrCreateState now peerID).2

/-- An event that means `signal` has the effect and the calls of the session. -/
structure Simulates (h : HandshakeHandler) (peerID : PeerID) (env : NetworkEnv) (s : Session)
    (signal : Signal) (outcome : HandshakeOutcome) : Prop where
  setup : SameSetup h outcome.handler
  follows : Follows outcome.handler peerID (s.next signal)
  calls : outcome.calls = (s.actions signal).flatMap (Action.calls h env peerID)

section Simulation

variable {h : HandshakeHandler} {peerID : PeerID} {env : NetworkEnv} {s : Session}
  {state : PeerHandshakeState} {signal : Signal} {outcome : HandshakeOutcome}
  {calls : List HandshakeCall}

theorem follows_of_found (found : h.states.lookup peerID = some state) (tracks : Tracks s state) :
    Follows h peerID s := by
  intro now
  simp only [getOrCreateState, found]
  exact tracks

theorem follows_newHandshakeHandler (chainID : String) (protocolVersion : Int32)
    (nodeID : String) (publicKey : Bytes) (networkSet peerManagerSet : Bool)
    (peerID : PeerID) :
    Follows (newHandshakeHandler chainID protocolVersion nodeID publicKey networkSet
      peerManagerSet) peerID initial := by
  intro now
  exact ⟨⟨rfl, rfl, rfl, rfl, (fun _ isNone => nomatch isNone), rfl, rfl, rfl⟩, rfl⟩

theorem isHandshakeComplete_of_follows (follows : Follows h peerID s) :
    h.isHandshakeComplete peerID = s.complete := by
  have tracked := (follows 0).complete
  simp only [getOrCreateState] at tracked
  simp only [isHandshakeComplete, getPeerState]
  cases found : h.states.lookup peerID with
  | none | some =>
    rw [found] at tracked
    exact tracked

theorem simulates_of_yields {actions : List Action}
    (yields : Yields h env peerID outcome state actions)
    (tracks : Tracks (s.next signal) state) (same : actions = s.actions signal) :
    Simulates h peerID env s signal outcome :=
  ⟨yields.setup, follows_of_found yields.found tracks, same ▸ yields.calls⟩

theorem simulates_connect (follows : Follows h peerID s) (succeeds : Succeeds env) :
    Simulates h peerID env s .connect (h.onPeerConnected env peerID) := by
  have tracks := follows env.now
  have sent := (yields_sendHelloRequest (lookup_getOrCreateState h env.now peerID)
    succeeds).of_sameSetup (sameSetup_getOrCreateState h env.now peerID)
  apply simulates_of_yields sent
  · rw [tracks.sentRequest]
    cases connected : s.connected with
    | true => exact { tracks with sentRequest := tracks.sentRequest.trans connected }
    | false => exact { tracks with sentRequest := rfl }
  · rw [tracks.sentRequest]
    rfl

theorem simulates_greet (follows : Follows h peerID s) (succeeds : Succeeds env)
    {req : HelloRequest} {fields : RequestFields} (valid : req.validate = .ok fields)
    (chain : fields.chainId = h.chainID) (version : fields.version = h.protocolVersion) :
    Simulates h peerID env s .greet (h.handleHelloRequest env peerID req) := by
  have tracks := follows env.now
  have setup := sameSetup_getOrCreateState h env.now peerID
  simp only [handleHelloRequest, valid, chain, version, ne_eq, not_true_eq_false,
    if_false, tracks.receivedRequest]
  cases greeted : s.greeted with
  | true =>
    have nothing := yields_nothing env (lookup_getOrCreateState h env.now peerID)
    apply simulates_of_yields (nothing.of_sameSetup setup)
    · exact { tracks with
        receivedRequest := tracks.receivedRequest.trans greeted
        sentResponse := tracks.sentResponse.trans greeted }
    · simp [actions, greeted]
  | false =>
    apply simulates_of_yields ((yields_sendHelloResponse (lookup_setState _ peerID _)
      succeeds).of_sameSetup (setup.trans (sameSetup_setState _ peerID _)))
    · simp only [tracks.sentResponse, greeted]
      exact { tracks with receivedRequest := rfl, sentResponse := rfl }
    · simp [actions, tracks.sentResponse, greeted]

/-- Completion as `tryComplete` finds it: the session is complete and the record was
not. -/
theorem FlagsTrack.canComplete (flags : FlagsTrack s state) {done : Bool}
    (was : (state.state == .complete) = done) :
    state.canComplete = (s.complete && !done) := by
  rw [PeerHandshakeState.canComplete, bne, was, flags.streamsPrepared, flags.receivedFinalize]
  rfl

theorem FlagsTrack.tryComplete (flags : FlagsTrack s state) {done : Bool}
    (was : (state.state == .complete) = done) (stays : done = true → s.complete = true) :
    Tracks s (if state.canComplete then { state with state := .complete } else state) := by
  rw [flags.canComplete was]
  cases done with
  | true =>
    rw [Bool.not_true, Bool.and_false]
    exact ⟨flags, was.trans (stays rfl).symm⟩
  | false =>
    cases complete : s.complete with
    | true => exact ⟨{ flags with }, complete.symm⟩
    | false => exact ⟨flags, was.trans complete.symm⟩

theorem simulates_finalize (follows : Follows h peerID s) (succeeds : Succeeds env)
    {fin : HelloFinalize} (success : fin.success = some true) :
    Simulates h peerID env s .finalize (h.handleHelloFinalize env peerID fin) := by
  have tracks := follows env.now
  have flags : FlagsTrack (s.next .finalize)
      { (h.getOrCreateState env.now peerID).2 with receivedFinalize := true } :=
    { tracks.toFlagsTrack with receivedFinalize := rfl }
  have valid : fin.validate = .ok true := by
    rw [HelloFinalize.validate, success]
    rfl
  have setup := sameSetup_getOrCreateState h env.now peerID
  simp only [handleHelloFinalize, valid]
  apply simulates_of_yields ((yields_tryComplete (lookup_setState _ peerID _)
    succeeds).of_sameSetup (setup.trans (sameSetup_setState _ peerID _)))
  · apply flags.tryComplete tracks.complete
    simp only [complete, next, Bool.and_true, Bool.and_eq_true]
    exact And.left
  · rw [flags.canComplete tracks.complete]
    cases key : s.key with
    | none => simp [actions, complete, next, key]
    | some value =>
      simp only [tracks.peerPubKey value key]
      cases finalized : s.finalized with
      | true | false => simp [actions, complete, next, key, finalized]

theorem simulates_showKey (follows : Follows h peerID s) (succeeds : Succeeds env)
    {resp : HelloResponse} (accepted : resp.accepted = some true)
    (length : resp.publicKey.length = publicKeySize) :
    Simulates h peerID env s (.showKey resp.publicKey) (h.handleHelloResponse env peerID resp) := by
  have tracks := follows env.now
  have setup := sameSetup_getOrCreateState h env.now peerID
  have valid : resp.validate = .ok true := by
    rw [HelloResponse.validate, accepted]
    rfl
  simp only [handleHelloResponse, valid, length, ne_eq, not_true_eq_false,
    if_false, Bool.not_true, Bool.false_eq_true, tracks.receivedResponse]
  cases key : s.key with
  | some value =>
    have same : s.next (.showKey resp.publicKey) = s := by
      rw [next, key, Option.getD_some, ← key]
    have nothing := yields_nothing env (lookup_getOrCreateState h env.now peerID)
    apply simulates_of_yields (nothing.of_sameSetup setup)
    · rw [same]
      exact tracks
    · simp [actions, key]
  | none =>
    have unsent := tracks.sentFinalize
    rw [key] at unsent
    let received := { (h.getOrCreateState env.now peerID).2 with
      receivedResponse := true
      peerPubKey := resp.publicKey }
    have isKey : received.peerPubKey = resp.publicKey := rfl
    have flags : FlagsTrack (s.next (.showKey resp.publicKey))
        { received with streamsPrepared := true, sentFinalize := true } :=
      { tracks.toFlagsTrack with
        receivedResponse := rfl
        peerPubKey := by simp [next, key, isKey]
        streamsPrepared := rfl
        sentFinalize := rfl }
    have incomplete := tracks.complete
    rw [complete, key] at incomplete
    rw [if_neg (by simp)]
    apply simulates_of_yields ((yields_firstResponse _ peerID resp.publicKey received
      succeeds unsent).of_sameSetup setup)
    · exact flags.tryComplete incomplete (by simp)
    · rw [flags.canComplete incomplete]
      simp [actions, complete, next, key, isKey]

theorem handler_of_refused {event : Event} (refused : event.signal h = .refused) :
    (event.run h peerID env).handler = h := by
  rcases event with _ | ⟨err | (req | resp | fin)⟩
  · contradiction
  · rfl
  · simp only [Event.signal] at refused
    simp only [Event.run, handleMessage, handleHelloRequest]
    cases valid : req.validate with
    | error err => rfl
    | ok fields =>
      rw [valid] at refused
      simp only [ite_eq_right_iff, reduceCtorEq, imp_false, not_and] at refused
      dsimp only
      split
      next => rfl
      next sameChain => rw [if_pos (refused (not_not.mp sameChain))]
  · simp only [Event.signal, ite_eq_right_iff, reduceCtorEq, imp_false, not_and] at refused
    simp only [Event.run, handleMessage, handleHelloResponse, HelloResponse.validate]
    rcases resp with ⟨_ | (_ | _), key⟩
    · rfl
    · rfl
    · rw [required]
      simp [refused rfl]
  · simp only [Event.signal, ite_eq_right_iff, reduceCtorEq, imp_false] at refused
    simp only [Event.run, handleMessage, handleHelloFinalize, HelloFinalize.validate]
    rcases fin with ⟨_ | (_ | _)⟩
    · rfl
    · rfl
    · contradiction

/-- Every other event has the effect and the calls of the session. -/
theorem simulates (follows : Follows h peerID s) (succeeds : Succeeds env) {event : Event}
    (taken : event.signal h ≠ .refused) :
    Simulates h peerID env s (event.signal h) (event.run h peerID env) := by
  rcases event with _ | ⟨err | (req | resp | fin)⟩
  · exact simulates_connect follows succeeds
  · contradiction
  · simp only [Event.signal] at taken ⊢
    cases valid : req.validate with
    | error err =>
      rw [valid] at taken
      contradiction
    | ok fields =>
      rw [valid] at taken
      simp only at taken ⊢
      split at taken
      next same =>
        rw [if_pos same]
        exact simulates_greet follows succeeds valid same.1 same.2
      next => contradiction
  · simp only [Event.signal] at taken ⊢
    split at taken
    next same =>
      rw [if_pos same]
      exact simulates_showKey follows succeeds same.1 same.2
    next => contradiction
  · simp only [Event.signal] at taken ⊢
    split at taken
    next same =>
      rw [if_pos same]
      exact simulates_finalize follows succeeds same
    next => contradiction

theorem follows_run (follows : Follows h peerID s) (succeeds : Succeeds env) (event : Event) :
    SameSetup h (event.run h peerID env).handler ∧
      Follows (event.run h peerID env).handler peerID (s.next (event.signal h)) := by
  by_cases refused : event.signal h = .refused
  · rw [handler_of_refused refused, refused]
    exact ⟨rfl, follows⟩
  · have simulated := simulates follows succeeds refused
    exact ⟨simulated.setup, simulated.follows⟩

end Simulation

end Blockberry.Handshake
