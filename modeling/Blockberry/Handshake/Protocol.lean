import Blockberry.Lib.OneShot
import Blockberry.Handshake.Session

/-!
# Two honest nodes shake hands

Two handlers on one chain are joined by a network that loses and duplicates nothing and delivers in
any order, also before the receiver has noticed the connection. Every kind of message is one-shot.
Once nothing is in flight, both handshakes are complete.
-/

namespace Blockberry.Handshake

open Handlers OneShot Session Handshake.Action List Function List

inductive Side where
  | alice
  | bob
  deriving DecidableEq, Repr

def Side.other : Side → Side
  | alice => bob
  | bob => alice

@[simp] theorem Side.other_other (side : Side) : side.other.other = side := by
  cases side <;> rfl

@[simp] theorem Side.other_ne (side : Side) : side.other ≠ side := by
  cases side <;> exact nofun

theorem Side.eq_or_eq_other (side side' : Side) : side' = side ∨ side' = side.other := by
  cases side <;> cases side' <;> decide

/-- Two nodes that may talk to each other. -/
structure Setup where
  chainID : String
  protocolVersion : Int32
  nodeID : Side → String
  publicKey : Side → Bytes
  peerID : Side → PeerID
  peerManagerSet : Side → Bool
  keyLength : ∀ side, (publicKey side).length = publicKeySize

variable (setup : Setup)

def Setup.handler (side : Side) : HandshakeHandler :=
  newHandshakeHandler setup.chainID setup.protocolVersion (setup.nodeID side)
    (setup.publicKey side) true (setup.peerManagerSet side)

structure Packet where
  dest : Side
  message : HelloMessage
  deriving DecidableEq, Repr

structure System where
  handler : Side → HandshakeHandler
  calls : Side → List HandshakeCall
  connected : Side → Bool
  flight : Multiset Packet

def System.initial : System where
  handler := setup.handler
  calls _ := []
  connected _ := false
  flight := 0

/-- The messages that a list of calls puts on the way. -/
def packets (dest : Side) (calls : List HandshakeCall) : List Packet :=
  calls.filterMap fun
    | .send _ message none => some ⟨dest, message⟩
    | _ => none

/-- One side handles an event. -/
def System.act (system : System) (side : Side) (env : NetworkEnv) (event : Event) : System :=
  let outcome := event.run (system.handler side) (setup.peerID side.other) env
  { system with
    handler := update system.handler side outcome.handler
    calls := update system.calls side (system.calls side ++ outcome.calls)
    flight := system.flight + packets side.other outcome.calls }

/-- What may happen: a side notices the connection, or a packet that is in flight
arrives. -/
inductive Happening where
  | connect (side : Side)
  | deliver (packet : Packet)
  deriving DecidableEq, Repr

/-- The clock and the height of the node that acts; all calls succeed. -/
def reliable (now : Int) (height : Int64) : NetworkEnv := ⟨now, height, none, none, none⟩

structure Occurrence where
  happening : Happening
  now : Int
  height : Int64
  deriving DecidableEq, Repr

def System.step (system : System) (occurrence : Occurrence) : System :=
  let env := reliable occurrence.now occurrence.height
  match occurrence.happening with
  | .connect side =>
    { system with connected := update system.connected side true }.act setup side env
      .onPeerConnected
  | .deliver packet =>
    if packet ∈ system.flight then
      { system with flight := system.flight.erase packet }.act setup packet.dest env
        (.handleMessage (.ok packet.message))
    else system

/-! ## What completion means -/

def isPrepareStreams : HandshakeCall → Bool
  | .prepareStreams .. => true
  | _ => false

def isFinalizeHandshake : HandshakeCall → Bool
  | .finalizeHandshake .. => true
  | _ => false

/-- One side has completed the handshake: it has prepared its streams with the key of the
other and finalized, each once. -/
structure Done (setup : Setup) (system : System) (side : Side) : Prop where
  complete : (system.handler side).isHandshakeComplete (setup.peerID side.other) = true
  prepared : (system.calls side).filter isPrepareStreams =
    [.prepareStreams (setup.peerID side.other) (setup.publicKey side.other) none]
  finalized : (system.calls side).filter isFinalizeHandshake =
    [.finalizeHandshake (setup.peerID side.other) none]

/-! ## The messages as one-shot packets -/

inductive Kind where
  | request
  | response
  | finalize
  deriving DecidableEq, Repr

def kindOf : HelloMessage → Kind
  | .request _ => .request
  | .response _ => .response
  | .finalize _ => .finalize

/-- A session that has sent its message of a kind. -/
def Session.sent (s : Session) : Kind → Bool
  | .request => s.connected
  | .response => s.greeted
  | .finalize => s.key.isSome

/-- A session that has received the message of a kind. -/
def Session.received (s : Session) : Kind → Bool
  | .request => s.greeted
  | .response => s.key.isSome
  | .finalize => s.finalized

def IsKind (dest : Side) (kind : Kind) (packet : Packet) : Prop :=
  packet.dest = dest ∧ kindOf packet.message = kind

instance (dest : Side) (kind : Kind) : DecidablePred (IsKind dest kind) :=
  fun packet => inferInstanceAs (Decidable (packet.dest = dest ∧ kindOf packet.message = kind))

/-- The messages of honest nodes, by their addressee. -/
def Honest (packet : Packet) : Prop :=
  match packet.message with
  | .request req => Matches (setup.handler packet.dest) req
  | .response resp => resp = ⟨some true, setup.publicKey packet.dest.other⟩
  | .finalize fin => fin = ⟨some true⟩

/-- The signal that an honest packet gives. -/
def signalOf (packet : Packet) : Signal :=
  match packet.message with
  | .request _ => .greet
  | .response _ => .showKey (setup.publicKey packet.dest.other)
  | .finalize _ => .finalize

/-- What the session of one side says about its handler and about the calls it has
made. -/
structure Local (setup : Setup) (side : Side) (handler : HandshakeHandler)
    (calls : List HandshakeCall) (connected : Bool) (s : Session) : Prop where
  sameSetup : SameSetup (setup.handler side) handler
  follows : Follows handler (setup.peerID side.other) s
  connected : connected = true → s.connected = true
  key : ∀ key ∈ s.key, key = setup.publicKey side.other
  prepared : calls.filter isPrepareStreams =
    s.key.toList.map fun key => .prepareStreams (setup.peerID side.other) key none
  finalized : calls.filter isFinalizeHandshake =
    replicate s.complete.toNat (.finalizeHandshake (setup.peerID side.other) none)

structure Invariant (setup : Setup) (system : System) (sessions : Side → Session) : Prop where
  sides : ∀ side, Local setup side (system.handler side) (system.calls side)
    (system.connected side) (sessions side)
  conserved : ∀ side kind, Conserved (IsKind side kind) ((sessions side.other).sent kind)
    ((sessions side).received kind) system.flight
  honest : ∀ packet ∈ system.flight, Honest setup packet

theorem invariant_initial : Invariant setup (System.initial setup) fun _ => initial where
  sides side :=
    { sameSetup := rfl
      follows := follows_newHandshakeHandler _ _ _ _ _ _ _
      connected := id
      key := by simp [initial]
      prepared := rfl
      finalized := rfl }
  conserved side kind := by cases kind <;> exact conserved_zero
  honest := by simp [System.initial]

theorem Invariant.done {setup : Setup} {system : System} {sessions : Side → Session}
    (inv : Invariant setup system sessions) (quiet : system.flight = 0)
    (connected : ∀ side, system.connected side = true) (side : Side) :
    Done setup system side := by
  have received : ∀ side kind, (sessions side).received kind = (sessions side.other).sent kind := by
    intro side kind
    have conserved := inv.conserved side kind
    rw [quiet] at conserved
    exact conserved.received_eq
  have greeted : ∀ side, (sessions side).greeted = true := fun side =>
    (received side .request).trans ((inv.sides _).connected (connected _))
  have hasKey : ∀ side, (sessions side).key.isSome = true := fun side =>
    (received side .response).trans (greeted _)
  have final : ∀ side, (sessions side).finalized = true := fun side =>
    (received side .finalize).trans (hasKey _)
  have complete : (sessions side).complete = true := by
    rw [complete, hasKey, final]
    rfl
  have facts := inv.sides side
  rcases Option.isSome_iff_exists.mp (hasKey side) with ⟨key, isKey⟩
  refine ⟨(isHandshakeComplete_of_follows facts.follows).trans complete, ?_, ?_⟩
  · rw [facts.prepared, isKey, facts.key key isKey]
    rfl
  · rw [facts.finalized, complete]
    rfl

/-! ## What a session does at one signal -/

/-- The action that sends the message of a kind. -/
def Kind.action : Kind → Action
  | request => .sendRequest
  | response => .sendResponse
  | finalize => .sendFinalize

def Action.preparedKey : Action → Option Bytes
  | prepareStreams key => some key
  | _ => none

namespace Session

variable (s : Session) (signal : Signal)

theorem count_actions (kind : Kind) : (s.actions signal).count kind.action + (s.sent kind).toNat =
      ((s.next signal).sent kind).toNat := by
  rcases s with ⟨connected, greeted, key, finalized⟩
  cases signal with
  | connect => cases connected <;> cases kind <;> simp [actions, next, sent, Kind.action]
  | greet => cases greeted <;> cases kind <;> simp [actions, next, sent, Kind.action]
  | showKey | finalize =>
    cases key <;> cases finalized <;> cases kind <;>
      simp [actions, next, sent, Kind.action, conclude]
  | refused => exact Nat.zero_add _

theorem filterMap_preparedKey : s.key.toList ++ (s.actions signal).filterMap preparedKey =
      (s.next signal).key.toList := by
  rcases s with ⟨connected, greeted, key, finalized⟩
  cases signal with
  | connect => cases connected <;> exact append_nil _
  | greet => cases greeted <;> exact append_nil _
  | showKey | finalize => cases key <;> cases finalized <;> rfl
  | refused => exact append_nil _

theorem count_finalizeHandshake : s.complete.toNat + (s.actions signal).count .finalizeHandshake =
      (s.next signal).complete.toNat := by
  rcases s with ⟨connected, greeted, key, finalized⟩
  cases signal with
  | connect => cases connected <;> rfl
  | greet => cases greeted <;> rfl
  | showKey | finalize => cases key <;> cases finalized <;> simp [actions, next, complete, conclude]
  | refused => rfl

end Session

section Calls

variable {h : HandshakeHandler} {env : NetworkEnv} {peerID : PeerID} (network : h.networkSet = true)

include network

theorem notify_of_network (call : HandshakeCall) : h.notify call = [call] := if_pos network

theorem countP_packets (dest : Side) (kind : Kind) (actions : List Action) :
    (packets dest (actions.flatMap (calls h env peerID)) :
        Multiset Packet).countP (IsKind dest kind) = actions.count kind.action := by
  induction actions with
  | nil => rfl
  | cons action actions ih =>
    rw [Multiset.coe_countP] at ih ⊢
    rw [flatMap_cons, packets, filterMap_append, countP_append, count_cons, Nat.add_comm]
    congr 1
    cases action with
    | setPublicKey key =>
      simp only [calls]
      split <;> cases kind <;> rfl
    | sendRequest | sendResponse | sendFinalize | prepareStreams key | finalizeHandshake =>
      rw [calls, notify_of_network network]
      cases kind <;> simp [IsKind, kindOf, Kind.action]

theorem filter_prepareStreams (actions : List Action) :
    (actions.flatMap (calls h env peerID)).filter isPrepareStreams =
      (actions.filterMap preparedKey).map fun key => .prepareStreams peerID key none := by
  induction actions with
  | nil => rfl
  | cons action actions ih =>
    rw [flatMap_cons, filter_append, ih]
    cases action with
    | setPublicKey key =>
      simp only [calls]
      split <;> rfl
    | sendRequest | sendResponse | sendFinalize | prepareStreams key | finalizeHandshake =>
      rw [calls, notify_of_network network]
      rfl

theorem filter_finalizeHandshake (actions : List Action) :
    (actions.flatMap (calls h env peerID)).filter isFinalizeHandshake =
      replicate (actions.count .finalizeHandshake) (.finalizeHandshake peerID none) := by
  induction actions with
  | nil => rfl
  | cons action actions ih =>
    rw [flatMap_cons, filter_append, ih, count_cons, Nat.add_comm, replicate_add]
    congr 1
    cases action with
    | setPublicKey key =>
      simp only [calls]
      split <;> rfl
    | sendRequest | sendResponse | sendFinalize | prepareStreams key | finalizeHandshake =>
      rw [calls, notify_of_network network]
      simp [isFinalizeHandshake]

omit network

theorem dest_of_mem_packets {dest : Side} {calls : List HandshakeCall} {packet : Packet}
    (sent : packet ∈ packets dest calls) : packet.dest = dest := by
  rcases mem_filterMap.mp sent with ⟨call, -, isSent⟩
  split at isSent
  next =>
    cases isSent
    rfl
  next => contradiction

theorem countP_packets_of_ne {dest side : Side} (elsewhere : dest ≠ side) (kind : Kind)
    (calls : List HandshakeCall) :
    (packets dest calls : Multiset Packet).countP (IsKind side kind) = 0 := by
  apply Multiset.countP_eq_zero.mpr
  intro packet sent isKind
  exact elsewhere ((dest_of_mem_packets sent).symm.trans isKind.1)

theorem honest_of_mem_packets {setup : Setup} {side : Side}
    (same : SameSetup (setup.handler side) h) {actions : List Action} {packet : Packet}
    (sent : packet ∈ packets side.other (actions.flatMap (calls h env peerID))) :
    Honest setup packet := by
  have network : h.networkSet = true := by
    rw [same]
    rfl
  rcases mem_filterMap.mp sent with ⟨call, called, isSent⟩
  rcases mem_flatMap.mp called with ⟨action, -, isCall⟩
  cases action with
  | setPublicKey key =>
    simp only [calls] at isCall
    split at isCall
    next =>
      rw [mem_singleton.mp isCall] at isSent
      contradiction
    next => contradiction
  | prepareStreams key | finalizeHandshake =>
    rw [calls, notify_of_network network] at isCall
    rw [mem_singleton.mp isCall] at isSent
    contradiction
  | sendRequest =>
    rw [calls, notify_of_network network] at isCall
    rw [mem_singleton.mp isCall] at isSent
    cases isSent
    rw [same]
    exact ⟨_, rfl, rfl, rfl⟩
  | sendResponse =>
    rw [calls, notify_of_network network] at isCall
    rw [mem_singleton.mp isCall] at isSent
    cases isSent
    rw [same]
    simp only [Honest, Side.other_other]
    rfl
  | sendFinalize =>
    rw [calls, notify_of_network network] at isCall
    rw [mem_singleton.mp isCall] at isSent
    cases isSent
    rfl

end Calls

section Steps

variable {setup : Setup} {side : Side} {h : HandshakeHandler} {env : NetworkEnv}
  {calls : List HandshakeCall} {isConnected isConnected' : Bool} {s : Session} {event : Event}
  {packet : Packet}

theorem signal_of_honest (honest : Honest setup packet)
    (same : SameSetup (setup.handler packet.dest) h) :
    (Event.handleMessage (.ok packet.message)).signal h = signalOf setup packet := by
  rcases packet with ⟨dest, req | resp | fin⟩
  · rcases honest with ⟨fields, valid, chain, version⟩
    rw [same]
    simp only [Event.signal, valid]
    exact if_pos ⟨chain, version⟩
  · change resp = _ at honest
    rw [honest]
    exact if_pos ⟨rfl, setup.keyLength _⟩
  · cases honest
    rfl

theorem signalOf_ne_refused (packet : Packet) : signalOf setup packet ≠ .refused := by
  rcases packet with ⟨dest, req | resp | fin⟩ <;> exact nofun

theorem key_of_signalOf {shown : Bytes} (isShown : signalOf setup packet = .showKey shown) :
    shown = setup.publicKey packet.dest.other := by
  rcases packet with ⟨dest, req | resp | fin⟩
  · contradiction
  · cases isShown
    rfl
  · contradiction

theorem Session.connected_next {signal : Signal} (connected : s.connected = true) :
    (s.next signal).connected = true := by
  cases signal with
  | connect => rfl
  | greet | showKey shown | finalize | refused => exact connected

theorem received_next (packet : Packet) (kind : Kind) :
    (s.next (signalOf setup packet)).received kind =
      (decide (kindOf packet.message = kind) || s.received kind) := by
  rcases packet with ⟨dest, req | resp | fin⟩ <;> cases kind <;>
    simp [signalOf, Session.next, received, kindOf]

theorem Session.key_next {signal : Signal} {key : Bytes} (isKey : key ∈ (s.next signal).key) :
    key ∈ s.key ∨ signal = .showKey key := by
  cases signal with
  | connect | greet | finalize | refused => exact Or.inl isKey
  | showKey shown =>
    cases already : s.key with
    | none =>
      rw [next, already] at isKey
      cases isKey
      exact Or.inr rfl
    | some first =>
      rw [next, already] at isKey
      exact Or.inl isKey

theorem Local.act (facts : Local setup side h calls isConnected s) (succeeds : Succeeds env)
    (taken : event.signal h ≠ .refused)
    (key : ∀ shown, event.signal h = .showKey shown → shown = setup.publicKey side.other)
    (connects : isConnected' = true → (s.next (event.signal h)).connected = true) :
    Local setup side (event.run h (setup.peerID side.other) env).handler
      (calls ++ (event.run h (setup.peerID side.other) env).calls) isConnected'
      (s.next (event.signal h)) := by
  have simulated := simulates facts.follows succeeds taken
  have network : h.networkSet = true := by
    rw [facts.sameSetup]
    rfl
  refine ⟨facts.sameSetup.trans simulated.setup, simulated.follows, connects, ?_, ?_, ?_⟩
  · intro shown isKey
    rcases key_next isKey with earlier | now
    · exact facts.key shown earlier
    · exact key shown now
  · rw [filter_append, facts.prepared, simulated.calls, filter_prepareStreams network,
      ← map_append, filterMap_preparedKey]
  · rw [filter_append, facts.finalized, simulated.calls, filter_finalizeHandshake network,
      ← replicate_add, count_finalizeHandshake]

variable {sessions : Side → Session} {system : System}

/-- One side acts on a signal. What it has received by it is no longer in flight. -/
theorem Invariant.act (succeeds : Succeeds env)
    (facts : Local setup side (system.handler side) (system.calls side) isConnected (sessions side))
    (otherFacts : Local setup side.other (system.handler side.other) (system.calls side.other)
      (system.connected side.other) (sessions side.other))
    (honest : ∀ packet ∈ system.flight, Honest setup packet)
    (taken : event.signal (system.handler side) ≠ .refused)
    (key : ∀ shown, event.signal (system.handler side) = .showKey shown →
      shown = setup.publicKey side.other)
    (connects : system.connected side = true →
      ((sessions side).next (event.signal (system.handler side))).connected = true)
    (incoming : ∀ kind, Conserved (IsKind side kind) ((sessions side.other).sent kind)
      (((sessions side).next (event.signal (system.handler side))).received kind) system.flight)
    (outgoing : ∀ kind, Conserved (IsKind side.other kind) ((sessions side).sent kind)
      ((sessions side.other).received kind) system.flight) :
    Invariant setup (system.act setup side env event) (update sessions side
      ((sessions side).next (event.signal (system.handler side)))) := by
  have simulated := simulates facts.follows succeeds taken
  have network : (system.handler side).networkSet = true := by
    rw [facts.sameSetup]
    rfl
  refine ⟨?_, ?_, ?_⟩
  · intro side'
    rcases side.eq_or_eq_other side' with rfl | rfl
    · simp only [System.act, update_self]
      exact facts.act succeeds taken key connects
    · simp only [System.act, update_of_ne side.other_ne]
      exact otherFacts
  · intro side' kind
    rcases side.eq_or_eq_other side' with rfl | rfl
    · rw [update_self, update_of_ne side'.other_ne]
      apply (incoming kind).send
      rw [countP_packets_of_ne side'.other_ne, Nat.zero_add]
    · rw [Side.other_other, update_self, update_of_ne side.other_ne]
      apply (outgoing kind).send
      rw [simulated.calls, countP_packets network, count_actions]
  · intro packet inFlight
    rcases Multiset.mem_add.mp inFlight with earlier | now
    · exact honest packet earlier
    · rw [simulated.calls] at now
      exact honest_of_mem_packets facts.sameSetup now

theorem Invariant.connect
    (inv : Invariant setup system sessions) (succeeds : Succeeds env) (side : Side) :
    ∃ sessions', Invariant setup
      ({ system with connected := update system.connected side true }.act setup side env
        .onPeerConnected) sessions' := by
  refine ⟨_, Invariant.act succeeds (inv.sides side) ?_ inv.honest nofun nofun (fun _ => rfl)
    (inv.conserved side) ?_⟩
  · have facts := inv.sides side.other
    simp only [update_of_ne side.other_ne]
    exact facts
  · intro kind
    have conserved := inv.conserved side.other kind
    rw [Side.other_other] at conserved
    exact conserved

theorem Invariant.deliver (inv : Invariant setup system sessions) (succeeds : Succeeds env)
    (inFlight : packet ∈ system.flight) :
    ∃ sessions', Invariant setup
      ({ system with flight := system.flight.erase packet }.act setup packet.dest env
        (.handleMessage (.ok packet.message))) sessions' := by
  have signal := signal_of_honest (inv.honest packet inFlight) (inv.sides packet.dest).sameSetup
  have split := Multiset.cons_erase inFlight
  refine ⟨_, Invariant.act succeeds (inv.sides packet.dest) (inv.sides packet.dest.other) ?_ ?_ ?_
    ?_ ?_ ?_⟩
  · intro other earlier
    exact inv.honest other (Multiset.mem_of_mem_erase earlier)
  · rw [signal]
    exact signalOf_ne_refused packet
  · intro shown isShown
    rw [signal] at isShown
    exact key_of_signalOf isShown
  · intro connected
    exact connected_next ((inv.sides packet.dest).connected connected)
  · intro kind
    have conserved := inv.conserved packet.dest kind
    rw [← split] at conserved
    rw [signal, received_next]
    by_cases same : kindOf packet.message = kind
    · rw [decide_eq_true same, Bool.true_or]
      exact (conserved.receive ⟨rfl, same⟩).2
    · rw [decide_eq_false same, Bool.false_or]
      exact (conserved_cons_iff fun isKind => same isKind.2).mp conserved
  · intro kind
    have conserved := inv.conserved packet.dest.other kind
    rw [← split, Side.other_other] at conserved
    exact (conserved_cons_iff fun isKind => packet.dest.other_ne isKind.1.symm).mp conserved

theorem Invariant.step (inv : Invariant setup system sessions) (occurrence : Occurrence) :
    ∃ sessions', Invariant setup (system.step setup occurrence) sessions' := by
  have succeeds : Succeeds (reliable occurrence.now occurrence.height) := ⟨rfl, rfl, rfl⟩
  simp only [System.step]
  cases occurrence.happening with
  | connect side => exact inv.connect succeeds side
  | deliver packet =>
    dsimp only
    split
    next inFlight => exact inv.deliver succeeds inFlight
    next => exact ⟨sessions, inv⟩

end Steps

/-- In whatever order things happen, once both sides have noticed the connection and no
message is in flight, both have completed the handshake with the key of the other. -/
theorem handshake_completes (setup : Setup) (occurrences : List Occurrence)
    (connected : ∀ side, (Run.after (System.step setup) (System.initial setup)
      occurrences).connected side = true)
    (quiet : (Run.after (System.step setup) (System.initial setup) occurrences).flight = 0)
    (side : Side) :
    Done setup (Run.after (System.step setup) (System.initial setup) occurrences) side := by
  let holds (system : System) : Prop := ∃ sessions, Invariant setup system sessions
  have reached : holds (Run.after (System.step setup) (System.initial setup) occurrences) :=
    Run.invariant_after occurrences ⟨_, invariant_initial setup⟩
      fun _ occurrence ⟨_, inv⟩ => inv.step occurrence
  rcases reached with ⟨sessions, inv⟩
  exact inv.done quiet connected side

def twoNodes : Setup where
  chainID := "main"
  protocolVersion := 1
  nodeID
    | .alice => "alice"
    | .bob => "bob"
  publicKey
    | .alice => replicate 32 1
    | .bob => replicate 32 2
  peerID
    | .alice => "alice"
    | .bob => "bob"
  peerManagerSet _ := true
  keyLength side := by cases side <;> rfl

/-- The request reaches one node before it has noticed the connection, and its answer
overtakes its own request. -/
def earlyRequest : List Occurrence :=
  [.connect .alice,
    .deliver ⟨.bob, .request ⟨some "alice", some 1, some "main", some 0, some 0⟩⟩,
    .connect .bob,
    .deliver ⟨.alice, .response ⟨some true, replicate 32 2⟩⟩,
    .deliver ⟨.bob, .finalize ⟨some true⟩⟩,
    .deliver ⟨.alice, .request ⟨some "bob", some 1, some "main", some 0, some 0⟩⟩,
    .deliver ⟨.bob, .response ⟨some true, replicate 32 1⟩⟩,
    .deliver ⟨.alice, .finalize ⟨some true⟩⟩].map fun happening => ⟨happening, 0, 0⟩

theorem handshake_completes_earlyRequest :
    Done twoNodes (Run.after (System.step twoNodes) (System.initial twoNodes) earlyRequest)
        .alice ∧
      Done twoNodes (Run.after (System.step twoNodes) (System.initial twoNodes) earlyRequest)
        .bob := by
  have connected : ∀ side, (Run.after (System.step twoNodes) (System.initial twoNodes)
      earlyRequest).connected side = true := by
    intro side
    cases side <;> decide
  have quiet : (Run.after (System.step twoNodes) (System.initial twoNodes)
      earlyRequest).flight = 0 := by
    decide
  exact ⟨handshake_completes twoNodes earlyRequest connected quiet .alice,
    handshake_completes twoNodes earlyRequest connected quiet .bob⟩

end Blockberry.Handshake
