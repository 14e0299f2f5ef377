import Blockberry.Lib.Trace
import Blockberry.Handshake.ChainCheck

/-!
# What a handler does to one peer over time

The calls of a handler are logged with the events of the peer that caused them. Whatever the peer
sends and however calls fail, every message goes out at most once, the streams are prepared and the
handshake finalized at most once and in this order, and the key stored is the first one shown. One
invariant between record and log carries this: the flag of a call is set before the call, and a
flag for something received only by an entry of the log.
-/

namespace Blockberry.Handshake

open Handlers HandshakeHandler List Option HelloResponse List

/-! ## The log -/

/-- An event of the peer, or a call of the handler. -/
inductive Entry where
  | event (event : Event)
  | call (call : HandshakeCall)
  deriving DecidableEq, Repr

variable (peerID : PeerID)

def entries (h : HandshakeHandler) (event : NetworkEnv × Event) : List Entry :=
  .event event.2 :: (event.2.run h peerID event.1).calls.map .call

def history (h : HandshakeHandler) (events : List (NetworkEnv × Event)) : List Entry :=
  Run.trace (step peerID) (entries peerID) h events

/-- The calls that have a flag in the record of the peer. -/
inductive Guarded where
  | sendRequest
  | sendResponse
  | sendFinalize
  | prepareStreams
  | finalizeHandshake
  deriving DecidableEq, Repr

/-- The flag that is set before the call is made. -/
def Guarded.flag : Guarded → PeerHandshakeState → Bool
  | sendRequest, state => state.sentRequest
  | sendResponse, state => state.sentResponse
  | sendFinalize, state => state.sentFinalize
  | prepareStreams, state => state.receivedResponse
  | finalizeHandshake, state => state.state == .complete

def guardedMessage : HelloMessage → Guarded
  | .request _ => .sendRequest
  | .response _ => .sendResponse
  | .finalize _ => .sendFinalize

/-- Which of the guarded calls to the peer the entry is. -/
def Entry.guarded : Entry → Option Guarded
  | call (.send dest message _) => if dest = peerID then some (guardedMessage message) else none
  | call (.prepareStreams dest _ _) => if dest = peerID then some .prepareStreams else none
  | call (.finalizeHandshake dest _) => if dest = peerID then some .finalizeHandshake else none
  | _ => none

def timesCalled (guarded : Guarded) (log : List Entry) : Nat :=
  log.countP fun entry => entry.guarded peerID = some guarded

/-- The key of a response that the handler accepts. -/
def Entry.acceptedKey : Entry → Option Bytes
  | event (.handleMessage (.ok (.response resp))) =>
    if resp.accepted = some true ∧ resp.publicKey.length = publicKeySize then
      some resp.publicKey
    else none
  | _ => none

def firstKey (log : List Entry) : Option Bytes := log.findSome? Entry.acceptedKey

/-- A finalization with success has been received. -/
def FinalizeReceived (log : List Entry) : Prop :=
  ∃ fin : HelloFinalize, Entry.event (.handleMessage (.ok (.finalize fin))) ∈ log ∧
    fin.success = some true

/-- The streams have been prepared with the key, without an error. -/
def StreamsPrepared (key : Bytes) (log : List Entry) : Prop :=
  Entry.call (.prepareStreams peerID key none) ∈ log

/-- What must stand in the log before a call. Without a network there are no streams to
prepare. -/
def Justified (networkSet : Bool) (peerID : PeerID) (log : List Entry) : Entry → Prop
  | .call (.prepareStreams _ key _) =>
    key.length = publicKeySize ∧ firstKey log = some key
  | .call (.finalizeHandshake _ _) =>
    (∃ key, StreamsPrepared peerID key log) ∧ FinalizeReceived log
  | .call (.setPublicKey _ key) =>
    key.length = publicKeySize ∧ firstKey log = some key ∧
      (networkSet = true → StreamsPrepared peerID key log)
  | _ => True

section Log

variable {peerID : PeerID} {log : List Entry} {guarded : Guarded}

theorem timesCalled_concat (entry : Entry) : timesCalled peerID guarded (log ++ [entry]) =
      timesCalled peerID guarded log + if entry.guarded peerID = some guarded then 1 else 0 := by
  simp [timesCalled, countP_append, countP_cons]

theorem firstKey_concat (entry : Entry) :
    firstKey (log ++ [entry]) = (firstKey log).or entry.acceptedKey := by
  simp only [firstKey, findSome?_append, findSome?_cons, findSome?_nil]
  cases entry.acceptedKey <;> rfl

theorem firstKey_append_calls (calls : List HandshakeCall) :
    firstKey (log ++ calls.map .call) = firstKey log := by
  have noKey : (calls.map Entry.call).findSome? Entry.acceptedKey = none := by
    rw [findSome?_eq_none_iff]
    intro entry member
    rcases mem_map.mp member with ⟨call, -, rfl⟩
    rfl
  rw [firstKey, findSome?_append, noKey]
  exact or_none

theorem FinalizeReceived.concat (received : FinalizeReceived log) (entry : Entry) :
    FinalizeReceived (log ++ [entry]) := by
  rcases received with ⟨fin, member, success⟩
  exact ⟨fin, mem_append_left [entry] member, success⟩

theorem length_of_firstKey {key : Bytes} (first : firstKey log = some key) :
    key.length = publicKeySize := by
  rcases exists_of_findSome?_eq_some first with ⟨entry, -, accepted⟩
  simp only [Entry.acceptedKey] at accepted
  split at accepted
  next resp =>
    split at accepted
    next good =>
      cases accepted
      exact good.2
    next => contradiction
  next => contradiction

end Log

/-! ## The record remembers the log -/

/-- The flags and the key of the record against the log. -/
structure Remembers (networkSet : Bool) (peerID : PeerID) (log : List Entry)
    (state : PeerHandshakeState) : Prop where
  timesCalled : ∀ guarded, timesCalled peerID guarded log ≤ (guarded.flag state).toNat
  receivedResponse : state.receivedResponse = (firstKey log).isSome
  peerPubKey : ∀ key ∈ firstKey log, state.peerPubKey = key
  streamsPrepared : state.streamsPrepared = true →
    ∃ key ∈ firstKey log, networkSet = true → StreamsPrepared peerID key log
  receivedFinalize : state.receivedFinalize = true → FinalizeReceived log

def Finalized (networkSet : Bool) (peerID : PeerID) (log : List Entry)
    (state : PeerHandshakeState) : Prop :=
  networkSet = true → state.state = .complete →
    ∃ err, Entry.call (.finalizeHandshake peerID err) ∈ log

/-- A moment of a run in which the peer has a record. -/
structure Good (start : HandshakeHandler) (peerID : PeerID) (log : List Entry)
    (h : HandshakeHandler) (state : PeerHandshakeState) : Prop where
  setup : SameSetup start h
  found : h.states.lookup peerID = some state
  remembers : Remembers start.networkSet peerID log state
  causal : Log.Causal (Justified start.networkSet peerID) log
  finalized : Finalized start.networkSet peerID log state

/-- A part of an event that ends in a good moment. -/
def Keeps (start : HandshakeHandler) (peerID : PeerID) (log : List Entry)
    (outcome : HandshakeOutcome) : Prop :=
  ∃ state, Good start peerID (log ++ outcome.calls.map .call) outcome.handler state

theorem SameSetup.networkSet {h h' : HandshakeHandler} (same : SameSetup h h') :
    h'.networkSet = h.networkSet := by
  rw [same]

theorem Finalized.append {networkSet : Bool} {peerID : PeerID} {log : List Entry}
    {state state' : PeerHandshakeState} (finalized : Finalized networkSet peerID log state)
    (sameState : state'.state = state.state) (later : List Entry) :
    Finalized networkSet peerID (log ++ later) state' := by
  intro isSet complete
  rw [sameState] at complete
  obtain ⟨err, made⟩ := finalized isSet complete
  exact ⟨err, mem_append_left later made⟩

section Parts

variable {start h : HandshakeHandler} {peerID : PeerID} {log : List Entry}
  {state state' : PeerHandshakeState} {hasNetwork : Bool} {outcome : HandshakeOutcome}
  {env : NetworkEnv} {made : HandshakeCall} {guarded : Guarded}
  (remembers : Remembers hasNetwork peerID log state)

include remembers

theorem Remembers.timesCalled_eq_zero
    (guarded : Guarded) (unset : guarded.flag state = false) :
    Handshake.timesCalled peerID guarded log = 0 := by
  have atMost := remembers.timesCalled guarded
  rw [unset] at atMost
  exact Nat.le_zero.mp atMost

theorem Remembers.firstKey_eq
    (received : state.receivedResponse = true) : firstKey log = some state.peerPubKey := by
  rw [remembers.receivedResponse] at received
  rcases isSome_iff_exists.mp received with ⟨key, isFirst⟩
  rw [remembers.peerPubKey key isFirst]
  exact isFirst

theorem Remembers.call (first : ∀ guarded, (Entry.call made).guarded peerID = some guarded →
      Handshake.timesCalled peerID guarded log = 0 ∧ guarded.flag state = true) :
    Remembers hasNetwork peerID (log ++ [.call made]) state := by
  have sameKey : firstKey (log ++ [.call made]) = firstKey log := by
    rw [firstKey_concat]
    exact or_none
  refine ⟨?_, ?_, ?_, ?_, ?_⟩
  · intro guarded
    rw [timesCalled_concat]
    split
    next isGuarded =>
      rcases first guarded isGuarded with ⟨never, set⟩
      rw [never, set]
      exact Nat.le_refl 1
    next => exact remembers.timesCalled guarded
  · rw [sameKey]
    exact remembers.receivedResponse
  · rw [sameKey]
    exact remembers.peerPubKey
  · intro prepared
    rcases remembers.streamsPrepared prepared with ⟨key, isFirst, called⟩
    rw [sameKey]
    exact ⟨key, isFirst, fun isSet => mem_append_left _ (called isSet)⟩
  · intro received
    exact (remembers.receivedFinalize received).concat _

/-- An event that shows no new key is logged without a change of the record. -/
theorem Remembers.event {event : Event}
    (sameKey : firstKey (log ++ [.event event]) = firstKey log) :
    Remembers hasNetwork peerID (log ++ [.event event]) state := by
  refine ⟨?_, ?_, ?_, ?_, ?_⟩
  · intro guarded
    rw [timesCalled_concat]
    exact remembers.timesCalled guarded
  · rw [sameKey]
    exact remembers.receivedResponse
  · rw [sameKey]
    exact remembers.peerPubKey
  · intro prepared
    rcases remembers.streamsPrepared prepared with ⟨key, isFirst, called⟩
    rw [sameKey]
    exact ⟨key, isFirst, fun isSet => mem_append_left _ (called isSet)⟩
  · intro received
    exact (remembers.receivedFinalize received).concat _

omit remembers

theorem Good.keeps (good : Good start peerID log h state) (err : Option HandshakeError) :
    Keeps start peerID log ⟨h, [], err⟩ :=
  ⟨state, by simpa using good⟩

theorem Remembers.setKey (remembers : Remembers hasNetwork peerID log state)
    (notYet : state.receivedResponse = false) {event : Event} {key : Bytes}
    (shown : (Entry.event event).acceptedKey = some key) :
    Remembers hasNetwork peerID (log ++ [.event event])
      { state with receivedResponse := true, peerPubKey := key } := by
  have noKey : firstKey log = none := by
    rw [remembers.receivedResponse] at notYet
    simpa using notYet
  have isFirst : firstKey (log ++ [.event event]) = some key := by
    rw [firstKey_concat, noKey, shown]
    rfl
  refine ⟨?_, ?_, ?_, ?_, ?_⟩
  · intro guarded
    have atMost := remembers.timesCalled guarded
    rw [timesCalled_concat]
    cases guarded with
    | prepareStreams =>
      rw [remembers.timesCalled_eq_zero .prepareStreams notYet]
      exact Nat.zero_le 1
    | sendRequest | sendResponse | sendFinalize | finalizeHandshake => exact atMost
  · rw [isFirst]
    rfl
  · rw [isFirst]
    intro other same
    exact some.inj same
  · intro prepared
    rcases remembers.streamsPrepared prepared with ⟨other, isOther, -⟩
    rw [noKey] at isOther
    contradiction
  · intro received
    exact (remembers.receivedFinalize received).concat _

variable (good : Good start peerID log h state)

include good

theorem Good.event {event : Event} (sameKey : firstKey (log ++ [.event event]) = firstKey log) :
    Good start peerID (log ++ [.event event]) h state :=
  ⟨good.setup, good.found, good.remembers.event sameKey, good.causal.concat trivial,
    good.finalized.append rfl _⟩

theorem Good.setState (remembers : Remembers start.networkSet peerID log state')
    (sameState : state'.state = state.state) :
    Good start peerID log (h.setState peerID state') state' :=
  ⟨good.setup.trans (sameSetup_setState h peerID state'), lookup_setState h peerID state',
    remembers, good.causal, append_nil log ▸ good.finalized.append sameState []⟩

theorem Good.call (first : ∀ guarded, (Entry.call made).guarded peerID = some guarded →
      Handshake.timesCalled peerID guarded log = 0 ∧ guarded.flag state = true)
    (justified : Justified start.networkSet peerID log (.call made)) :
    Good start peerID (log ++ [.call made]) h state :=
  ⟨good.setup, good.found, good.remembers.call first, good.causal.concat justified,
    good.finalized.append rfl _⟩

omit good

theorem Good.andThen {next : HandshakeHandler → HandshakeOutcome}
    (good : Good start peerID (log ++ outcome.calls.map .call) outcome.handler state)
    (second : outcome.err = none →
      Keeps start peerID (log ++ outcome.calls.map .call) (next outcome.handler)) :
    Keeps start peerID log (outcome.andThen next) := by
  simp only [HandshakeOutcome.andThen]
  split
  next => exact ⟨state, good⟩
  next succeeded =>
    rcases second succeeded with ⟨state', later⟩
    exact ⟨state', by simpa using later⟩

theorem Good.callNetwork (good : Good start peerID log h state) (made : HandshakeCall)
    (first : ∀ guarded, (Entry.call made).guarded peerID = some guarded →
      Handshake.timesCalled peerID guarded log = 0 ∧ guarded.flag state = true)
    (justified : start.networkSet = true → Justified start.networkSet peerID log (.call made))
    (err : Option String) (wrap : String → HandshakeError) :
    Good start peerID (log ++ (h.callNetwork made err wrap).calls.map .call)
      (h.callNetwork made err wrap).handler state := by
  simp only [HandshakeHandler.callNetwork]
  split
  next isSet =>
    rw [good.setup.networkSet] at isSet
    exact good.call first (justified isSet)
  next => simpa using good

include remembers

/-- Setting flags of calls, with the rest of the record as it was. -/
theorem Remembers.setFlags
    (kept : ∀ guarded : Guarded, guarded.flag state = true → guarded.flag state' = true)
    (response : state'.receivedResponse = state.receivedResponse)
    (key : state'.peerPubKey = state.peerPubKey)
    (prepared : state'.streamsPrepared = state.streamsPrepared)
    (finalize : state'.receivedFinalize = state.receivedFinalize) :
    Remembers hasNetwork peerID log state' := by
  refine ⟨?_, ?_, ?_, ?_, ?_⟩
  · intro guarded
    apply Nat.le_trans (remembers.timesCalled guarded)
    cases was : guarded.flag state with
    | false => exact Nat.zero_le _
    | true =>
      rw [kept guarded was]
  · rw [response]
    exact remembers.receivedResponse
  · rw [key]
    exact remembers.peerPubKey
  · rw [prepared]
    exact remembers.streamsPrepared
  · rw [finalize]
    exact remembers.receivedFinalize

theorem Remembers.setReceivedFinalize (received : FinalizeReceived log) :
    Remembers hasNetwork peerID log { state with receivedFinalize := true } := by
  refine ⟨?_, remembers.receivedResponse, remembers.peerPubKey, remembers.streamsPrepared,
    fun _ => received⟩
  intro guarded
  cases guarded <;> exact remembers.timesCalled _

theorem Remembers.setStreamsPrepared
    (prepared : ∃ key ∈ firstKey log, hasNetwork = true → StreamsPrepared peerID key log) :
    Remembers hasNetwork peerID log { state with streamsPrepared := true } := by
  refine ⟨?_, remembers.receivedResponse, remembers.peerPubKey, fun _ => prepared,
    remembers.receivedFinalize⟩
  intro guarded
  cases guarded <;> exact remembers.timesCalled _

omit remembers

include good

variable (env : NetworkEnv)

theorem Good.sendOnce {message : HelloMessage} {sent : PeerHandshakeState → Bool}
    {mark : PeerHandshakeState → PeerHandshakeState}
    (isFlag : (guardedMessage message).flag = sent) (sets : sent (mark state) = true)
    (sameState : (mark state).state = state.state)
    (remembers : Remembers start.networkSet peerID log (mark state))
    (wrap : String → HandshakeError) :
    Keeps start peerID log (HandshakeHandler.sendOnce sent mark wrap h env peerID message) := by
  simp only [HandshakeHandler.sendOnce, good.found]
  split
  next => exact good.keeps none
  next unsent =>
    have marked := good.setState remembers sameState
    have sending := marked.callNetwork (.send peerID message env.sendErr) ?first
      (fun _ => trivial) env.sendErr wrap
    case first =>
      intro guarded isGuarded
      rw [Entry.guarded, if_pos rfl] at isGuarded
      cases isGuarded
      refine ⟨good.remembers.timesCalled_eq_zero _ ?_, ?_⟩
      · rw [isFlag]
        exact Bool.not_eq_true _ ▸ unsent
      · rw [isFlag]
        exact sets
    exact ⟨mark state, sending⟩

theorem Good.sendHelloRequest : Keeps start peerID log (h.sendHelloRequest env peerID) := by
  apply good.sendOnce env rfl rfl rfl
  apply good.remembers.setFlags
  · rintro (_ | _ | _ | _ | _) <;> simp [Guarded.flag]
  all_goals rfl

theorem Good.sendHelloResponse : Keeps start peerID log (h.sendHelloResponse env peerID) := by
  apply good.sendOnce env rfl rfl rfl
  apply good.remembers.setFlags
  · rintro (_ | _ | _ | _ | _) <;> simp [Guarded.flag]
  all_goals rfl

theorem Good.sendHelloFinalize : Keeps start peerID log (h.sendHelloFinalize env peerID) := by
  apply good.sendOnce env rfl rfl rfl
  apply good.remembers.setFlags
  · rintro (_ | _ | _ | _ | _) <;> simp [Guarded.flag]
  all_goals rfl

/-- The record is completed before the call that finalizes the handshake. -/
theorem Good.complete (incomplete : Guarded.finalizeHandshake.flag state = false)
    (justified : start.networkSet = true → Justified start.networkSet peerID log
      (.call (.finalizeHandshake peerID env.finalizeHandshakeErr))) :
    let outcome := (h.setState peerID { state with state := .complete }).callNetwork
      (.finalizeHandshake peerID env.finalizeHandshakeErr) env.finalizeHandshakeErr
      .finalizingHandshake
    Good start peerID (log ++ outcome.calls.map .call) outcome.handler
      { state with state := .complete } := by
  have remembers : Remembers start.networkSet peerID log { state with state := .complete } := by
    apply good.remembers.setFlags
    · rintro (_ | _ | _ | _ | _) <;> simp [Guarded.flag]
    all_goals rfl
  have setup := good.setup.trans (sameSetup_setState h peerID { state with state := .complete })
  have found := lookup_setState h peerID { state with state := .complete }
  simp only [HandshakeHandler.callNetwork]
  split
  next isSet =>
    rw [setup.networkSet] at isSet
    refine ⟨setup, found, remembers.call ?_, good.causal.concat (justified isSet), ?_⟩
    · intro guarded isGuarded
      rw [Entry.guarded, if_pos rfl] at isGuarded
      cases isGuarded
      exact ⟨good.remembers.timesCalled_eq_zero _ incomplete, rfl⟩
    · exact fun _ _ => ⟨_, mem_append_right _ (mem_singleton_self _)⟩
  next notSet =>
    rw [setup.networkSet] at notSet
    rw [map_nil, append_nil]
    exact ⟨setup, found, remembers, good.causal, fun isSet => absurd isSet notSet⟩

/-- The streams were prepared with the key of the record, and a finalization has been
received, whenever the handshake can be completed. -/
theorem Good.tryComplete : Keeps start peerID log (h.tryComplete env peerID) := by
  simp only [HandshakeHandler.tryComplete, good.found]
  split
  next can =>
    simp only [PeerHandshakeState.canComplete, Bool.and_eq_true, bne_iff_ne, ne_eq] at can
    rcases can with ⟨⟨prepared, received⟩, incomplete⟩
    rcases good.remembers.streamsPrepared prepared with ⟨key, isFirst, called⟩
    obtain rfl := good.remembers.peerPubKey key isFirst
    have finalized := good.remembers.receivedFinalize received
    have finalizing := good.complete env (by simpa [Guarded.flag] using incomplete)
      fun isSet => ⟨⟨state.peerPubKey, called isSet⟩, finalized⟩
    apply finalizing.andThen
    intro _
    have justified : ∀ calls : List HandshakeCall,
        Justified start.networkSet peerID (log ++ calls.map .call)
          (.call (.setPublicKey peerID state.peerPubKey)) := fun calls =>
      ⟨length_of_firstKey isFirst, (firstKey_append_calls calls).trans isFirst,
        fun isSet => mem_append_left _ (called isSet)⟩
    split
    next => exact ⟨_, finalizing.call (by simp [Entry.guarded]) (justified _)⟩
    next => exact finalizing.keeps none
  next => exact good.keeps none

end Parts

/-- The moments between two events; the peer may have no record yet. -/
structure BetweenEvents (start : HandshakeHandler) (peerID : PeerID) (h : HandshakeHandler)
    (log : List Entry) : Prop where
  setup : SameSetup start h
  remembers : ∀ now, Remembers start.networkSet peerID log (h.getOrCreateState now peerID).2
  causal : Log.Causal (Justified start.networkSet peerID) log
  finalized : ∀ now, Finalized start.networkSet peerID log (h.getOrCreateState now peerID).2

section Events

variable {start h : HandshakeHandler} {peerID : PeerID} {log : List Entry} {env : NetworkEnv}

theorem betweenEvents_start (unknown : start.states.lookup peerID = none) :
    BetweenEvents start peerID start [] := by
  refine ⟨rfl, ?_, Log.causal_nil, ?_⟩
  · intro now
    simp only [getOrCreateState, unknown]
    exact ⟨fun _ => Nat.zero_le _, rfl, by simp [firstKey], by simp [newPeerHandshakeState],
      by simp [newPeerHandshakeState]⟩
  · intro now
    simp [Finalized, getOrCreateState, unknown, newPeerHandshakeState]

theorem BetweenEvents.good (between : BetweenEvents start peerID h log) (now : Int) :
    Good start peerID log (h.getOrCreateState now peerID).1 (h.getOrCreateState now peerID).2 :=
  ⟨between.setup.trans (sameSetup_getOrCreateState h now peerID),
    lookup_getOrCreateState h now peerID, between.remembers now, between.causal,
    between.finalized now⟩

variable {state : PeerHandshakeState}

theorem Good.betweenEvents (good : Good start peerID log h state) :
    BetweenEvents start peerID h log := by
  have record (now : Int) : (h.getOrCreateState now peerID).2 = state := by
    simp only [getOrCreateState, good.found]
  refine ⟨good.setup, fun now => ?_, good.causal, fun now => ?_⟩
  · rw [record]
    exact good.remembers
  · rw [record]
    exact good.finalized

theorem Keeps.betweenEvents {outcome : HandshakeOutcome} (keeps : Keeps start peerID log outcome) :
    BetweenEvents start peerID outcome.handler (log ++ outcome.calls.map .call) := by
  rcases keeps with ⟨state, good⟩
  exact good.betweenEvents

variable (between : BetweenEvents start peerID h log)

include between

theorem BetweenEvents.event {event : Event}
    (sameKey : firstKey (log ++ [.event event]) = firstKey log) :
    BetweenEvents start peerID h (log ++ [.event event]) :=
  ⟨between.setup, fun now => (between.remembers now).event sameKey,
    between.causal.concat trivial, fun now => (between.finalized now).append rfl _⟩

theorem BetweenEvents.logged (event : Event) (noKey : (Entry.event event).acceptedKey = none) :
    BetweenEvents start peerID h (log ++ [.event event]) := by
  apply between.event
  rw [firstKey_concat, noKey]
  exact or_none

theorem BetweenEvents.notify {call : HandshakeCall}
    (unguarded : (Entry.call call).guarded peerID = none)
    (justified : Justified start.networkSet peerID log (.call call)) :
    BetweenEvents start peerID h (log ++ (h.notify call).map .call) := by
  simp only [HandshakeHandler.notify]
  split
  next =>
    refine ⟨between.setup, fun now => (between.remembers now).call ?_,
      between.causal.concat justified, fun now => (between.finalized now).append rfl _⟩
    simp [unguarded]
  next => simpa using between

theorem BetweenEvents.onPeerConnected : Keeps start peerID log (h.onPeerConnected env peerID) :=
  (between.good env.now).sendHelloRequest env

theorem BetweenEvents.handleHelloRequest (req : HelloRequest) :
    BetweenEvents start peerID (h.handleHelloRequest env peerID req).handler
      (log ++ (h.handleHelloRequest env peerID req).calls.map .call) := by
  simp only [HandshakeHandler.handleHelloRequest]
  cases req.validate with
  | error err => simpa using between
  | ok fields =>
    dsimp only
    split
    next => exact between.notify rfl trivial
    split
    next => exact between.notify rfl trivial
    have good := between.good env.now
    split
    next => exact (good.keeps none).betweenEvents
    apply Keeps.betweenEvents
    refine (good.setState (good.remembers.setFlags ?_ ?_ ?_ ?_ ?_) ?_).sendHelloResponse env
    · rintro (_ | _ | _ | _ | _) <;> simp [Guarded.flag]
    all_goals rfl

theorem BetweenEvents.handleHelloFinalize {fin : HelloFinalize}
    (received : Entry.event (.handleMessage (.ok (.finalize fin))) ∈ log) :
    BetweenEvents start peerID (h.handleHelloFinalize env peerID fin).handler
      (log ++ (h.handleHelloFinalize env peerID fin).calls.map .call) := by
  rcases fin with ⟨_ | (_ | _)⟩
  · simpa [HandshakeHandler.handleHelloFinalize, HelloFinalize.validate, required] using between
  · exact between.notify rfl trivial
  · have good := between.good env.now
    apply Keeps.betweenEvents
    have remembers := good.remembers.setReceivedFinalize ⟨_, received, rfl⟩
    exact (good.setState remembers rfl).tryComplete env

omit between

theorem Good.firstResponse {key : Bytes}
    (good : Good start peerID log h state) (isFirst : firstKey log = some key)
    (received : state.receivedResponse = true)
    (never : timesCalled peerID .prepareStreams log = 0) (env : NetworkEnv) :
    Keeps start peerID log ((h.callNetwork (.prepareStreams peerID key env.prepareStreamsErr)
        env.prepareStreamsErr .preparingStreams).andThen fun h =>
          ((h.setState peerID { state with streamsPrepared := true }).sendHelloFinalize
            env peerID).andThen fun h => h.tryComplete env peerID) := by
  have preparing := good.callNetwork (.prepareStreams peerID key env.prepareStreamsErr) ?first
    (fun _ => ⟨length_of_firstKey isFirst, isFirst⟩) env.prepareStreamsErr .preparingStreams
  case first =>
    intro guarded isGuarded
    rw [Entry.guarded, if_pos rfl] at isGuarded
    cases isGuarded
    exact ⟨never, received⟩
  apply preparing.andThen
  intro succeeded
  have called : start.networkSet = true → StreamsPrepared peerID key (log ++ (h.callNetwork
        (.prepareStreams peerID key env.prepareStreamsErr) env.prepareStreamsErr
        .preparingStreams).calls.map .call) := by
    intro isSet
    rw [← good.setup.networkSet] at isSet
    rw [HandshakeHandler.callNetwork, if_pos isSet] at succeeded ⊢
    rw [map_eq_none_iff.mp succeeded]
    exact mem_append_right _ (mem_singleton_self _)
  have ready := preparing.setState (preparing.remembers.setStreamsPrepared
    ⟨key, (firstKey_append_calls _).trans isFirst, called⟩) rfl
  rcases ready.sendHelloFinalize env with ⟨state', sent⟩
  apply sent.andThen
  intro _
  exact sent.tryComplete env

theorem Good.handleHelloResponse {resp : HelloResponse}
    (accepted : resp.accepted = some true ∧ resp.publicKey.length = publicKeySize)
    (good : Good start peerID log h state) (env : NetworkEnv) :
    Keeps start peerID (log ++ [.event (.handleMessage (.ok (.response resp)))])
      (if state.receivedResponse then ⟨h, [], none⟩
      else
        let received := { state with receivedResponse := true, peerPubKey := resp.publicKey }
        ((h.setState peerID received).callNetwork
          (.prepareStreams peerID resp.publicKey env.prepareStreamsErr)
          env.prepareStreamsErr .preparingStreams).andThen fun h =>
        ((h.setState peerID { received with streamsPrepared := true }).sendHelloFinalize
          env peerID).andThen fun h =>
        h.tryComplete env peerID) := by
  have shown : (Entry.event (.handleMessage (.ok (.response resp)))).acceptedKey =
      some resp.publicKey := if_pos accepted
  split
  next already =>
    have sameKey : firstKey (log ++ [.event (.handleMessage (.ok (.response resp)))]) =
        firstKey log := by
      rw [good.remembers.receivedResponse] at already
      rw [firstKey_concat]
      exact or_of_isSome already
    exact (good.event sameKey).keeps none
  next notYet =>
    rw [Bool.not_eq_true] at notYet
    have written : Good start peerID _ _ _ :=
      ⟨good.setup.trans (sameSetup_setState h peerID _), lookup_setState h peerID _,
        good.remembers.setKey notYet shown, good.causal.concat trivial,
        good.finalized.append rfl _⟩
    apply written.firstResponse (written.remembers.firstKey_eq rfl) rfl ?_ env
    rw [timesCalled_concat]
    exact good.remembers.timesCalled_eq_zero .prepareStreams notYet

theorem BetweenEvents.handleHelloResponse (between : BetweenEvents start peerID h log)
    (resp : HelloResponse) :
    BetweenEvents start peerID (h.handleHelloResponse env peerID resp).handler
      (log ++ [.event (.handleMessage (.ok (.response resp)))] ++
        (h.handleHelloResponse env peerID resp).calls.map .call) := by
  by_cases accepted : resp.accepted = some true ∧ resp.publicKey.length = publicKeySize
  · have valid : resp.validate = .ok true := by
      rw [validate, accepted.1]
      rfl
    simp only [HandshakeHandler.handleHelloResponse, valid, accepted.2, ne_eq,
      not_true_eq_false, if_false, Bool.not_true, Bool.false_eq_true]
    exact ((between.good env.now).handleHelloResponse accepted env).betweenEvents
  · have logged := between.logged (.handleMessage (.ok (.response resp))) (if_neg accepted)
    rcases resp with ⟨_ | (_ | _), key⟩
    · simpa [HandshakeHandler.handleHelloResponse, validate, required] using logged
    · exact logged.notify rfl trivial
    · have wrongLength : key.length ≠ publicKeySize := fun right => accepted ⟨rfl, right⟩
      simp only [HandshakeHandler.handleHelloResponse, validate, required,
        Bool.not_true, Bool.false_eq_true, if_false, wrongLength, ne_eq, not_false_eq_true,
        if_true]
      exact logged.notify rfl trivial

theorem BetweenEvents.step (between : BetweenEvents start peerID h log)
    (event : NetworkEnv × Event) :
    BetweenEvents start peerID (Handshake.step peerID h event) (log ++ entries peerID h event) := by
  rw [entries, ← singleton_append, ← append_assoc]
  rcases event with ⟨env, _ | ⟨err | (req | resp | fin)⟩⟩
  · exact (between.logged _ rfl).onPeerConnected.betweenEvents
  · have logged := between.logged (.handleMessage (.error err)) rfl
    simpa [Handshake.step, Event.run, handleMessage] using logged
  · exact (between.logged _ rfl).handleHelloRequest req
  · exact between.handleHelloResponse resp
  · apply (between.logged _ rfl).handleHelloFinalize
    exact mem_append_right _ (mem_singleton_self _)

theorem betweenEvents_history (unknown : start.states.lookup peerID = none)
    (events : List (NetworkEnv × Event)) :
    BetweenEvents start peerID (Run.after (step peerID) start events)
      (history peerID start events) := by
  have initial := betweenEvents_start unknown
  exact Run.invariant_trace events initial fun h log event between => between.step event

end Events

/-- Whatever a peer sends and however the network calls fail: each message is sent, the streams are
prepared and the handshake is finalized at most once; every call has its reason in the log; and once
a response has been accepted, the record of the peer holds its key for good. -/
theorem handshake_atMostOnce (h : HandshakeHandler) (peerID : PeerID)
    (unknown : h.states.lookup peerID = none) (events : List (NetworkEnv × Event)) :
    let log := history peerID h events
    (∀ guarded, timesCalled peerID guarded log ≤ 1) ∧
      Log.Causal (Justified h.networkSet peerID) log ∧
      ∀ key, firstKey log = some key →
        ∃ state, (Run.after (step peerID) h events).states.lookup peerID = some state ∧
          state.peerPubKey = key := by
  intro log
  have between := betweenEvents_history unknown events
  refine ⟨?_, between.causal, ?_⟩
  · intro guarded
    exact ((between.remembers 0).timesCalled guarded).trans (Bool.toNat_le _)
  · intro key isFirst
    have remembers := between.remembers 0
    have received := remembers.receivedResponse
    have isKey := remembers.peerPubKey key isFirst
    simp only [getOrCreateState] at received isKey
    cases found : (Run.after (step peerID) h events).states.lookup peerID with
    | none =>
      rw [found] at received
      change false = (firstKey log).isSome at received
      rw [isFirst] at received
      contradiction
    | some state =>
      rw [found] at isKey
      exact ⟨state, rfl, isKey⟩

/-- A peer that repeats itself with another key, over a network that fails to finalize. -/
def pushyPeer : List (NetworkEnv × Event) :=
  let failing : NetworkEnv := { quietEnv with finalizeHandshakeErr := some "closed" }
  [(failing, .onPeerConnected),
    (failing, .handleMessage (.ok (.response ⟨some true, someKey⟩))),
    (failing, .handleMessage (.ok (.finalize ⟨some true⟩))),
    (failing, .handleMessage (.ok (.response ⟨some true, replicate 32 9⟩))),
    (failing, .handleMessage (.ok (.finalize ⟨some true⟩)))]

theorem handshake_atMostOnce_pushyPeer :
    timesCalled "peer" .finalizeHandshake (history "peer" mainHandler pushyPeer) ≤ 1 ∧
      firstKey (history "peer" mainHandler pushyPeer) = some someKey ∧
      ∃ state, (Run.after (step "peer") mainHandler pushyPeer).states.lookup "peer" = some state ∧
        state.peerPubKey = someKey := by
  have all := handshake_atMostOnce mainHandler "peer" (Finmap.lookup_empty _) pushyPeer
  have isFirst : firstKey (history "peer" mainHandler pushyPeer) = some someKey := by decide
  exact ⟨all.1 .finalizeHandshake, isFirst, all.2.2 someKey isFirst⟩

end Blockberry.Handshake
