import Blockberry.Handshake.History

/-!
# Network calls that fail

Every flag of a handshake is set before the network call that it stands for, and none is taken back
when the call fails. So a failed call is not made again, and a handshake whose finalization has
failed counts as complete.
-/

namespace Blockberry.Handshake

open Handlers HandshakeHandler List Finmap

/-- Events of a peer, and those that drop its record. -/
inductive PeerEvent where
  | handshake (env : NetworkEnv) (event : Event)
  | onPeerDisconnected
  | cleanupStaleHandshakes (now : Int) (peers : List PeerID)

/-- The handler, and the log of a peer since it was last without a record. -/
structure Watched where
  handler : HandshakeHandler
  log : List Entry

namespace Watched

def step (peerID : PeerID) (w : Watched) : PeerEvent → Watched
  | .handshake env event =>
    ⟨(event.run w.handler peerID env).handler, w.log ++ entries peerID w.handler (env, event)⟩
  | .onPeerDisconnected => ⟨w.handler.onPeerDisconnected peerID, []⟩
  | .cleanupStaleHandshakes now peers =>
    let handler := (w.handler.cleanupStaleHandshakes now peers).1
    ⟨handler, if peerID ∈ handler.states then w.log else []⟩

/-- A complete handshake has been finalized without an error. -/
def Confirmed (peerID : PeerID) (w : Watched) : Prop :=
  w.handler.isHandshakeComplete peerID = true →
    Entry.call (.finalizeHandshake peerID none) ∈ w.log

end Watched

def failure : HandshakeCall → Option String
  | .send _ _ err => err
  | .prepareStreams _ _ err => err
  | .finalizeHandshake _ err => err
  | _ => none

/-- If a call of the event fails, the same event makes the call again. -/
def Retries (peerID : PeerID) (h : HandshakeHandler) (env : NetworkEnv) (event : Event) : Prop :=
  ∀ call ∈ (event.run h peerID env).calls, ∀ guarded,
    (Entry.call call).guarded peerID = some guarded → failure call ≠ none →
      ∀ again, ∃ attempt ∈ (event.run (event.run h peerID env).handler peerID again).calls,
        (Entry.call attempt).guarded peerID = some guarded

/-- No call of the event fails. -/
def Reliable (peerID : PeerID) (w : Watched) : PeerEvent → Prop
  | .handshake env event =>
    ∀ call ∈ (event.run w.handler peerID env).calls, ∀ guarded,
      (Entry.call call).guarded peerID = some guarded → failure call = none
  | _ => True

/-- What is expected of a step. -/
def Faithful (peerID : PeerID) (w : Watched) (event : PeerEvent) : Prop :=
  (w.step peerID event).Confirmed peerID ∧
    match event with
    | .handshake env event => Retries peerID w.handler env event
    | _ => True

section Once

variable {start h : HandshakeHandler} {peerID : PeerID} {log : List Entry}

theorem timesCalled_append (guarded : Guarded) (first second : List Entry) :
    timesCalled peerID guarded (first ++ second) =
      timesCalled peerID guarded first + timesCalled peerID guarded second :=
  countP_append

theorem timesCalled_entries_pos {env : NetworkEnv} {event : Event} {call : HandshakeCall}
    {guarded : Guarded} (made : call ∈ (event.run h peerID env).calls)
    (isGuarded : (Entry.call call).guarded peerID = some guarded) :
    0 < timesCalled peerID guarded (entries peerID h (env, event)) := by
  apply countP_pos_iff.mpr
  exact ⟨.call call, mem_cons_of_mem _ (mem_map_of_mem made), decide_eq_true isGuarded⟩

theorem BetweenEvents.not_again (between : BetweenEvents start peerID h log) {env : NetworkEnv}
    {event : Event} {call : HandshakeCall} {guarded : Guarded}
    (made : call ∈ (event.run h peerID env).calls)
    (isGuarded : (Entry.call call).guarded peerID = some guarded) (again : NetworkEnv)
    {attempt : HandshakeCall}
    (repeated : attempt ∈ (event.run (event.run h peerID env).handler peerID again).calls) :
    (Entry.call attempt).guarded peerID ≠ some guarded := by
  intro sameGuarded
  have twice := (between.step (env, event)).step (again, event)
  have once := ((twice.remembers 0).timesCalled guarded).trans (Bool.toNat_le _)
  rw [timesCalled_append, timesCalled_append] at once
  have first := timesCalled_entries_pos made isGuarded
  have second : 0 < timesCalled peerID guarded
      (entries peerID (Handshake.step peerID h (env, event)) (again, event)) :=
    timesCalled_entries_pos repeated sameGuarded
  omega

end Once

section Runs

variable {start h : HandshakeHandler} {peerID : PeerID} {log : List Entry} {w : Watched}

/-- What holds of the handler and of the log of the peer in runs without failures. -/
structure Watched.Sound (start : HandshakeHandler) (peerID : PeerID) (w : Watched) : Prop where
  between : BetweenEvents start peerID w.handler w.log
  unfailing : ∀ call, .call call ∈ w.log → ∀ guarded,
    (Entry.call call).guarded peerID = some guarded → failure call = none

theorem betweenEvents_unknown (setup : SameSetup start h)
    (unknown : h.states.lookup peerID = none) : BetweenEvents start peerID h [] := by
  obtain ⟨-, remembers, causal, finalized⟩ := betweenEvents_start unknown
  rw [setup.networkSet] at remembers causal finalized
  exact ⟨setup, remembers, causal, finalized⟩

theorem BetweenEvents.of_lookup {next : HandshakeHandler}
    (between : BetweenEvents start peerID h log) (setup : SameSetup h next)
    (same : next.states.lookup peerID = h.states.lookup peerID) :
    BetweenEvents start peerID next log := by
  have record (now : Int) :
      (h.getOrCreateState now peerID).2 = (next.getOrCreateState now peerID).2 := by
    rw [getOrCreateState, getOrCreateState, same]
    cases h.states.lookup peerID <;> rfl
  obtain ⟨earlier, remembers, causal, finalized⟩ := between
  simp only [record] at remembers finalized
  exact ⟨earlier.trans setup, remembers, causal, finalized⟩

theorem sameSetup_onPeerDisconnected (h : HandshakeHandler) (peerID : PeerID) :
    SameSetup h (h.onPeerDisconnected peerID) := rfl

/-- The record of a peer has been dropped or left alone. -/
def DropsOrKeeps (peerID : PeerID) (h next : HandshakeHandler) : Prop :=
  SameSetup h next ∧
    (next.states.lookup peerID = none ∨ next.states.lookup peerID = h.states.lookup peerID)

theorem DropsOrKeeps.cleanupHandshake {now : Int} {progress : HandshakeHandler × List HandshakeCall}
    (before : DropsOrKeeps peerID h progress.1) (other : PeerID) :
    DropsOrKeeps peerID h (HandshakeHandler.cleanupHandshake now progress other).1 := by
  rw [HandshakeHandler.cleanupHandshake]
  split
  next => exact before
  split
  next =>
    refine ⟨before.1.trans (sameSetup_onPeerDisconnected _ other), ?_⟩
    by_cases same : peerID = other
    · rw [same]
      exact Or.inl (lookup_erase _ _)
    · rw [onPeerDisconnected, lookup_erase_ne same]
      exact before.2
  next => exact before

theorem dropsOrKeeps_cleanupStaleHandshakes (h : HandshakeHandler) (now : Int)
    (peers : List PeerID) (peerID : PeerID) :
    DropsOrKeeps peerID h (h.cleanupStaleHandshakes now peers).1 := by
  let dropsOrKeeps (progress : HandshakeHandler × List HandshakeCall) : Prop :=
    DropsOrKeeps peerID h progress.1
  have initial : dropsOrKeeps (h, []) := ⟨rfl, Or.inr rfl⟩
  have atEnd : dropsOrKeeps (Run.after (cleanupHandshake now) (h, []) peers) :=
    Run.invariant_after peers initial fun _ other before => before.cleanupHandshake other
  exact atEnd

theorem sound_unknown (setup : SameSetup start h) (unknown : h.states.lookup peerID = none) :
    Watched.Sound start peerID ⟨h, []⟩ :=
  ⟨betweenEvents_unknown setup unknown, fun _ inLog => absurd inLog not_mem_nil⟩

variable (sound : w.Sound start peerID)

include sound

/-- The call that finalizes a complete handshake is in the log, and has not failed. -/
theorem Watched.Sound.confirmed (network : start.networkSet = true) : w.Confirmed peerID := by
  intro complete
  have finalized := sound.between.finalized 0 network
  rw [isHandshakeComplete, getPeerState] at complete
  rw [getOrCreateState] at finalized
  cases found : w.handler.states.lookup peerID with
  | none =>
    rw [found] at complete
    cases complete
  | some state =>
    rw [found] at complete finalized
    obtain ⟨err, made⟩ := finalized (by simpa using complete)
    obtain rfl : err = none := sound.unfailing _ made .finalizeHandshake (if_pos rfl)
    exact made

theorem Watched.Sound.handshake {env : NetworkEnv} {event : Event}
    (reliable : Reliable peerID w (.handshake env event)) :
    (w.step peerID (.handshake env event)).Sound start peerID := by
  refine ⟨sound.between.step (env, event), fun call inLog => ?_⟩
  rcases mem_append.mp inLog with earlier | later
  · exact sound.unfailing call earlier
  · rcases mem_cons.mp later with isEvent | isCall
    · cases isEvent
    · obtain ⟨_, made, same⟩ := mem_map.mp isCall
      cases same
      exact reliable call made

theorem Watched.Sound.cleanup (now : Int) (peers : List PeerID) :
    (w.step peerID (.cleanupStaleHandshakes now peers)).Sound start peerID := by
  obtain ⟨setup, result⟩ := dropsOrKeeps_cleanupStaleHandshakes w.handler now peers peerID
  rw [Watched.step]
  split
  next known =>
    have kept := result.resolve_left fun dropped => lookup_eq_none.mp dropped known
    exact ⟨sound.between.of_lookup setup kept, sound.unfailing⟩
  next unknown =>
    exact sound_unknown (sound.between.setup.trans setup) (lookup_eq_none.mpr unknown)

theorem Watched.Sound.step {event : PeerEvent} (reliable : Reliable peerID w event) :
    (w.step peerID event).Sound start peerID := by
  cases event with
  | handshake env event => exact sound.handshake reliable
  | onPeerDisconnected =>
    exact sound_unknown (sound.between.setup.trans (sameSetup_onPeerDisconnected w.handler peerID))
      (lookup_erase _ _)
  | cleanupStaleHandshakes now peers => exact sound.cleanup now peers

theorem Watched.Sound.faithful_iff (network : start.networkSet = true) (event : PeerEvent) :
    Faithful peerID w event ↔ Reliable peerID w event := by
  constructor
  · intro faithful
    cases event with
    | handshake env event =>
      intro call made guarded isGuarded
      by_contra failed
      obtain ⟨attempt, repeated, sameGuarded⟩ :=
        faithful.2 call made guarded isGuarded failed env
      exact sound.between.not_again made isGuarded env repeated sameGuarded
    | onPeerDisconnected | cleanupStaleHandshakes => trivial
  · intro reliable
    refine ⟨(sound.step reliable).confirmed network, ?_⟩
    cases event with
    | handshake env event =>
      intro call made guarded isGuarded failed
      exact absurd (reliable call made guarded isGuarded) failed
    | onPeerDisconnected | cleanupStaleHandshakes => trivial

omit sound

/-- Complete handshakes have been finalized and calls that fail are made again, in every step of
a run, if and only if no call of the run fails. -/
theorem faithful_iff_reliable (network : h.networkSet = true)
    (unknown : h.states.lookup peerID = none) (events : List PeerEvent) :
    Run.EveryStep (Watched.step peerID) (Faithful peerID) ⟨h, []⟩ events ↔
      Run.EveryStep (Watched.step peerID) (Reliable peerID) ⟨h, []⟩ events := by
  have setup : SameSetup h h := rfl
  exact Run.everyStep_iff (sound_unknown setup unknown)
    (fun _ event sound => sound.faithful_iff network event)
    (fun _ _ sound reliable => sound.step reliable) events

/-- A peer whose handshake runs over a network that does not fail. -/
def calmPeer : List PeerEvent :=
  namedPeer.map fun event => .handshake event.1 event.2

theorem calmPeer_faithful :
    Run.EveryStep (Watched.step "peer") (Faithful "peer") ⟨mainHandler, []⟩ calmPeer := by
  have calm {w : Watched} {env : NetworkEnv} {event : Event}
      (succeed : (event.run w.handler "peer" env).calls.all (failure · = none) = true) :
      Reliable "peer" w (.handshake env event) := fun call made _ _ =>
    of_decide_eq_true (all_eq_true.mp succeed call made)
  refine (faithful_iff_reliable rfl (Finmap.lookup_empty _) calmPeer).mpr
    ⟨calm ?_, calm ?_, calm ?_, calm ?_, trivial⟩
  · decide
  · decide
  · decide
  · decide

/-- The greeting is not repeated although it could not be sent, and a handshake is complete
although it could not be finalized. -/
theorem failed_calls_count_as_made :
    let closed : NetworkEnv := { quietEnv with sendErr := some "closed" }
    let greeted := Event.onPeerConnected.run mainHandler "peer" closed
    let finished := Run.after (Watched.step "peer") ⟨mainHandler, []⟩
      (pushyPeer.map fun event => .handshake event.1 event.2)
    greeted.err = some (.sendingHelloRequest "closed") ∧
      (Event.onPeerConnected.run greeted.handler "peer" quietEnv).calls = [] ∧
      ¬Retries "peer" mainHandler closed .onPeerConnected ∧
      finished.handler.isHandshakeComplete "peer" = true ∧
      ¬finished.Confirmed "peer" := by
  intro closed greeted finished
  have nothing : (Event.onPeerConnected.run greeted.handler "peer" quietEnv).calls = [] := by
    decide
  have complete : finished.handler.isHandshakeComplete "peer" = true := by decide
  have unfinalized : Entry.call (.finalizeHandshake "peer" none) ∉ finished.log := by decide
  refine ⟨by decide, nothing, ?_, complete, fun confirmed => unfinalized (confirmed complete)⟩
  intro retries
  obtain ⟨attempt, made, -⟩ :=
    retries _ mem_cons_self .sendRequest rfl (Option.some_ne_none _) quietEnv
  rw [nothing] at made
  cases made

end Runs

end Blockberry.Handshake
