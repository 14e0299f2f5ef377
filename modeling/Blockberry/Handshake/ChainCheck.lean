import Blockberry.Handshake.Session

/-!
# When a completed handshake has checked the chain

Only `HelloRequest` carries the chain and the version of the peer, and completion does not ask for
one. The check is made before completion exactly in the runs in which no message completes a
handshake that has not been greeted.
-/

namespace Blockberry.Handshake

open Handlers Session List Event

/-- One event of a peer, with the way its network calls turn out. -/
def step (peerID : PeerID) (h : HandshakeHandler) (event : NetworkEnv × Event) :
    HandshakeHandler :=
  (event.2.run h peerID event.1).handler

/-- Whenever the handshake is complete, a request with the right chain and version has
been handled before. -/
def ChainChecked (h : HandshakeHandler) (peerID : PeerID)
    (events : List (NetworkEnv × Event)) : Prop :=
  ∀ before, before <+: events →
    (Run.after (step peerID) h before).isHandshakeComplete peerID = true →
      ∃ event ∈ before, ∃ req, event.2 = .handleMessage (.ok (.request req)) ∧ Matches h req

/-- The peer has been greeted with the right chain and version. -/
def Greeted (h : HandshakeHandler) (peerID : PeerID) : Prop :=
  ∃ state, h.states.lookup peerID = some state ∧ state.receivedRequest = true

def Completes (h : HandshakeHandler) (peerID : PeerID) : Event → Prop
  | .handleMessage (.ok (.response resp)) =>
    (resp.accepted = some true ∧ resp.publicKey.length = publicKeySize) ∧
      ∃ state, h.states.lookup peerID = some state ∧
        state.receivedResponse = false ∧ state.receivedFinalize = true
  | .handleMessage (.ok (.finalize fin)) =>
    fin.success = some true ∧
      ∃ state, h.states.lookup peerID = some state ∧
        state.streamsPrepared = true ∧ state.state ≠ .complete
  | _ => False

section Run

variable {h h' : HandshakeHandler} {peerID : PeerID} {s : Session} {event : Event}

theorem SameSetup.signal (same : SameSetup h h') (event : Event) :
    event.signal h' = event.signal h := by
  rw [same]
  rfl

theorem signal_eq_greet_iff : event.signal h = .greet ↔
      ∃ req, event = .handleMessage (.ok (.request req)) ∧ Matches h req := by
  constructor
  · intro greets
    rcases event with _ | ⟨err | (req | resp | fin)⟩
    · contradiction
    · contradiction
    · refine ⟨req, rfl, ?_⟩
      simp only [signal] at greets
      cases valid : req.validate with
      | error err =>
        rw [valid] at greets
        contradiction
      | ok fields =>
        rw [valid] at greets
        dsimp only at greets
        split at greets
        next same => exact ⟨fields, valid, same.1, same.2⟩
        next => contradiction
    · simp only [signal] at greets
      split at greets <;> contradiction
    · simp only [signal] at greets
      split at greets <;> contradiction
  · rintro ⟨req, rfl, fields, valid, chain, version⟩
    simp only [signal, valid]
    rw [if_pos ⟨chain, version⟩]

/-- A fact about the record of the peer that cannot hold of a new record, in terms of
the session. -/
theorem exists_found_iff (follows : Follows h peerID s) {fact : PeerHandshakeState → Prop}
    {meaning : Prop} (means : ∀ state, Tracks s state → (fact state ↔ meaning))
    (notNew : ¬fact (newPeerHandshakeState 0)) :
    (∃ state, h.states.lookup peerID = some state ∧ fact state) ↔ meaning := by
  have tracks := follows 0
  simp only [HandshakeHandler.getOrCreateState] at tracks
  cases found : h.states.lookup peerID with
  | none =>
    rw [found] at tracks
    rw [← means _ tracks]
    simp [notNew]
  | some state =>
    rw [found] at tracks
    rw [← means _ tracks]
    simp

theorem greeted_iff (follows : Follows h peerID s) : Greeted h peerID ↔ s.greeted = true := by
  apply exists_found_iff follows
  · intro state tracks
    rw [tracks.receivedRequest]
  · simp [newPeerHandshakeState]

theorem complete_next_of_other {signal : Signal} (notKey : ∀ key, signal ≠ .showKey key)
    (notFinal : signal ≠ .finalize) : (s.next signal).complete = s.complete := by
  cases signal with
  | connect | greet | refused => rfl
  | showKey key => exact absurd rfl (notKey key)
  | finalize => contradiction

theorem response_completes_iff (follows : Follows h peerID s) :
    (∃ state, h.states.lookup peerID = some state ∧
        state.receivedResponse = false ∧ state.receivedFinalize = true) ↔
      s.key = none ∧ s.finalized = true := by
  apply exists_found_iff follows
  · intro state tracks
    rw [tracks.receivedResponse, tracks.receivedFinalize, Option.isSome_eq_false_iff,
      Option.isNone_iff_eq_none]
  · simp [newPeerHandshakeState]

theorem finalize_completes_iff (follows : Follows h peerID s) :
    (∃ state, h.states.lookup peerID = some state ∧
        state.streamsPrepared = true ∧ state.state ≠ .complete) ↔
      s.key.isSome = true ∧ s.complete = false := by
  apply exists_found_iff follows
  · intro state tracks
    rw [tracks.streamsPrepared, ← tracks.complete, beq_eq_false_iff_ne]
  · simp [newPeerHandshakeState]

theorem completes_iff (follows : Follows h peerID s) : Completes h peerID event ↔
      s.complete = false ∧ (s.next (event.signal h)).complete = true := by
  have unchanged : ∀ signal, (s.next signal).complete = s.complete →
      (False ↔ s.complete = false ∧ (s.next signal).complete = true) := by
    intro signal same
    rw [same]
    simp
  rcases event with _ | ⟨err | (req | resp | fin)⟩
  · exact unchanged _ rfl
  · exact unchanged _ rfl
  · apply unchanged
    apply complete_next_of_other
    · intro key
      simp only [signal]
      split
      next => simp
      next => split <;> simp
    · simp only [signal]
      split
      next => simp
      next => split <;> simp
  · simp only [Completes, response_completes_iff follows, signal]
    split
    next good =>
      cases key : s.key with
      | none => simp [good, complete, Session.next, key]
      | some value => simp [complete, Session.next, key]
    next bad =>
      rw [iff_false_intro bad, false_and]
      exact unchanged _ rfl
  · simp only [Completes, finalize_completes_iff follows, signal]
    split
    next good =>
      simp only [good, true_and, complete, Session.next, Bool.and_true]
      exact and_comm
    next bad =>
      rw [iff_false_intro bad, false_and]
      exact unchanged _ rfl

theorem greeted_next_iff :
    (s.next (event.signal h)).greeted = true ↔ s.greeted = true ∨ event.signal h = .greet := by
  cases event.signal h with
  | greet => simp [Session.next]
  | connect | showKey key | finalize | refused => simp [Session.next]

theorem step_checked_iff (follows : Follows h peerID s)
    (checked : s.complete = true → s.greeted = true) :
    (Completes h peerID event → Greeted h peerID) ↔ ((s.next (event.signal h)).complete = true →
        (s.next (event.signal h)).greeted = true) := by
  rw [completes_iff follows, greeted_iff follows, greeted_next_iff]
  constructor
  · intro harmless complete
    cases already : s.complete with
    | true => exact Or.inl (checked already)
    | false => exact Or.inl (harmless ⟨already, complete⟩)
  · rintro harmless ⟨incomplete, complete⟩
    rcases harmless complete with greeted | greets
    · exact greeted
    · rw [greets] at complete
      exact absurd complete (by simpa [Session.complete, Session.next] using incomplete)

/-- The equivalence from any point of a run on. What has been checked before is what
the session says. -/
theorem checked_iff_of_follows {start : HandshakeHandler} {events : List (NetworkEnv × Event)}
    (setup : SameSetup start h) (follows : Follows h peerID s)
    (checked : s.complete = true → s.greeted = true)
    (succeed : ∀ event ∈ events, Succeeds event.1) :
    (∀ before, before <+: events →
        (Run.after (step peerID) h before).isHandshakeComplete peerID = true →
          s.greeted = true ∨ ∃ event ∈ before, event.2.signal start = .greet) ↔
      Run.EveryStep (step peerID)
        (fun h event => Completes h peerID event.2 → Greeted h peerID) h events := by
  induction events generalizing h s with
  | nil =>
    simp only [prefix_nil, forall_eq, Run.after_nil, isHandshakeComplete_of_follows follows]
    exact iff_of_true (fun complete => Or.inl (checked complete)) trivial
  | cons event events ih =>
    rcases forall_mem_cons.mp succeed with ⟨now, later⟩
    rcases follows_run follows now event.2 with ⟨stepSetup, stepFollows⟩
    have next := fun checked' => ih (setup.trans stepSetup) stepFollows checked' later
    have greeted : (s.next (event.2.signal h)).greeted = true ↔
        s.greeted = true ∨ event.2.signal start = .greet := by
      rw [greeted_next_iff, setup.signal]
    rw [Run.EveryStep, step_checked_iff follows checked]
    constructor
    · intro all
      have checked' : (s.next (event.2.signal h)).complete = true →
          (s.next (event.2.signal h)).greeted = true := by
        intro complete
        rw [← isHandshakeComplete_of_follows stepFollows] at complete
        have early := all [event] (prefix_cons_iff.mpr (Or.inr ⟨[], rfl, nil_prefix⟩))
          complete
        rw [greeted]
        simpa using early
      refine ⟨checked', (next checked').mp ?_⟩
      intro before isPrefix complete
      have early := all (event :: before) (cons_prefix_cons.mpr ⟨rfl, isPrefix⟩) complete
      rw [greeted, or_assoc]
      simpa using early
    · rintro ⟨checked', rest⟩ before isPrefix complete
      rcases prefix_cons_iff.mp isPrefix with rfl | ⟨tail, rfl, tailPrefix⟩
      · rw [Run.after_nil, isHandshakeComplete_of_follows follows] at complete
        exact Or.inl (checked complete)
      · have late := (next checked').mpr rest tail tailPrefix complete
        rw [greeted, or_assoc] at late
        simpa using late

end Run

/-- Whatever the messages of a peer, the chain has been checked whenever its handshake is
complete, exactly when no message completes a handshake that has not been greeted. -/
theorem chainChecked_iff (chainID : String) (protocolVersion : Int32) (nodeID : String)
    (publicKey : Bytes) (networkSet peerManagerSet : Bool) (peerID : PeerID)
    {events : List (NetworkEnv × Event)} (succeed : ∀ event ∈ events, Succeeds event.1) :
    let h := newHandshakeHandler chainID protocolVersion nodeID publicKey networkSet peerManagerSet
    ChainChecked h peerID events ↔
      Run.EveryStep (step peerID)
        (fun h event => Completes h peerID event.2 → Greeted h peerID) h events := by
  intro h
  have follows : Follows h peerID initial := follows_newHandshakeHandler chainID
    protocolVersion nodeID publicKey networkSet peerManagerSet peerID
  have setup : SameSetup h h := rfl
  rw [← checked_iff_of_follows setup follows nofun succeed]
  simp only [ChainChecked, signal_eq_greet_iff, initial, Bool.false_eq_true, false_or]

def quietEnv : NetworkEnv := ⟨0, 0, none, none, none⟩

def someKey : Bytes := replicate 32 7

/-- A handler for the chain of the examples. -/
def mainHandler : HandshakeHandler :=
  newHandshakeHandler "main" 1 "node" (replicate 32 1) true true

/-- A peer that shows a key and finalizes. -/
def silentPeer : List (NetworkEnv × Event) :=
  [(quietEnv, .onPeerConnected),
    (quietEnv, .handleMessage (.ok (.response ⟨some true, someKey⟩))),
    (quietEnv, .handleMessage (.ok (.finalize ⟨some true⟩)))]

/-- The handshake is complete although the peer has sent no request at all. -/
theorem silent_peer_completes :
    (∀ event ∈ silentPeer, Succeeds event.1) ∧
      (Run.after (step "peer") mainHandler silentPeer).isHandshakeComplete "peer" = true ∧
      ¬ChainChecked mainHandler "peer" silentPeer := by
  have complete :
      (Run.after (step "peer") mainHandler silentPeer).isHandshakeComplete "peer" = true := by
    decide
  refine ⟨by simp [silentPeer, quietEnv, Succeeds.mk], complete, ?_⟩
  intro checked
  rcases checked silentPeer List.prefix_rfl complete with ⟨event, member, req, isRequest, -⟩
  simp only [silentPeer, List.mem_cons, List.not_mem_nil, or_false] at member
  rcases member with rfl | rfl | rfl <;> cases isRequest

/-- A peer that first names its chain and version. -/
def namedPeer : List (NetworkEnv × Event) :=
  (quietEnv, .handleMessage (.ok (.request ⟨some "peer", some 1, some "main", some 0, some 0⟩))) ::
    silentPeer

theorem chainChecked_namedPeer : ChainChecked mainHandler "peer" namedPeer := by
  have succeed : ∀ event ∈ namedPeer, Succeeds event.1 := by
    simp [namedPeer, silentPeer, quietEnv, Succeeds.mk]
  apply (chainChecked_iff "main" 1 "node" (List.replicate 32 1) true true "peer" succeed).mpr
  exact ⟨False.elim, False.elim, fun _ => ⟨_, rfl, rfl⟩, fun _ => ⟨_, rfl, rfl⟩, trivial⟩

end Blockberry.Handshake
