import Blockberry.BlockStore.Memory
import Blockberry.Handlers.Blocks
import Blockberry.Lib.Trace
import Blockberry.P2P.Exchanges

/-!
# Gossip of blocks

The block reactor with its store and the peer manager, handling one message after the other. A
block is relayed in the step that stores it and in no other. The caches of the peer manager only
hold heights that are stored, so a block that is new reaches every peer but the one it comes from.
-/

namespace Blockberry.Handlers

open BlockStore FiniteMap P2P BlockReactor List Option Call BlockExchange Bool LawfulBlockStore

/-- The block reactor with a store, and the peers. -/
structure Gossip (σ : Type) where
  reactor : BlockReactor σ
  hasStore : reactor.blockStore.isSome = true
  peers : Exchanges

structure Delivery where
  peerID : PeerID
  message : Option BlockData
  order : List PeerID
  nodup : order.Nodup
  encodeFails : Bool
  sendFails : PeerID → Bool

/-- A call changes the caches of a peer or nothing. -/
def record (peers : Exchanges) : Call → Exchanges
  | .markBlockReceived peerID height => peers.markBlockReceived peerID height
  | .markBlockSent peerID height => peers.markBlockSent peerID height
  | _ => peers

namespace Gossip

section Model

variable {σ : Type}

def store (g : Gossip σ) : σ := g.reactor.blockStore.get g.hasStore

theorem blockStore_eq (g : Gossip σ) : g.reactor.blockStore = some g.store :=
  (some_get g.hasStore).symm

theorem store_of_reactor {g : Gossip σ} {store : σ}
    (isStore : g.reactor.blockStore = some store) : g.store = store := by
  rw [blockStore_eq] at isStore
  exact Option.some.inj isStore

/-- The peers are asked for after the block is marked as received. -/
def env (g : Gossip σ) (d : Delivery) : RelayEnv where
  peersToSendBlock height :=
    (g.peers.markBlockReceived d.peerID height).peersToSendBlock d.order height
  encodeFails := d.encodeFails
  sendFails := d.sendFails

variable [BlockStore σ] (hashBlock : Bytes → Bytes)

def emit (g : Gossip σ) (d : Delivery) : List Call :=
  (g.reactor.handleBlockData hashBlock (g.env d) d.peerID d.message).2.1

theorem isSome_handleBlockData (r : BlockReactor σ) (hasStore : r.blockStore.isSome = true)
    (env : RelayEnv) (peerID : PeerID) (message : Option BlockData) :
    (r.handleBlockData hashBlock env peerID message).1.blockStore.isSome = true := by
  obtain ⟨store, isStore⟩ := isSome_iff_exists.mp hasStore
  rcases handleBlockData_store hashBlock isStore env peerID message with
    ⟨h, hash, data, -, -, saved⟩ | ⟨-, unchanged⟩
  · rw [saved, isSome_some]
  · rw [unchanged, hasStore]

def step (g : Gossip σ) (d : Delivery) : Gossip σ where
  reactor := (g.reactor.handleBlockData hashBlock (g.env d) d.peerID d.message).1
  hasStore := isSome_handleBlockData hashBlock g.reactor g.hasStore (g.env d) d.peerID d.message
  peers := (g.emit hashBlock d).foldl record g.peers

end Model

section Steps

variable {σ : Type} [LawfulBlockStore σ] {hashBlock : Bytes → Bytes} {g : Gossip σ}
  {d : Delivery} {height : Int64} {hash data : Bytes}

/-- The calls of a message whose block is not stored. -/
def Quiet (g : Gossip σ) : Call → Prop
  | .markBlockReceived _ height => hasBlock g.store height = true
  | .addPenalty _ _ _ _ => True
  | .saveBlock _ _ _ err => err ≠ none
  | _ => False

/-- The block of a message is stored, reported and relayed. -/
structure Accepts (hashBlock : Bytes → Bytes) (g : Gossip σ) (d : Delivery) (height : Int64)
    (hash data : Bytes) : Prop where
  fresh : hasBlock g.store height = false
  saved : (saveBlock g.store height hash data).2 = none
  store_eq : (g.step hashBlock d).store = (saveBlock g.store height hash data).1
  calls : g.emit hashBlock d = .saveBlock height hash data none ::
    g.reactor.acceptBlock (g.env d) d.peerID height hash data

theorem step_cases (hashBlock : Bytes → Bytes) (g : Gossip σ) (d : Delivery) :
    ((g.step hashBlock d).store = g.store ∧ ∀ call ∈ g.emit hashBlock d, g.Quiet call) ∨
      ∃ height hash data, g.Accepts hashBlock d height hash data := by
  rcases handleBlockData_cases hashBlock g.reactor (g.env d) d.peerID d.message with
    ⟨unchanged, refused⟩ | ⟨height, hash, data, isMessage, passes, outcome⟩
  · refine Or.inl ⟨store_of_reactor ?_, ?_⟩
    · change (g.reactor.handleBlockData hashBlock (g.env d) d.peerID d.message).1.blockStore = _
      rw [unchanged, blockStore_eq]
    · intro call made
      have refusal := refused call made
      unfold Refusal at refusal
      unfold Quiet
      split at refusal
      next => rwa [blockStore_eq] at refusal
      next => trivial
      next => exact refusal.elim
  · have fresh := (passes g.store g.blockStore_eq).free
    have reactor : (g.step hashBlock d).reactor =
        (g.reactor.storeAndRelay (g.env d) d.peerID height hash data).1 := congrArg (·.1) outcome
    have calls : g.emit hashBlock d =
        (g.reactor.storeAndRelay (g.env d) d.peerID height hash data).2 :=
      congrArg (·.2.1) outcome
    rw [storeAndRelay, blockStore_eq] at reactor calls
    have store_eq : (g.step hashBlock d).store = (saveBlock g.store height hash data).1 := by
      apply store_of_reactor
      rw [reactor]
    cases saved : (saveBlock g.store height hash data).2 with
    | none =>
      refine Or.inr ⟨height, hash, data, fresh, saved, store_eq, ?_⟩
      rw [calls]
      simp only [saved]
      rfl
    | some err =>
      have failed : (saveBlock g.store height hash data).2 ≠ none := by
        rw [saved]
        exact some_ne_none err
      refine Or.inl ⟨?_, ?_⟩
      · rw [store_eq, saveBlock_failed g.store height hash data failed]
      · intro call made
        rw [calls] at made
        simp only [saved, isSome_some, if_true, mem_singleton] at made
        rw [made]
        exact some_ne_none err

theorem hasBlock_step (stored : hasBlock g.store height = true) :
    hasBlock (g.step hashBlock d).store height = true := by
  rcases step_cases hashBlock g d with ⟨sameStore, -⟩ | ⟨other, hash, data, accepts⟩
  · rwa [sameStore]
  · rw [accepts.store_eq, hasBlock_saveBlock accepts.saved, stored, Bool.or_true]

theorem Accepts.hasBlock (accepts : g.Accepts hashBlock d height hash data) :
    BlockStore.hasBlock (g.step hashBlock d).store height = true := by
  rw [accepts.store_eq, hasBlock_saveBlock accepts.saved, beq_self_eq_true,
    Bool.true_or]

/-- The height of a call that is only made for a block that is stored. -/
def settles : Call → Option Int64
  | .saveBlock height _ _ none => some height
  | .onBlockReceived height _ _ => some height
  | .sendBlockData _ height _ _ => some height
  | _ => none

theorem settles_of_quiet {call : Call} (quiet : g.Quiet call) : settles call = none := by
  unfold Quiet at quiet
  split at quiet
  next => rfl
  next => rfl
  next h x d err =>
    cases err with
    | none => exact absurd rfl quiet
    | some err => rfl
  next => exact quiet.elim

end Steps

section Relay

variable {σ : Type} {r : BlockReactor σ} {env : RelayEnv} {fromPeer peerID : PeerID}
  {height : Int64} {hash data : Bytes} {call : Call}

def sendsTo (peerID : PeerID) (height : Int64) : Call → Bool
  | .sendBlockData receiver h _ _ => receiver == peerID && h == height
  | _ => false

def storesAt (height : Int64) : Call → Bool
  | .saveBlock h _ _ none => h == height
  | _ => false

theorem mem_relayBlock (made : call ∈ r.relayBlock env fromPeer height hash data) :
    ∃ receiver ∈ env.peersToSendBlock height, receiver ≠ fromPeer ∧
      (call = .sendBlockData receiver height hash data ∨
        call = .markBlockSent receiver height) := by
  rw [relayBlock] at made
  split at made
  next => cases made
  split at made
  next => cases made
  obtain ⟨receiver, chosen, sent⟩ := mem_flatMap.mp made
  obtain ⟨listed, other⟩ := mem_filter.mp chosen
  refine ⟨receiver, listed, of_decide_eq_true other, ?_⟩
  rcases mem_cons.mp sent with isSend | isMark
  · exact Or.inl isSend
  · split at isMark
    next => cases isMark
    next => exact Or.inr (mem_singleton.mp isMark)

theorem mem_acceptBlock (made : call ∈ r.acceptBlock env fromPeer height hash data) :
    call = .markBlockReceived fromPeer height ∨ call = .onBlockReceived height hash data ∨
      ∃ receiver ∈ env.peersToSendBlock height, receiver ≠ fromPeer ∧
        (call = .sendBlockData receiver height hash data ∨
          call = .markBlockSent receiver height) := by
  rcases mem_append.mp made with early | relayed
  · rcases mem_append.mp early with marked | notified
    · split at marked
      next => exact Or.inl (mem_singleton.mp marked)
      next => cases marked
    · split at notified
      next => exact Or.inr (Or.inl (mem_singleton.mp notified))
      next => cases notified
  · exact Or.inr (Or.inr (mem_relayBlock relayed))

theorem countP_sendsTo_relayBlock (nodup : (env.peersToSendBlock height).Nodup) (query : Int64) :
    (r.relayBlock env fromPeer height hash data).countP (sendsTo peerID query) ≤ 1 := by
  have counted (peers : List PeerID) :
      (peers.flatMap fun receiver => .sendBlockData receiver height hash data ::
        if env.sendFails receiver then [] else [markBlockSent receiver height]).countP
          (sendsTo peerID query) ≤ peers.count peerID := by
    induction peers with
    | nil => exact Nat.zero_le 0
    | cons receiver peers ih =>
      have marks : (if env.sendFails receiver then []
          else [markBlockSent receiver height]).countP (sendsTo peerID query) = 0 := by
        split <;> rfl
      rw [flatMap_cons, countP_append, countP_cons, marks, count_cons, Nat.zero_add, Nat.add_comm]
      apply Nat.add_le_add ih
      rw [sendsTo]
      cases receiver == peerID with
      | false => exact Nat.le_refl 0
      | true => cases height == query <;> decide
  rw [relayBlock]
  split
  next => exact Nat.zero_le 1
  next =>
    split
    next => exact Nat.zero_le 1
    next => exact (counted _).trans (nodup_iff_count_le_one.mp (nodup.filter _) peerID)

end Relay

section Runs

variable {σ : Type} [LawfulBlockStore σ] {hashBlock : Bytes → Bytes} {g : Gossip σ}
  {d : Delivery} {height : Int64} {hash data : Bytes} {call : Call}

/-- Only the step that stores a block makes the calls that settle its height. -/
theorem accepts_of_settles (made : call ∈ g.emit hashBlock d)
    (isHeight : settles call = some height) :
    ∃ hash data, g.Accepts hashBlock d height hash data ∧
      (call = .saveBlock height hash data none ∨ call = .onBlockReceived height hash data ∨
        ∃ receiver, receiver ≠ d.peerID ∧ call = .sendBlockData receiver height hash data) := by
  rcases step_cases hashBlock g d with ⟨-, quiet⟩ | ⟨stored, hash, data, accepts⟩
  · rw [settles_of_quiet (quiet call made)] at isHeight
    cases isHeight
  · rw [accepts.calls] at made
    rcases mem_cons.mp made with rfl | later
    · cases isHeight
      exact ⟨hash, data, accepts, Or.inl rfl⟩
    · rcases mem_acceptBlock later with rfl | rfl | ⟨receiver, -, other, rfl | rfl⟩
      · cases isHeight
      · cases isHeight
        exact ⟨hash, data, accepts, Or.inr (Or.inl rfl)⟩
      · cases isHeight
        exact ⟨hash, data, accepts, Or.inr (Or.inr ⟨receiver, other, rfl⟩)⟩
      · cases isHeight

variable {kind : Call → Bool}

/-- A kind of call that settles a height is not made once the height is stored. -/
theorem countP_emit_eq_zero (ofHeight : ∀ call, kind call = true → settles call = some height)
    (stored : hasBlock g.store height = true) : (g.emit hashBlock d).countP kind = 0 := by
  apply countP_eq_zero.mpr
  intro call made isKind
  obtain ⟨hash, data, accepts, -⟩ := accepts_of_settles made (ofHeight call isKind)
  rw [accepts.fresh] at stored
  cases stored

variable {start : Gossip σ}

theorem countP_trace_eq_zero (ofHeight : ∀ call, kind call = true → settles call = some height)
    (stored : hasBlock start.store height = true) (events : List Delivery) :
    (Run.trace (step hashBlock) (emit hashBlock) start events).countP kind = 0 :=
  @Run.countP_trace_eq_zero _ _ _ _ _ start kind (fun g => hasBlock g.store height = true)
    (fun _ _ stored => countP_emit_eq_zero ofHeight stored)
    (fun _ _ stored => hasBlock_step stored) events stored

theorem countP_trace_le_one (ofHeight : ∀ call, kind call = true → settles call = some height)
    (once : ∀ (g : Gossip σ) d, (g.emit hashBlock d).countP kind ≤ 1)
    (start : Gossip σ) (events : List Delivery) :
    (Run.trace (step hashBlock) (emit hashBlock) start events).countP kind ≤ 1 := by
  refine @Run.countP_trace_le_one _ _ _ _ _ start kind (fun g => hasBlock g.store height = true)
    (fun _ _ stored => countP_emit_eq_zero ofHeight stored)
    (fun _ _ stored => hasBlock_step stored) once ?_ events
  intro g d positive
  obtain ⟨call, made, isKind⟩ := countP_pos_iff.mp positive
  obtain ⟨hash, data, accepts, -⟩ := accepts_of_settles made (ofHeight call isKind)
  exact accepts.hasBlock

theorem settles_of_storesAt (isStore : storesAt height call = true) :
    settles call = some height := by
  unfold storesAt at isStore
  split at isStore
  next => rw [settles, eq_of_beq isStore]
  next => cases isStore

theorem settles_of_sendsTo {peerID : PeerID} (isSend : sendsTo peerID height call = true) :
    settles call = some height := by
  unfold sendsTo at isSend
  split at isSend
  next => rw [settles, eq_of_beq (and_eq_true_iff.mp isSend).2]
  next => cases isSend

theorem countP_eq_zero_of_quiet (ofHeight : ∀ call, kind call = true → settles call = some height)
    (quiet : ∀ call ∈ g.emit hashBlock d, g.Quiet call) :
    (g.emit hashBlock d).countP kind = 0 := by
  apply countP_eq_zero.mpr
  intro call made isKind
  have none := settles_of_quiet (quiet call made)
  rw [ofHeight call isKind] at none
  cases none

theorem countP_storesAt_emit (hashBlock : Bytes → Bytes) (height : Int64) (g : Gossip σ)
    (d : Delivery) : (g.emit hashBlock d).countP (storesAt height) ≤ 1 := by
  rcases step_cases hashBlock g d with ⟨-, quiet⟩ | ⟨stored, hash, data, accepts⟩
  · rw [countP_eq_zero_of_quiet (fun _ => settles_of_storesAt) quiet]
    exact Nat.zero_le 1
  · have later : (g.reactor.acceptBlock (g.env d) d.peerID stored hash data).countP
        (storesAt height) = 0 := by
      apply countP_eq_zero.mpr
      intro call made isStore
      rcases mem_acceptBlock made with rfl | rfl | ⟨receiver, -, -, rfl | rfl⟩ <;> cases isStore
    rw [accepts.calls, countP_cons, later, Nat.zero_add]
    split <;> decide

theorem countP_sendsTo_emit (hashBlock : Bytes → Bytes) (height : Int64) (peerID : PeerID)
    (g : Gossip σ) (d : Delivery) :
    (g.emit hashBlock d).countP (sendsTo peerID height) ≤ 1 := by
  rcases step_cases hashBlock g d with ⟨-, quiet⟩ | ⟨stored, hash, data, accepts⟩
  · rw [countP_eq_zero_of_quiet (fun _ => settles_of_sendsTo) quiet]
    exact Nat.zero_le 1
  · have marks : (if g.reactor.peerManagerSet then [markBlockReceived d.peerID stored]
        else []).countP (sendsTo peerID height) = 0 := by
      split <;> rfl
    have reports : (if g.reactor.onBlockReceivedSet then [onBlockReceived stored hash data]
        else []).countP (sendsTo peerID height) = 0 := by
      split <;> rfl
    rw [accepts.calls, countP_cons_of_neg (by exact false_ne_true),
      acceptBlock, countP_append, countP_append, marks, reports,
      Nat.zero_add]
    exact countP_sendsTo_relayBlock (d.nodup.filter _) height

theorem countP_sendsTo_own (height : Int64) :
    (g.emit hashBlock d).countP (sendsTo d.peerID height) = 0 := by
  apply countP_eq_zero.mpr
  intro call made isSend
  obtain ⟨hash, data, -, rfl | rfl | ⟨receiver, other, rfl⟩⟩ :=
    accepts_of_settles made (settles_of_sendsTo isSend)
  · cases isSend
  · cases isSend
  · exact other (eq_of_beq (and_eq_true_iff.mp isSend).1)

/-- The callback is called for the blocks that are stored, and for no others. -/
theorem count_onBlockReceived_emit (set : g.reactor.onBlockReceivedSet = true) (height : Int64)
    (hash data : Bytes) :
    (g.emit hashBlock d).count (.onBlockReceived height hash data) =
      (g.emit hashBlock d).count (.saveBlock height hash data none) := by
  rcases step_cases hashBlock g d with ⟨-, quiet⟩ | ⟨stored, x, y, accepts⟩
  · have unreported : onBlockReceived height hash data ∉ g.emit hashBlock d :=
      fun made => quiet _ made
    have unsaved : saveBlock height hash data none ∉ g.emit hashBlock d :=
      fun made => quiet _ made rfl
    rw [count_eq_zero.mpr unreported, count_eq_zero.mpr unsaved]
  · have marks : (if g.reactor.peerManagerSet then [markBlockReceived d.peerID stored]
        else []).count (.onBlockReceived height hash data) = 0 := by
      split <;> rfl
    have relays : (g.reactor.relayBlock (g.env d) d.peerID stored x y).count
        (.onBlockReceived height hash data) = 0 := by
      apply count_eq_zero.mpr
      intro made
      obtain ⟨receiver, -, -, isSend | isMark⟩ := mem_relayBlock made
      · cases isSend
      · cases isMark
    have saves : (g.reactor.acceptBlock (g.env d) d.peerID stored x y).count
        (.saveBlock height hash data none) = 0 :=
      count_eq_zero.mpr not_saved_of_acceptBlock
    rw [accepts.calls, count_cons, count_cons, saves, acceptBlock,
      count_append, count_append, marks, relays, if_pos set]
    simp [count_singleton]

/-- The message of a peer for a height that is stored by it or found stored. -/
def Delivers (hashBlock : Bytes → Bytes) (g : Gossip σ) (d : Delivery) (height : Int64) : Prop :=
  ∃ hash data, d.message = some ⟨some height, hash, data⟩ ∧ hash ≠ [] ∧ data ≠ [] ∧
    (hasBlock g.store height = true ∨
      saveBlock height hash data none ∈ g.emit hashBlock d)

theorem Delivers.hasBlock (delivers : g.Delivers hashBlock d height) :
    BlockStore.hasBlock (g.step hashBlock d).store height = true := by
  obtain ⟨hash, data, -, -, -, stored | saved⟩ := delivers
  · exact hasBlock_step stored
  · obtain ⟨x, y, accepts, -⟩ := accepts_of_settles saved rfl
    exact accepts.hasBlock

theorem onBlockReceivedSet_step :
    (g.step hashBlock d).reactor.onBlockReceivedSet = g.reactor.onBlockReceivedSet := by
  obtain ⟨store, frame⟩ :=
    g.reactor.handleBlockData_frame hashBlock (g.env d) d.peerID d.message
  change (g.reactor.handleBlockData hashBlock (g.env d) d.peerID d.message).1.onBlockReceivedSet = _
  rw [frame]

structure FloodFree (hashBlock : Bytes → Bytes) (start : Gossip σ) (events : List Delivery) :
    Prop where
  storedOnce : ∀ height, (Run.trace (step hashBlock) (emit hashBlock) start events).countP
    (storesAt height) ≤ 1
  relayed : ∀ peerID height hash data,
    sendBlockData peerID height hash data ∈
      Run.trace (step hashBlock) (emit hashBlock) start events →
    saveBlock height hash data none ∈
      Run.trace (step hashBlock) (emit hashBlock) start events
  reportedOnce : start.reactor.onBlockReceivedSet = true → ∀ height hash data,
    (Run.trace (step hashBlock) (emit hashBlock) start events).count
        (.onBlockReceived height hash data) =
      (Run.trace (step hashBlock) (emit hashBlock) start events).count
        (.saveBlock height hash data none)
  sentOnce : ∀ peerID height, (Run.trace (step hashBlock) (emit hashBlock) start events).countP
    (sendsTo peerID height) ≤ 1
  notSentBack : ∀ before d after height, events = before ++ d :: after →
    (Run.after (step hashBlock) start before).Delivers hashBlock d height →
      (Run.trace (step hashBlock) (emit hashBlock) (Run.after (step hashBlock) start before)
        (d :: after)).countP (sendsTo d.peerID height) = 0

theorem relayed_of_trace {events : List Delivery} {peerID : PeerID}
    (sent : sendBlockData peerID height hash data ∈
      Run.trace (step hashBlock) (emit hashBlock) start events) :
    saveBlock height hash data none ∈
      Run.trace (step hashBlock) (emit hashBlock) start events := by
  induction events generalizing start with
  | nil => cases sent
  | cons d events ih =>
    rcases mem_append.mp sent with now | later
    · obtain ⟨x, y, accepts, isSave | isReport | ⟨receiver, -, isSend⟩⟩ :=
        accepts_of_settles now rfl
      · cases isSave
      · cases isReport
      · cases isSend
        apply mem_append_left
        rw [accepts.calls]
        exact mem_cons_self
    · exact mem_append_right _ (ih later)

theorem reported_of_trace (set : start.reactor.onBlockReceivedSet = true)
    (events : List Delivery) (height : Int64) (hash data : Bytes) :
    (Run.trace (step hashBlock) (emit hashBlock) start events).count
        (.onBlockReceived height hash data) =
      (Run.trace (step hashBlock) (emit hashBlock) start events).count
        (.saveBlock height hash data none) := by
  induction events generalizing start with
  | nil => rfl
  | cons d events ih =>
    have stillSet : (start.step hashBlock d).reactor.onBlockReceivedSet = true := by
      rw [onBlockReceivedSet_step, set]
    rw [Run.trace, count_append, count_append, ih stillSet, count_onBlockReceived_emit set]

theorem notSentBack_of_delivers (delivers : g.Delivers hashBlock d height)
    (events : List Delivery) :
    (Run.trace (step hashBlock) (emit hashBlock) g (d :: events)).countP
      (sendsTo d.peerID height) = 0 := by
  have later : (Run.trace (step hashBlock) (emit hashBlock) (g.step hashBlock d) events).countP
      (sendsTo d.peerID height) = 0 :=
    countP_trace_eq_zero (fun _ => settles_of_sendsTo) delivers.hasBlock events
  rw [Run.trace, countP_append, countP_sendsTo_own, later]

end Runs

/-- Every run of the block reactor over a store in memory is free of floods. -/
theorem floodFree_of_run (hashBlock : Bytes → Bytes) (start : Gossip MemoryBlockStore)
    (events : List Delivery) : FloodFree hashBlock start events where
  storedOnce height :=
    countP_trace_le_one (fun _ => settles_of_storesAt) (countP_storesAt_emit hashBlock height)
      start events
  relayed _ _ _ _ sent := relayed_of_trace sent
  reportedOnce set height hash data := reported_of_trace set events height hash data
  sentOnce peerID height :=
    countP_trace_le_one (fun _ => settles_of_sendsTo) (countP_sendsTo_emit hashBlock height peerID)
      start events
  notSentBack _ _ after _ _ delivers := notSentBack_of_delivers delivers after

/-! ## Reach -/

/-- The heights in the caches of the peers have a property. -/
def Within (has : Int64 → Prop) (peers : Exchanges) : Prop :=
  ∀ peerID state, peers.peers.lookup peerID = some state →
    ∀ height, state.hasBlock height = true → has height

variable {has : Int64 → Prop} {peers : Exchanges}

theorem within_modify (within : Within has peers)
    (peerID : PeerID) {change : BlockExchange → BlockExchange}
    (marks : ∀ (state : BlockExchange) height, (change state).hasBlock height = true →
      has height ∨ state.hasBlock height = true) :
    Within has (peers.modify peerID change) := by
  rw [Exchanges.modify]
  split
  next => exact within
  next state isState =>
    intro other found isFound height member
    rw [lookup_insert] at isFound
    split at isFound
    next =>
      cases isFound
      exact (marks state height member).elim id (within peerID state isState height)
    next => exact within other found isFound height member

/-- The height that a call puts into a cache. -/
def marks : Call → Option Int64
  | .markBlockReceived _ height => some height
  | .markBlockSent _ height => some height
  | _ => none

theorem within_record (within : Within has peers)
    {call : Call} (marked : ∀ height, marks call = some height → has height) :
    Within has (record peers call) := by
  unfold record
  split
  next peerID new =>
    refine within_modify within peerID fun state height member => ?_
    exact (hasBlock_of_markBlockReceived member).imp_left fun same => by
      rw [same]
      exact marked new rfl
  next peerID new =>
    refine within_modify within peerID fun state height member => ?_
    exact (hasBlock_of_markBlockSent member).imp_left fun same => by
      rw [same]
      exact marked new rfl
  next => exact within

theorem within_foldl {calls : List Call}
    (marked : ∀ call ∈ calls, ∀ height, marks call = some height → has height)
    (within : Within has peers) : Within has (calls.foldl record peers) := by
  induction calls generalizing peers with
  | nil => exact within
  | cons call calls ih =>
    apply ih
    · exact fun later made => marked later (mem_cons_of_mem call made)
    · exact within_record within (marked call mem_cons_self)

section Reach

variable {σ : Type} [LawfulBlockStore σ] {hashBlock : Bytes → Bytes} {g : Gossip σ}
  {d : Delivery} {height : Int64} {hash data : Bytes}

/-- The caches hold only heights that are stored. -/
def CachesStored (g : Gossip σ) : Prop :=
  Within (fun height => hasBlock g.store height = true) g.peers

theorem cachesStored_of_new (connected : ∀ peerID state,
    g.peers.peers.lookup peerID = some state → state = .new) : g.CachesStored := by
  intro peerID state isState height member
  rw [connected peerID state isState, hasBlock_new] at member
  cases member

theorem hasBlock_of_marks {call : Call} (made : call ∈ g.emit hashBlock d)
    (isMark : marks call = some height) :
    hasBlock (g.step hashBlock d).store height = true := by
  rcases step_cases hashBlock g d with ⟨-, quiet⟩ | ⟨stored, hash, data, accepts⟩
  · have isQuiet := quiet call made
    unfold Quiet at isQuiet
    split at isQuiet
    next =>
      cases isMark
      exact hasBlock_step isQuiet
    next => cases isMark
    next => cases isMark
    next => exact isQuiet.elim
  · rw [accepts.calls] at made
    rcases mem_cons.mp made with rfl | later
    · cases isMark
    · rcases mem_acceptBlock later with rfl | rfl | ⟨receiver, -, -, rfl | rfl⟩
      · cases isMark
        exact accepts.hasBlock
      · cases isMark
      · cases isMark
      · cases isMark
        exact accepts.hasBlock

theorem CachesStored.step (stored : g.CachesStored) (d : Delivery) :
    (g.step hashBlock d).CachesStored := by
  apply within_foldl
  · exact fun _ made _ => hasBlock_of_marks made
  · exact fun peerID state isState height member =>
      hasBlock_step (stored peerID state isState height member)

/-- A peer other than the one that a new block comes from is asked for. -/
theorem CachesStored.mem_peersToSendBlock (stored : g.CachesStored)
    (fresh : hasBlock g.store height = false) {receiver : PeerID} (listed : receiver ∈ d.order)
    (connected : receiver ∈ g.peers.peers) (other : receiver ≠ d.peerID) :
    receiver ∈ (g.env d).peersToSendBlock height := by
  obtain ⟨state, isState⟩ := Finmap.mem_iff.mp connected
  have unknown : state.hasBlock height = false := by
    by_contra known
    have has : hasBlock g.store height = true :=
      stored receiver state isState height (eq_true_of_not_eq_false known)
    rw [fresh] at has
    cases has
  have kept : (g.peers.markBlockReceived d.peerID height).peers.lookup receiver = some state := by
    rw [Exchanges.markBlockReceived, Exchanges.modify]
    split
    next => exact isState
    next => rw [lookup_insert, if_neg other.symm, isState]
  refine mem_filter.mpr ⟨listed, ?_⟩
  rw [kept, any_some, shouldSendBlock_eq, unknown, Bool.not_false]

theorem sendBlockData_of_accepts (accepts : g.Accepts hashBlock d height hash data)
    (network : g.reactor.networkSet = true) (manager : g.reactor.peerManagerSet = true)
    (encodes : d.encodeFails = false) {receiver : PeerID}
    (listed : receiver ∈ (g.env d).peersToSendBlock height) (other : receiver ≠ d.peerID) :
    sendBlockData receiver height hash data ∈ g.emit hashBlock d := by
  rw [accepts.calls]
  apply mem_cons_of_mem
  apply mem_append_right
  have sending : ¬(!g.reactor.networkSet || !g.reactor.peerManagerSet) = true := by
    rw [network, manager]
    decide
  have encoding : ¬(g.env d).encodeFails = true := by
    change ¬d.encodeFails = true
    rw [encodes]
    exact false_ne_true
  rw [relayBlock, if_neg sending, if_neg encoding]
  exact mem_flatMap.mpr ⟨receiver, mem_filter.mpr ⟨listed, decide_eq_true other⟩, mem_cons_self⟩

end Reach

end Gossip

end Blockberry.Handlers
