import Blockberry.Handlers.Gossip
import Blockberry.Lib.Flooding

/-!
# A network of gossiping nodes

The nodes of a group run the block reactor and are linked by connections that lose and duplicate
nothing and deliver in any order. Peers outside the group may send them anything at any time. A
block that one of them stores reaches all that are connected to it.
-/

namespace Blockberry.Handlers

open BlockStore FiniteMap P2P BlockReactor Flooding List LawfulBlockStore Finmap

structure Packet where
  sender : PeerID
  receiver : PeerID
  height : Int64
  hash : Bytes
  data : Bytes
  deriving DecidableEq, Repr

structure GossipNetwork where
  nodes : PeerID → Gossip MemoryBlockStore
  inFlight : Multiset Packet

/-- A node handles a message. -/
structure Receipt where
  receiver : PeerID
  delivery : Delivery

/-- The packet in which the message of a receipt has come. -/
def Receipt.packet (event : Receipt) : Option Packet :=
  match event.delivery.message with
  | some ⟨some height, hash, data⟩ =>
    some ⟨event.delivery.peerID, event.receiver, height, hash, data⟩
  | _ => none

/-- The packet that a call of a node puts on its way. -/
def packetOf (sender : PeerID) : Call → Option Packet
  | .sendBlockData receiver height hash data => some ⟨sender, receiver, height, hash, data⟩
  | _ => none

def GossipNetwork.step (hashBlock : Bytes → Bytes) (s : GossipNetwork) (event : Receipt) :
    GossipNetwork where
  nodes := Function.update s.nodes event.receiver
    ((s.nodes event.receiver).step hashBlock event.delivery)
  inFlight := event.packet.elim s.inFlight s.inFlight.erase +
    Multiset.ofList (((s.nodes event.receiver).emit hashBlock event.delivery).filterMap
      (packetOf event.receiver))

structure GossipGroup where
  members : Set PeerID
  links : PeerID → PeerID → Prop
  validator : BlockValidator
  members_of_links : ∀ {a b}, links a b → a ∈ members ∧ b ∈ members
  height_eq : ∀ {h h' hash data data'}, validator h hash data = none →
    validator h' hash data' = none → h = h'

namespace Gossip

variable {hashBlock : Bytes → Bytes} {g : Gossip MemoryBlockStore} {d : Delivery} {height : Int64}
  {hash data : Bytes}

theorem Accepts.passes (accepts : g.Accepts hashBlock d height hash data) :
    d.message = some ⟨some height, hash, data⟩ ∧
      g.reactor.Passes hashBlock g.store height hash data := by
  have saved : Call.saveBlock height hash data none ∈ g.emit hashBlock d := by
    rw [accepts.calls]
    exact mem_cons_self
  obtain ⟨isMessage, store, isStore, passes, -⟩ := saved_handleBlockData_iff.mp saved
  rw [blockStore_eq] at isStore
  cases isStore
  exact ⟨isMessage, passes⟩

theorem accepts_of_loadBlock_step
    (loaded : loadBlock (g.step hashBlock d).store height = some (hash, data)) :
    loadBlock g.store height = some (hash, data) ∨ g.Accepts hashBlock d height hash data := by
  rcases step_cases hashBlock g d with ⟨same, -⟩ | ⟨stored, x, y, accepts⟩
  · rw [same] at loaded
    exact .inl loaded
  · rw [accepts.store_eq, loadBlock_saveBlock _ _ _ _ accepts.saved] at loaded
    split at loaded
    next isStored =>
      cases loaded
      exact .inr (isStored ▸ accepts)
    next => exact .inl loaded

/-- A node gets a height only by storing the block of the message. -/
theorem accepts_of_hasBlock_step (before : ¬hasBlock g.store height = true)
    (after : hasBlock (g.step hashBlock d).store height = true) :
    ∃ hash data, g.Accepts hashBlock d height hash data := by
  rw [hasBlock_eq] at before after
  obtain ⟨⟨hash, data⟩, loaded⟩ := Option.isSome_iff_exists.mp after
  rcases accepts_of_loadBlock_step loaded with found | accepts
  · exact absurd (Option.isSome_of_eq_some found) before
  · exact ⟨hash, data, accepts⟩

/-- The reactor relays, and has a validator. -/
def Runs (validator : BlockValidator) (g : Gossip MemoryBlockStore) : Prop :=
  g.reactor.networkSet = true ∧ g.reactor.peerManagerSet = true ∧
    g.reactor.validator = some validator

theorem Runs.step {validator : BlockValidator} (runs : g.Runs validator) :
    (g.step hashBlock d).Runs validator := by
  obtain ⟨store, frame⟩ := handleBlockData_frame hashBlock g.reactor (g.env d) d.peerID d.message
  have stepped : (g.step hashBlock d).reactor = { g.reactor with blockStore := store } := frame
  rw [Runs, stepped]
  exact runs

theorem mem_record (peers : Exchanges) (call : Call) (peerID : PeerID) :
    peerID ∈ (record peers call).peers ↔ peerID ∈ peers.peers := by
  have mem_modify (other : PeerID) (change : BlockExchange → BlockExchange) :
      peerID ∈ (peers.modify other change).peers ↔ peerID ∈ peers.peers := by
    rw [Exchanges.modify]
    split
    next => exact Iff.rfl
    next state isState =>
      rw [mem_insert]
      exact or_iff_right_of_imp fun same => same ▸ mem_of_lookup_eq_some isState
  unfold record
  split
  next => exact mem_modify _ _
  next => exact mem_modify _ _
  next => exact Iff.rfl

theorem mem_peers_step (peerID : PeerID) :
    peerID ∈ (g.step hashBlock d).peers.peers ↔ peerID ∈ g.peers.peers := by
  have mem_foldl (calls : List Call) (peers : Exchanges) :
      peerID ∈ (calls.foldl record peers).peers ↔ peerID ∈ peers.peers := by
    induction calls generalizing peers with
    | nil => exact Iff.rfl
    | cons call calls ih => rw [foldl_cons, ih, mem_record]
  exact mem_foldl _ _

end Gossip

open Gossip

namespace GossipGroup

variable (G : GossipGroup) (hashBlock : Bytes → Bytes)

/-- A block that a node of the group would store if it has neither height nor hash. -/
structure Genuine (height : Int64) (hash data : Bytes) : Prop where
  hash_ne : hash ≠ []
  data_ne : data ≠ []
  hash_eq : hashBlock data = hash
  accepted : G.validator height hash data = none

/-- Nothing fails, the peers are visited in some order, and a message of a member was in flight. -/
structure Admitted (s : GossipNetwork) (event : Receipt) : Prop where
  enumerates : Enumerates event.delivery.order (s.nodes event.receiver).peers.peers
  encodes : event.delivery.encodeFails = false
  sends : ∀ peerID, event.delivery.sendFails peerID = false
  flown : event.delivery.peerID ∈ G.members → ∃ packet ∈ s.inFlight, event.packet = some packet

/-- The configuration of the nodes, which no message changes. -/
structure Configured (s : GossipNetwork) : Prop where
  runs : ∀ a ∈ G.members, (s.nodes a).Runs G.validator
  connected : ∀ a b, G.links a b → b ∈ (s.nodes a).peers.peers

/-- The nodes have stored and sent nothing yet. -/
structure Fresh (s : GossipNetwork) : Prop extends Configured G s where
  empty : ∀ a ∈ G.members, ∀ height, hasBlock (s.nodes a).store height = false
  new : ∀ a ∈ G.members, ∀ peerID state,
    (s.nodes a).peers.peers.lookup peerID = some state → state = .new
  silent : s.inFlight = 0

def Flying (s : GossipNetwork) (height : Int64) (a b : PeerID) : Prop :=
  ∃ hash data, ⟨a, b, height, hash, data⟩ ∈ s.inFlight

/-- The invariant: what is stored or in flight is genuine, and every height is covered. -/
structure Sound (s : GossipNetwork) : Prop extends Configured G s where
  caches : ∀ a ∈ G.members, (s.nodes a).CachesStored
  accepted : ∀ a ∈ G.members, ∀ height hash data,
    loadBlock (s.nodes a).store height = some (hash, data) → G.validator height hash data = none
  genuine : ∀ packet ∈ s.inFlight, packet.sender ∈ G.members →
    hasBlock (s.nodes packet.sender).store packet.height = true ∧
      G.Genuine hashBlock packet.height packet.hash packet.data
  covered : ∀ height, Covered G.links
    (fun a => hasBlock (s.nodes a).store height = true) (Flying s height)

variable {G hashBlock} {s : GossipNetwork} {event : Receipt} {a b : PeerID} {height : Int64}
  {hash data : Bytes}

theorem Fresh.sound (fresh : G.Fresh s) : G.Sound hashBlock s where
  toConfigured := fresh.toConfigured
  caches a member := cachesStored_of_new (fresh.new a member)
  accepted a member height hash data loaded := by
    have free := fresh.empty a member height
    rw [hasBlock_eq, loaded] at free
    cases free
  genuine packet flies := by
    rw [fresh.silent] at flies
    exact absurd flies (Multiset.notMem_zero packet)
  covered height a b linked found := by
    have free := fresh.empty a (G.members_of_links linked).1 height
    exact absurd (free.symm.trans found) Bool.false_ne_true

theorem nodes_step_receiver : (s.step hashBlock event).nodes event.receiver =
    (s.nodes event.receiver).step hashBlock event.delivery := Function.update_self ..

theorem nodes_step (s : GossipNetwork) (event : Receipt) (a : PeerID) :
    (s.step hashBlock event).nodes a = s.nodes a ∨ a = event.receiver ∧
      (s.step hashBlock event).nodes a = (s.nodes a).step hashBlock event.delivery := by
  by_cases same : a = event.receiver
  · subst same
    exact .inr ⟨rfl, nodes_step_receiver⟩
  · exact .inl (Function.update_of_ne same ..)

/-- What a message keeps at a node a step of the network keeps at all nodes. -/
theorem keeps_step {holds : Gossip MemoryBlockStore → Prop} (before : holds (s.nodes a))
    (kept : holds ((s.nodes a).step hashBlock event.delivery)) :
    holds ((s.step hashBlock event).nodes a) := by
  rcases nodes_step s event a with same | ⟨-, stepped⟩
  · rwa [same]
  · rwa [stepped]

theorem hasBlock_step (stored : hasBlock (s.nodes a).store height = true) :
    hasBlock ((s.step hashBlock event).nodes a).store height = true :=
  @keeps_step _ _ _ _ (hasBlock ·.store height = true) stored (Gossip.hasBlock_step stored)

theorem Configured.step (configured : G.Configured s) : G.Configured (s.step hashBlock event) where
  runs a member := keeps_step (configured.runs a member) (configured.runs a member).step
  connected a b linked := @keeps_step _ _ _ _ (b ∈ ·.peers.peers) (configured.connected a b linked)
    ((mem_peers_step b).mpr (configured.connected a b linked))

/-- A packet is in flight after a step if it was before and is not the one that came, or if the
receiver has just sent it. -/
theorem mem_inFlight_step {packet : Packet} : packet ∈ (s.step hashBlock event).inFlight ↔
      packet ∈ event.packet.elim s.inFlight s.inFlight.erase ∨ packet.sender = event.receiver ∧
          Call.sendBlockData packet.receiver packet.height packet.hash packet.data ∈
            (s.nodes event.receiver).emit hashBlock event.delivery := by
  rw [GossipNetwork.step, Multiset.mem_add, Multiset.mem_coe, mem_filterMap]
  apply or_congr_right
  constructor
  · rintro ⟨call, made, isPacket⟩
    unfold packetOf at isPacket
    split at isPacket
    next =>
      cases isPacket
      exact ⟨rfl, made⟩
    next => cases isPacket
  · rintro ⟨isSender, made⟩
    exact ⟨_, made, by rw [packetOf, ← isSender]⟩

theorem mem_of_mem_elim_erase {packet : Packet} {came : Option Packet} {flight : Multiset Packet}
    (flies : packet ∈ came.elim flight flight.erase) : packet ∈ flight := by
  cases came with
  | none => exact flies
  | some other => exact Multiset.mem_of_mem_erase flies

/-- A genuine block that comes to a member is stored there afterwards. -/
theorem Sound.lands (sound : G.Sound hashBlock s) (member : event.receiver ∈ G.members)
    (isMessage : event.delivery.message = some ⟨some height, hash, data⟩)
    (genuine : G.Genuine hashBlock height hash data) :
    hasBlock ((s.nodes event.receiver).step hashBlock event.delivery).store height = true := by
  by_cases stored : hasBlock (s.nodes event.receiver).store height = true
  · exact Gossip.hasBlock_step stored
  have free := Bool.eq_false_of_not_eq_true stored
  have passes : (s.nodes event.receiver).reactor.Passes hashBlock (s.nodes event.receiver).store
      height hash data := by
    refine ⟨genuine.hash_ne, genuine.data_ne, free, genuine.hash_eq, ?_⟩
    intro validator isValidator
    rw [(sound.runs event.receiver member).2.2] at isValidator
    cases isValidator
    exact genuine.accepted
  -- the hash cannot be stored at another height, since the validator would have accepted it there
  have unknown : hashKnown (s.nodes event.receiver).store hash = false := by
    apply Bool.eq_false_of_not_eq_true
    intro known
    obtain ⟨other, content, loaded⟩ := MemoryBlockStore.exists_of_hashKnown known
    have accepted := sound.accepted event.receiver member other hash content loaded
    rw [G.height_eq accepted genuine.accepted] at loaded
    rw [hasBlock_eq, loaded] at free
    cases free
  have saved := (saveBlock_ok_iff (s.nodes event.receiver).store height hash
    data).mpr ⟨free, unknown, rfl⟩
  have made : Call.saveBlock height hash data none ∈
      (s.nodes event.receiver).emit hashBlock event.delivery :=
    saved_handleBlockData_iff.mpr ⟨isMessage, _, blockStore_eq _, passes, saved⟩
  obtain ⟨x, y, accepts, -⟩ := accepts_of_settles made rfl
  exact accepts.hasBlock

theorem Sound.genuine_of_accepts (sound : G.Sound hashBlock s) (member : a ∈ G.members)
    (accepts : (s.nodes a).Accepts hashBlock event.delivery height hash data) :
    G.Genuine hashBlock height hash data := by
  obtain ⟨-, passes⟩ := accepts.passes
  exact ⟨passes.hash_ne, passes.data_ne, passes.hash_eq,
    passes.accepted _ (sound.runs a member).2.2⟩

/-- What a member stores it has been sent by a member that has it, or sends to its neighbours. -/
theorem Sound.covered_step (sound : G.Sound hashBlock s) (admitted : G.Admitted s event)
    (height : Int64) : Covered G.links
      (fun a => hasBlock ((s.step hashBlock event).nodes a).store height = true)
      (Flying (s.step hashBlock event) height) := by
  refine (sound.covered height).step (fun a => hasBlock_step) ?_ ?_
  · rintro a b linked ⟨hash, data, flies⟩
    by_cases came : event.packet = some ⟨a, b, height, hash, data⟩
    · left
      obtain ⟨-, genuine⟩ := sound.genuine _ flies (G.members_of_links linked).1
      unfold Receipt.packet at came
      split at came
      next isMessage =>
        cases came
        rw [nodes_step_receiver]
        exact sound.lands (G.members_of_links linked).2 isMessage genuine
      next => cases came
    · right
      refine ⟨hash, data, mem_inFlight_step.mpr (.inl ?_)⟩
      cases isPacket : event.packet with
      | none => exact flies
      | some other =>
        rw [isPacket, Option.some.injEq] at came
        exact (Multiset.mem_erase_of_ne (Ne.symm came)).mpr flies
  · intro a b linked after before
    obtain ⟨member, neighbour⟩ := G.members_of_links linked
    rcases nodes_step s event a with same | ⟨rfl, stepped⟩
    · rw [same] at after
      exact absurd after before
    rw [stepped] at after
    obtain ⟨hash, data, accepts⟩ := accepts_of_hasBlock_step before after
    by_cases own : b = event.delivery.peerID
    · left
      obtain ⟨packet, flies, isPacket⟩ := admitted.flown (own ▸ neighbour)
      rw [Receipt.packet, accepts.passes.1] at isPacket
      cases isPacket
      exact hasBlock_step (own ▸ (sound.genuine _ flies (own ▸ neighbour)).1)
    · right
      have connected := sound.connected _ b linked
      have listed := (sound.caches _ member).mem_peersToSendBlock accepts.fresh
        ((admitted.enumerates.mem_iff b).mpr connected) connected own
      have sent := sendBlockData_of_accepts accepts (sound.runs _ member).1
        (sound.runs _ member).2.1 admitted.encodes listed own
      exact ⟨hash, data, mem_inFlight_step.mpr (.inr ⟨rfl, sent⟩)⟩

theorem Sound.step (sound : G.Sound hashBlock s) (admitted : G.Admitted s event) :
    G.Sound hashBlock (s.step hashBlock event) where
  toConfigured := sound.toConfigured.step
  caches a member := keeps_step (sound.caches a member) ((sound.caches a member).step _)
  accepted a member height hash data loaded := by
    rcases nodes_step s event a with same | ⟨-, stepped⟩
    · rw [same] at loaded
      exact sound.accepted a member height hash data loaded
    · rw [stepped] at loaded
      rcases accepts_of_loadBlock_step loaded with found | accepts
      · exact sound.accepted a member height hash data found
      · exact (sound.genuine_of_accepts member accepts).accepted
  genuine packet flies member := by
    rcases mem_inFlight_step.mp flies with before | ⟨isSender, sent⟩
    · obtain ⟨stored, genuine⟩ := sound.genuine packet (mem_of_mem_elim_erase before) member
      exact ⟨hasBlock_step stored, genuine⟩
    · obtain ⟨hash, data, accepts, isSave | isReport | ⟨receiver, -, isSend⟩⟩ :=
        accepts_of_settles sent rfl
      · cases isSave
      · cases isReport
      · obtain ⟨-, -, rfl, rfl⟩ := Call.sendBlockData.inj isSend
        rw [isSender] at member ⊢
        rw [nodes_step_receiver]
        exact ⟨accepts.hasBlock, sound.genuine_of_accepts member accepts⟩
  covered := sound.covered_step admitted

end GossipGroup

/-- Whatever outsiders send and in whatever order packets arrive: members only store blocks that the
validator accepts, and with no packet in flight on a link, a height that a member has stored is
stored by all members connected to it. -/
theorem gossip_reaches_connected (G : GossipGroup) (hashBlock : Bytes → Bytes)
    (start : GossipNetwork) (fresh : G.Fresh start) (events : List Receipt)
    (admitted : Run.EveryStep (GossipNetwork.step hashBlock) G.Admitted start events) :
    let s := Run.after (GossipNetwork.step hashBlock) start events
    (∀ a ∈ G.members, ∀ height hash data, loadBlock (s.nodes a).store height = some (hash, data) →
      G.validator height hash data = none) ∧
    ((∀ packet ∈ s.inFlight, ¬G.links packet.sender packet.receiver) →
      ∀ a b, Relation.ReflTransGen G.links a b → ∀ height,
        hasBlock (s.nodes a).store height = true → hasBlock (s.nodes b).store height = true) := by
  intro s
  have sound : G.Sound hashBlock s :=
    admitted.invariant fresh.sound fun _ _ sound allowed => sound.step allowed
  refine ⟨sound.accepted, fun silent a b path height => (sound.covered height).reaches ?_ path⟩
  rintro a b linked ⟨hash, data, flies⟩
  exact silent _ flies linked

/-- Two linked nodes whose validator accepts blocks at height one. -/
def twoMembers : GossipGroup where
  members := {"a", "b"}
  links x y := (x, y) = ("a", "b") ∨ (x, y) = ("b", "a")
  validator height _ _ := if height = 1 then none else some "height"
  members_of_links := by
    rintro x y (same | same) <;> cases same <;> simp
  height_eq := by grind

def twoNodeNetwork : GossipNetwork where
  nodes name :=
    { reactor := { newBlockReactor (some .empty) true true with
        validator := some twoMembers.validator }
      hasStore := rfl
      peers := ⟨singleton (if name = "a" then "b" else "a") .new⟩ }
  inFlight := 0

/-- A peer outside sends a block to the first node, which sends it to the second. -/
def twoReceipts : List Receipt :=
  [⟨"a", ⟨"c", some ⟨some 1, [7], [7]⟩, ["b"], by decide, false, fun _ => false⟩⟩,
    ⟨"b", ⟨"a", some ⟨some 1, [7], [7]⟩, ["a"], by decide, false, fun _ => false⟩⟩]

theorem twoNodeNetwork_fresh : twoMembers.Fresh twoNodeNetwork where
  runs _ _ := ⟨rfl, rfl, rfl⟩
  connected x y linked := by
    rcases linked with same | same <;> cases same <;> exact (mem_singleton _ _ _).mpr rfl
  empty _ _ _ := rfl
  new name _ peerID state found := by
    cases (mem_singleton _ _ _).mp (mem_of_lookup_eq_some found)
    exact (Option.some.inj (lookup_singleton_eq.symm.trans found)).symm
  silent := rfl

theorem gossip_reaches_second : hasBlock ((Run.after (GossipNetwork.step id) twoNodeNetwork
    twoReceipts).nodes "b").store 1 = true := by
  refine (gossip_reaches_connected twoMembers id twoNodeNetwork twoNodeNetwork_fresh twoReceipts
    ?_).2 ?_ "a" "b" (.single (.inl rfl)) 1 (by decide +kernel)
  · refine ⟨⟨by decide +kernel, rfl, fun _ => rfl, ?_⟩,
      ⟨by decide +kernel, rfl, fun _ => rfl, fun _ => ⟨_, ?_, rfl⟩⟩, trivial⟩
    · intro member
      simp [twoMembers] at member
    · decide +kernel
  · have silent : (Run.after (GossipNetwork.step id) twoNodeNetwork twoReceipts).inFlight = 0 := by
      decide +kernel
    rw [silent]
    exact fun packet flies => absurd flies (Multiset.notMem_zero packet)

end Blockberry.Handlers
