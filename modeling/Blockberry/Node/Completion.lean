import Blockberry.BlockStore.BaseHeight
import Blockberry.Node.Assembly
import Blockberry.Sync.Growth

/-!
# What is stored when a sync is complete

The sync reactor is caught up when no peer reports a height above the greatest one in the store. A
gossiped block far above the others makes it report completion over a gap, and so does a response
some of whose blocks are skipped. As long as the blocks added are at positive heights and leave no
gap, all heights are stored when completion is reported.
-/

namespace Blockberry

open BlockStore LawfulBlockStore PrunableBlockStore Handlers Sync LawfulBlockStore Option

namespace PrunableMemoryBlockStore

variable (m : PrunableMemoryBlockStore) (h : Int64) (hash data : Bytes)

theorem saveBlock_eq : (m.saveBlock h hash data).1.toMemoryBlockStore =
        (m.toMemoryBlockStore.saveBlock h hash data).1 ∧
      (m.saveBlock h hash data).2 = (m.toMemoryBlockStore.saveBlock h hash data).2 := by
  rcases m.toMemoryBlockStore.saveBlock_cases h hash data with
    ⟨err, -, saved⟩ | ⟨free, fresh, saved⟩
  · rw [saveBlock, saved]
    exact ⟨rfl, rfl⟩
  · rw [saveBlock, saved]
    exact ⟨rfl, rfl⟩

instance : LawfulBlockStore PrunableMemoryBlockStore where
  toBlockStore := ArchiveStore.toPrunableBlockStore.toBlockStore
  hashKnown m := hashKnown m.toMemoryBlockStore
  available _ _ := true
  saveBlock_ok_iff m h hash data := by
    change (m.saveBlock h hash data).2 = none ↔ _
    rw [(m.saveBlock_eq h hash data).2]
    exact saveBlock_ok_iff m.toMemoryBlockStore h hash data
  saveBlock_failed m h hash data failed := by
    change (m.saveBlock h hash data).1 = m
    change (m.saveBlock h hash data).2 ≠ none at failed
    rcases m.saveBlock_cases h hash data with ⟨err, -, saved⟩ | ⟨free, fresh, saved⟩
    · rw [saved]
    · exact absurd (by rw [saved]) failed
  available_saveBlock _ _ _ _ := rfl
  loadBlock_saveBlock m h hash data ok query := by
    change (m.saveBlock h hash data).2 = none at ok
    change (m.saveBlock h hash data).1.toMemoryBlockStore.loadBlock query = _
    rw [(m.saveBlock_eq h hash data).2] at ok
    rw [(m.saveBlock_eq h hash data).1]
    exact loadBlock_saveBlock m.toMemoryBlockStore h hash data ok query
  hashKnown_saveBlock m h hash data ok query := by
    change (m.saveBlock h hash data).2 = none at ok
    change hashKnown (m.saveBlock h hash data).1.toMemoryBlockStore query = _
    rw [(m.saveBlock_eq h hash data).2] at ok
    rw [(m.saveBlock_eq h hash data).1]
    exact hashKnown_saveBlock m.toMemoryBlockStore h hash data ok query
  height_saveBlock m h hash data ok := by
    change (m.saveBlock h hash data).2 = none at ok
    change (m.saveBlock h hash data).1.toMemoryBlockStore.height = _
    rw [(m.saveBlock_eq h hash data).2] at ok
    rw [(m.saveBlock_eq h hash data).1]
    exact height_saveBlock m.toMemoryBlockStore h hash data ok
  hasBlock_eq m := hasBlock_eq m.toMemoryBlockStore
  le_height m := le_height m.toMemoryBlockStore
  height_nonneg m := height_nonneg m.toMemoryBlockStore
  height_stored m := height_stored m.toMemoryBlockStore

variable {m h hash data}

/-- The base and the height are the least and the greatest stored height, if there is one. -/
structure Bounded (m : PrunableMemoryBlockStore) : Prop where
  valid : m.archive.Valid
  baseStored : m.archive.BaseStored

theorem bounded_new : Bounded new where
  valid := by
    have empty := @ArchiveStore.archive_new PrunableMemoryBlockStore _
    change new.archive = Archive.empty at empty
    rw [empty]
    exact Archive.valid_empty
  baseStored := .inl rfl

theorem Bounded.saveBlock (bounded : Bounded m) (positive : 0 < h) :
    Bounded (m.saveBlock h hash data).1 := by
  rcases m.saveBlock_cases h hash data with ⟨err, -, saved⟩ | ⟨free, fresh, saved⟩
  · rw [saved]
    exact bounded
  · rw [saved]
    constructor
    · rw [archive_put]
      exact bounded.valid.put positive hash data
    · rw [archive_put]
      exact bounded.baseStored.put h hash data

/-- Nothing is missing between the base and the height. -/
def Complete (m : PrunableMemoryBlockStore) : Prop :=
  (∃ h, hasBlock m h = true) → ∀ h, base m ≤ h → h ≤ height m → hasBlock m h = true

theorem Bounded.complete (bounded : Bounded m) (gapFree : (heights m).OrdConnected) :
    m.Complete := by
  rintro ⟨some, stored⟩ h above below
  have atBase : hasBlock m (base m) = true := by
    have inArchive := (bounded.valid.baseStored_iff.mp bounded.baseStored some
      ((m.hasBlock_archive some).trans stored)).1
    exact (m.hasBlock_archive m.base).symm.trans inArchive
  have atHeight : hasBlock m (height m) = true := by
    refine (height_stored m).resolve_left ?_
    intro zero
    have pos := bounded.valid.pos some ((m.hasBlock_archive some).trans stored)
    have le := le_height m some stored
    rw [zero] at le
    exact Int64.lt_irrefl (Int64.lt_of_lt_of_le pos le)
  exact mem_heights.mp (gapFree.out (mem_heights.mpr atBase) (mem_heights.mpr atHeight)
    ⟨Int64.le_iff_toInt_le.mp above, Int64.le_iff_toInt_le.mp below⟩)

end PrunableMemoryBlockStore

/-- What happens to a node that syncs. -/
inductive ChainEvent where
  | message (message : PeerMessage)
  | updatePeerHeight (peerID : PeerID) (height : Int64)
  | checkSync (schedule : Schedule)
  | peerDisconnected (peerID : PeerID)

namespace Node

section Generic

variable {σ : Type} [LawfulBlockStore σ] (hashBlock : Bytes → Bytes)

variable (n : Node σ)

/-- The node after an event, and the calls made. -/
def react : ChainEvent → Node σ × List Call
  | .message message => n.handle hashBlock message
  | .updatePeerHeight peerID height =>
    ({ n with syncReactor := n.syncReactor.map (·.updatePeerHeight peerID height) }, [])
  | .checkSync schedule =>
    match n.syncReactor with
    | none => (n, [])
    | some r =>
      let (r, calls) := r.checkSync schedule
      ({ n with syncReactor := some r }, calls)
  | .peerDisconnected peerID =>
    ({ n with syncReactor := n.syncReactor.map (·.onPeerDisconnected peerID) }, [])

def next (event : ChainEvent) : Node σ := (n.react hashBlock event).1

/-- The blocks that an event adds to the store. -/
def Adds : ChainEvent → PeerBlock → Prop
  | .message (.blockData _ message _), b =>
    ∃ store r, n.blockStore = some store ∧ n.blocksReactor = some r ∧
      GossipAdds hashBlock r store message b
  | .message (.blocksResponse _ message _), b =>
    ∃ store r, n.blockStore = some store ∧ n.syncReactor = some r ∧
      ResponseAdds hashBlock r.validator store message b
  | _, _ => False

/-- The blocks that the event adds are at positive heights and leave no gap. -/
def Joins (event : ChainEvent) : Prop :=
  (∀ b, n.Adds hashBlock event b → 0 < b.height) ∧
    ∀ store, n.blockStore = some store →
      (heights store ∪ heightsOf (n.Adds hashBlock event)).OrdConnected

/-- The stored heights are positive and have no gap. -/
def GapFree : Prop :=
  ∀ store, n.blockStore = some store →
    (∀ h, hasBlock store h = true → 0 < h) ∧ (heights store).OrdConnected

/-- Both reactors have the store of the node. -/
structure Shares (n : Node σ) (store : σ) : Prop where
  own : n.blockStore = some store
  blocks : ∃ r, n.blocksReactor = some r ∧ r.blockStore = some store
  sync : ∃ r, n.syncReactor = some r ∧ r.blockStore = some store

variable {hashBlock} {n : Node σ} {store : σ}

omit [LawfulBlockStore σ] in
theorem blockStore_onPeerDisconnected (r : SyncReactor σ) (peerID : PeerID) :
    (r.onPeerDisconnected peerID).blockStore = r.blockStore := by
  simp only [SyncReactor.onPeerDisconnected]
  split <;> rfl

variable (shares : n.Shares store)

include shares

/-- An event adds its blocks to the store that the reactors share. -/
theorem Shares.next (event : ChainEvent) : ∃ final, (n.next hashBlock event).Shares final ∧
      Grows (n.Adds hashBlock event) store final := by
  rcases shares with ⟨own, ⟨b, hasBlocks, sameBlocks⟩, r, hasSync, sameSync⟩
  have unchanged : Grows (fun _ => False) store store := Grows.unchanged (fun _ => id) store
  cases event with
  | message message =>
    cases message with
    | blockData peerID message env =>
      rcases grows_handleBlockData sameBlocks env peerID message with ⟨final, isFinal, grows⟩
      refine ⟨final, ?_, ?_⟩
      · simp only [Node.next, react, handle, hasBlocks, hasSync, shareStore, map_some]
        exact ⟨isFinal, ⟨_, rfl, isFinal⟩, ⟨_, rfl, isFinal⟩⟩
      · have same : n.Adds hashBlock (.message (.blockData peerID message env)) =
            GossipAdds hashBlock b store message := by
          funext added
          simp [Adds, own, hasBlocks]
        rw [same]
        exact grows
    | blocksResponse peerID message schedule =>
      rcases grows_handleBlocksResponse sameSync schedule peerID message with
        ⟨final, isFinal, grows⟩
      refine ⟨final, ?_, ?_⟩
      · simp only [Node.next, react, handle, hasBlocks, hasSync, shareStore, map_some]
        exact ⟨isFinal, ⟨_, rfl, isFinal⟩, ⟨_, rfl, isFinal⟩⟩
      · have same : n.Adds hashBlock (.message (.blocksResponse peerID message schedule)) =
            ResponseAdds hashBlock r.validator store message := by
          funext added
          simp [Adds, own, hasSync]
        rw [same]
        exact grows
  | updatePeerHeight peerID height =>
    refine ⟨store, ⟨own, ⟨b, hasBlocks, sameBlocks⟩, ?_⟩, unchanged⟩
    simp only [Node.next, react, hasSync, map_some]
    exact ⟨_, rfl, sameSync⟩
  | checkSync schedule =>
    refine ⟨store, ?_, unchanged⟩
    simp only [Node.next, react, hasSync]
    exact ⟨own, ⟨b, hasBlocks, sameBlocks⟩, ⟨_, rfl,
      (SyncReactor.frame_checkSync r schedule).blockStore.trans sameSync⟩⟩
  | peerDisconnected peerID =>
    refine ⟨store, ⟨own, ⟨b, hasBlocks, sameBlocks⟩, ?_⟩, unchanged⟩
    simp only [Node.next, react, hasSync, map_some]
    exact ⟨_, rfl, (blockStore_onPeerDisconnected r peerID).trans sameSync⟩

theorem Shares.gapFree_iff :
    n.GapFree ↔ (∀ h, hasBlock store h = true → 0 < h) ∧ (heights store).OrdConnected := by
  simp [GapFree, shares.own]

/-- Without a gap before, there is none after an event exactly if the event leaves none. -/
theorem Shares.gapFree_next_iff (gapFree : n.GapFree) (event : ChainEvent) :
    (n.next hashBlock event).GapFree ↔ n.Joins hashBlock event := by
  rcases @Shares.next _ _ hashBlock _ _ shares event with ⟨final, sharesFinal, grows⟩
  have positive := (shares.gapFree_iff.mp gapFree).1
  have stored (h : Int64) : hasBlock final h = true ↔
      hasBlock store h = true ∨ ∃ b, n.Adds hashBlock event b ∧ b.height = h := by
    rw [← mem_heights, grows.heights_eq, Set.mem_union, mem_heights]
    simp [heightsOf, Int64.toInt_inj]
  rw [sharesFinal.gapFree_iff, Joins, grows.heights_eq]
  simp only [shares.own, some.injEq, forall_eq', stored]
  refine and_congr_left fun _ => ?_
  constructor
  · intro all b isAdded
    exact all b.height (.inr ⟨b, isAdded, rfl⟩)
  · rintro added h (before | ⟨b, isAdded, rfl⟩)
    · exact positive h before
    · exact added b isAdded

end Generic

def sharing {σ : Type} (store : σ) (gossipValidator syncValidator : Option BlockValidator)
    (batchSize : Int32) : Node σ where
  blockStore := some store
  blocksReactor :=
    some { newBlockReactor (some store) true true with validator := gossipValidator }
  syncReactor :=
    some { (newSyncReactor (some store) true true batchSize).setValidator syncValidator with
      onSyncCompleteSet := true }

theorem shares_sharing {σ : Type} (store : σ)
    (gossipValidator syncValidator : Option BlockValidator) (batchSize : Int32) :
    (sharing store gossipValidator syncValidator batchSize).Shares store where
  own := rfl
  blocks := ⟨_, rfl, rfl⟩
  sync := ⟨_, rfl, rfl⟩

/-! ## Runs over the in-memory store -/

variable (hashBlock : Bytes → Bytes)

/-- If the event makes the sync reactor report completion, nothing is missing in the store. -/
def CompleteWhenSynced (n : Node PrunableMemoryBlockStore) (event : ChainEvent) : Prop :=
  Call.onSyncComplete ∈ (n.react hashBlock event).2 →
    ∀ store, (n.next hashBlock event).blockStore = some store → store.Complete

def syncing (gossipValidator syncValidator : Option BlockValidator) (batchSize : Int32) :
    Node PrunableMemoryBlockStore :=
  sharing PrunableMemoryBlockStore.new gossipValidator syncValidator batchSize

/-- What holds along a run whose events leave no gap. -/
def Sound (n : Node PrunableMemoryBlockStore) : Prop :=
  n.GapFree ∧ ∃ store, n.Shares store ∧ store.Bounded

variable {hashBlock} {n : Node PrunableMemoryBlockStore} {event : ChainEvent}

theorem sound_syncing (gossipValidator syncValidator : Option BlockValidator)
    (batchSize : Int32) : (syncing gossipValidator syncValidator batchSize).Sound := by
  have shares : (syncing gossipValidator syncValidator batchSize).Shares
      PrunableMemoryBlockStore.new := shares_sharing _ _ _ _
  have empty : heights PrunableMemoryBlockStore.new = ∅ := MemoryBlockStore.heights_empty
  refine ⟨shares.gapFree_iff.mpr ⟨?_, ?_⟩, _, shares, PrunableMemoryBlockStore.bounded_new⟩
  · intro h stored
    have member := mem_heights.mpr stored
    rw [empty] at member
    exact member.elim
  · rw [empty]
    exact Set.ordConnected_empty

theorem Sound.next (sound : n.Sound) (joins : n.Joins hashBlock event) :
    (n.next hashBlock event).Sound := by
  rcases sound with ⟨gapFree, store, shares, bounded⟩
  rcases shares.next event with ⟨final, sharesFinal, grows⟩
  refine ⟨(shares.gapFree_next_iff gapFree event).mpr joins, final, sharesFinal, ?_⟩
  refine grows.preserves PrunableMemoryBlockStore.Bounded ?_ bounded
  intro store b bounded isAdded _
  exact bounded.saveBlock (joins.1 b isAdded)

theorem Sound.complete (sound : n.Sound) {store : PrunableMemoryBlockStore}
    (own : n.blockStore = some store) : store.Complete := by
  rcases sound with ⟨gapFree, store', shares, bounded⟩
  cases own.symm.trans shares.own
  exact bounded.complete (gapFree store own).2

/-- For a node whose reactors share an initially empty in-memory store and every sequence of events:
no gap ever appears exactly when every event adds only blocks at positive heights that leave no gap,
and then nothing between the base and the height is missing whenever completion is reported. -/
theorem completeWhenSynced_of_joins (gossipValidator syncValidator : Option BlockValidator)
    (batchSize : Int32) (events : List ChainEvent) :
    (Run.EveryStep (next hashBlock) (fun n event => (n.next hashBlock event).GapFree)
        (syncing gossipValidator syncValidator batchSize) events ↔
      Run.EveryStep (next hashBlock) (Joins hashBlock)
        (syncing gossipValidator syncValidator batchSize) events) ∧
    (Run.EveryStep (next hashBlock) (Joins hashBlock)
        (syncing gossipValidator syncValidator batchSize) events →
      Run.EveryStep (next hashBlock) (CompleteWhenSynced hashBlock)
        (syncing gossipValidator syncValidator batchSize) events) := by
  have initially := sound_syncing gossipValidator syncValidator batchSize
  constructor
  · refine Run.everyStep_iff initially ?_ (fun n event => Sound.next) events
    rintro n event ⟨gapFree, store, shares, -⟩
    exact shares.gapFree_next_iff gapFree event
  · intro joins
    refine joins.imp_of_invariant initially (fun n event => Sound.next) ?_
    intro n event sound joins _ store own
    exact (sound.next joins).complete own

/-- Peer one has five blocks. Blocks one and five are gossiped; the hash function is the
identity. -/
def gossipedAhead : List ChainEvent :=
  [.updatePeerHeight "peer" 5, .checkSync ⟨0, ["peer"], []⟩,
    .message (.blockData "peer" (some ⟨some 1, [1], [1]⟩) quietRelay),
    .message (.blockData "peer" (some ⟨some 5, [5], [5]⟩) quietRelay)]

/-- The next check reports completion with blocks two to four missing. -/
theorem complete_over_gap :
    let n := Run.after (next id)
      (syncing (some acceptAllBlockValidator) (some acceptAllBlockValidator) 10) gossipedAhead
    Call.onSyncComplete ∈ (n.react id (.checkSync ⟨0, ["peer"], ["peer"]⟩)).2 ∧
      ∃ store, (n.next id (.checkSync ⟨0, ["peer"], ["peer"]⟩)).blockStore = some store ∧
        hasBlock store 1 = true ∧ base store = 1 ∧ height store = 5 ∧
        hasBlock store 3 = false ∧
        ¬n.CompleteWhenSynced id (.checkSync ⟨0, ["peer"], ["peer"]⟩) := by
  refine ⟨by decide +kernel, _, rfl, by decide +kernel, by decide +kernel, by decide +kernel,
    by decide +kernel, ?_⟩
  intro complete
  have missing := complete (by decide +kernel) _ rfl ⟨1, by decide +kernel⟩ 3
    (by decide +kernel) (by decide +kernel)
  revert missing
  decide +kernel

end Node

end Blockberry
