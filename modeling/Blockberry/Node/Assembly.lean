import Blockberry.Lib.Run
import Blockberry.BlockStore.Memory
import Blockberry.Handlers.Blocks
import Blockberry.Sync.Response

/-!
# Assembling a node

`NewNode` and `NodeBuilder.Build` create the block reactor and the sync reactor over one block
store and install the block validator. Modelled are the parts that touch these three. Each reactor
holds a copy of the store, and a step of the node copies the store of the reactor that ran to the
other one.
-/

namespace Blockberry

open BlockStore Handlers Sync

structure Node (σ : Type) where
  blockStore : Option σ
  blocksReactor : Option (BlockReactor σ)
  syncReactor : Option (SyncReactor σ)

inductive NodeOption (σ : Type) where
  | withMempool
  | withBlockStore (bs : Option σ)
  | withConsensusHandler
  | withBlockValidator (v : Option BlockValidator)
  | withCallbacks

variable {σ : Type}

def NodeOption.apply (n : Node σ) : NodeOption σ → Node σ
  | withMempool => n
  | withBlockStore bs => { n with blockStore := bs }
  | withConsensusHandler => n
  | withBlockValidator v => { n with syncReactor := n.syncReactor.map (·.setValidator v) }
  | withCallbacks => n

/-- The part of `NewNode` that creates the reactors. -/
def Node.createReactors (n : Node σ) : Node σ :=
  { n with
    blocksReactor := some (newBlockReactor n.blockStore true true)
    syncReactor := some (newSyncReactor n.blockStore true true 100) }

/-- `NewNode`. The options are applied to the node without reactors and once more
to the node with them. -/
def newNode (defaultStore : σ) (opts : List (NodeOption σ)) : Node σ :=
  opts.foldl NodeOption.apply
    (opts.foldl NodeOption.apply ⟨some defaultStore, none, none⟩).createReactors

/-- The validator configured once one more option is given. -/
def NodeOption.configure (configured : Option BlockValidator) :
    NodeOption σ → Option BlockValidator
  | withBlockValidator v => v
  | _ => configured

/-- The validator that the options configure: the last one given. -/
def configuredValidator (opts : List (NodeOption σ)) : Option BlockValidator :=
  opts.foldl NodeOption.configure none

/-- The fields of the builder that reach the reactors. -/
structure NodeBuilder (σ : Type) where
  syncBatchSize : Int32
  blockStore : Option σ
  blockValidator : Option BlockValidator

def NodeBuilder.withBlockStore (b : NodeBuilder σ) (bs : Option σ) : NodeBuilder σ :=
  { b with blockStore := bs }

def NodeBuilder.withBlockValidator (b : NodeBuilder σ) (v : Option BlockValidator) :
    NodeBuilder σ :=
  { b with blockValidator := v }

def NodeBuilder.build (b : NodeBuilder σ) (defaultStore : σ) : Node σ :=
  let bs := some (b.blockStore.getD defaultStore)
  let blocksReactor := newBlockReactor bs true true
  let syncReactor := newSyncReactor bs true true b.syncBatchSize
  let syncReactor :=
    match b.blockValidator with
    | none => syncReactor
    | some v => syncReactor.setValidator (some v)
  ⟨bs, some blocksReactor, some syncReactor⟩

/-- Nodes that either constructor makes, with the validator it was given. -/
inductive Assembles : Node σ → Option BlockValidator → Prop where
  | newNode (defaultStore : σ) (opts : List (NodeOption σ)) :
      Assembles (newNode defaultStore opts) (configuredValidator opts)
  | build (b : NodeBuilder σ) (defaultStore : σ) :
      Assembles (b.build defaultStore) b.blockValidator

/-! ## Running a node -/

/-- Messages of peers on the gossip and on the sync stream. -/
inductive PeerMessage where
  | blockData (peerID : PeerID) (message : Option BlockData) (env : RelayEnv)
  | blocksResponse (peerID : PeerID) (message : Option (List BlockData))
      (schedule : Schedule)

/-- Let all parts of the node see the store. -/
def Node.shareStore (n : Node σ) (bs : Option σ) : Node σ where
  blockStore := bs
  blocksReactor := n.blocksReactor.map fun r => { r with blockStore := bs }
  syncReactor := n.syncReactor.map fun r => { r with blockStore := bs }

section Run

variable [BlockStore σ] (hashBlock : Bytes → Bytes)

/-- The node after one message, and the calls its handler made. -/
def Node.handle (n : Node σ) : PeerMessage → Node σ × List Call
  | .blockData peerID message env =>
    match n.blocksReactor with
    | none => (n, [])
    | some r =>
      let (r, calls, _) := r.handleBlockData hashBlock env peerID message
      ({ n with blocksReactor := some r }.shareStore r.blockStore, calls)
  | .blocksResponse peerID message schedule =>
    match n.syncReactor with
    | none => (n, [])
    | some r =>
      let outcome := r.handleBlocksResponse hashBlock schedule peerID message
      ({ n with syncReactor := some outcome.reactor }.shareStore outcome.reactor.blockStore,
        outcome.calls)

/-- The node and all calls made so far, after one more message. -/
def Node.step (state : Node σ × List Call) (message : PeerMessage) : Node σ × List Call :=
  let (n, calls) := state.1.handle hashBlock message
  (n, state.2 ++ calls)

/-- The node and all calls after a sequence of messages. -/
def Node.after (n : Node σ) (messages : List PeerMessage) : Node σ × List Call :=
  Run.after (Node.step hashBlock) (n, []) messages

structure Validated (configured : Option BlockValidator) (calls : List Call) : Prop where
  checked : ∀ h hash data, Call.saveBlock h hash data none ∈ calls →
    hashBlock data = hash ∧ ∃ v, configured = some v ∧ v h hash data = none
  closed : configured = none → ∀ h hash data, Call.saveBlock h hash data none ∉ calls

def Unchecked (configured : Option BlockValidator) (n : Node σ) : PeerMessage → Prop
  | .blockData _ message _ =>
    ∃ store h hash data, message = some ⟨some h, hash, data⟩ ∧
      n.blockStore = some store ∧ (hash ≠ [] ∧ data ≠ []) ∧
      hasBlock store h = false ∧ hashBlock data = hash ∧
      (saveBlock store h hash data).2 = none ∧
      ¬∃ v, configured = some v ∧ v h hash data = none
  | .blocksResponse .. => False

end Run

/-! ## Only the sync reactor has the validator -/

/-- How the reactors of an assembled node are wired. -/
structure Wired (n : Node σ) (configured : Option BlockValidator) : Prop where
  blocks : ∃ r, n.blocksReactor = some r ∧ r.validator = none ∧ r.blockStore = n.blockStore
  sync : ∃ r, n.syncReactor = some r ∧ r.validator = configured

variable (opts : List (NodeOption σ))

include opts

theorem foldl_apply_blocksReactor (n : Node σ) :
    (opts.foldl NodeOption.apply n).blocksReactor = n.blocksReactor := by
  induction opts generalizing n with
  | nil => rfl
  | cons opt opts ih =>
    rw [List.foldl_cons, ih]
    cases opt <;> rfl

theorem foldl_apply_syncReactor (n : Node σ)
    {r : SyncReactor σ} (hasSync : n.syncReactor = some r) :
    ∃ r', (opts.foldl NodeOption.apply n).syncReactor = some r' ∧
      r'.validator = opts.foldl NodeOption.configure r.validator := by
  induction opts generalizing n r with
  | nil => exact ⟨r, hasSync, rfl⟩
  | cons opt opts ih =>
    cases opt with
    | withBlockValidator v =>
      exact @ih _ (r.setValidator v) (by simp [NodeOption.apply, hasSync])
    | withMempool | withBlockStore | withConsensusHandler | withCallbacks =>
      exact ih _ hasSync

theorem foldl_apply_blockStore : (∃ bs, ∀ n, (opts.foldl NodeOption.apply n).blockStore = bs) ∨
      ∀ n, (opts.foldl NodeOption.apply n).blockStore = n.blockStore := by
  induction opts with
  | nil => exact Or.inr fun _ => rfl
  | cons opt opts ih =>
    rcases ih with ⟨bs, sets⟩ | leaves
    · exact Or.inl ⟨bs, fun n => sets _⟩
    · cases opt with
      | withBlockStore bs => exact Or.inl ⟨bs, fun n => leaves _⟩
      | withMempool | withBlockValidator | withConsensusHandler | withCallbacks =>
        exact Or.inr fun n => leaves _

omit opts

theorem wired_newNode (defaultStore : σ) (opts : List (NodeOption σ)) :
    Wired (newNode defaultStore opts) (configuredValidator opts) where
  blocks := by
    refine ⟨_, foldl_apply_blocksReactor opts _, rfl, ?_⟩
    simp only [newNode]
    rcases foldl_apply_blockStore opts with ⟨bs, sets⟩ | leaves
    · exact (sets _).trans (sets _).symm
    · exact (leaves (Node.createReactors _)).symm
  sync := foldl_apply_syncReactor opts (Node.createReactors _) rfl

theorem wired_build (b : NodeBuilder σ) (defaultStore : σ) :
    Wired (b.build defaultStore) b.blockValidator where
  blocks := ⟨_, rfl, rfl, rfl⟩
  sync := by
    refine ⟨_, rfl, ?_⟩
    cases b.blockValidator <;> rfl

variable {configured : Option BlockValidator} {n : Node σ}

theorem wired_of_assembles (assembles : Assembles n configured) : Wired n configured := by
  cases assembles with
  | newNode defaultStore opts => exact wired_newNode defaultStore opts
  | build b defaultStore => exact wired_build b defaultStore

variable [BlockStore σ] {hashBlock : Bytes → Bytes}

theorem wired_handle (wired : Wired n configured) (message : PeerMessage) :
    Wired (n.handle hashBlock message).1 configured := by
  rcases wired with ⟨⟨b, hasBlocks, noValidator, -⟩, r, hasSync, sameValidator⟩
  cases message with
  | blockData peerID message env =>
    rcases b.handleBlockData_frame hashBlock env peerID message with ⟨store, frame⟩
    simp only [Node.handle, hasBlocks, Node.shareStore, frame, hasSync, Option.map_some]
    exact ⟨⟨_, rfl, noValidator, rfl⟩, ⟨_, rfl, sameValidator⟩⟩
  | blocksResponse peerID message schedule =>
    have frame := r.validator_handleBlocksResponse hashBlock schedule peerID message
    simp only [Node.handle, hasSync, Node.shareStore, hasBlocks, Option.map_some]
    exact ⟨⟨_, rfl, noValidator, rfl⟩, ⟨_, rfl, frame.trans sameValidator⟩⟩

theorem validated_iff {calls : List Call} : Validated hashBlock configured calls ↔
      ∀ h hash data, Call.saveBlock h hash data none ∈ calls →
        hashBlock data = hash ∧ ∃ v, configured = some v ∧ v h hash data = none := by
  constructor
  · exact Validated.checked
  · intro checked
    refine ⟨checked, ?_⟩
    intro unset h hash data saved
    rcases checked h hash data saved with ⟨-, v, configured, -⟩
    rw [unset] at configured
    contradiction

theorem validated_append {first second : List Call} :
    Validated hashBlock configured (first ++ second) ↔
      Validated hashBlock configured first ∧ Validated hashBlock configured second := by
  simp only [validated_iff, List.mem_append]
  constructor
  · intro both
    exact ⟨fun h hash data saved => both h hash data (Or.inl saved),
      fun h hash data saved => both h hash data (Or.inr saved)⟩
  · rintro ⟨left, right⟩ h hash data (saved | saved)
    · exact left h hash data saved
    · exact right h hash data saved

/-- One message: what it saves is validated exactly when it is not an unchecked
gossip block. -/
theorem validated_handle_iff (wired : Wired n configured) (message : PeerMessage) :
    Validated hashBlock configured (n.handle hashBlock message).2 ↔
      ¬Unchecked hashBlock configured n message := by
  rcases wired with ⟨⟨b, hasBlocks, noValidator, sameStore⟩, r, hasSync, sameValidator⟩
  rw [validated_iff]
  cases message with
  | blockData peerID message env =>
    simp only [Node.handle, hasBlocks, Unchecked]
    constructor
    · rintro validated ⟨store, h, hash, data, rfl, hasStore, wellFormed, free, sameHash,
        saved, unchecked⟩
      have passes : b.Passes hashBlock store h hash data :=
        ⟨wellFormed.1, wellFormed.2, free, sameHash, by simp [noValidator]⟩
      exact unchecked (validated h hash data (BlockReactor.saved_handleBlockData_iff.mpr
          ⟨rfl, store, sameStore.trans hasStore, passes, saved⟩)).2
    · intro harmless h hash data saved
      rcases BlockReactor.saved_handleBlockData_iff.mp saved with
        ⟨isBlock, store, hasStore, passes, stored⟩
      refine ⟨passes.hash_eq, ?_⟩
      by_contra unchecked
      exact harmless ⟨store, h, hash, data, isBlock, sameStore.symm.trans hasStore,
        ⟨passes.hash_ne, passes.data_ne⟩, passes.free, passes.hash_eq, stored, unchecked⟩
  | blocksResponse peerID message schedule =>
    simp only [Node.handle, hasSync, Unchecked, not_false_eq_true, iff_true]
    intro h hash data saved
    rcases SyncReactor.saved_of_handleBlocksResponse saved with ⟨sameHash, accepted⟩
    rw [sameValidator] at accepted
    cases configured with
    | none => simp [defaultBlockValidator] at accepted
    | some v => exact ⟨sameHash, v, rfl, accepted⟩

/-- In a run of a wired node everything saved is validated exactly when no message
is an unchecked gossip block in the state in which it arrives. -/
theorem validated_after_iff
    (wired : Wired n configured) (calls : List Call) (messages : List PeerMessage) :
    Validated hashBlock configured (Run.after (Node.step hashBlock) (n, calls) messages).2 ↔
      Validated hashBlock configured calls ∧ Run.EveryStep (Node.step hashBlock)
          (fun state message => ¬Unchecked hashBlock configured state.1 message)
          (n, calls) messages := by
  induction messages generalizing n calls with
  | nil => simp [Run.EveryStep]
  | cons message messages ih =>
    rw [Run.after_cons, Node.step, ih (wired_handle wired message), validated_append,
      validated_handle_iff wired message, and_assoc]
    rfl

/-- For every node that `NewNode` or `Build` assembles and every sequence of messages: the stored
blocks all have the right hash and the blessing of the configured validator exactly when no gossip
message without that blessing would otherwise be stored. -/
theorem peerBlocks_validated_iff {n : Node σ} {configured : Option BlockValidator}
    (assembles : Assembles n configured) (messages : List PeerMessage) :
    Validated hashBlock configured (n.after hashBlock messages).2 ↔
      Run.EveryStep (Node.step hashBlock)
        (fun state message => ¬Unchecked hashBlock configured state.1 message)
        (n, []) messages := by
  rw [Node.after, validated_after_iff (wired_of_assembles assembles)]
  simp [validated_iff]

/-- A relay that has nobody to send to. -/
def quietRelay : RelayEnv := ⟨fun _ => [], false, fun _ => false⟩

def rejectAllBlockValidator : BlockValidator := fun _ _ _ => some "rejected"

/-- A block at height one, as a peer gossips it. The hash function of the
examples is the identity. -/
def gossipedBlock : PeerMessage :=
  .blockData "peer" (some ⟨some 1, [7], [7]⟩) quietRelay

/-- Both constructors are given a validator that rejects everything, and a third
node none at all; each of them stores the gossiped block. -/
theorem gossip_bypasses_validator :
    rejectAllBlockValidator 1 [7] [7] ≠ none ∧
      Call.saveBlock 1 [7] [7] none ∈
        ((newNode MemoryBlockStore.empty
          [.withBlockValidator (some rejectAllBlockValidator)]).after id
            [gossipedBlock]).2 ∧
      Call.saveBlock 1 [7] [7] none ∈
        ((NodeBuilder.mk 100 none (some rejectAllBlockValidator)).build
          MemoryBlockStore.empty |>.after id [gossipedBlock]).2 ∧
      Call.saveBlock 1 [7] [7] none ∈
        ((newNode MemoryBlockStore.empty []).after id [gossipedBlock]).2 := by
  decide

/-- A builder given a validator that accepts everything. -/
def acceptAllBuilder : NodeBuilder MemoryBlockStore :=
  ⟨100, none, some acceptAllBlockValidator⟩

theorem peerBlocks_validated_acceptAll :
    Validated id (some acceptAllBlockValidator)
      ((acceptAllBuilder.build MemoryBlockStore.empty).after id [gossipedBlock]).2 := by
  have assembles := Assembles.build acceptAllBuilder MemoryBlockStore.empty
  apply (peerBlocks_validated_iff assembles [gossipedBlock]).mpr
  refine ⟨?_, trivial⟩
  rintro ⟨store, h, hash, data, -, -, -, -, -, -, unchecked⟩
  exact unchecked ⟨acceptAllBlockValidator, rfl, rfl⟩

end Blockberry
