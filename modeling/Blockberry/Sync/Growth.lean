import Blockberry.Handlers.Blocks
import Blockberry.Sync.Response

/-!
# What a message adds to the store

A gossip message adds its block if it passes and its hash is new. A response that passes the checks
adds its acceptable blocks, of several with one hash only the first. `Grows` relates the store
before a message to the store after it.
-/

namespace Blockberry.Sync

open BlockStore LawfulBlockStore Handlers SyncReactor

variable {σ : Type} [LawfulBlockStore σ]

/-- Heights of a set of blocks, as integers. -/
def heightsOf (blocks : PeerBlock → Prop) : Set Int := {h | ∃ b, blocks b ∧ b.height.toInt = h}

/-- The store after blocks were added. -/
structure Grows (added : PeerBlock → Prop) (store final : σ) : Prop where
  heights_eq : heights final = heights store ∪ heightsOf added
  preserves : ∀ holds : σ → Prop,
    (∀ store b, holds store → added b → (saveBlock store b.height b.hash b.data).2 = none →
      holds (saveBlock store b.height b.hash b.data).1) →
    holds store → holds final

namespace Grows

variable {store next final : σ} {added first second : PeerBlock → Prop} {block : PeerBlock}

theorem unchanged (none : ∀ b, ¬added b) (store : σ) : Grows added store store where
  heights_eq := by
    have empty : heightsOf added = ∅ :=
      Set.eq_empty_of_forall_notMem fun _ ⟨b, isAdded, _⟩ => none b isAdded
    rw [empty, Set.union_empty]
  preserves _ _ initially := initially

theorem save (only : ∀ b, added b ↔ b = block)
    (saved : (saveBlock store block.height block.hash block.data).2 = none) :
    Grows added store (saveBlock store block.height block.hash block.data).1 where
  heights_eq := by
    have single : heightsOf added = {block.height.toInt} := by
      ext h
      simp [heightsOf, only, eq_comm]
    rw [single, heights_saveBlock saved, Set.union_singleton]
  preserves holds kept initially := kept store block initially ((only block).mpr rfl) saved

theorem trans (before : Grows first store next) (after : Grows second next final)
    (both : ∀ b, added b ↔ first b ∨ second b) : Grows added store final where
  heights_eq := by
    have union : heightsOf added = heightsOf first ∪ heightsOf second := by
      ext h
      simp [heightsOf, both, or_and_right, exists_or]
    rw [after.heights_eq, before.heights_eq, union, Set.union_assoc]
  preserves holds kept initially := after.preserves holds
      (fun store b holdsStore isSecond => kept store b holdsStore ((both b).mpr (.inr isSecond)))
      (before.preserves holds
        (fun store b holdsStore isFirst => kept store b holdsStore ((both b).mpr (.inl isFirst)))
        initially)

end Grows

open Grows

section Responses

variable (hashBlock : Bytes → Bytes)

/-- A block that the storing loop stores: it is acceptable, and none of the acceptable blocks
before it has its hash. -/
def Taken (validator : Option BlockValidator) (store : σ) : List PeerBlock → PeerBlock → Prop
  | [], _ => False
  | block :: rest, b =>
    b = block ∧ Acceptable hashBlock validator store block ∨
      Taken validator store rest b ∧
        (Acceptable hashBlock validator store block → b.hash ≠ block.hash)

variable {hashBlock} {r : SyncReactor σ} {store : σ} {block : PeerBlock} {rest : List PeerBlock}

/-- Once a block is stored, later ones with its hash are no longer taken. -/
theorem taken_saveBlock_iff (acceptable : Acceptable hashBlock r.validator store block)
    (otherHeights : ∀ b ∈ rest, b.height ≠ block.height) (b : PeerBlock) :
    Taken hashBlock r.validator (saveBlock store block.height block.hash block.data).1 rest b ↔
      Taken hashBlock r.validator store rest b ∧ b.hash ≠ block.hash := by
  induction rest with
  | nil => exact (and_iff_left_of_imp False.elim).symm
  | cons head rest ih =>
    rcases List.forall_mem_cons.mp otherHeights with ⟨otherHead, otherRest⟩
    rw [Taken, Taken, ih otherRest, acceptable_saveBlock_iff acceptable otherHead]
    constructor
    · rintro (⟨rfl, isAcceptable, otherHash⟩ | ⟨⟨later, otherHash⟩, notRepeated⟩)
      · exact ⟨.inl ⟨rfl, isAcceptable⟩, otherHash⟩
      · refine ⟨.inr ⟨later, ?_⟩, otherHash⟩
        intro isAcceptable same
        exact notRepeated ⟨isAcceptable, same ▸ otherHash⟩ same
    · rintro ⟨⟨rfl, isAcceptable⟩ | ⟨later, notRepeated⟩, otherHash⟩
      · exact .inl ⟨rfl, isAcceptable, otherHash⟩
      · exact .inr ⟨⟨later, otherHash⟩, fun isAcceptable => notRepeated isAcceptable.1⟩

theorem grows_storeBlocks (peerID : PeerID) (store : σ) {blocks : List PeerBlock}
    (ascending : Ascending blocks) :
    Grows (Taken hashBlock r.validator store blocks) store
      (r.storeBlocks hashBlock peerID store blocks).1 := by
  induction blocks generalizing store with
  | nil => exact unchanged (fun _ => id) store
  | cons block rest ih =>
    rw [storeBlocks_cons_store]
    by_cases acceptable : Acceptable hashBlock r.validator store block
    · rw [storeBlock_of_acceptable acceptable]
      refine (save (fun _ => Iff.rfl) acceptable.saved).trans (ih _ ascending.tail) ?_
      intro b
      rw [taken_saveBlock_iff acceptable fun b later => ascending.height_ne later, Taken]
      simp only [acceptable, and_true, forall_const]
    · rw [storeBlock_of_not_acceptable acceptable]
      have same : Taken hashBlock r.validator store (block :: rest) =
          Taken hashBlock r.validator store rest := by
        funext b
        simp [Taken, acceptable]
      rw [same]
      exact ih store ascending.tail

variable (hashBlock) in
/-- What a response adds: the blocks taken, if it passes the checks. -/
def ResponseAdds (validator : Option BlockValidator) (store : σ)
    (message : Option (List BlockData)) (b : PeerBlock) : Prop :=
  ∃ blocks checked, message = some blocks ∧
    checkBlocks store 0 (height store + 1) blocks = .ok checked ∧
    Taken hashBlock validator store checked b

theorem grows_handleBlocksResponse (hasStore : r.blockStore = some store) (schedule : Schedule)
    (peerID : PeerID) (message : Option (List BlockData)) :
    ∃ final, (r.handleBlocksResponse hashBlock schedule peerID message).reactor.blockStore =
        some final ∧
      Grows (ResponseAdds hashBlock r.validator store message) store final := by
  rcases blockStore_handleBlocksResponse hashBlock hasStore schedule peerID message with
    ⟨same, none⟩ | ⟨blocks, checked, rfl, passed, stored⟩
  · refine ⟨store, same, unchanged ?_ store⟩
    rintro b ⟨blocks, checked, isMessage, passed, taken⟩
    rw [none blocks checked isMessage passed] at taken
    exact taken
  · refine ⟨_, stored, ?_⟩
    have same : ResponseAdds hashBlock r.validator store (some blocks) =
        Taken hashBlock r.validator store checked := by
      funext b
      simp [ResponseAdds, passed]
    rw [same]
    exact @grows_storeBlocks σ _ hashBlock (r.clearPending peerID) peerID store checked
      (ascending_of_checkBlocks passed)

end Responses

section Gossip

variable (hashBlock : Bytes → Bytes)

/-- What a gossip message adds: its block, if it passes and the store takes it. -/
def GossipAdds (r : BlockReactor σ) (store : σ) (message : Option BlockData) (b : PeerBlock) :
    Prop :=
  message = some b.toBlockData ∧ r.Passes hashBlock store b.height b.hash b.data ∧
    hashKnown store b.hash = false ∧ available store b.height = true

variable {hashBlock} {r : BlockReactor σ} {store : σ}

theorem grows_handleBlockData (hasStore : r.blockStore = some store) (env : RelayEnv)
    (peerID : PeerID) (message : Option BlockData) :
    ∃ final, (r.handleBlockData hashBlock env peerID message).1.blockStore = some final ∧
      Grows (GossipAdds hashBlock r store message) store final := by
  rcases BlockReactor.handleBlockData_store hashBlock hasStore env peerID message with
    ⟨h, hash, data, rfl, passes, after⟩ | ⟨fails, after⟩
  · refine ⟨_, after, ?_⟩
    have adds (b : PeerBlock) : GossipAdds hashBlock r store (some ⟨some h, hash, data⟩) b ↔
        b = ⟨h, hash, data⟩ ∧ hashKnown store hash = false ∧ available store h = true := by
      constructor
      · rintro ⟨same, -, taken⟩
        cases same
        exact ⟨rfl, taken⟩
      · rintro ⟨rfl, taken⟩
        exact ⟨rfl, passes, taken⟩
    by_cases saved : (saveBlock store h hash data).2 = none
    · have taken := ((saveBlock_ok_iff store h hash data).mp saved).2
      exact @save σ _ store _ ⟨h, hash, data⟩ (fun b => by simp [adds, taken]) saved
    · rw [saveBlock_failed store h hash data saved]
      refine unchanged ?_ store
      intro b isAdded
      exact saved ((saveBlock_ok_iff store h hash data).mpr ⟨passes.free, ((adds b).mp isAdded).2⟩)
  · rw [after]
    refine ⟨store, hasStore, unchanged ?_ store⟩
    rintro b ⟨isMessage, passes, -⟩
    exact fails b.height b.hash b.data isMessage passes

end Gossip

end Blockberry.Sync
