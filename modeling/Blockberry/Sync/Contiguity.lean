import Blockberry.Lib.Interval
import Blockberry.BlockStore.Memory
import Blockberry.Sync.Response

/-!
# Gaps in the store

The checking loop makes sure that the blocks of a response are consecutive, but the storing loop
skips single blocks. The stored heights remain free of gaps exactly when the blocks that can be
stored form one stretch of the response right above them.
-/

namespace Blockberry.Sync

open BlockStore LawfulBlockStore GapFree List MemoryBlockStore

variable {σ : Type} [LawfulBlockStore σ] (hashBlock : Bytes → Bytes)

/-- Up to repeated hashes, the acceptable blocks are those of `fresh`. -/
structure Stretch (validator : Option BlockValidator) (store : σ)
    (fresh after : List PeerBlock) : Prop where
  acceptable : ∀ b ∈ fresh, Acceptable hashBlock validator store b
  distinct : (fresh.map PeerBlock.hash).Nodup
  repeats : ∀ b ∈ after, Acceptable hashBlock validator store b →
    b.hash ∈ fresh.map PeerBlock.hash

def OneStretch (validator : Option BlockValidator) (store : σ)
    (checked : List PeerBlock) : Prop :=
  ∃ before fresh after, checked = before ++ (fresh ++ after) ∧
    (∀ b ∈ before, ¬Acceptable hashBlock validator store b) ∧
    Stretch hashBlock validator store fresh after ∧
    ∀ first ∈ fresh.head?, Next (heights store) first.height.toInt

variable {hashBlock} {r : SyncReactor σ} {peerID : PeerID} {store : σ} {b : PeerBlock}
  {rest blocks : List PeerBlock}

/-- A stretch is extended at its front by a block that is stored before it. -/
theorem Stretch.cons {fresh after : List PeerBlock}
    (acceptable : Acceptable hashBlock r.validator store b)
    (ascending : Ascending (b :: (fresh ++ after))) :
    Stretch hashBlock r.validator store (b :: fresh) after ↔
      Stretch hashBlock r.validator (saveBlock store b.height b.hash b.data).1 fresh after := by
  have saveIff : ∀ c ∈ fresh ++ after,
      (Acceptable hashBlock r.validator (saveBlock store b.height b.hash b.data).1 c ↔
        Acceptable hashBlock r.validator store c ∧ c.hash ≠ b.hash) := fun c later =>
    acceptable_saveBlock_iff acceptable (ascending.height_ne later)
  constructor
  · rintro ⟨all, distinct, repeats⟩
    rcases nodup_cons.mp distinct with ⟨newHash, distinct⟩
    refine ⟨?_, distinct, ?_⟩
    · intro c inFresh
      apply (saveIff c (mem_append_left after inFresh)).mpr
      refine ⟨all c (mem_cons_of_mem b inFresh), ?_⟩
      intro same
      exact newHash (same ▸ mem_map_of_mem inFresh)
    · intro c inAfter stillAcceptable
      rcases (saveIff c (mem_append_right fresh inAfter)).mp stillAcceptable with
        ⟨wasAcceptable, otherHash⟩
      exact (mem_cons.mp (repeats c inAfter wasAcceptable)).resolve_left otherHash
  · rintro ⟨all, distinct, repeats⟩
    have wasAcceptable := fun c inFresh =>
      (saveIff c (mem_append_left after inFresh)).mp (all c inFresh)
    refine ⟨?_, nodup_cons.mpr ⟨?_, distinct⟩, ?_⟩
    · exact forall_mem_cons.mpr ⟨acceptable, fun c inFresh => (wasAcceptable c inFresh).1⟩
    · intro repeated
      rcases mem_map.mp repeated with ⟨c, inFresh, same⟩
      exact (wasAcceptable c inFresh).2 same
    · intro c inAfter acceptableNow
      by_cases same : c.hash = b.hash
      · exact mem_cons.mpr (Or.inl same)
      · apply mem_cons_of_mem
        exact repeats c inAfter
          ((saveIff c (mem_append_right fresh inAfter)).mpr ⟨acceptableNow, same⟩)

/-! ## One stretch keeps the store free of gaps -/

theorem storeBlocks_of_none_acceptable
    (none : ∀ b ∈ blocks, ¬Acceptable hashBlock r.validator store b) :
    (r.storeBlocks hashBlock peerID store blocks).1 = store := by
  refine storeBlocks_preserves (· = store) ?_ rfl
  rintro _ b member acceptable rfl
  exact absurd acceptable (none b member)

theorem storeBlocks_append_store (first second : List PeerBlock) :
    (r.storeBlocks hashBlock peerID store (first ++ second)).1 = (r.storeBlocks hashBlock peerID
        (r.storeBlocks hashBlock peerID store first).1 second).1 := by
  induction first generalizing store with
  | nil => rfl
  | cons b first ih => simp [ih]

theorem continues_of_stretch {fresh after : List PeerBlock}
    (gapFree : (heights store).OrdConnected) (ascending : Ascending (fresh ++ after))
    (stretch : Stretch hashBlock r.validator store fresh after)
    (next : ∀ first ∈ fresh.head?, Next (heights store) first.height.toInt) :
    Continues (heights store)
      (heights (r.storeBlocks hashBlock peerID store (fresh ++ after)).1) := by
  induction fresh generalizing store with
  | nil =>
    have none : ∀ b ∈ after, ¬Acceptable hashBlock r.validator store b := by
      intro b inAfter acceptable
      exact absurd (stretch.repeats b inAfter acceptable) not_mem_nil
    rw [nil_append, storeBlocks_of_none_acceptable none]
    exact Continues.refl gapFree
  | cons b fresh ih =>
    have acceptable := stretch.acceptable b mem_cons_self
    have nextB := next b rfl
    have inserted := heights_saveBlock acceptable.saved
    have continues := nextB.continues gapFree
    rw [← inserted] at continues
    rw [cons_append, storeBlocks_cons_store, storeBlock_of_acceptable acceptable]
    apply continues.trans
    apply ih continues.ordConnected ascending.tail ((Stretch.cons acceptable ascending).mp stretch)
    intro c isHead
    cases fresh with
    | nil => contradiction
    | cons d fresh =>
      cases isHead
      rw [inserted, (isChain_cons_cons.mp ascending).1]
      exact nextB.succ

theorem continues_of_oneStretch (gapFree : (heights store).OrdConnected)
    (ascending : Ascending blocks) (oneStretch : OneStretch hashBlock r.validator store blocks) :
    Continues (heights store) (heights (r.storeBlocks hashBlock peerID store blocks).1) := by
  rcases oneStretch with ⟨before, fresh, after, rfl, skipped, stretch, next⟩
  rw [storeBlocks_append_store, storeBlocks_of_none_acceptable skipped]
  exact continues_of_stretch gapFree ascending.right stretch next

/-! ## Anything else leaves a gap -/

theorem none_acceptable_of_no_new (peerID : PeerID) (noNew : ∀ b ∈ blocks,
      b.height.toInt ∈ heights (r.storeBlocks hashBlock peerID store blocks).1 →
        b.height.toInt ∈ heights store) :
    ∀ b ∈ blocks, ¬Acceptable hashBlock r.validator store b := by
  induction blocks with
  | nil => simp
  | cons b rest ih =>
    have notFirst : ¬Acceptable hashBlock r.validator store b := by
      intro acceptable
      have stored : b.height.toInt ∈
          heights (r.storeBlocks hashBlock peerID store (b :: rest)).1 := by
        rw [storeBlocks_cons_store, storeBlock_of_acceptable acceptable]
        apply heights_subset_storeBlocks
        rw [heights_saveBlock acceptable.saved]
        exact Set.mem_insert _ _
      have earlier := mem_heights.mp (noNew b mem_cons_self stored)
      rw [acceptable.free] at earlier
      contradiction
    refine forall_mem_cons.mpr ⟨notFirst, ih ?_⟩
    rw [storeBlocks_cons_store, storeBlock_of_not_acceptable notFirst] at noNew
    exact fun c later => noNew c (mem_cons_of_mem b later)

/-- Once the block that comes next is skipped, a store without gaps takes none of
the blocks after it. -/
theorem none_acceptable_of_skipped (ascending : Ascending (b :: rest))
    (greatest : IsGreatest (heights store) (b.height.toInt - 1))
    (skipped : ¬Acceptable hashBlock r.validator store b)
    (gapFree : (heights (r.storeBlocks hashBlock peerID store (b :: rest)).1).OrdConnected) :
    ∀ c ∈ b :: rest, ¬Acceptable hashBlock r.validator store c := by
  have notFinal : b.height.toInt ∉
      heights (r.storeBlocks hashBlock peerID store (b :: rest)).1 := by
    intro final
    rw [storeBlocks_cons_store, storeBlock_of_not_acceptable skipped] at final
    rcases heights_storeBlocks_subset store rest final with earlier | ⟨c, later, same⟩
    · exact absurd (greatest.2 earlier) (by omega)
    · exact absurd (ascending.lt later) (by omega)
  apply none_acceptable_of_no_new peerID
  intro c member stored
  have fromBelow : b.height.toInt - 1 ∈
      heights (r.storeBlocks hashBlock peerID store (b :: rest)).1 :=
    heights_subset_storeBlocks store (b :: rest) greatest.1
  have notAbove : b.height.toInt ≤ c.height.toInt := by
    rcases mem_cons.mp member with rfl | later
    · exact Int.le_refl _
    · exact (ascending.lt later).le
  exact absurd (gapFree.out fromBelow stored ⟨by omega, notAbove⟩) notFinal

theorem exists_stretch (ascending : Ascending blocks)
    (next : ∀ b ∈ blocks.head?, IsGreatest (heights store) (b.height.toInt - 1))
    (gapFree : (heights (r.storeBlocks hashBlock peerID store blocks).1).OrdConnected) :
    ∃ fresh after, blocks = fresh ++ after ∧ Stretch hashBlock r.validator store fresh after := by
  induction blocks generalizing store with
  | nil => exact ⟨[], [], rfl, by simp, by simp, by simp⟩
  | cons b rest ih =>
    have greatest := next b rfl
    by_cases acceptable : Acceptable hashBlock r.validator store b
    · have nextRest : ∀ c ∈ rest.head?, IsGreatest
          (heights (saveBlock store b.height b.hash b.data).1) (c.height.toInt - 1) := by
        intro c isHead
        rw [heights_saveBlock acceptable.saved, (isChain_cons.mp ascending).1 c isHead]
        exact (Next.succ (Or.inr greatest)).resolve_left (Set.insert_nonempty _ _).ne_empty
      rw [storeBlocks_cons_store, storeBlock_of_acceptable acceptable] at gapFree
      rcases ih ascending.tail nextRest gapFree with ⟨fresh, after, rfl, stretch⟩
      exact ⟨b :: fresh, after, rfl, (Stretch.cons acceptable ascending).mpr stretch⟩
    · have none := none_acceptable_of_skipped ascending greatest acceptable gapFree
      exact ⟨[], b :: rest, rfl, by simp, by simp,
        fun c member acceptable => absurd acceptable (none c member)⟩

theorem oneStretch_of_continues (ascending : Ascending blocks)
    (continues : Continues (heights store)
      (heights (r.storeBlocks hashBlock peerID store blocks).1)) :
    OneStretch hashBlock r.validator store blocks := by
  induction blocks with
  | nil => exact ⟨[], [], [], rfl, by simp, ⟨by simp, by simp, by simp⟩, by simp⟩
  | cons b rest ih =>
    by_cases acceptable : Acceptable hashBlock r.validator store b
    · have inserted := heights_saveBlock acceptable.saved
      have isFree : b.height.toInt ∉ heights store := by
        simp [mem_heights, acceptable.free]
      have least : ∀ a ∈ heights (r.storeBlocks hashBlock peerID store (b :: rest)).1,
          a ∉ heights store → b.height.toInt ≤ a := by
        intro a final new
        rcases heights_storeBlocks_subset store (b :: rest) final with earlier | ⟨c, member, rfl⟩
        · exact absurd earlier new
        · rcases mem_cons.mp member with rfl | later
          · exact Int.le_refl _
          · exact (ascending.lt later).le
      rw [storeBlocks_cons_store, storeBlock_of_acceptable acceptable] at continues least
      have stored : b.height.toInt ∈ heights (r.storeBlocks hashBlock peerID
          (saveBlock store b.height b.hash b.data).1 rest).1 := by
        apply heights_subset_storeBlocks
        rw [inserted]
        exact Set.mem_insert _ _
      have next := continues.next stored isFree least
      have nextRest : ∀ c ∈ rest.head?, IsGreatest
          (heights (saveBlock store b.height b.hash b.data).1) (c.height.toInt - 1) := by
        intro c isHead
        rw [inserted, (isChain_cons.mp ascending).1 c isHead]
        exact next.succ.resolve_left (Set.insert_nonempty _ _).ne_empty
      rcases exists_stretch ascending.tail nextRest continues.ordConnected with
        ⟨fresh, after, rfl, stretch⟩
      refine ⟨[], b :: fresh, after, rfl, by simp,
        (Stretch.cons acceptable ascending).mpr stretch, ?_⟩
      intro first isHead
      cases isHead
      exact next
    · rw [storeBlocks_cons_store, storeBlock_of_not_acceptable acceptable] at continues
      rcases ih ascending.tail continues with ⟨before, fresh, after, rfl, skipped, rest⟩
      exact ⟨b :: before, fresh, after, rfl, forall_mem_cons.mpr ⟨acceptable, skipped⟩, rest⟩

/-- Whichever `SaveBlock` calls of a memory store fail: the stored heights, free of gaps before,
remain so and are only continued upwards exactly when the response fails the checks or its
acceptable blocks are one stretch that comes next. -/
theorem handleBlocksResponse_gapFree_iff {r : SyncReactor FlakyStore} {store : FlakyStore}
    (hasStore : r.blockStore = some store) (gapFree : (heights store).OrdConnected)
    (schedule : Schedule) (peerID : PeerID) (message : Option (List BlockData)) :
    (∃ final, (r.handleBlocksResponse hashBlock schedule peerID message).reactor.blockStore =
        some final ∧ Continues (heights store) (heights final)) ↔
      ∀ blocks checked, message = some blocks →
        SyncReactor.checkBlocks store 0 (height store + 1) blocks = .ok checked →
          OneStretch hashBlock r.validator store checked := by
  rcases blockStore_handleBlocksResponse hashBlock hasStore schedule peerID message with
    ⟨same, none⟩ | ⟨blocks, checked, rfl, passed, stored⟩
  · refine iff_of_true ⟨store, same, Continues.refl gapFree⟩ ?_
    intro blocks checked isMessage passed
    rw [none blocks checked isMessage passed]
    exact ⟨[], [], [], rfl, by simp, ⟨by simp, by simp, by simp⟩, by simp⟩
  · have ascending := ascending_of_checkBlocks passed
    rw [stored]
    constructor
    · rintro ⟨final, isFinal, continues⟩ _ _ ⟨⟩ passed'
      cases isFinal
      cases passed.symm.trans passed'
      exact (oneStretch_of_continues ascending continues :)
    · intro oneStretch
      exact ⟨_, rfl, continues_of_oneStretch gapFree ascending
        (oneStretch blocks checked rfl passed)⟩

def oneBlockStore : FlakyStore :=
  (saveBlock (FlakyStore.mk empty fun _ => none) 1 [1] [1]).1

/-- A reactor over that store that accepts every block; the hash function of the
examples is the identity. -/
def oneBlockReactor : SyncReactor FlakyStore :=
  (newSyncReactor (some oneBlockStore) true true 10).setValidator
    (some acceptAllBlockValidator)

def idleSchedule : Schedule := ⟨0, [], []⟩

theorem heights_oneBlockStore : heights oneBlockStore = {1} := by
  have inserted := @heights_saveBlock _ _ (FlakyStore.mk empty fun _ => none)
    1 [1] [1] (by decide)
  have fresh : heights (FlakyStore.mk empty fun _ => none) = ∅ :=
    heights_empty
  rw [fresh, insert_empty_eq] at inserted
  exact inserted

theorem not_gapFree_of_missing {low mid high : Int64} (lowStored : hasBlock store low = true)
    (missing : hasBlock store mid = false) (highStored : hasBlock store high = true)
    (above : low ≤ mid) (below : mid ≤ high) : ¬(heights store).OrdConnected := by
  intro gapFree
  have stored := gapFree.out (mem_heights.mpr lowStored) (mem_heights.mpr highStored)
    ⟨Int64.le_iff_toInt_le.mp above, Int64.le_iff_toInt_le.mp below⟩
  rw [mem_heights, missing] at stored
  contradiction

/-- A response with blocks two and three, the hash of block two being wrong: block
three is stored all the same. -/
theorem storing_loop_leaves_gap :
    (heights oneBlockStore).OrdConnected ∧
      ∃ final, (oneBlockReactor.handleBlocksResponse id idleSchedule "peer"
          (some [⟨some 2, [9], [2]⟩, ⟨some 3, [3], [3]⟩])).reactor.blockStore = some final ∧
        hasBlock final 1 = true ∧ hasBlock final 2 = false ∧ hasBlock final 3 = true ∧
        ¬(heights final).OrdConnected := by
  refine ⟨heights_oneBlockStore ▸ Set.ordConnected_singleton, _, rfl, by decide, by decide,
    by decide, ?_⟩
  apply @not_gapFree_of_missing _ _ _ 1 2 3 <;> decide

/-- Blocks two and three with the right hashes continue the store. -/
theorem handleBlocksResponse_gapFree_inOrder :
    ∃ final, (oneBlockReactor.handleBlocksResponse id idleSchedule "peer"
        (some [⟨some 2, [2], [2]⟩, ⟨some 3, [3], [3]⟩])).reactor.blockStore = some final ∧
      Continues (heights oneBlockStore) (heights final) := by
  have gapFree : (heights oneBlockStore).OrdConnected :=
    heights_oneBlockStore ▸ Set.ordConnected_singleton
  apply (handleBlocksResponse_gapFree_iff rfl gapFree idleSchedule "peer" _).mpr
  intro blocks checked isMessage passed
  cases isMessage
  cases passed
  refine ⟨[], [⟨2, [2], [2]⟩, ⟨3, [3], [3]⟩], [], rfl, by simp, ⟨?_, by decide, by simp⟩, ?_⟩
  · refine forall_mem_cons.mpr ⟨?_, forall_mem_singleton.mpr ?_⟩
    · exact ⟨by decide, rfl, rfl, by decide, by decide⟩
    · exact ⟨by decide, rfl, rfl, by decide, by decide⟩
  · intro first isHead
    cases isHead
    rw [heights_oneBlockStore]
    exact Or.inr isGreatest_singleton

end Blockberry.Sync
