import Blockberry.BlockStore.MemoryPruning

/-!
# The index of hashes

The in-memory store finds a block by its height and by its hash. Along every run of saves
and prunes the two maps are inverse to each other, the base and the height bound the stored
heights, and the height is the greatest one ever saved.
-/

namespace Blockberry

open PrunableBlockStore ArchiveStore PrunableMemoryBlockStore List Archive

section Saved

variable {σ : Type} [PrunableBlockStore σ]

def StoreOp.savedHeight (store : σ) : StoreOp → Option Int64
  | saveBlock height hash data =>
    if (BlockStore.saveBlock store height hash data).2.isNone then some height else none
  | _ => none

def savedHeights : σ → List StoreOp → List Int64
  | _, [] => []
  | store, op :: ops => (op.savedHeight store).toList ++ savedHeights (op.step store) ops

/-- The height of the store is the greatest of some saved ones, and zero without any. -/
def TopsSaved (saved : List Int64) (store : σ) : Prop :=
  saved = [] ∧ BlockStore.height store = 0 ∨
    IsGreatest {h | h ∈ saved} (BlockStore.height store)

end Saved

section Run

variable {σ : Type} [ArchiveStore σ] {store : σ} {saved : List Int64} (tops : TopsSaved saved store)

include tops

/-- A saved block is the greatest saved one, or the greatest one stays. -/
theorem TopsSaved.put {final : σ} {h : Int64} {hash data : Bytes}
    (positive : 0 < h) (isFinal : archive final = (archive store).put h hash data) :
    TopsSaved (saved ++ [h]) final := by
  have height := (archive store).height_put_eq h hash data
  rw [← isFinal, ← height_eq, ← height_eq] at height
  refine .inr ?_
  rcases height with ⟨isNew, above⟩ | ⟨isOld, below⟩
  · rw [isNew]
    refine ⟨mem_append_right _ mem_cons_self, ?_⟩
    intro other member
    rcases mem_append.mp member with earlier | isH
    · rcases tops with ⟨rfl, -⟩ | greatest
      · contradiction
      · exact Int64.le_trans (greatest.2 earlier) above
    · rw [mem_singleton.mp isH]
      exact Int64.le_refl h
  · rw [isOld]
    rcases tops with ⟨-, zero⟩ | greatest
    · rw [zero] at below
      exact absurd (Int64.lt_of_lt_of_le positive below) Int64.lt_irrefl
    · refine ⟨mem_append_left _ greatest.1, ?_⟩
      intro other member
      rcases mem_append.mp member with earlier | isH
      · exact greatest.2 earlier
      · rw [mem_singleton.mp isH]
        exact below

theorem TopsSaved.step (wellFormed : WellFormed store) {op : StoreOp} (positive : op.Positive) :
    TopsSaved (saved ++ (op.savedHeight store).toList) (op.step store) := by
  have same (height : BlockStore.height (op.step store) = BlockStore.height store)
      (none : op.savedHeight store = none) :
      TopsSaved (saved ++ (op.savedHeight store).toList) (op.step store) := by
    rw [none, Option.toList_none, append_nil, TopsSaved, height]
    exact tops
  have outcome := (run_spec wellFormed positive).2
  cases op with
  | saveBlock h hash data =>
    rcases save_cases (checked σ) (archive store) h hash data with
      refused | ⟨-, -, isSaved⟩
    · rw [run, refused, Prod.mk.injEq] at outcome
      refine same ?_ ?_
      · rw [height_eq, outcome.1, height_eq]
      · rw [StoreOp.savedHeight, if_neg]
        exact Bool.not_eq_true _ ▸ outcome.2
    · rw [run, isSaved, Prod.mk.injEq] at outcome
      have ok : (BlockStore.saveBlock store h hash data).2.isNone = true := outcome.2
      rw [StoreOp.savedHeight, if_pos ok]
      exact tops.put positive outcome.1
  | prune before =>
    refine same ?_ rfl
    rw [height_eq, archive_step wellFormed positive, height_eq]
    exact height_prune (archive store) before
  | setPruneConfig cfg =>
    refine same ?_ rfl
    rw [height_eq, archive_step wellFormed positive, height_eq]
    rfl

theorem TopsSaved.after (wellFormed : WellFormed store)
    {ops : List StoreOp} (positive : ∀ op ∈ ops, op.Positive) :
    TopsSaved (saved ++ savedHeights store ops) (Run.after StoreOp.step store ops) := by
  induction ops generalizing saved store with
  | nil =>
    rw [savedHeights, append_nil]
    exact tops
  | cons op ops ih =>
    rcases forall_mem_cons.mp positive with ⟨first, others⟩
    rw [savedHeights, ← append_assoc]
    exact ih (tops.step wellFormed first) (run_spec wellFormed first).1 others

end Run

namespace PrunableMemoryBlockStore

variable {m : PrunableMemoryBlockStore} {h : Int64} {hash data : Bytes}

theorem entry_iff_indexed :
    (m.blocks.lookup h).map BlockEntry.hash = some hash ↔ m.byHash.lookup hash = some h :=
  ⟨indexed_of_entry, entry_of_indexed⟩

theorem loadBlockByHash_iff :
    loadBlockByHash m hash = some (h, data) ↔ BlockStore.loadBlock m h = some (hash, data) := by
  change (m.byHash.lookup hash).map _ = _ ↔ (m.blocks.lookup h).map _ = _
  simp only [Option.map_eq_some_iff, Prod.mk.injEq]
  constructor
  · rintro ⟨_, indexed, rfl, isData⟩
    obtain ⟨entry, found, isHash⟩ := m.block_of_byHash hash _ indexed
    rw [found] at isData
    exact ⟨entry, found, isHash, isData⟩
  · rintro ⟨entry, found, rfl, rfl⟩
    refine ⟨h, m.byHash_of_block h entry found, rfl, ?_⟩
    rw [found]
    rfl

/-- What holds of the store after some heights were saved. -/
structure Indexed (m : PrunableMemoryBlockStore) (saved : List Int64) : Prop where
  inverse : ∀ h hash, (m.blocks.lookup h).map BlockEntry.hash = some hash ↔
    m.byHash.lookup hash = some h
  base_le : ∀ h ∈ m.blocks, base m ≤ h
  le_height : ∀ h ∈ m.blocks, h ≤ m.height
  height_greatest : saved ≠ [] → IsGreatest {h | h ∈ saved} m.height ∧ m.height ∈ m.blocks
  height_unsaved : saved = [] → m.height = 0
  byHash_iff : ∀ hash h data,
    loadBlockByHash m hash = some (h, data) ↔ BlockStore.loadBlock m h = some (hash, data)

theorem mem_blocks_iff : h ∈ m.blocks ↔ m.archive.hasBlock h = true := by
  rw [hasBlock_archive]
  exact decide_eq_true_iff.symm

theorem indexed_of_tops {saved : List Int64} (valid : m.archive.Valid)
    (tops : TopsSaved saved m) (positive : ∀ h ∈ saved, 0 < h) : m.Indexed saved where
  inverse _ _ := entry_iff_indexed
  base_le h stored := valid.base_le h (mem_blocks_iff.mp stored)
  le_height h stored := valid.le_height h (mem_blocks_iff.mp stored)
  height_greatest nonempty := by
    have greatest := tops.resolve_left fun none => nonempty none.1
    refine ⟨greatest, mem_blocks_iff.mpr (valid.height_stored.resolve_left ?_)⟩
    intro zero
    have above := positive m.height greatest.1
    change m.height = 0 at zero
    rw [zero] at above
    exact Int64.lt_irrefl above
  height_unsaved none := by
    rcases tops with ⟨-, zero⟩ | greatest
    · exact zero
    · rw [none] at greatest
      exact absurd greatest.1 not_mem_nil
  byHash_iff _ _ _ := loadBlockByHash_iff

end PrunableMemoryBlockStore

theorem positive_savedHeights {σ : Type} [PrunableBlockStore σ] {store : σ} {ops : List StoreOp}
    (positive : ∀ op ∈ ops, op.Positive) : ∀ h ∈ savedHeights store ops, 0 < h := by
  induction ops generalizing store with
  | nil => exact forall_mem_nil _
  | cons op ops ih =>
    rcases forall_mem_cons.mp positive with ⟨first, others⟩
    intro h member
    rcases mem_append.mp member with now | later
    · cases op with
      | saveBlock height hash data =>
        rw [Option.mem_toList, StoreOp.savedHeight] at now
        split at now
        next =>
          cases now
          exact first
        next => cases now
      | prune | setPruneConfig => cases now
    · exact ih others h later

theorem Archive.Valid.after {a : Archive} (valid : a.Valid) (checked : Bool) {ops : List StoreOp}
    (positive : ∀ op ∈ ops, op.Positive) : (Run.after (Archive.step checked) a ops).Valid := by
  induction ops generalizing a with
  | nil => exact valid
  | cons op ops ih =>
    rcases forall_mem_cons.mp positive with ⟨first, others⟩
    exact ih (valid.step first checked) others

/-- After every sequence of calls with positive heights: heights and hashes are inverse to each
other, base and height bound the stored heights, and the height is the greatest one ever saved,
still stored. -/
theorem memoryBlockStore_indexed (ops : List StoreOp) (positive : ∀ op ∈ ops, op.Positive) :
    (Run.after StoreOp.step PrunableMemoryBlockStore.new ops).Indexed
      (savedHeights PrunableMemoryBlockStore.new ops) := by
  have wellFormed : WellFormed new := wellFormed_new
  have empty : archive new = Archive.empty := archive_new
  have start : TopsSaved [] new := .inl ⟨rfl, rfl⟩
  refine indexed_of_tops ?_ (start.after wellFormed positive)
    (positive_savedHeights positive)
  have isRun := (archive_after wellFormed positive).2
  have valid : Archive.Valid (Run.after (Archive.step (checked PrunableMemoryBlockStore))
      (archive new) ops) := by
    rw [empty]
    exact Archive.valid_empty.after (checked PrunableMemoryBlockStore) positive
  rw [← isRun] at valid
  exact valid

/-- A run that saves three blocks, one of them under a known hash, and prunes. -/
theorem memoryBlockStore_indexed_pruned :
    savedHeights PrunableMemoryBlockStore.new
        [.saveBlock 3 [7] [1], .saveBlock 5 [7] [2], .saveBlock 4 [8] [3], .prune 4] = [3, 4] ∧
      (Run.after StoreOp.step PrunableMemoryBlockStore.new
        [.saveBlock 3 [7] [1], .saveBlock 5 [7] [2], .saveBlock 4 [8] [3], .prune 4]).Indexed
          (savedHeights PrunableMemoryBlockStore.new
            [.saveBlock 3 [7] [1], .saveBlock 5 [7] [2], .saveBlock 4 [8] [3], .prune 4]) :=
  ⟨by decide +kernel, memoryBlockStore_indexed _ (by decide)⟩

end Blockberry
