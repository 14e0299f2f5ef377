import Blockberry.BlockStore.BadgerDB
import Blockberry.BlockStore.LevelDB
import Blockberry.BlockStore.MemoryPruning

/-!
# What pruning leaves

The outcome of `Prune` for a caller: which heights are stored, what can be loaded, and the reported
number. It is proved for archives that a run with positive heights and distinct hashes reaches.
-/

namespace Blockberry

open PrunableBlockStore ArchiveStore BlockStore

/-- The store and the result after a successful `Prune`. -/
structure Pruned {σ : Type} [PrunableBlockStore σ] (store : σ) (before : Int64) (after : σ)
    (result : PruneResult) : Prop where
  hasBlock_iff : ∀ h, hasBlock after h = true ↔
    hasBlock store h = true ∧
      (before ≤ h ∨ (pruneConfig store).isSome = true ∧
        PruneConfig.shouldKeep (pruneConfig store) h (height store) = true)
  survivor : ∀ h, hasBlock after h = true → ∃ hash data,
    loadBlock store h = some (hash, data) ∧
      loadBlockByHash store hash = some (h, data) ∧
      loadBlock after h = some (hash, data) ∧
      loadBlockByHash after hash = some (h, data)
  removed : ∀ h, hasBlock store h = true → hasBlock after h = false →
    ∃ hash data, loadBlock store h = some (hash, data) ∧
      loadBlock after h = none ∧ loadBlockByHash after hash = none
  prunedCount : result.prunedCount.toInt =
    {h | hasBlock store h = true ∧ hasBlock after h = false}.ncard
  height : height after = height store

/-- What `Prune` does for a limit. -/
structure PruneSpec {σ : Type} [PrunableBlockStore σ] (store : σ) (before : Int64) : Prop where
  succeeds : 1 ≤ before ∧ before ≤ height store →
    ∃ result, (prune store before).2 = .ok result ∧
      Pruned store before (prune store before).1 result
  fails : ¬(1 ≤ before ∧ before ≤ height store) →
    ∃ err, prune store before = (store, .error err)

namespace Archive

variable {a : Archive} {h before : Int64} {hash : Bytes} {assign : Bytes → Int64}

theorem Valid.removes_iff (valid : Valid a) :
    a.Removes before h ↔ a.hasBlock h = true ∧ ¬(before ≤ h ∨ a.kept h = true) := by
  rw [Removes, InWindow, not_or, Int64.not_le, Bool.not_eq_true]
  constructor
  · intro removed
    obtain ⟨⟨-, below, stored⟩, notKept⟩ := removed
    exact ⟨stored, below, notKept⟩
  · intro inStore
    obtain ⟨stored, below, notKept⟩ := inStore
    exact ⟨⟨valid.base_le h stored, below, stored⟩, notKept⟩

theorem Valid.hasBlock_prune_iff (valid : Valid a) (prunable : a.Prunable before) :
    (a.prune before).hasBlock h = true ↔ a.hasBlock h = true ∧ (before ≤ h ∨ a.kept h = true) := by
  by_cases room : a.base < before
  · rw [Archive.hasBlock_prune_iff prunable room, valid.removes_iff]
    tauto
  · rw [prune_of_not fun possible => room possible.2]
    constructor
    · intro stored
      exact ⟨stored, .inl (Int64.le_trans (Int64.not_lt.mp room) (valid.base_le h stored))⟩
    · intro survives
      exact survives.1

theorem Linked.loadBlock_eq (linked : Linked a) (isEntry : a.entry h = some hash) :
    ∃ data, a.record hash = some (h, data) ∧ a.loadBlock h = some (hash, data) := by
  obtain ⟨data, isRecord⟩ := linked.record_of_entry h hash isEntry
  exact ⟨data, isRecord, by simp [loadBlock, isEntry, isRecord]⟩

theorem Linked.survivor (linked : Linked a) (stored : (a.prune before).hasBlock h = true) :
    ∃ hash data, a.loadBlock h = some (hash, data) ∧ a.record hash = some (h, data) ∧
      (a.prune before).loadBlock h = some (hash, data) ∧
      (a.prune before).record hash = some (h, data) := by
  obtain ⟨hash, isEntry⟩ := Option.isSome_iff_exists.mp stored
  obtain ⟨data, isRecord, loads⟩ := (linked.prune before).loadBlock_eq isEntry
  obtain ⟨data', wasRecord, loaded⟩ := linked.loadBlock_eq (entry_prune_eq_some isEntry)
  cases (record_prune_eq_some isRecord).symm.trans wasRecord
  exact ⟨hash, data, loaded, wasRecord, loads, isRecord⟩

theorem Linked.removed (linked : Linked a) (stored : a.hasBlock h = true)
    (gone : (a.prune before).hasBlock h = false) :
    ∃ hash data, a.loadBlock h = some (hash, data) ∧
      (a.prune before).loadBlock h = none ∧ (a.prune before).record hash = none := by
  obtain ⟨hash, isEntry⟩ := Option.isSome_iff_exists.mp stored
  obtain ⟨data, isRecord, loaded⟩ := linked.loadBlock_eq isEntry
  have absent : (a.prune before).entry h = none := by
    rw [← Option.not_isSome_iff_eq_none]
    exact Bool.not_eq_true _ ▸ gone
  refine ⟨hash, data, loaded, by simp [loadBlock, absent], ?_⟩
  rw [Option.eq_none_iff_forall_ne_some]
  intro block found
  cases (record_prune_eq_some found).symm.trans isRecord
  have stillThere := (linked.prune before).entry_of_record hash h data found
  rw [absent] at stillThere
  cases stillThere

end Archive

theorem ArchiveStore.pruneSpec {σ : Type} [ArchiveStore σ] {store : σ} {assign : Bytes → Int64}
    (wellFormed : WellFormed store) (consistent : (archive store).Consistent assign)
    (before : Int64) : PruneSpec store before := by
  have possible : 1 ≤ before ∧ before ≤ height store ↔
      (archive store).Prunable before := by
    have one : 1 ≤ before ↔ 0 < before := by
      rw [Int64.le_iff_toInt_le, Int64.lt_iff_toInt_lt]
      exact Iff.rfl
    rw [Archive.Prunable, height_eq, one]
  constructor
  · intro inRange
    have prunable := possible.mp inRange
    obtain ⟨afterWellFormed, after, result, isOk, count⟩ :=
      prune_succeeds store before wellFormed prunable
    refine ⟨result, isOk, ?_⟩
    constructor
    · intro h
      rw [hasBlock_eq, hasBlock_eq, height_eq, pruneConfig_eq, after,
        consistent.valid.hasBlock_prune_iff prunable, Archive.kept, PruneConfig.keeps,
        Bool.and_eq_true]
    · intro h stored
      rw [hasBlock_eq, after] at stored
      simp only [loadBlock_eq _ wellFormed, loadBlock_eq _ afterWellFormed, loadBlockByHash_eq,
        after]
      exact consistent.linked.survivor stored
    · intro h stored gone
      rw [hasBlock_eq] at stored gone
      rw [after] at gone
      simp only [loadBlock_eq _ wellFormed, loadBlock_eq _ afterWellFormed, loadBlockByHash_eq,
        after]
      exact consistent.linked.removed stored gone
    · rw [count]
      congr 2
      ext h
      simp only [Set.mem_ofPred_eq, hasBlock_eq, after, consistent.valid.removes_iff,
        ← Bool.not_eq_true, consistent.valid.hasBlock_prune_iff prunable]
      tauto
    · rw [height_eq, height_eq, after, Archive.height_prune]
  · intro outOfRange
    exact prune_fails store before fun prunable => outOfRange (possible.mpr prunable)

theorem ArchiveStore.pruneSpec_after (σ : Type) [ArchiveStore σ] {ops : List StoreOp}
    (positive : ∀ op ∈ ops, op.Positive) (distinct : DistinctHashes ops) (before : Int64) :
    PruneSpec (Run.after StoreOp.step (new : σ) ops) before := by
  obtain ⟨assign, assigned⟩ := distinct.exists_assign
  obtain ⟨wellFormed, same⟩ := archive_after (σ := σ) wellFormed_new positive
  have consistent := (Archive.consistent_empty assign).after positive assigned (checked σ)
  rw [← archive_new (σ := σ), ← same] at consistent
  exact pruneSpec wellFormed consistent before

/-- After every run with positive heights and distinct hashes, `Prune` of each of the
three stores removes exactly the blocks below the limit that the configuration does not
keep. -/
theorem prune_removes_exactly (ops : List StoreOp) (positive : ∀ op ∈ ops, op.Positive)
    (distinct : DistinctHashes ops) (before : Int64) :
    PruneSpec (Run.after StoreOp.step (new : PrunableMemoryBlockStore) ops) before ∧
      PruneSpec (Run.after StoreOp.step (new : LevelDBBlockStore) ops) before ∧
      PruneSpec (Run.after StoreOp.step (new : BadgerDBBlockStore) ops) before :=
  ⟨pruneSpec_after _ positive distinct before, pruneSpec_after _ positive distinct before,
    pruneSpec_after _ positive distinct before⟩

/-- Three blocks, the first of which is a checkpoint and is kept. -/
theorem prune_removes_exactly_checkpoint :
    PruneSpec (Run.after StoreOp.step (new : PrunableMemoryBlockStore)
        [.saveBlock 2 [7] [1], .saveBlock 3 [8] [2], .saveBlock 9 [9] [3],
          .setPruneConfig (some ⟨.default, 1, 2, 0⟩)]) 5 ∧
      PruneSpec (Run.after StoreOp.step (new : LevelDBBlockStore)
        [.saveBlock 2 [7] [1], .saveBlock 3 [8] [2], .saveBlock 9 [9] [3],
          .setPruneConfig (some ⟨.default, 1, 2, 0⟩)]) 5 ∧
      PruneSpec (Run.after StoreOp.step (new : BadgerDBBlockStore)
        [.saveBlock 2 [7] [1], .saveBlock 3 [8] [2], .saveBlock 9 [9] [3],
          .setPruneConfig (some ⟨.default, 1, 2, 0⟩)]) 5 :=
  prune_removes_exactly _ (by decide) (distinctHashes_of_nodup (by decide)) 5

end Blockberry
