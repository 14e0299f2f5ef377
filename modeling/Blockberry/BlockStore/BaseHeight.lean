import Blockberry.BlockStore.LevelDB
import Blockberry.BlockStore.MemoryPruning

/-!
# The base height

`Base` is meant to be the earliest height with a block. Saving keeps it so. `Prune`
takes the first height that it keeps below the limit, and the limit itself if there is
none, without asking whether a block is stored there.
-/

namespace Blockberry

open PrunableBlockStore ArchiveStore Archive BlockStore

/-- If a block is stored, the base is the least height with one. -/
def BaseIsLeast {σ : Type} [PrunableBlockStore σ] (store : σ) : Prop :=
  ∀ h, hasBlock store h = true →
    hasBlock store (base store) = true ∧ base store ≤ h

/-- A `Prune` that moves the base finds a block at the limit, or one below that it keeps. -/
def ReachesBlock {σ : Type} [PrunableBlockStore σ] (store : σ) : StoreOp → Prop
  | .prune before =>
    0 < before → before ≤ height store → base store < before →
      hasBlock store before = true ∨
        ∃ h, base store ≤ h ∧ h < before ∧ hasBlock store h = true ∧
          PruneConfig.keeps (pruneConfig store) h (height store) = true
  | _ => True

namespace Archive

variable {a : Archive} {before : Int64}

/-- The base is stored, unless there is nothing yet. -/
def BaseStored (a : Archive) : Prop := a.base = 0 ∨ a.hasBlock a.base = true

def EndsAtBlock (a : Archive) (before : Int64) : Prop :=
  a.Prunable before → a.base < before →
    a.hasBlock before = true ∨ ∃ h, a.InWindow before h ∧ a.kept h = true

theorem Valid.baseStored_iff (valid : Valid a) :
    BaseStored a ↔ ∀ h, a.hasBlock h = true → a.hasBlock a.base = true ∧ a.base ≤ h := by
  constructor
  · intro baseStored h stored
    have base_le := valid.base_le h stored
    exact ⟨baseStored.resolve_left (valid.base_ne_zero stored), base_le⟩
  · intro least
    rcases valid.height_stored with zero | stored
    · exact .inl (valid.started.mpr zero)
    · exact .inr (least a.height stored).1

theorem BaseStored.put (baseStored : BaseStored a) (h : Int64) (hash data : Bytes) :
    BaseStored (a.put h hash data) := by
  refine .inr ?_
  rw [hasBlock_put]
  rcases a.base_put_eq h hash data with ⟨isNew, -⟩ | ⟨isOld, ne, -⟩
  · simp [isNew]
  · simp [isOld, baseStored.resolve_left ne]

theorem Valid.baseStored_prune_iff (valid : Valid a) (baseStored : BaseStored a) :
    BaseStored (a.prune before) ↔ EndsAtBlock a before := by
  by_cases possible : a.Prunable before ∧ a.base < before
  · obtain ⟨prunable, room⟩ := possible
    have first := a.firstKept_firstKept before
    have unchanged {h : Int64} (stays : ¬a.Removes before h) :
        (a.prune before).hasBlock h = true ↔ a.hasBlock h = true := by
      rw [hasBlock_prune_iff prunable room]
      exact and_iff_left stays
    rw [BaseStored, base_prune prunable room first,
      or_iff_right (valid.firstKept_ne_zero prunable room)]
    constructor
    · intro stored _ _
      rcases first.reached with isLimit | keptBelow
      · rw [isLimit, unchanged fun removed => Int64.lt_irrefl removed.1.2.1] at stored
        exact .inl stored
      · exact .inr ⟨_, keptBelow⟩
    · intro ends
      rcases first.reached with isLimit | ⟨inWindow, isKept⟩
      · rw [isLimit, unchanged fun removed => Int64.lt_irrefl removed.1.2.1]
        rcases ends prunable room with stored | ⟨h, inWindow, isKept⟩
        · exact stored
        · have below := first.le_kept h inWindow isKept
          rw [isLimit] at below
          exact absurd (Int64.lt_of_lt_of_le inWindow.2.1 below) Int64.lt_irrefl
      · rw [unchanged fun removed => Bool.false_ne_true (removed.2.symm.trans isKept)]
        exact inWindow.2.2
  · rw [prune_of_not possible]
    exact iff_of_true baseStored fun prunable room => absurd ⟨prunable, room⟩ possible

end Archive

namespace ArchiveStore

variable {σ : Type} [ArchiveStore σ] {store : σ} {op : StoreOp}

theorem baseIsLeast_iff (valid : (archive store).Valid) :
    BaseIsLeast store ↔ (archive store).BaseStored := by
  rw [valid.baseStored_iff]
  simp only [BaseIsLeast, hasBlock_eq, base_eq]

theorem reachesBlock_prune_iff {before : Int64} :
    ReachesBlock store (.prune before) ↔ (archive store).EndsAtBlock before := by
  simp only [ReachesBlock, EndsAtBlock, Prunable, InWindow, kept,
    hasBlock_eq, base_eq, height_eq, pruneConfig_eq, and_assoc, and_imp]

theorem baseIsLeast_step_iff (wellFormed : WellFormed store) (valid : (archive store).Valid)
    (least : BaseIsLeast store) (positive : op.Positive) :
    BaseIsLeast (op.step store) ↔ ReachesBlock store op := by
  have after := archive_step wellFormed positive
  have validAfter := valid.step positive (checked σ)
  have baseStored := (baseIsLeast_iff valid).mp least
  rw [baseIsLeast_iff (after ▸ validAfter), after]
  cases op with
  | saveBlock h hash data =>
    refine iff_of_true ?_ trivial
    rcases save_cases (checked σ) (archive store) h hash data with
      refused | ⟨-, -, saved⟩
    · rw [step, run, refused]
      exact baseStored
    · rw [step, run, saved]
      exact baseStored.put h hash data
  | prune before =>
    rw [reachesBlock_prune_iff]
    exact valid.baseStored_prune_iff baseStored
  | setPruneConfig cfg => exact iff_of_true baseStored trivial

theorem everyStep_baseIsLeast_iff (wellFormed : WellFormed store)
    (valid : (archive store).Valid) (least : BaseIsLeast store) {ops : List StoreOp}
    (positive : ∀ op ∈ ops, op.Positive) :
    Run.EveryStep StoreOp.step (fun store op => BaseIsLeast (op.step store)) store ops ↔
      Run.EveryStep StoreOp.step ReachesBlock store ops := by
  let holds (store : σ) : Prop := WellFormed store ∧ (archive store).Valid ∧ BaseIsLeast store
  have initially : holds store := ⟨wellFormed, valid, least⟩
  refine Run.everyStep_iff_of_forall initially ?_ ?_ positive
  · rintro store op ⟨wellFormed, valid, least⟩ isPositive
    exact baseIsLeast_step_iff wellFormed valid least isPositive
  · rintro store op ⟨wellFormed, valid, least⟩ isPositive reaches
    have validAfter := valid.step isPositive (checked σ)
    rw [← archive_step wellFormed isPositive] at validAfter
    exact ⟨(run_spec wellFormed isPositive).1, validAfter,
      (baseIsLeast_step_iff wellFormed valid least isPositive).mpr reaches⟩

theorem everyStep_baseIsLeast_new_iff (σ : Type) [ArchiveStore σ] {ops : List StoreOp}
    (positive : ∀ op ∈ ops, op.Positive) :
    Run.EveryStep StoreOp.step (fun store op => BaseIsLeast (op.step store)) (new : σ) ops ↔
      Run.EveryStep StoreOp.step ReachesBlock (new : σ) ops := by
  have empty : archive (new : σ) = empty := archive_new
  have valid : (archive (new : σ)).Valid := empty ▸ valid_empty
  refine everyStep_baseIsLeast_iff wellFormed_new valid ?_ positive
  rw [baseIsLeast_iff valid, empty]
  exact .inl rfl

end ArchiveStore

/-- In a run with positive heights the base is the least stored height after every call
exactly if every `Prune` ends at a block. -/
theorem baseIsLeast_iff_reachesBlock (ops : List StoreOp) (positive : ∀ op ∈ ops, op.Positive) :
    (Run.EveryStep StoreOp.step (fun store op => BaseIsLeast (op.step store))
        (new : PrunableMemoryBlockStore) ops ↔
      Run.EveryStep StoreOp.step ReachesBlock (new : PrunableMemoryBlockStore) ops) ∧
    (Run.EveryStep StoreOp.step (fun store op => BaseIsLeast (op.step store))
        (new : LevelDBBlockStore) ops ↔
      Run.EveryStep StoreOp.step ReachesBlock (new : LevelDBBlockStore) ops) :=
  ⟨everyStep_baseIsLeast_new_iff _ positive, everyStep_baseIsLeast_new_iff _ positive⟩

/-- A run that prunes up to a stored height. -/
theorem baseIsLeast_iff_reachesBlock_stored :
    Run.EveryStep StoreOp.step (fun store op => BaseIsLeast (op.step store))
        (new : PrunableMemoryBlockStore)
        [.saveBlock 1 [7] [1], .saveBlock 2 [8] [2], .prune 2] ∧
      Run.EveryStep StoreOp.step (fun store op => BaseIsLeast (op.step store))
        (new : LevelDBBlockStore)
        [.saveBlock 1 [7] [1], .saveBlock 2 [8] [2], .prune 2] :=
  ⟨(baseIsLeast_iff_reachesBlock _ (by decide)).1.mpr
      ⟨trivial, trivial, fun _ _ _ => .inl (by decide +kernel), trivial⟩,
    (baseIsLeast_iff_reachesBlock _ (by decide)).2.mpr
      ⟨trivial, trivial, fun _ _ _ => .inl (by decide +kernel), trivial⟩⟩

/-- Pruning into a gap between the stored heights leaves a base without a block. -/
theorem prune_into_gap :
    ¬BaseIsLeast (Run.after StoreOp.step (new : PrunableMemoryBlockStore)
        [.saveBlock 1 [7] [1], .saveBlock 10 [8] [2], .prune 5]) ∧
      ¬BaseIsLeast (Run.after StoreOp.step (new : LevelDBBlockStore)
        [.saveBlock 1 [7] [1], .saveBlock 10 [8] [2], .prune 5]) := by
  constructor
  · intro least
    have atBase := (least 10 (by decide +kernel)).1
    revert atBase
    decide +kernel
  · intro least
    have atBase := (least 10 (by decide +kernel)).1
    revert atBase
    decide +kernel

end Blockberry
