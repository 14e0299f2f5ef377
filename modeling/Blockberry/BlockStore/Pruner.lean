import Blockberry.BlockStore.MemoryPruning

/-!
# The background pruner

The pruner has a configuration of its own, from which it takes how far to prune. Which
blocks below that limit are kept is decided by the configuration of the store, which
nobody sets to that of the pruner.
-/

namespace Blockberry

open PrunableBlockStore PruneConfig BlockStore

/-- `BackgroundPruner`, without the goroutine and the callbacks around `doPrune`. -/
structure BackgroundPruner (σ : Type) where
  store : σ
  cfg : Option PruneConfig

def newBackgroundPruner {σ : Type} (store : σ) (cfg : Option PruneConfig) : BackgroundPruner σ :=
  ⟨store, cfg⟩

namespace BackgroundPruner

section Interface

variable {σ : Type} [PrunableBlockStore σ]

variable (p : BackgroundPruner σ)

def target : Int64 :=
  calculatePruneTarget p.cfg (height p.store)

def doPrune : BackgroundPruner σ × Except PruneError PruneResult :=
  if height p.store = 0 then
    (p, .ok { prunedCount := 0, newBase := 0, bytesFreed := 0 })
  else if p.target ≤ 0 then
    (p, .ok { prunedCount := 0, newBase := 0, bytesFreed := 0 })
  else
    let outcome := prune p.store p.target
    ({ p with store := outcome.1 }, outcome.2)

def pruneNow : BackgroundPruner σ × Except PruneError PruneResult :=
  p.doPrune

/-- `PruneNow` deletes no block that the configuration of the pruner keeps. -/
def KeepsOwnBlocks : Prop :=
  ∀ h, hasBlock p.store h = true →
    shouldKeep p.cfg h (height p.store) = true →
      hasBlock p.pruneNow.1.store h = true

/-- The configuration of the store keeps what that of the pruner keeps, as far as the
pruner prunes. -/
def StoreKeeps : Prop :=
  ∀ h, hasBlock p.store h = true → base p.store ≤ h → h < p.target → 0 < p.target →
    shouldKeep p.cfg h (height p.store) = true →
      (pruneConfig p.store).isSome = true ∧
        shouldKeep (pruneConfig p.store) h (height p.store) = true

theorem pruneNow_of_target_nonpos {p : BackgroundPruner σ} (nothing : p.target ≤ 0) :
    p.pruneNow.1 = p := by
  unfold pruneNow doPrune
  split
  next => rfl
  next => rfl

theorem pruneNow_of_target_pos {p : BackgroundPruner σ} (pos : 0 < p.target)
    (bound : p.target ≤ height p.store) :
    p.pruneNow.1 = { p with store := (prune p.store p.target).1 } := by
  have started : ¬height p.store = 0 := by
    intro zero
    rw [zero] at bound
    exact Int64.lt_irrefl (Int64.lt_of_lt_of_le pos bound)
  rw [pruneNow, doPrune, if_neg started, if_neg (Int64.not_le.mpr pos)]

end Interface

theorem keepRecent_nonneg {cfg : PruneConfig} (valid : validate (some cfg) = none) :
    0 ≤ cfg.keepRecent := by
  have notNegative : ¬cfg.keepRecent < 0 := by
    intro negative
    cases strategy : cfg.strategy with
    | nothing | everything | default | custom => simp [validate, strategy, negative] at valid
    | other name => simp [validate, strategy] at valid
  exact Int64.not_lt.mp notNegative

theorem calculatePruneTarget_le {cfg : PruneConfig} (valid : validate (some cfg) = none)
    {height : Int64} (nonneg : 0 ≤ height) : calculatePruneTarget (some cfg) height ≤ height := by
  have keepRecent := keepRecent_nonneg valid
  change (if cfg.strategy = .nothing then 0
    else if height - cfg.keepRecent < 1 then 0 else height - cfg.keepRecent) ≤ height
  split
  next => exact nonneg
  split
  next => exact nonneg
  rw [Int64.le_iff_toInt_le] at nonneg keepRecent ⊢
  rw [Int64.toInt_zero] at nonneg keepRecent
  have upper := height.toInt_lt
  have upper' := cfg.keepRecent.toInt_lt
  rw [Machine.toInt_sub_of_inRange ⟨by omega, by omega⟩]
  omega

/-- Over an in-memory store, `PruneNow` of a pruner with a valid configuration keeps the blocks that
this configuration keeps exactly if the configuration of the store does. -/
theorem keepsOwnBlocks_iff_storeKeeps (m : PrunableMemoryBlockStore) (cfg : PruneConfig)
    (valid : validate (some cfg) = none) :
    KeepsOwnBlocks (newBackgroundPruner m (some cfg)) ↔
      StoreKeeps (newBackgroundPruner m (some cfg)) := by
  generalize isPruner : newBackgroundPruner m (some cfg) = p
  have bound : p.target ≤ p.store.height := by
    rw [← isPruner]
    exact calculatePruneTarget_le valid m.height_nonneg
  by_cases pos : 0 < p.target
  · have prunable : p.store.archive.Prunable p.target := ⟨pos, bound⟩
    have after : p.pruneNow.1.store = (p.store.prune p.target).1 := by
      rw [pruneNow_of_target_pos pos bound]
      rfl
    have hasBlock_after (h : Int64) : BlockStore.hasBlock p.pruneNow.1.store h =
        (p.store.archive.prune p.target).hasBlock h := by
      rw [after, ← PrunableMemoryBlockStore.archive_prune]
      exact (PrunableMemoryBlockStore.hasBlock_archive _ h).symm
    have hasBlock_before (h : Int64) : BlockStore.hasBlock p.store h =
        p.store.archive.hasBlock h := (p.store.hasBlock_archive h).symm
    by_cases room : p.store.archive.base < p.target
    · constructor
      · intro keeps h stored lower below _ own
        have survives := keeps h stored own
        rw [hasBlock_after, Archive.hasBlock_prune_iff prunable room] at survives
        rw [hasBlock_before] at stored
        have isKept : p.store.archive.kept h = true := by
          by_contra notKept
          exact survives.2 ⟨⟨lower, below, stored⟩, Bool.eq_false_of_not_eq_true notKept⟩
        rwa [Archive.kept, PruneConfig.keeps, Bool.and_eq_true] at isKept
      · intro storeKeeps h stored own
        rw [hasBlock_after, Archive.hasBlock_prune_iff prunable room, ← hasBlock_before]
        refine ⟨stored, ?_⟩
        intro removed
        obtain ⟨⟨lower, below, -⟩, notKept⟩ := removed
        have isKept := storeKeeps h stored lower below pos own
        rw [Archive.kept, PruneConfig.keeps] at notKept
        rw [← Bool.and_eq_true] at isKept
        exact Bool.false_ne_true (notKept.symm.trans isKept)
    · apply iff_of_true
      · intro h stored _
        rw [hasBlock_after, Archive.prune_of_not fun possible => room possible.2,
          ← hasBlock_before]
        exact stored
      · intro h _ lower below
        exact absurd (Int64.lt_of_le_of_lt lower below) room
  · apply iff_of_true
    · intro h stored _
      rwa [pruneNow_of_target_nonpos (Int64.not_lt.mp pos)]
    · intro h _ _ _ isPos
      exact absurd isPos pos

/-- The store has the configuration of the pruner, with checkpoints at even heights. -/
theorem keepsOwnBlocks_iff_storeKeeps_same :
    KeepsOwnBlocks (newBackgroundPruner
      (Run.after StoreOp.step (PrunableMemoryBlockStore.new)
        [.saveBlock 2 [7] [1], .saveBlock 5 [8] [2],
          .setPruneConfig (some ⟨.default, 1, 2, 0⟩)]) (some ⟨.default, 1, 2, 0⟩)) :=
  (keepsOwnBlocks_iff_storeKeeps _ _ (by decide)).mpr fun _ _ _ _ _ own => ⟨rfl, own⟩

/-- A checkpoint of the pruner is deleted from a store without a configuration. -/
theorem pruneNow_deletes_checkpoint :
    ¬KeepsOwnBlocks (newBackgroundPruner
      (Run.after StoreOp.step (PrunableMemoryBlockStore.new)
        [.saveBlock 2 [7] [1], .saveBlock 5 [8] [2]]) (some ⟨.default, 1, 2, 0⟩)) := by
  intro keeps
  have survives := keeps 2 (by decide +kernel) (by decide +kernel)
  revert survives
  decide +kernel

end BackgroundPruner

end Blockberry
