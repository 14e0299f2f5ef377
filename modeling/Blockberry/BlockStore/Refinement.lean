import Blockberry.BlockStore.Invariants

/-!
# Stores that implement an archive

The class of the concrete stores that implement an archive. What is proved of archives
then holds of each of these stores.
-/

namespace Blockberry

open PrunableBlockStore StoreOp

/-- A store that implements an archive. `checked` is whether it refuses to save a hash
that it knows. -/
class ArchiveStore (σ : Type) extends PrunableBlockStore σ where
  checked : Bool
  new : σ
  WellFormed : σ → Prop
  archive : σ → Archive
  wellFormed_new : WellFormed new
  archive_new : archive new = Archive.empty
  loadBlock_eq : ∀ store, WellFormed store → ∀ h,
    loadBlock store h = (archive store).loadBlock h
  loadBlockByHash_eq : ∀ store hash, loadBlockByHash store hash = (archive store).record hash
  hasBlock_eq : ∀ store h, hasBlock store h = (archive store).hasBlock h
  height_eq : ∀ store, height store = (archive store).height
  base_eq : ∀ store, base store = (archive store).base
  pruneConfig_eq : ∀ store, pruneConfig store = (archive store).pruneCfg
  saveBlock_spec : ∀ store h hash data, WellFormed store → 0 < h →
    WellFormed (saveBlock store h hash data).1 ∧
      (archive (saveBlock store h hash data).1, (saveBlock store h hash data).2.isNone) =
        (archive store).save checked h hash data
  prune_fails : ∀ store before, ¬(archive store).Prunable before →
    ∃ err, prune store before = (store, .error err)
  prune_succeeds : ∀ store before, WellFormed store → (archive store).Prunable before →
    WellFormed (prune store before).1 ∧
      archive (prune store before).1 = (archive store).prune before ∧
      ∃ result, (prune store before).2 = .ok result ∧
        result.prunedCount.toInt = {h | (archive store).Removes before h}.ncard
  setPruneConfig_spec : ∀ store cfg, WellFormed store →
    WellFormed (setPruneConfig store cfg) ∧
      archive (setPruneConfig store cfg) = { archive store with pruneCfg := cfg }

namespace ArchiveStore

variable {σ : Type} [ArchiveStore σ] {store : σ} (wellFormed : WellFormed store)

include wellFormed

theorem run_spec {op : StoreOp} (positive : op.Positive) : WellFormed (op.step store) ∧
      (archive (op.step store), (op.run store).2) = (archive store).run (checked σ) op := by
  cases op with
  | saveBlock h hash data => exact saveBlock_spec store h hash data wellFormed positive
  | prune before =>
    by_cases prunable : (archive store).Prunable before
    · obtain ⟨kept, same, result, isOk, -⟩ := prune_succeeds store before wellFormed prunable
      refine ⟨kept, ?_⟩
      simp only [step, run, Archive.run, same, isOk]
      simp [prunable, Except.isOk, Except.toBool]
    · obtain ⟨err, fails⟩ := prune_fails store before prunable
      simp only [step, run, Archive.run, fails]
      refine ⟨wellFormed, ?_⟩
      rw [Archive.prune_of_not fun possible => prunable possible.1]
      simp [prunable, Except.isOk, Except.toBool]
  | setPruneConfig cfg =>
    obtain ⟨kept, same⟩ := setPruneConfig_spec store cfg wellFormed
    exact ⟨kept, Prod.ext same rfl⟩

theorem archive_step {op : StoreOp} (positive : op.Positive) :
    archive (op.step store) = (archive store).step (checked σ) op :=
  congrArg Prod.fst (run_spec wellFormed positive).2

theorem archive_after {ops : List StoreOp} (positive : ∀ op ∈ ops, op.Positive) :
    WellFormed (Run.after step store ops) ∧ archive (Run.after step store ops) =
        Run.after (Archive.step (checked σ)) (archive store) ops := by
  induction ops generalizing store with
  | nil => exact ⟨wellFormed, rfl⟩
  | cons op ops ih =>
    have first := positive op List.mem_cons_self
    have next := ih (run_spec wellFormed first).1
      fun other member => positive other (List.mem_cons_of_mem _ member)
    rw [archive_step wellFormed first] at next
    exact next

end ArchiveStore

end Blockberry
