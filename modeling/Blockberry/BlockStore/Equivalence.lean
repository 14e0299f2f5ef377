import Blockberry.BlockStore.BadgerDB
import Blockberry.BlockStore.LevelDB
import Blockberry.BlockStore.MemoryPruning

/-!
# The three block stores side by side

The same calls on a fresh in-memory, LevelDB and Badger store. Only the in-memory store refuses a
hash that it already has at another height. As long as no call does that, the three hold the same
archive.
-/

namespace Blockberry

open PrunableBlockStore ArchiveStore BlockStore

namespace Archive

variable {a : Archive} {op : StoreOp}

theorem run_checked_eq (noClash : NoClash a op) : a.run true op = a.run false op := by
  cases op with
  | saveBlock h hash data =>
    rcases noClash with stored | fresh
    · simp [run, save, stored]
    · simp [run, save, fresh]
  | prune | setPruneConfig => rfl

theorem run_of_clash (clash : ¬NoClash a op) :
    (a.run true op).2 = false ∧ (a.run false op).2 = true := by
  cases op with
  | saveBlock h hash data =>
    have free : a.hasBlock h = false :=
      Bool.eq_false_of_not_eq_true fun stored => clash (.inl stored)
    have known : (a.record hash).isSome = true :=
      Option.isSome_iff_ne_none.mpr fun fresh => clash (.inr fresh)
    simp [run, save, free, known]
  | prune | setPruneConfig => exact absurd trivial clash

end Archive

/-- Readers of the two stores get the same answers. -/
structure Agree {σ τ : Type} [PrunableBlockStore σ] [PrunableBlockStore τ] (left : σ) (right : τ) :
    Prop where
  loadBlock : ∀ h, loadBlock left h = loadBlock right h
  loadBlockByHash : ∀ hash, loadBlockByHash left hash = loadBlockByHash right hash
  hasBlock : ∀ h, hasBlock left h = hasBlock right h
  height : height left = height right
  base : base left = base right

section Pairs

variable {σ τ : Type} [ArchiveStore σ] [ArchiveStore τ] {left : σ} {right : τ} {op : StoreOp}

structure SameArchive (left : σ) (right : τ) : Prop where
  left_wellFormed : WellFormed left
  right_wellFormed : WellFormed right
  archive_eq : archive left = archive right

namespace SameArchive

theorem agree (same : SameArchive left right) : Agree left right where
  loadBlock h := by
    rw [loadBlock_eq left same.left_wellFormed, loadBlock_eq right same.right_wellFormed,
      same.archive_eq]
  loadBlockByHash hash := by rw [loadBlockByHash_eq, loadBlockByHash_eq, same.archive_eq]
  hasBlock h := by rw [hasBlock_eq, hasBlock_eq, same.archive_eq]
  height := by rw [height_eq, height_eq, same.archive_eq]
  base := by rw [base_eq, base_eq, same.archive_eq]

variable (same : SameArchive left right) (leftChecked : checked σ = true)
  (rightUnchecked : checked τ = false) (positive : op.Positive)

include same leftChecked rightUnchecked positive

theorem step_of_noClash (noClash : (archive left).NoClash op) :
    SameArchive (op.step left) (op.step right) ∧ (op.run left).2 = (op.run right).2 := by
  obtain ⟨leftKept, leftRun⟩ := run_spec same.left_wellFormed positive
  obtain ⟨rightKept, rightRun⟩ := run_spec same.right_wellFormed positive
  rw [leftChecked, Archive.run_checked_eq noClash, same.archive_eq] at leftRun
  rw [rightUnchecked, ← leftRun] at rightRun
  exact ⟨⟨leftKept, rightKept, (congrArg Prod.fst rightRun).symm⟩,
    (congrArg Prod.snd rightRun).symm⟩

theorem run_ne_of_clash (clash : ¬(archive left).NoClash op) :
    (op.run left).2 ≠ (op.run right).2 := by
  have leftRun := congrArg Prod.snd (run_spec same.left_wellFormed positive).2
  have rightRun := congrArg Prod.snd (run_spec same.right_wellFormed positive).2
  rw [leftChecked] at leftRun
  rw [rightUnchecked, ← same.archive_eq] at rightRun
  obtain ⟨refused, accepted⟩ := Archive.run_of_clash clash
  rw [leftRun, rightRun, refused, accepted]
  exact Bool.false_ne_true

end SameArchive

end Pairs

structure Backends where
  memory : PrunableMemoryBlockStore
  levelDB : LevelDBBlockStore
  badgerDB : BadgerDBBlockStore

namespace Backends

def new : Backends where
  memory := ArchiveStore.new
  levelDB := ArchiveStore.new
  badgerDB := ArchiveStore.new

def step (b : Backends) (op : StoreOp) : Backends where
  memory := op.step b.memory
  levelDB := op.step b.levelDB
  badgerDB := op.step b.badgerDB

/-- The call succeeds on all stores or on none, and readers cannot tell them apart
afterwards. -/
structure SameOutcome (b : Backends) (op : StoreOp) : Prop where
  levelDB_ok : (op.run b.memory).2 = (op.run b.levelDB).2
  badgerDB_ok : (op.run b.memory).2 = (op.run b.badgerDB).2
  levelDB : Agree (op.step b.memory) (op.step b.levelDB)
  badgerDB : Agree (op.step b.memory) (op.step b.badgerDB)

/-- The call does not save a block at a free height under a hash that is stored. -/
def FreshHash (b : Backends) : StoreOp → Prop
  | .saveBlock h hash _ =>
    hasBlock b.memory h = true ∨ loadBlockByHash b.memory hash = none
  | _ => True

structure InStep (b : Backends) : Prop where
  levelDB : SameArchive b.memory b.levelDB
  badgerDB : SameArchive b.memory b.badgerDB

theorem inStep_new : InStep new where
  levelDB := ⟨wellFormed_new, wellFormed_new, archive_new.trans archive_new.symm⟩
  badgerDB := ⟨wellFormed_new, wellFormed_new, archive_new.trans archive_new.symm⟩

variable {b : Backends} {op : StoreOp}

theorem freshHash_iff : FreshHash b op ↔ (archive b.memory).NoClash op := by
  cases op with
  | saveBlock h hash data =>
    simp only [FreshHash, Archive.NoClash, hasBlock_eq, loadBlockByHash_eq]
  | prune | setPruneConfig => exact Iff.rfl

theorem InStep.sameOutcome_iff (inStep : InStep b) (positive : op.Positive) :
    SameOutcome b op ↔ FreshHash b op := by
  rw [freshHash_iff]
  constructor
  · intro outcome
    by_contra clash
    exact inStep.levelDB.run_ne_of_clash rfl rfl positive clash outcome.levelDB_ok
  · intro noClash
    obtain ⟨levelDB, levelDB_ok⟩ := inStep.levelDB.step_of_noClash rfl rfl positive noClash
    obtain ⟨badgerDB, badgerDB_ok⟩ := inStep.badgerDB.step_of_noClash rfl rfl positive noClash
    exact ⟨levelDB_ok, badgerDB_ok, levelDB.agree, badgerDB.agree⟩

theorem InStep.step (inStep : InStep b) (positive : op.Positive) (fresh : FreshHash b op) :
    InStep (b.step op) where
  levelDB := (inStep.levelDB.step_of_noClash rfl rfl positive (freshHash_iff.mp fresh)).1
  badgerDB := (inStep.badgerDB.step_of_noClash rfl rfl positive (freshHash_iff.mp fresh)).1

theorem InStep.everyStep_iff (inStep : InStep b) {ops : List StoreOp}
    (positive : ∀ op ∈ ops, op.Positive) :
    Run.EveryStep Backends.step SameOutcome b ops ↔ Run.EveryStep Backends.step FreshHash b ops :=
  Run.everyStep_iff_of_forall inStep
    (fun _ _ inStep isPositive => inStep.sameOutcome_iff isPositive)
    (fun _ _ inStep isPositive fresh => inStep.step isPositive fresh) positive

/-- In a run with positive heights the stores behave alike in every call exactly if no
call saves a block at a free height under a hash that is stored. -/
theorem sameOutcome_iff_freshHash (ops : List StoreOp) (positive : ∀ op ∈ ops, op.Positive) :
    Run.EveryStep step SameOutcome new ops ↔ Run.EveryStep step FreshHash new ops :=
  inStep_new.everyStep_iff positive

/-- One block is saved and pruned after a second one. -/
theorem sameOutcome_iff_freshHash_prune :
    Run.EveryStep step SameOutcome new
      [.saveBlock 1 [7] [1], .saveBlock 2 [8] [2], .prune 2, .setPruneConfig none] :=
  (sameOutcome_iff_freshHash _ (by decide)).mpr
    ⟨.inr (by decide +kernel), .inr (by decide +kernel), trivial, trivial, trivial⟩

/-- The hash of the first block is saved again at the next height. -/
theorem hash_at_two_heights_diverges :
    ¬Run.EveryStep step SameOutcome new [.saveBlock 1 [7] [1], .saveBlock 2 [7] [2]] := by
  intro every
  have same := every.2.1.levelDB_ok
  revert same
  decide +kernel

end Backends

end Blockberry
