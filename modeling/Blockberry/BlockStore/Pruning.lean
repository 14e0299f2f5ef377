import Blockberry.BlockStore.Interface

/-!
# Pruning of block stores

The configuration that says which blocks are kept, the results of `Prune`, and the part
of the interface that prunable stores add. A configuration is a pointer in the source,
here an `Option`.
-/

namespace Blockberry

inductive PruneStrategy where
  | nothing
  | everything
  | default
  | custom
  | other (name : String)
  deriving DecidableEq, Repr

structure PruneConfig where
  strategy : PruneStrategy
  keepRecent : Int64
  keepEvery : Int64
  interval : Int
  deriving DecidableEq, Repr

namespace PruneConfig

def shouldKeep : Option PruneConfig → Int64 → Int64 → Bool
  | none, _, _ => true
  | some c, height, currentHeight =>
    if c.strategy = .nothing then true
    else if 0 < c.keepRecent ∧ currentHeight - c.keepRecent < height then true
    else if c.strategy = .default ∧ 0 < c.keepEvery then height % c.keepEvery == 0
    else false

def calculatePruneTarget : Option PruneConfig → Int64 → Int64
  | none, _ => 0
  | some c, currentHeight =>
    if c.strategy = .nothing then 0
    else if currentHeight - c.keepRecent < 1 then 0
    else currentHeight - c.keepRecent

def validate : Option PruneConfig → Option String
  | none => none
  | some c =>
    match c.strategy with
    | .other _ => some "invalid prune strategy"
    | _ =>
      if c.keepRecent < 0 then some "keep_recent cannot be negative"
      else if c.keepEvery < 0 then some "keep_every cannot be negative"
      else if c.interval < 0 then some "interval cannot be negative"
      else none

/-- How the stores ask: a store without a configuration keeps nothing. -/
def keeps (cfg : Option PruneConfig) (height currentHeight : Int64) : Bool :=
  cfg.isSome && shouldKeep cfg height currentHeight

end PruneConfig

inductive PruneError where
  | invalidPruneHeight
  | pruneHeightTooHigh
  | pruningInProgress
  deriving DecidableEq, Repr

/-- `PruneResult` without the time that pruning took. -/
structure PruneResult where
  prunedCount : Int64
  newBase : Int64
  bytesFreed : Int64
  deriving DecidableEq, Repr

/-- The interface of the stores that can be pruned. -/
class PrunableBlockStore (σ : Type) extends BlockStore σ where
  loadBlockByHash : σ → Bytes → Option (Int64 × Bytes)
  base : σ → Int64
  prune : σ → Int64 → σ × Except PruneError PruneResult
  pruneConfig : σ → Option PruneConfig
  setPruneConfig : σ → Option PruneConfig → σ

/-- The calls that change the blocks of a store. -/
inductive StoreOp where
  | saveBlock (height : Int64) (hash data : Bytes)
  | prune (beforeHeight : Int64)
  | setPruneConfig (cfg : Option PruneConfig)
  deriving DecidableEq, Repr

namespace StoreOp

open PrunableBlockStore

/-- One call, and whether it succeeds. -/
def run {σ : Type} [PrunableBlockStore σ] (store : σ) : StoreOp → σ × Bool
  | saveBlock height hash data =>
    ((BlockStore.saveBlock store height hash data).1,
      (BlockStore.saveBlock store height hash data).2.isNone)
  | prune beforeHeight =>
    ((PrunableBlockStore.prune store beforeHeight).1,
      (PrunableBlockStore.prune store beforeHeight).2.isOk)
  | setPruneConfig cfg => (PrunableBlockStore.setPruneConfig store cfg, true)

def step {σ : Type} [PrunableBlockStore σ] (store : σ) (op : StoreOp) : σ := (op.run store).1

def Positive : StoreOp → Prop
  | saveBlock height _ _ => 0 < height
  | _ => True

instance (op : StoreOp) : Decidable op.Positive :=
  match op with
  | saveBlock height _ _ => inferInstanceAs (Decidable (0 < height))
  | prune _ => isTrue trivial
  | setPruneConfig _ => isTrue trivial

end StoreOp

/-- The lowest kept height of those visited, or `newBase` if all kept ones are above. -/
def lowestKept (kept : Int64 → Bool) (newBase : Int64) (visited : List Int64) : Int64 :=
  visited.foldl (fun newBase height =>
    if kept height ∧ height < newBase then height else newBase) newBase

variable (kept : Int64 → Bool)

theorem lowestKept_cons (newBase height : Int64) (visited : List Int64) :
    lowestKept kept newBase (height :: visited) =
      lowestKept kept (if kept height ∧ height < newBase then height else newBase) visited := rfl

theorem lowestKept_concat (newBase h : Int64) (visited : List Int64) :
    lowestKept kept newBase (visited ++ [h]) =
      if kept h ∧ h < lowestKept kept newBase visited then h
      else lowestKept kept newBase visited := by
  rw [lowestKept, List.foldl_append]
  rfl

theorem lowestKept_le (newBase : Int64) (visited : List Int64) :
    lowestKept kept newBase visited ≤ newBase := by
  induction visited generalizing newBase with
  | nil => exact Int64.le_refl _
  | cons height visited ih =>
    rw [lowestKept_cons]
    split
    next lower => exact Int64.le_trans (ih _) (Int64.le_of_lt lower.2)
    next => exact ih _

theorem lowestKept_le_of_mem {kept : Int64 → Bool} {newBase height : Int64}
    {visited : List Int64} (member : height ∈ visited) (isKept : kept height = true) :
    lowestKept kept newBase visited ≤ height := by
  induction visited generalizing newBase with
  | nil => cases member
  | cons first visited ih =>
    rw [lowestKept_cons]
    rcases List.mem_cons.mp member with rfl | later
    · split
      next => exact lowestKept_le _ _ _
      next notLower =>
        have above : newBase ≤ height := by
          rw [← Int64.not_lt]
          exact fun lower => notLower ⟨isKept, lower⟩
        exact Int64.le_trans (lowestKept_le _ _ _) above
    · exact ih later

theorem lowestKept_eq_or_mem (newBase : Int64) (visited : List Int64) :
    lowestKept kept newBase visited = newBase ∨ lowestKept kept newBase visited ∈ visited ∧
        kept (lowestKept kept newBase visited) = true := by
  induction visited generalizing newBase with
  | nil => exact .inl rfl
  | cons height visited ih =>
    rw [lowestKept_cons]
    split
    next lower =>
      rcases ih height with same | ⟨member, isKept⟩
      · rw [same]
        exact .inr ⟨List.mem_cons_self, lower.1⟩
      · exact .inr ⟨List.mem_cons_of_mem _ member, isKept⟩
    next =>
      rcases ih newBase with same | ⟨member, isKept⟩
      · exact .inl same
      · exact .inr ⟨List.mem_cons_of_mem _ member, isKept⟩

end Blockberry
