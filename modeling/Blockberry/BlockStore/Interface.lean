import Blockberry.Types.Basic
import Blockberry.Lib.Machine

/-!
# The block store interface

The reactors use a store through the `BlockStore` interface only. The first class has the
operations they call; the second collects how the in-memory store behaves, as far as proofs about
the reactors need it.
-/

namespace Blockberry

inductive StoreError where
  | blockExists
  | hashExists (existingHeight : Int64)
  | storage (message : String)
  deriving DecidableEq, Repr

/-- The part of the interface that the reactors call. -/
class BlockStore (σ : Type) where
  saveBlock : σ → Int64 → Bytes → Bytes → σ × Option StoreError
  loadBlock : σ → Int64 → Option (Bytes × Bytes)
  hasBlock : σ → Int64 → Bool
  height : σ → Int64

open BlockStore

class LawfulBlockStore (σ : Type) extends BlockStore σ where
  hashKnown : σ → Bytes → Bool
  available : σ → Int64 → Bool
  saveBlock_ok_iff : ∀ (store : σ) (height : Int64) (hash data : Bytes),
    (saveBlock store height hash data).2 = none ↔
      hasBlock store height = false ∧ hashKnown store hash = false ∧
        available store height = true
  saveBlock_failed : ∀ (store : σ) (height : Int64) (hash data : Bytes),
    (saveBlock store height hash data).2 ≠ none →
      (saveBlock store height hash data).1 = store
  available_saveBlock : ∀ (store : σ) (height : Int64) (hash data : Bytes),
    available (saveBlock store height hash data).1 = available store
  loadBlock_saveBlock : ∀ (store : σ) (height : Int64) (hash data : Bytes),
    (saveBlock store height hash data).2 = none → ∀ query,
      loadBlock (saveBlock store height hash data).1 query =
        if query = height then some (hash, data) else loadBlock store query
  hashKnown_saveBlock : ∀ (store : σ) (height : Int64) (hash data : Bytes),
    (saveBlock store height hash data).2 = none → ∀ query,
      hashKnown (saveBlock store height hash data).1 query =
        (query == hash || hashKnown store query)
  height_saveBlock : ∀ (store : σ) (top : Int64) (hash data : Bytes),
    (saveBlock store top hash data).2 = none →
      height (saveBlock store top hash data).1 =
        if top > height store then top else height store
  hasBlock_eq : ∀ (store : σ) (query : Int64),
    hasBlock store query = (loadBlock store query).isSome
  le_height : ∀ (store : σ) (query : Int64),
    hasBlock store query = true → query ≤ height store
  height_nonneg : ∀ store : σ, 0 ≤ height store
  height_stored : ∀ store : σ, height store = 0 ∨ hasBlock store (height store) = true

namespace LawfulBlockStore

variable {σ : Type} [LawfulBlockStore σ] {store : σ} {top : Int64} {hash data : Bytes}

theorem hasBlock_saveBlock (saved : (saveBlock store top hash data).2 = none) (query : Int64) :
    hasBlock (saveBlock store top hash data).1 query = (query == top || hasBlock store query) := by
  rw [hasBlock_eq, hasBlock_eq, loadBlock_saveBlock store top hash data saved]
  by_cases same : query = top <;> simp [same]

theorem height_le_saveBlock (store : σ) (top : Int64) (hash data : Bytes) :
    height store ≤ height (saveBlock store top hash data).1 := by
  by_cases saved : (saveBlock store top hash data).2 = none
  · rw [height_saveBlock store top hash data saved]
    split
    next above => exact Int64.le_of_lt above
    next => exact Int64.le_refl _
  · rw [saveBlock_failed store top hash data saved]
    exact Int64.le_refl _

/-- Heights at which a block is stored, as integers. -/
def heights (store : σ) : Set Int := {h | ∃ k : Int64, hasBlock store k = true ∧ k.toInt = h}

theorem mem_heights {k : Int64} : k.toInt ∈ heights store ↔ hasBlock store k = true := by
  constructor
  · rintro ⟨other, stored, same⟩
    exact Int64.toInt_inj.mp same ▸ stored
  · intro stored
    exact ⟨k, stored, rfl⟩

theorem heights_saveBlock (saved : (saveBlock store top hash data).2 = none) :
    heights (saveBlock store top hash data).1 = insert top.toInt (heights store) := by
  ext h
  constructor
  · rintro ⟨k, stored, rfl⟩
    rw [hasBlock_saveBlock saved] at stored
    by_cases same : k = top
    · exact Or.inl (congrArg Int64.toInt same)
    · exact Or.inr (mem_heights.mpr (by simpa [same] using stored))
  · rintro (rfl | ⟨k, stored, rfl⟩)
    · exact mem_heights.mpr (by rw [hasBlock_saveBlock saved]; simp)
    · exact mem_heights.mpr (by rw [hasBlock_saveBlock saved]; simp [stored])

end LawfulBlockStore

end Blockberry
