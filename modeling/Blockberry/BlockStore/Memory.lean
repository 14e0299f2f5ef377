import Blockberry.Lib.FiniteMap
import Blockberry.BlockStore.Interface

/-!
# The in-memory block store

`MemoryBlockStore` keeps the blocks by height, an index from hashes to heights, and the greatest
height saved; what saving does not read is left out. Its invariants are fields. A `FlakyStore` is
the same store above storage that refuses the writes of some heights; it stands for every pattern
of failing `SaveBlock` calls.
-/

namespace Blockberry

open LawfulBlockStore Finmap Option

structure BlockEntry where
  hash : Bytes
  data : Bytes
  deriving DecidableEq, Repr

structure MemoryBlockStore where
  blocks : Finmap fun _ : Int64 => BlockEntry
  byHash : Finmap fun _ : Bytes => Int64
  height : Int64
  byHash_of_block : ∀ h entry, blocks.lookup h = some entry →
    byHash.lookup entry.hash = some h
  block_of_byHash : ∀ hash h, byHash.lookup hash = some h →
    ∃ entry, blocks.lookup h = some entry ∧ entry.hash = hash
  le_height : ∀ h ∈ blocks, h ≤ height
  height_nonneg : 0 ≤ height
  height_stored : height = 0 ∨ height ∈ blocks

namespace MemoryBlockStore

def empty : MemoryBlockStore where
  blocks := ∅
  byHash := ∅
  height := 0
  byHash_of_block := by simp
  block_of_byHash := by simp
  le_height := fun _ stored => absurd stored notMem_empty
  height_nonneg := by decide
  height_stored := Or.inl rfl

variable (m : MemoryBlockStore)

def hasBlock (height : Int64) : Bool := decide (height ∈ m.blocks)

def loadBlock (height : Int64) : Option (Bytes × Bytes) :=
  (m.blocks.lookup height).map fun entry => (entry.hash, entry.data)

theorem byHash_eq_none {height : Int64} {hash : Bytes} (free : height ∉ m.blocks)
    (noClash : ∀ existingHeight ∈ m.byHash.lookup hash, existingHeight = height) :
    m.byHash.lookup hash = none := by
  apply eq_none_iff_forall_not_mem.mpr
  intro existingHeight indexed
  rcases m.block_of_byHash hash existingHeight indexed with ⟨entry, found, -⟩
  exact free (noClash existingHeight indexed ▸ mem_of_lookup_eq_some found)

/-- The writes at the end of `SaveBlock`, with the invariants re-established. -/
def put (height : Int64) (hash data : Bytes) (free : height ∉ m.blocks)
    (noClash : ∀ existingHeight ∈ m.byHash.lookup hash, existingHeight = height) :
    MemoryBlockStore where
  blocks := m.blocks.insert height ⟨hash, data⟩
  byHash := m.byHash.insert hash height
  height := if height > m.height then height else m.height
  byHash_of_block := by
    intro h entry found
    by_cases same : h = height
    · subst same
      rw [lookup_insert] at found
      cases found
      exact lookup_insert _
    · rw [lookup_insert_of_ne _ same] at found
      have indexed := m.byHash_of_block h entry found
      have otherHash : entry.hash ≠ hash := by
        intro equal
        rw [equal, m.byHash_eq_none free noClash] at indexed
        contradiction
      rw [lookup_insert_of_ne _ otherHash]
      exact indexed
  block_of_byHash := by
    intro other h indexed
    by_cases same : other = hash
    · subst same
      rw [lookup_insert] at indexed
      cases indexed
      exact ⟨_, lookup_insert _, rfl⟩
    · rw [lookup_insert_of_ne _ same] at indexed
      rcases m.block_of_byHash other h indexed with ⟨entry, found, sameHash⟩
      have otherHeight : h ≠ height := by
        intro equal
        exact free (equal ▸ mem_of_lookup_eq_some found)
      exact ⟨entry, by rw [lookup_insert_of_ne _ otherHeight]; exact found, sameHash⟩
  le_height := by
    intro h stored
    rcases mem_insert.mp stored with rfl | earlier
    · split
      next => exact Int64.le_refl _
      next notAbove => exact Int64.not_lt.mp notAbove
    · split
      next above => exact Int64.le_trans (m.le_height h earlier) (Int64.le_of_lt above)
      next => exact m.le_height h earlier
  height_nonneg := by
    split
    next above => exact Int64.le_trans m.height_nonneg (Int64.le_of_lt above)
    next => exact m.height_nonneg
  height_stored := by
    split
    next => exact Or.inr (mem_insert.mpr (Or.inl rfl))
    next =>
      rcases m.height_stored with zero | stored
      · exact Or.inl zero
      · exact Or.inr (mem_insert.mpr (Or.inr stored))

def saveBlock (height : Int64) (hash data : Bytes) : MemoryBlockStore × Option StoreError :=
  if stored : height ∈ m.blocks then (m, some .blockExists)
  else
    match indexed : m.byHash.lookup hash with
    | some existingHeight =>
      if same : existingHeight ≠ height then (m, some (.hashExists existingHeight))
      else (m.put height hash data stored (by simp_all), none)
    | none => (m.put height hash data stored (by simp [indexed]), none)

variable {m : MemoryBlockStore}

theorem saveBlock_of_stored {height : Int64} {hash data : Bytes} (stored : height ∈ m.blocks) :
    m.saveBlock height hash data = (m, some .blockExists) := by
  simp [saveBlock, stored]

theorem saveBlock_of_indexed {height existingHeight : Int64}
    {hash data : Bytes} (free : height ∉ m.blocks)
    (indexed : m.byHash.lookup hash = some existingHeight) :
    m.saveBlock height hash data = (m, some (.hashExists existingHeight)) := by
  have different : existingHeight ≠ height := by
    rintro rfl
    rcases m.block_of_byHash hash existingHeight indexed with ⟨entry, found, -⟩
    exact free (mem_of_lookup_eq_some found)
  simp only [saveBlock, dif_neg free]
  split
  next other indexedAt =>
    cases indexed.symm.trans indexedAt
    rw [dif_pos different]
  next absent => simp [indexed] at absent

theorem saveBlock_of_fresh {height : Int64} {hash data : Bytes}
    (free : height ∉ m.blocks) (fresh : m.byHash.lookup hash = none) :
    m.saveBlock height hash data = (m.put height hash data free (by simp [fresh]), none) := by
  simp only [saveBlock, dif_neg free]
  split
  next indexedAt => simp [fresh] at indexedAt
  next => rfl

theorem saveBlock_cases (m : MemoryBlockStore) (height : Int64) (hash data : Bytes) :
    (∃ err, (hasBlock m height = true ∨ (m.byHash.lookup hash).isSome = true) ∧
        m.saveBlock height hash data = (m, some err)) ∨
      ∃ (free : height ∉ m.blocks) (fresh : m.byHash.lookup hash = none),
        m.saveBlock height hash data = (m.put height hash data free (by simp [fresh]), none) := by
  by_cases stored : height ∈ m.blocks
  · exact Or.inl ⟨_, Or.inl (by simp [hasBlock, stored]), saveBlock_of_stored stored⟩
  · rcases eq_none_or_eq_some (m.byHash.lookup hash) with
      fresh | ⟨existingHeight, indexed⟩
    · exact Or.inr ⟨stored, fresh, saveBlock_of_fresh stored fresh⟩
    · exact Or.inl ⟨_, Or.inr (by simp [indexed]), saveBlock_of_indexed stored indexed⟩

instance : LawfulBlockStore MemoryBlockStore where
  saveBlock := saveBlock
  loadBlock := loadBlock
  hasBlock := hasBlock
  height := height
  hashKnown m hash := (m.byHash.lookup hash).isSome
  available _ _ := true
  saveBlock_ok_iff := by
    intro m height hash data
    rcases saveBlock_cases m height hash data with ⟨err, taken, saved⟩ | ⟨free, fresh, saved⟩
    · rcases taken with stored | indexed
      · simp [saved, stored]
      · simp [saved, indexed]
    · simp [saved, hasBlock, free, fresh]
  saveBlock_failed := by
    intro m height hash data failed
    rcases saveBlock_cases m height hash data with ⟨err, taken, saved⟩ | ⟨free, fresh, saved⟩
    · rw [saved]
    · exact absurd (by rw [saved]) failed
  available_saveBlock _ _ _ _ := rfl
  loadBlock_saveBlock := by
    intro m height hash data ok query
    rcases saveBlock_cases m height hash data with ⟨err, taken, saved⟩ | ⟨free, fresh, saved⟩
    · simp [saved] at ok
    · rw [saved]
      by_cases same : query = height
      · subst same
        simp [loadBlock, put]
      · simp [loadBlock, put, same, lookup_insert_of_ne]
  hashKnown_saveBlock := by
    intro m height hash data ok query
    rcases saveBlock_cases m height hash data with ⟨err, taken, saved⟩ | ⟨free, fresh, saved⟩
    · simp [saved] at ok
    · rw [saved]
      by_cases same : query = hash
      · subst same
        simp [put]
      · simp [put, same, lookup_insert_of_ne]
  height_saveBlock := by
    intro m height hash data ok
    rcases saveBlock_cases m height hash data with ⟨err, taken, saved⟩ | ⟨free, fresh, saved⟩
    · simp [saved] at ok
    · rw [saved]
      rfl
  hasBlock_eq m query := by
    rw [hasBlock, loadBlock, isSome_map, ← Bool.decide_coe (lookup _ _).isSome]
    exact decide_eq_decide.mpr lookup_isSome.symm
  le_height m query stored := m.le_height query (by simpa [hasBlock] using stored)
  height_nonneg := height_nonneg
  height_stored m := by simpa [hasBlock] using m.height_stored

theorem height_eq_of_hash_eq {h h' : Int64} {hash data data' : Bytes}
    (found : BlockStore.loadBlock m h = some (hash, data))
    (found' : BlockStore.loadBlock m h' = some (hash, data')) : h = h' := by
  have indexed : ∀ {k : Int64} {content : Bytes}, m.loadBlock k = some (hash, content) →
      m.byHash.lookup hash = some k := by
    intro k content loaded
    rcases map_eq_some_iff.mp loaded with ⟨entry, stored, same⟩
    cases same
    exact m.byHash_of_block k entry stored
  exact some.inj ((indexed found).symm.trans (indexed found'))

theorem exists_of_hashKnown {hash : Bytes} (known : hashKnown m hash = true) :
    ∃ h data, BlockStore.loadBlock m h = some (hash, data) := by
  rcases isSome_iff_exists.mp known with ⟨h, indexed⟩
  rcases m.block_of_byHash hash h indexed with ⟨entry, found, rfl⟩
  exact ⟨h, entry.data, by
    change m.loadBlock h = _
    rw [loadBlock, found]
    rfl⟩

theorem heights_empty : heights empty = ∅ := by
  apply Set.eq_empty_of_forall_notMem
  rintro h ⟨k, stored, -⟩
  change decide (k ∈ empty.blocks) = true at stored
  exact absurd (of_decide_eq_true stored) notMem_empty

end MemoryBlockStore

/-- A memory store above storage whose writes fail as `outcome` says. -/
structure FlakyStore where
  memory : MemoryBlockStore
  outcome : Int64 → Option StoreError

namespace FlakyStore

def saveBlock (s : FlakyStore) (height : Int64) (hash data : Bytes) :
    FlakyStore × Option StoreError :=
  match s.outcome height with
  | some err => (s, some err)
  | none =>
    let (memory, err) := s.memory.saveBlock height hash data
    ({ s with memory }, err)

theorem saveBlock_cases (s : FlakyStore) (height : Int64) (hash data : Bytes) :
    (∃ err, s.outcome height = some err ∧ s.saveBlock height hash data = (s, some err)) ∨
      s.outcome height = none ∧ s.saveBlock height hash data =
          ({ s with memory := (BlockStore.saveBlock s.memory height hash data).1 },
            (BlockStore.saveBlock s.memory height hash data).2) := by
  simp only [saveBlock]
  cases s.outcome height with
  | some err => exact Or.inl ⟨err, rfl, rfl⟩
  | none => exact Or.inr ⟨rfl, rfl⟩

open LawfulBlockStore in
instance : LawfulBlockStore FlakyStore where
  saveBlock := saveBlock
  loadBlock s := s.memory.loadBlock
  hasBlock s := s.memory.hasBlock
  height s := s.memory.height
  hashKnown s := hashKnown s.memory
  available s height := (s.outcome height).isNone
  saveBlock_ok_iff := by
    intro s height hash data
    rcases s.saveBlock_cases height hash data with ⟨err, fails, saved⟩ | ⟨works, saved⟩
    · simp [saved, fails]
    · rw [saved, works]
      exact saveBlock_ok_iff s.memory height hash data
  saveBlock_failed := by
    intro s height hash data failed
    rcases s.saveBlock_cases height hash data with ⟨err, fails, saved⟩ | ⟨works, saved⟩
    · rw [saved]
    · rw [saved] at failed ⊢
      rw [saveBlock_failed s.memory height hash data failed]
  available_saveBlock := by
    intro s height hash data
    rcases s.saveBlock_cases height hash data with ⟨err, fails, saved⟩ | ⟨works, saved⟩
    · rw [saved]
    · rw [saved]
  loadBlock_saveBlock := by
    intro s height hash data ok
    rcases s.saveBlock_cases height hash data with ⟨err, fails, saved⟩ | ⟨works, saved⟩
    · simp [saved] at ok
    · rw [saved] at ok ⊢
      exact loadBlock_saveBlock s.memory height hash data ok
  hashKnown_saveBlock := by
    intro s height hash data ok
    rcases s.saveBlock_cases height hash data with ⟨err, fails, saved⟩ | ⟨works, saved⟩
    · simp [saved] at ok
    · rw [saved] at ok ⊢
      exact hashKnown_saveBlock s.memory height hash data ok
  height_saveBlock := by
    intro s height hash data ok
    rcases s.saveBlock_cases height hash data with ⟨err, fails, saved⟩ | ⟨works, saved⟩
    · simp [saved] at ok
    · rw [saved] at ok ⊢
      exact height_saveBlock s.memory height hash data ok
  hasBlock_eq s := hasBlock_eq s.memory
  le_height s := le_height s.memory
  height_nonneg s := s.memory.height_nonneg
  height_stored s := height_stored s.memory

end FlakyStore

end Blockberry
