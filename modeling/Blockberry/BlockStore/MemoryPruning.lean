import Blockberry.BlockStore.Memory
import Blockberry.BlockStore.Refinement

/-!
# Pruning the in-memory block store

The in-memory store with its base height and its pruning configuration. `Swept` describes the loop
of `Prune`: of the heights visited, exactly those that are not kept are gone from both maps. From
it the store is shown to implement an archive.
-/

namespace Blockberry

open PruneConfig MemoryBlockStore Finmap Option Int64 List Finmap

/-- `MemoryBlockStore` with the fields that pruning uses. -/
structure PrunableMemoryBlockStore extends MemoryBlockStore where
  base : Int64
  pruneCfg : Option PruneConfig

structure MemoryPruneLoop where
  blocks : Finmap fun _ : Int64 => BlockEntry
  byHash : Finmap fun _ : Bytes => Int64
  prunedCount : Int64
  bytesFreed : Int64
  newBase : Int64

def pruneHeight (kept : Int64 → Bool) (loop : MemoryPruneLoop) (height : Int64) :
    MemoryPruneLoop :=
  match loop.blocks.lookup height with
  | none => loop
  | some entry =>
    if kept height then
      { loop with newBase := if height < loop.newBase then height else loop.newBase }
    else
      { blocks := loop.blocks.erase height
        byHash := loop.byHash.erase entry.hash
        prunedCount := loop.prunedCount + 1
        bytesFreed := loop.bytesFreed + Int64.ofNat (entry.data.length + entry.hash.length)
        newBase := loop.newBase }

/-- The heights from `base` up to, and without, `before`. -/
def heightsBetween (base before : Int64) : List Int64 :=
  (range (before.toInt - base.toInt).toNat).map fun offset : Nat =>
    Int64.ofInt (base.toInt + offset)

/-- The heights that a loop has visited and not kept. -/
def gone (kept : Int64 → Bool) (visited : List Int64) (h : Int64) : Bool :=
  decide (h ∈ visited) && !kept h

/-- What the loop has done to a store after some heights. -/
structure Swept (m : MemoryBlockStore) (kept : Int64 → Bool) (before : Int64)
    (visited : List Int64) (loop : MemoryPruneLoop) : Prop where
  blocks : ∀ h, loop.blocks.lookup h =
    if gone kept visited h then none else m.blocks.lookup h
  byHash : ∀ hash, loop.byHash.lookup hash =
    (m.byHash.lookup hash).filter fun h => !gone kept visited h
  prunedCount : loop.prunedCount =
    Int64.ofNat (visited.filter fun h => m.hasBlock h && !kept h).length
  newBase : loop.newBase = lowestKept kept before (visited.filter m.hasBlock)

theorem gone_concat (kept : Int64 → Bool) (visited : List Int64) (h query : Int64) :
    gone kept (visited ++ [h]) query = (gone kept visited query || (query == h && !kept h)) := by
  by_cases same : query = h
  · subst same
    by_cases before : query ∈ visited
    · simp [gone, before]
    · simp [gone, before]
  · simp [gone, same]

theorem MemoryBlockStore.hasBlock_of_lookup {m : MemoryBlockStore} {h : Int64}
    {entry : BlockEntry} (found : m.blocks.lookup h = some entry) : m.hasBlock h = true :=
  decide_eq_true (mem_of_lookup_eq_some found)

namespace Swept

variable {m : MemoryBlockStore} {kept : Int64 → Bool} {before h : Int64}
  {visited : List Int64} {loop : MemoryPruneLoop} (swept : Swept m kept before visited loop)

include swept

theorem skip (absent : m.blocks.lookup h = none) : Swept m kept before (visited ++ [h]) loop := by
  have noBlock : m.hasBlock h = false := decide_eq_false (lookup_eq_none.mp absent)
  constructor
  · intro query
    rw [swept.blocks, gone_concat]
    by_cases same : query = h
    · subst same
      simp [absent]
    · simp [same]
  · intro hash
    rw [swept.byHash]
    rcases eq_none_or_eq_some (m.byHash.lookup hash) with unknown | ⟨other, indexed⟩
    · simp [unknown]
    · obtain ⟨entry, found, -⟩ := m.block_of_byHash hash other indexed
      have different : other ≠ h := by
        rintro rfl
        rw [absent] at found
        cases found
      simp [indexed, filter_some, gone_concat, different]
  · rw [swept.prunedCount]
    simp [noBlock]
  · rw [swept.newBase]
    simp [noBlock]

theorem keep {entry : BlockEntry}
    (found : m.blocks.lookup h = some entry) (isKept : kept h = true) :
    Swept m kept before (visited ++ [h])
      { loop with newBase := if h < loop.newBase then h else loop.newBase } := by
  have stored := hasBlock_of_lookup found
  constructor
  · intro query
    simp [swept.blocks, gone_concat, isKept]
  · intro hash
    simp [swept.byHash, gone_concat, isKept]
  · simp [swept.prunedCount, isKept]
  · simp [swept.newBase, stored, lowestKept_concat, isKept]

theorem remove {entry : BlockEntry}
    (found : m.blocks.lookup h = some entry) (notKept : kept h = false) (bytesFreed : Int64) :
    Swept m kept before (visited ++ [h])
      { blocks := loop.blocks.erase h
        byHash := loop.byHash.erase entry.hash
        prunedCount := loop.prunedCount + 1
        bytesFreed
        newBase := loop.newBase } := by
  have stored := hasBlock_of_lookup found
  constructor
  · intro query
    by_cases same : query = h
    · subst same
      simp [lookup_erase, gone_concat, notKept]
    · rw [lookup_erase_ne same, swept.blocks, gone_concat]
      simp [same]
  · intro hash
    by_cases same : hash = entry.hash
    · subst same
      rw [lookup_erase, m.byHash_of_block h entry found]
      simp [filter_some, gone_concat, notKept]
    · rw [lookup_erase_ne same, swept.byHash]
      rcases eq_none_or_eq_some (m.byHash.lookup hash) with unknown | ⟨other, indexed⟩
      · simp [unknown]
      · obtain ⟨otherEntry, otherFound, otherHash⟩ := m.block_of_byHash hash other indexed
        have different : other ≠ h := by
          rintro rfl
          cases found.symm.trans otherFound
          exact same otherHash.symm
        simp [indexed, filter_some, gone_concat, different]
  · simp [swept.prunedCount, stored, notKept, ofNat_add]
  · simp [swept.newBase, stored, lowestKept_concat, notKept]

theorem pruneHeight (fresh : h ∉ visited) :
    Swept m kept before (visited ++ [h]) (pruneHeight kept loop h) := by
  have unchanged : loop.blocks.lookup h = m.blocks.lookup h := by
    simp [swept.blocks, gone, fresh]
  unfold Blockberry.pruneHeight
  rw [unchanged]
  split
  next absent => exact swept.skip absent
  next entry found =>
    split
    next isKept => exact swept.keep found isKept
    next notKept => exact swept.remove found (Bool.eq_false_of_not_eq_true notKept) _

theorem foldl {rest : List Int64} (nodup : (visited ++ rest).Nodup) :
    Swept m kept before (visited ++ rest) (rest.foldl (Blockberry.pruneHeight kept) loop) := by
  induction rest generalizing visited loop with
  | nil => simpa using swept
  | cons h rest ih =>
    have fresh : h ∉ visited := by
      intro member
      exact (nodup_append.mp nodup).2.2 h member h mem_cons_self rfl
    have next := ih (swept.pruneHeight fresh) (by simpa using nodup)
    simpa using next

end Swept

theorem toInt_heightsBetween {base before : Int64} {offset : Nat}
    (inside : offset < (before.toInt - base.toInt).toNat) :
    (Int64.ofInt (base.toInt + offset)).toInt = base.toInt + offset := by
  have lower := base.le_toInt
  have upper := before.toInt_lt
  exact toInt_ofInt.trans (Machine.wrap_of_inRange ⟨by omega, by omega⟩)

theorem mem_heightsBetween {base before h : Int64} :
    h ∈ heightsBetween base before ↔ base ≤ h ∧ h < before := by
  simp only [heightsBetween, List.mem_map, List.mem_range, le_iff_toInt_le,
    lt_iff_toInt_lt]
  constructor
  · rintro ⟨offset, inside, rfl⟩
    rw [toInt_heightsBetween inside]
    omega
  · rintro ⟨lower, upper⟩
    refine ⟨(h.toInt - base.toInt).toNat, by omega, ?_⟩
    rw [Int.toNat_of_nonneg (by omega), add_sub_cancel, ofInt_toInt]

theorem nodup_heightsBetween (base before : Int64) : (heightsBetween base before).Nodup := by
  refine List.Nodup.map_on ?_ nodup_range
  intro left leftMember right rightMember same
  have values := congrArg toInt same
  rw [toInt_heightsBetween (List.mem_range.mp leftMember),
    toInt_heightsBetween (List.mem_range.mp rightMember)] at values
  omega

namespace Swept

variable {m : MemoryBlockStore} {kept : Int64 → Bool} {before : Int64}
  {visited : List Int64} {loop : MemoryPruneLoop}

theorem lookup_eq_some_iff (swept : Swept m kept before visited loop) {h : Int64}
    {entry : BlockEntry} :
    loop.blocks.lookup h = some entry ↔
      gone kept visited h = false ∧ m.blocks.lookup h = some entry := by
  rw [swept.blocks]
  cases gone kept visited h with
  | false | true => simp

theorem indexed_iff (swept : Swept m kept before visited loop) {hash : Bytes} {h : Int64} :
    loop.byHash.lookup hash = some h ↔
      m.byHash.lookup hash = some h ∧ gone kept visited h = false := by
  rw [swept.byHash, filter_eq_some_iff, Bool.not_eq_true']

/-- The store after the loop, with its invariants re-established. -/
def store (swept : Swept m kept before visited loop) (below : m.height ∉ visited) :
    MemoryBlockStore where
  blocks := loop.blocks
  byHash := loop.byHash
  height := m.height
  byHash_of_block := by
    intro h entry found
    obtain ⟨stays, earlier⟩ := swept.lookup_eq_some_iff.mp found
    exact swept.indexed_iff.mpr ⟨m.byHash_of_block h entry earlier, stays⟩
  block_of_byHash := by
    intro hash h indexed
    obtain ⟨earlier, stays⟩ := swept.indexed_iff.mp indexed
    obtain ⟨entry, found, sameHash⟩ := m.block_of_byHash hash h earlier
    exact ⟨entry, swept.lookup_eq_some_iff.mpr ⟨stays, found⟩, sameHash⟩
  le_height := by
    intro h member
    obtain ⟨entry, found⟩ := mem_iff.mp member
    exact m.le_height h
      (mem_of_lookup_eq_some (swept.lookup_eq_some_iff.mp found).2)
  height_nonneg := m.height_nonneg
  height_stored := by
    rcases m.height_stored with zero | stored
    · exact .inl zero
    · obtain ⟨entry, found⟩ := mem_iff.mp stored
      have stays : gone kept visited m.height = false := by simp [gone, below]
      exact .inr
        (mem_of_lookup_eq_some (swept.lookup_eq_some_iff.mpr ⟨stays, found⟩))

end Swept

namespace PrunableMemoryBlockStore

variable {m : PrunableMemoryBlockStore} {before h : Int64} {hash data : Bytes}

def new : PrunableMemoryBlockStore where
  toMemoryBlockStore := .empty
  base := 0
  pruneCfg := none

def saveBlock (m : PrunableMemoryBlockStore) (height : Int64) (hash data : Bytes) :
    PrunableMemoryBlockStore × Option StoreError :=
  match m.toMemoryBlockStore.saveBlock height hash data with
  | (_, some err) => (m, some err)
  | (saved, none) =>
    ({ toMemoryBlockStore := saved
       base := if m.base = 0 ∨ height < m.base then height else m.base
       pruneCfg := m.pruneCfg }, none)

def loadBlockByHash (m : PrunableMemoryBlockStore) (hash : Bytes) : Option (Int64 × Bytes) :=
  (m.byHash.lookup hash).map fun h => (h, ((m.blocks.lookup h).map BlockEntry.data).getD [])

def kept (m : PrunableMemoryBlockStore) (h : Int64) : Bool := keeps m.pruneCfg h m.height

def pruneLoop (m : PrunableMemoryBlockStore) (before : Int64) : MemoryPruneLoop :=
  (heightsBetween m.base before).foldl (pruneHeight m.kept) ⟨m.blocks, m.byHash, 0, 0, before⟩

theorem swept_pruneLoop (m : PrunableMemoryBlockStore) (before : Int64) :
    Swept m.toMemoryBlockStore m.kept before (heightsBetween m.base before)
      (m.pruneLoop before) := by
  have initial : Swept m.toMemoryBlockStore m.kept before []
      ⟨m.blocks, m.byHash, 0, 0, before⟩ := by
    constructor
    · intro h
      simp [gone]
    · intro hash
      rcases eq_none_or_eq_some (m.byHash.lookup hash) with unknown | ⟨h, indexed⟩
      · simp [unknown]
      · simp [indexed, filter_some, gone]
    · rfl
    · rfl
  exact initial.foldl (nodup_heightsBetween m.base before)

theorem height_notMem (bound : ¬m.height < before) : m.height ∉ heightsBetween m.base before := by
  intro member
  exact bound (mem_heightsBetween.mp member).2

def prune (m : PrunableMemoryBlockStore) (before : Int64) :
    PrunableMemoryBlockStore × Except PruneError PruneResult :=
  if before ≤ 0 then (m, .error .invalidPruneHeight)
  else if bound : m.height < before then (m, .error .pruneHeightTooHigh)
  else if before ≤ m.base then
    (m, .ok { prunedCount := 0, newBase := m.base, bytesFreed := 0 })
  else
    let loop := m.pruneLoop before
    let base := if m.base < loop.newBase then loop.newBase else m.base
    ({ toMemoryBlockStore := (m.swept_pruneLoop before).store (height_notMem bound)
       base
       pruneCfg := m.pruneCfg },
      .ok { prunedCount := loop.prunedCount, newBase := base, bytesFreed := loop.bytesFreed })

def archive (m : PrunableMemoryBlockStore) : Archive where
  entry h := (m.blocks.lookup h).map BlockEntry.hash
  record := m.loadBlockByHash
  height := m.height
  base := m.base
  pruneCfg := m.pruneCfg

theorem hasBlock_archive (m : PrunableMemoryBlockStore) (h : Int64) :
    m.archive.hasBlock h = m.toMemoryBlockStore.hasBlock h := by
  rw [Archive.hasBlock, archive, isSome_map, Bool.eq_iff_iff]
  exact lookup_isSome.trans decide_eq_true_iff.symm

theorem isSome_record (m : PrunableMemoryBlockStore) (hash : Bytes) :
    (m.archive.record hash).isSome = (m.byHash.lookup hash).isSome := isSome_map

theorem record_of_lookup {entry : BlockEntry} (found : m.blocks.lookup h = some entry) :
    m.archive.record entry.hash = some (h, entry.data) := by
  simp [archive, loadBlockByHash, m.byHash_of_block h entry found, found]

theorem loadBlock_archive (m : PrunableMemoryBlockStore) (h : Int64) :
    m.toMemoryBlockStore.loadBlock h = m.archive.loadBlock h := by
  rcases eq_none_or_eq_some (m.blocks.lookup h) with absent | ⟨entry, found⟩
  · simp [loadBlock, Archive.loadBlock, archive, absent]
  · have isEntry : m.archive.entry h = some entry.hash := by simp [archive, found]
    simp [loadBlock, Archive.loadBlock, isEntry, record_of_lookup found, found]

def put (m : PrunableMemoryBlockStore) (h : Int64) (hash data : Bytes)
    (free : h ∉ m.blocks) (fresh : m.byHash.lookup hash = none) : PrunableMemoryBlockStore where
  toMemoryBlockStore := m.toMemoryBlockStore.put h hash data free (by simp [fresh])
  base := if m.base = 0 ∨ h < m.base then h else m.base
  pruneCfg := m.pruneCfg

theorem archive_put (free : h ∉ m.blocks) (fresh : m.byHash.lookup hash = none) :
    (m.put h hash data free fresh).archive = m.archive.put h hash data := by
  ext1
  · funext query
    by_cases same : query = h
    · subst same
      simp [archive, put, MemoryBlockStore.put, Archive.put]
    · simp [archive, put, MemoryBlockStore.put, Archive.put, same, lookup_insert_of_ne]
  · funext query
    by_cases same : query = hash
    · subst same
      simp [archive, put, MemoryBlockStore.put, Archive.put, loadBlockByHash]
    · have other : ∀ k, m.byHash.lookup query = some k → k ≠ h := by
        rintro k indexed rfl
        obtain ⟨entry, found, -⟩ := m.block_of_byHash query k indexed
        exact free (mem_of_lookup_eq_some found)
      rcases eq_none_or_eq_some (m.byHash.lookup query) with unknown | ⟨k, indexed⟩
      · simp [archive, put, MemoryBlockStore.put, Archive.put, loadBlockByHash, same,
          lookup_insert_of_ne, unknown]
      · simp [archive, put, MemoryBlockStore.put, Archive.put, loadBlockByHash, same,
          lookup_insert_of_ne, indexed, other k indexed]
  · rfl
  · rfl
  · rfl

theorem saveBlock_cases (m : PrunableMemoryBlockStore) (h : Int64) (hash data : Bytes) :
    (∃ err, (m.archive.hasBlock h = true ∨ (m.archive.record hash).isSome = true) ∧
        m.saveBlock h hash data = (m, some err)) ∨
      ∃ (free : h ∉ m.blocks) (fresh : m.byHash.lookup hash = none),
        m.saveBlock h hash data = (m.put h hash data free fresh, none) := by
  rw [hasBlock_archive, isSome_record]
  rcases m.toMemoryBlockStore.saveBlock_cases h hash data with
    ⟨err, taken, saved⟩ | ⟨free, fresh, saved⟩
  · exact .inl ⟨err, taken, by rw [saveBlock, saved]⟩
  · exact .inr ⟨free, fresh, by rw [saveBlock, saved]; rfl⟩

theorem saveBlock_archive (m : PrunableMemoryBlockStore) (h : Int64) (hash data : Bytes) :
    ((m.saveBlock h hash data).1.archive, (m.saveBlock h hash data).2.isNone) =
      m.archive.save true h hash data := by
  rcases m.saveBlock_cases h hash data with ⟨err, taken, refused⟩ | ⟨free, fresh, saved⟩
  · rw [refused, Archive.save]
    rcases taken with stored | known
    · simp [stored]
    · simp [known]
  · have noBlock : m.archive.hasBlock h = false := by
      rw [hasBlock_archive]
      exact decide_eq_false free
    have unknown : (m.archive.record hash).isSome = false := by simp [isSome_record, fresh]
    rw [saved, Archive.save, archive_put]
    simp [noBlock, unknown]

/-- The heights that the loop visits and finds stored. -/
def visited (m : PrunableMemoryBlockStore) (before : Int64) : List Int64 :=
  (heightsBetween m.base before).filter m.toMemoryBlockStore.hasBlock

theorem mem_visited : h ∈ m.visited before ↔ m.archive.InWindow before h := by
  rw [visited, mem_filter, mem_heightsBetween, ← hasBlock_archive]
  exact and_assoc

theorem firstKept_newBase (m : PrunableMemoryBlockStore) (before : Int64) :
    m.archive.FirstKept before (m.pruneLoop before).newBase := by
  rw [(m.swept_pruneLoop before).newBase]
  exact Archive.firstKept_lowestKept fun h => mem_visited

theorem removes_iff : m.archive.Removes before h ↔
    gone m.kept (heightsBetween m.base before) h = true ∧ m.archive.hasBlock h = true := by
  rw [Archive.Removes, Archive.InWindow, gone, Bool.and_eq_true, decide_eq_true_iff,
    mem_heightsBetween, Bool.not_eq_true']
  change _ ∧ m.kept h = false ↔ _
  tauto

/-- The store after the loop of `Prune`. -/
def swept (m : PrunableMemoryBlockStore) (before : Int64) (bound : ¬m.height < before) :
    PrunableMemoryBlockStore where
  toMemoryBlockStore := (m.swept_pruneLoop before).store (height_notMem bound)
  base := (m.pruneLoop before).newBase
  pruneCfg := m.pruneCfg

theorem entry_swept (bound : ¬m.height < before) (h : Int64) :
    (m.swept before bound).archive.entry h =
      if gone m.kept (heightsBetween m.base before) h then none else m.archive.entry h := by
  change ((m.pruneLoop before).blocks.lookup h).map BlockEntry.hash = _
  rw [(m.swept_pruneLoop before).blocks]
  split
  next => rfl
  next => rfl

theorem record_swept (bound : ¬m.height < before) {hash : Bytes} {k : Int64}
    (indexed : m.byHash.lookup hash = some k) :
    (m.swept before bound).archive.record hash =
      if gone m.kept (heightsBetween m.base before) k then none else m.archive.record hash := by
  have swept := m.swept_pruneLoop before
  change ((m.pruneLoop before).byHash.lookup hash).map
    (fun h => (h, (((m.pruneLoop before).blocks.lookup h).map BlockEntry.data).getD [])) = _
  rw [swept.byHash, indexed, filter_some]
  split
  next stays =>
    rw [Bool.not_eq_true'] at stays
    simp [archive, loadBlockByHash, indexed, stays, swept.blocks]
  next isGone =>
    simp only [Bool.not_eq_true', Bool.not_eq_false] at isGone
    rw [isGone]
    rfl

theorem indexed_of_entry (isEntry : m.archive.entry h = some hash) :
    m.byHash.lookup hash = some h := by
  obtain ⟨entry, found, rfl⟩ := map_eq_some_iff.mp isEntry
  exact m.byHash_of_block h entry found

theorem entry_of_indexed (indexed : m.byHash.lookup hash = some h) :
    m.archive.entry h = some hash := by
  obtain ⟨entry, found, rfl⟩ := m.block_of_byHash hash h indexed
  simp [archive, found]

variable (prunable : m.archive.Prunable before)

include prunable

theorem archive_swept (room : m.archive.base < before)
    (bound : ¬m.height < before) : (m.swept before bound).archive = m.archive.prune before := by
  refine Archive.eq_prune prunable room (Archive.eq_erase ?_ ?_ ?_ ?_ rfl rfl)
    (m.firstKept_newBase before)
  · intro h removed
    rw [entry_swept, (removes_iff.mp removed).1]
    rfl
  · intro h stays
    rw [entry_swept]
    split
    next isGone =>
      have absent : ¬m.archive.hasBlock h = true := fun stored =>
        stays (removes_iff.mpr ⟨isGone, stored⟩)
      exact (not_isSome_iff_eq_none.mp absent).symm
    next => rfl
  · intro h hash removed isEntry
    rw [record_swept bound (indexed_of_entry isEntry), (removes_iff.mp removed).1]
    rfl
  · intro hash stays
    rcases eq_none_or_eq_some (m.byHash.lookup hash) with unknown | ⟨k, indexed⟩
    · have gone : (m.pruneLoop before).byHash.lookup hash = none := by
        rw [(m.swept_pruneLoop before).byHash, unknown, filter_none]
      change ((m.pruneLoop before).byHash.lookup hash).map _ = (m.byHash.lookup hash).map _
      rw [gone, unknown]
      rfl
    · have isEntry := entry_of_indexed indexed
      rw [record_swept bound indexed]
      split
      next isGone =>
        have stored : m.archive.hasBlock k = true := by simp [Archive.hasBlock, isEntry]
        exact absurd isEntry (stays k (removes_iff.mpr ⟨isGone, stored⟩))
      next => rfl

theorem prune_of_room (room : m.archive.base < before) (bound : ¬m.height < before) :
    m.prune before = (m.swept before bound, .ok
          { prunedCount := (m.pruneLoop before).prunedCount
            newBase := (m.pruneLoop before).newBase
            bytesFreed := (m.pruneLoop before).bytesFreed }) := by
  have base : (if m.base < (m.pruneLoop before).newBase then (m.pruneLoop before).newBase
      else m.base) = (m.pruneLoop before).newBase := by
    split
    next => rfl
    next notAbove =>
      exact Int64.le_antisymm ((m.firstKept_newBase before).base_le room) (Int64.not_lt.mp notAbove)
  have notYet : ¬before ≤ m.base := Int64.not_le.mpr room
  simp only [prune, if_neg (Int64.not_le.mpr prunable.1), dif_neg bound, if_neg notYet, base, swept]

theorem prune_of_no_room (noRoom : ¬m.archive.base < before) :
    m.prune before = (m, .ok { prunedCount := 0, newBase := m.base, bytesFreed := 0 }) := by
  have bound : ¬m.height < before := Int64.not_lt.mpr prunable.2
  have closed : before ≤ m.base := Int64.not_lt.mp noRoom
  simp only [prune, if_neg (Int64.not_le.mpr prunable.1), dif_neg bound, if_pos closed]

omit prunable

theorem prune_of_not_prunable (impossible : ¬m.archive.Prunable before) :
    ∃ err, m.prune before = (m, .error err) := by
  unfold prune
  split
  next => exact ⟨_, rfl⟩
  next pos =>
    split
    next => exact ⟨_, rfl⟩
    next bound => exact absurd ⟨Int64.not_le.mp pos, Int64.not_lt.mp bound⟩ impossible

theorem archive_prune (m : PrunableMemoryBlockStore) (before : Int64) :
    (m.prune before).1.archive = m.archive.prune before := by
  by_cases prunable : m.archive.Prunable before
  · by_cases room : m.archive.base < before
    · have bound : ¬m.height < before := Int64.not_lt.mpr prunable.2
      rw [prune_of_room prunable room bound]
      exact archive_swept prunable room bound
    · have impossible : ¬(m.archive.Prunable before ∧ m.archive.base < before) :=
        fun possible => room possible.2
      rw [prune_of_no_room prunable room, Archive.prune_of_not impossible]
  · have impossible : ¬(m.archive.Prunable before ∧ m.archive.base < before) :=
      fun possible => prunable possible.1
    obtain ⟨err, fails⟩ := prune_of_not_prunable prunable
    rw [fails, Archive.prune_of_not impossible]

/-- The removed heights, as the loop meets them. -/
def removed (m : PrunableMemoryBlockStore) (before : Int64) : List Int64 :=
  (heightsBetween m.base before).filter fun h => m.toMemoryBlockStore.hasBlock h && !m.kept h

theorem mem_removed : h ∈ m.removed before ↔ m.archive.Removes before h := by
  rw [removed, mem_filter, Bool.and_eq_true, Bool.not_eq_true', mem_heightsBetween,
    ← hasBlock_archive]
  change _ ∧ _ ∧ m.archive.kept h = false ↔ _
  rw [← and_assoc, and_assoc (a := m.base ≤ h)]
  rfl

theorem prunedCount_eq (pos : ∀ h, m.archive.hasBlock h = true → 0 < h) :
    (m.pruneLoop before).prunedCount.toInt = {h | m.archive.Removes before h}.ncard := by
  rw [(m.swept_pruneLoop before).prunedCount]
  exact Archive.toInt_ofNat_removed ((nodup_heightsBetween m.base before).filter _)
    (fun h => mem_removed) pos

instance : ArchiveStore PrunableMemoryBlockStore where
  saveBlock := saveBlock
  loadBlock m := m.toMemoryBlockStore.loadBlock
  hasBlock m := m.toMemoryBlockStore.hasBlock
  height m := m.height
  loadBlockByHash := loadBlockByHash
  base := base
  prune := prune
  pruneConfig := pruneCfg
  setPruneConfig m cfg := { m with pruneCfg := cfg }
  checked := true
  new := new
  WellFormed m := ∀ h, m.archive.hasBlock h = true → 0 < h
  archive := archive
  wellFormed_new h stored := by
    rw [hasBlock_archive] at stored
    exact absurd (of_decide_eq_true stored) notMem_empty
  archive_new := rfl
  loadBlock_eq m _ := m.loadBlock_archive
  loadBlockByHash_eq _ _ := rfl
  hasBlock_eq m h := (m.hasBlock_archive h).symm
  height_eq _ := rfl
  base_eq _ := rfl
  pruneConfig_eq _ := rfl
  saveBlock_spec m h hash data pos positive := by
    refine ⟨?_, m.saveBlock_archive h hash data⟩
    rcases m.saveBlock_cases h hash data with ⟨err, -, refused⟩ | ⟨free, fresh, saved⟩
    · rw [refused]
      exact pos
    · rw [saved, archive_put]
      intro query stored
      rw [Archive.hasBlock_put] at stored
      by_cases same : query = h
      · rwa [same]
      · exact pos query (by simpa [same] using stored)
  prune_fails m before := prune_of_not_prunable
  prune_succeeds m before pos prunable := by
    refine ⟨?_, m.archive_prune before, ?_⟩
    · intro h stored
      rw [archive_prune] at stored
      obtain ⟨hash, isEntry⟩ := Option.isSome_iff_exists.mp stored
      exact pos h (Option.isSome_iff_exists.mpr ⟨hash, Archive.entry_prune_eq_some isEntry⟩)
    · by_cases room : m.archive.base < before
      · rw [prune_of_room prunable room (Int64.not_lt.mpr prunable.2)]
        exact ⟨_, rfl, prunedCount_eq pos⟩
      · rw [prune_of_no_room prunable room]
        refine ⟨_, rfl, ?_⟩
        rw [Archive.ncard_removes_of_no_room room]
        rfl
  setPruneConfig_spec m cfg pos := ⟨pos, rfl⟩

end PrunableMemoryBlockStore

end Blockberry
