import Blockberry.BlockStore.Disk

/-!
# The LevelDB block store

`Prune` iterates over the height index below the limit and collects deletions in a batch, which is
written whenever it has a thousand entries; the new base is written at the end. The iterator is a
snapshot. `Collected` describes the loop: the entries visited and not kept are those of the batches
written, followed by those of the pending batch.
-/

namespace Blockberry

open BigEndian KeyValue List

def LevelDBBlockStore := DiskBlockStore

/-- The state of the loop of `Prune`. `written` are the batches already on disk. -/
structure LevelDBPruneLoop where
  written : List Batch
  batch : Batch
  batchSize : Nat
  prunedCount : Int64
  bytesFreed : Int64
  newBase : Int64

namespace LevelDBBlockStore

open DiskBlockStore

def maxBatchSize : Nat := 1000

/-- `NewLevelDBBlockStore` over an existing database. -/
def loadMetadata (db : Database) : LevelDBBlockStore := DiskBlockStore.loadMetadata db

def saveBlock (s : LevelDBBlockStore) (height : Int64) (hash data : Bytes) :
    LevelDBBlockStore × Option StoreError := DiskBlockStore.saveBlock s height hash data

def loadBlock (s : LevelDBBlockStore) (height : Int64) : Option (Bytes × Bytes) :=
  DiskBlockStore.loadBlock s height

def loadBlockByHash (s : LevelDBBlockStore) (hash : Bytes) : Option (Int64 × Bytes) :=
  DiskBlockStore.loadBlockByHash s hash

def hasBlock (s : LevelDBBlockStore) (height : Int64) : Bool := DiskBlockStore.hasBlock s height

/-- The deletion of one entry, with the batch written if it is full. -/
def pruneBlock (db : Database) (loop : LevelDBPruneLoop) (heightKey hash : Bytes) :
    LevelDBPruneLoop :=
  let blockKey := makeBlockKey hash
  let batch := loop.batch ++ [.delete heightKey, .delete blockKey]
  let full := maxBatchSize ≤ loop.batchSize + 1
  { written := if full then loop.written ++ [batch] else loop.written
    batch := if full then [] else batch
    batchSize := if full then 0 else loop.batchSize + 1
    prunedCount := loop.prunedCount + 1
    bytesFreed :=
      match (loop.written.foldl write db)[blockKey]? with
      | some data => loop.bytesFreed + Int64.ofNat data.length
      | none => loop.bytesFreed
    newBase := loop.newBase }

def pruneEntry (s : DiskBlockStore) (loop : LevelDBPruneLoop) (entry : Bytes × Bytes) :
    LevelDBPruneLoop :=
  let height := heightOfKey entry.1
  if s.kept height then
    { loop with newBase := if height < loop.newBase then height else loop.newBase }
  else pruneBlock s.db loop entry.1 entry.2

def pruneLoop (s : DiskBlockStore) (before : Int64) : LevelDBPruneLoop :=
  (s.window before).foldl (pruneEntry s) ⟨[], [], 0, 0, 0, before⟩

/-- The writes of `Prune`, in their order. -/
def pruneWrites (s : DiskBlockStore) (before : Int64) : List Batch :=
  let loop := pruneLoop s before
  loop.written ++ (if 0 < loop.batchSize then [loop.batch] else []) ++
    (if s.base < loop.newBase then [[.put keyMetaBase (encodeWord loop.newBase)]] else [])

/-- The part of `Prune` that changes the store. -/
def deleteBlocks (s : DiskBlockStore) (before : Int64) : DiskBlockStore × PruneResult :=
  let loop := pruneLoop s before
  let base := if s.base < loop.newBase then loop.newBase else s.base
  ({ s with db := (pruneWrites s before).foldl write s.db, base },
    { prunedCount := loop.prunedCount, newBase := base, bytesFreed := loop.bytesFreed })

def prune (s : LevelDBBlockStore) (before : Int64) :
    LevelDBBlockStore × Except PruneError PruneResult :=
  pruneWith deleteBlocks s before

/-- What the loop has done after some entries. -/
structure Collected (s : DiskBlockStore) (before : Int64) (visited : List (Bytes × Bytes))
    (groups : List (List (Bytes × Bytes))) (pending : List (Bytes × Bytes))
    (loop : LevelDBPruneLoop) : Prop where
  written : loop.written = groups.map deletesOf
  batch : loop.batch = deletesOf pending
  batchSize : loop.batchSize = pending.length
  entries : groups.flatten ++ pending =
    visited.filter fun entry => !s.kept (heightOfKey entry.1)
  prunedCount : loop.prunedCount = Int64.ofNat (groups.flatten ++ pending).length
  newBase : loop.newBase = lowestKept s.kept before (heightsOf visited)

theorem deletesOf_append (first second : List (Bytes × Bytes)) :
    deletesOf (first ++ second) = deletesOf first ++ deletesOf second := by
  simp [deletesOf]

theorem flatten_map_deletesOf (groups : List (List (Bytes × Bytes))) :
    (groups.map deletesOf).flatten = deletesOf groups.flatten := by
  induction groups with
  | nil => rfl
  | cons group groups ih =>
    rw [map_cons, flatten_cons, flatten_cons, deletesOf_append, ih]

namespace Collected

variable {s : DiskBlockStore} {before : Int64} {visited : List (Bytes × Bytes)}
  {groups : List (List (Bytes × Bytes))} {pending : List (Bytes × Bytes)}
  {loop : LevelDBPruneLoop} {entry : Bytes × Bytes}
  (collected : Collected s before visited groups pending loop)

include collected

theorem newBase_concat : lowestKept s.kept before (heightsOf (visited ++ [entry])) =
      if s.kept (heightOfKey entry.1) ∧ heightOfKey entry.1 < loop.newBase then
        heightOfKey entry.1
      else loop.newBase := by
  rw [collected.newBase, heightsOf, map_append]
  exact lowestKept_concat _ _ _ _

theorem keep (isKept : s.kept (heightOfKey entry.1) = true) :
    Collected s before (visited ++ [entry]) groups pending
      { loop with
        newBase := if heightOfKey entry.1 < loop.newBase then heightOfKey entry.1
          else loop.newBase } where
  written := collected.written
  batch := collected.batch
  batchSize := collected.batchSize
  entries := by simp [collected.entries, isKept]
  prunedCount := collected.prunedCount
  newBase := by simp [collected.newBase_concat, isKept]

/-- An entry that is not kept joins the batch, which may be written then. -/
theorem pruneBlock (notKept : s.kept (heightOfKey entry.1) = false) :
    ∃ groups pending, Collected s before (visited ++ [entry]) groups pending
      (pruneBlock s.db loop entry.1 entry.2) := by
  have joined : loop.batch ++ [.delete entry.1, .delete (makeBlockKey entry.2)] =
      deletesOf (pending ++ [entry]) := by
    rw [collected.batch, deletesOf_append]
    rfl
  have entries : groups.flatten ++ (pending ++ [entry]) =
      (visited ++ [entry]).filter fun entry => !s.kept (heightOfKey entry.1) := by
    rw [← append_assoc, collected.entries, filter_append]
    simp [notKept]
  have count : loop.prunedCount + 1 =
      Int64.ofNat (groups.flatten ++ (pending ++ [entry])).length := by
    have grown : (groups.flatten ++ pending ++ [entry]).length =
        (groups.flatten ++ pending).length + 1 := length_append
    rw [collected.prunedCount, ← append_assoc, grown, Int64.ofNat_add]
    rfl
  have newBase : loop.newBase = lowestKept s.kept before (heightsOf (visited ++ [entry])) := by
    simp [collected.newBase_concat, notKept]
  by_cases full : maxBatchSize ≤ loop.batchSize + 1
  · refine ⟨groups ++ [pending ++ [entry]], [], ?_⟩
    constructor
    · simp [LevelDBBlockStore.pruneBlock, full, joined, collected.written]
    · simp [LevelDBBlockStore.pruneBlock, full, deletesOf]
    · simp [LevelDBBlockStore.pruneBlock, full]
    · simpa using entries
    · simpa [LevelDBBlockStore.pruneBlock] using count
    · exact newBase
  · refine ⟨groups, pending ++ [entry], ?_⟩
    constructor
    · simp [LevelDBBlockStore.pruneBlock, full, collected.written]
    · simp [LevelDBBlockStore.pruneBlock, full, joined]
    · have counted : loop.batchSize + 1 = (pending ++ [entry]).length := by
        simp [collected.batchSize]
      exact (if_neg full).trans counted
    · exact entries
    · exact count
    · exact newBase

theorem pruneEntry (entry : Bytes × Bytes) :
    ∃ groups pending, Collected s before (visited ++ [entry]) groups pending
      (pruneEntry s loop entry) := by
  unfold LevelDBBlockStore.pruneEntry
  simp only
  split
  next isKept => exact ⟨groups, pending, collected.keep isKept⟩
  next notKept => exact collected.pruneBlock (Bool.eq_false_of_not_eq_true notKept)

theorem foldl {rest : List (Bytes × Bytes)} :
    ∃ groups pending, Collected s before (visited ++ rest) groups pending
      (rest.foldl (LevelDBBlockStore.pruneEntry s) loop) := by
  induction rest generalizing visited groups pending loop with
  | nil => exact ⟨groups, pending, by simpa using collected⟩
  | cons entry rest ih =>
    obtain ⟨groups, pending, next⟩ := collected.pruneEntry entry
    simpa using ih next

end Collected

variable (s : DiskBlockStore)

include s

variable (before : Int64)

include before

theorem collected_pruneLoop :
    ∃ groups pending, Collected s before (s.window before) groups pending (pruneLoop s before) := by
  have initial : Collected s before [] [] [] ⟨[], [], 0, 0, 0, before⟩ :=
    ⟨rfl, rfl, rfl, rfl, rfl, rfl⟩
  exact initial.foldl

theorem newBase_pruneLoop : (pruneLoop s before).newBase = s.newBase before := by
  obtain ⟨groups, pending, collected⟩ := collected_pruneLoop s before
  exact collected.newBase

theorem prunedCount_pruneLoop :
    (pruneLoop s before).prunedCount = Int64.ofNat (s.removed before).length := by
  obtain ⟨groups, pending, collected⟩ := collected_pruneLoop s before
  rw [collected.prunedCount, collected.entries]
  rfl

theorem pruneWrites_eq : ∃ groups : List (List (Bytes × Bytes)), groups.flatten = s.removed before ∧
      pruneWrites s before = groups.map deletesOf ++ (if s.base < s.newBase before then
          [[.put keyMetaBase (encodeWord (s.newBase before))]] else []) := by
  obtain ⟨groups, pending, collected⟩ := collected_pruneLoop s before
  have last : (if 0 < (pruneLoop s before).batchSize then [(pruneLoop s before).batch] else []) =
      (if pending = [] then [] else [pending]).map deletesOf := by
    rw [collected.batchSize, collected.batch]
    cases pending with
    | nil | cons => rfl
  refine ⟨groups ++ if pending = [] then [] else [pending], ?_, ?_⟩
  · rw [flatten_append]
    refine Eq.trans ?_ collected.entries
    cases pending with
    | nil => rfl
    | cons entry pending => simp
  · rw [pruneWrites, collected.written, newBase_pruneLoop, last, map_append]

theorem foldl_pruneWrites : (pruneWrites s before).foldl write s.db = (s.pruned before).db := by
  obtain ⟨groups, entries, writes⟩ := pruneWrites_eq s before
  have last : (if s.base < s.newBase before then
      [[Write.put keyMetaBase (encodeWord (s.newBase before))]] else []).flatten =
        s.baseBatch (s.newBase before) := by
    unfold baseBatch
    split
    next => rfl
    next => rfl
  rw [foldl_write, writes, flatten_append, flatten_map_deletesOf, entries, last, write_append]
  rfl

omit before

omit s

theorem deletes_deleteBlocks : Deletes deleteBlocks := by
  intro s before
  refine ⟨(pruneLoop s before).bytesFreed, ?_⟩
  simp only [deleteBlocks, newBase_pruneLoop, prunedCount_pruneLoop, foldl_pruneWrites]
  rfl

instance : ArchiveStore LevelDBBlockStore :=
  { archiveStore deleteBlocks deletes_deleteBlocks with
    new := LevelDBBlockStore.loadMetadata ∅
    saveBlock := LevelDBBlockStore.saveBlock
    loadBlock := LevelDBBlockStore.loadBlock
    loadBlockByHash := LevelDBBlockStore.loadBlockByHash
    hasBlock := LevelDBBlockStore.hasBlock
    prune := LevelDBBlockStore.prune }

end LevelDBBlockStore

end Blockberry
