import Blockberry.BlockStore.Disk
import Blockberry.Lib.Chunks

/-!
# The Badger block store

`Prune` collects what is to be deleted with a cursor over the height index, then writes the
deletions in chunks of a thousand, and the new base after them. The size of a value is taken to be
its length.
-/

namespace Blockberry

open BigEndian KeyValue

def BadgerDBBlockStore := DiskBlockStore

structure DeleteEntry where
  heightKey : Bytes
  blockKey : Bytes
  dataSize : Nat

/-- What the cursor of `Prune` has collected. -/
structure BadgerDBPruneScan where
  toDelete : List DeleteEntry
  newBase : Int64

/-- The state of the loop of `Prune` over the chunks. -/
structure BadgerDBPruneLoop where
  db : Database
  prunedCount : Int64
  bytesFreed : Int64

namespace BadgerDBBlockStore

open DiskBlockStore

def batchSize : Nat := 1000

/-- `NewBadgerDBBlockStore` over an existing database. -/
def loadMetadata (db : Database) : BadgerDBBlockStore := DiskBlockStore.loadMetadata db

def saveBlock (s : BadgerDBBlockStore) (height : Int64) (hash data : Bytes) :
    BadgerDBBlockStore × Option StoreError := DiskBlockStore.saveBlock s height hash data

def loadBlock (s : BadgerDBBlockStore) (height : Int64) : Option (Bytes × Bytes) :=
  DiskBlockStore.loadBlock s height

def loadBlockByHash (s : BadgerDBBlockStore) (hash : Bytes) : Option (Int64 × Bytes) :=
  DiskBlockStore.loadBlockByHash s hash

def hasBlock (s : BadgerDBBlockStore) (height : Int64) : Bool := DiskBlockStore.hasBlock s height

/-- What is deleted for an entry of the index. -/
def deleteEntryOf (db : Database) (entry : Bytes × Bytes) : DeleteEntry where
  heightKey := entry.1
  blockKey := makeBlockKey entry.2
  dataSize := (db[makeBlockKey entry.2]?.map List.length).getD 0

variable (s : DiskBlockStore)

def scanEntry (found : BadgerDBPruneScan) (entry : Bytes × Bytes) : BadgerDBPruneScan :=
  let height := heightOfKey entry.1
  if s.kept height then
    { found with newBase := if height < found.newBase then height else found.newBase }
  else { found with toDelete := found.toDelete ++ [deleteEntryOf s.db entry] }

variable (before : Int64)

/-- The entries of the index from the base to the limit, as the cursor finds them. -/
def cursor : List (Bytes × Bytes) :=
  scan s.db
    (fun key => prefixHeight.isPrefixOf key && (compare (makeHeightKey s.base) key).isLE)
    (makeHeightKey before)

def pruneScan : BadgerDBPruneScan :=
  (cursor s before).foldl (scanEntry s) ⟨[], before⟩

def flushChunk (loop : BadgerDBPruneLoop) (chunk : List DeleteEntry) : BadgerDBPruneLoop where
  db := write loop.db (chunk.flatMap fun entry => [.delete entry.heightKey, .delete entry.blockKey])
  prunedCount := chunk.foldl (fun count _ => count + 1) loop.prunedCount
  bytesFreed := chunk.foldl (fun freed entry => freed + Int64.ofNat entry.dataSize) loop.bytesFreed

def pruneLoop : BadgerDBPruneLoop :=
  (Chunks.chunksOf batchSize (pruneScan s before).toDelete).foldl flushChunk ⟨s.db, 0, 0⟩

/-- The part of `Prune` that changes the store. -/
def deleteBlocks : DiskBlockStore × PruneResult :=
  let newBase := (pruneScan s before).newBase
  let loop := pruneLoop s before
  let base := if s.base < newBase then newBase else s.base
  ({ s with db := write loop.db (s.baseBatch newBase), base },
    { prunedCount := loop.prunedCount, newBase := base, bytesFreed := loop.bytesFreed })

def prune (s : BadgerDBBlockStore) (before : Int64) :
    BadgerDBBlockStore × Except PruneError PruneResult :=
  pruneWith deleteBlocks s before

/-! ## The cursor -/

variable (s : DiskBlockStore) (before : Int64)

theorem cursor_eq_window : cursor s before = s.window before := by
  rw [cursor, scan_eq_select, window, range]
  congr 1
  funext key
  cases above : (compare (makeHeightKey s.base) key).isLE with
  | false => simp
  | true =>
    cases below : compare key (makeHeightKey before) == .lt with
    | false => simp
    | true =>
      have isIndex := prefixHeight_isPrefix_of_between above (beq_iff_eq.mp below)
      simpa using isIndex

theorem foldl_scanEntry (entries : List (Bytes × Bytes)) (found : BadgerDBPruneScan) :
    entries.foldl (scanEntry s) found =
      { toDelete := found.toDelete ++
          (entries.filter fun entry => !s.kept (heightOfKey entry.1)).map (deleteEntryOf s.db)
        newBase := lowestKept s.kept found.newBase (heightsOf entries) } := by
  induction entries generalizing found with
  | nil => simp [heightsOf, lowestKept]
  | cons entry entries ih =>
    have heights : heightsOf (entry :: entries) = heightOfKey entry.1 :: heightsOf entries := rfl
    rw [List.foldl_cons, ih, heights, lowestKept_cons]
    cases isKept : s.kept (heightOfKey entry.1) with
    | false | true => simp [scanEntry, isKept]

theorem pruneScan_eq : pruneScan s before =
      { toDelete := (s.removed before).map (deleteEntryOf s.db)
        newBase := s.newBase before } := by
  rw [pruneScan, cursor_eq_window, foldl_scanEntry]
  rfl

/-! ## The chunks -/

theorem foldl_count {α : Type} (items : List α) (count : Int64) :
    items.foldl (fun count _ => count + 1) count = count + Int64.ofNat items.length := by
  induction items generalizing count with
  | nil => simp
  | cons item items ih =>
    rw [List.foldl_cons, ih, List.length_cons, Nat.add_comm, Int64.ofNat_add, Int64.add_assoc]
    rfl

theorem db_foldl_flushChunk (chunks : List (List DeleteEntry)) (loop : BadgerDBPruneLoop) :
    (chunks.foldl flushChunk loop).db = write loop.db (chunks.flatten.flatMap fun entry =>
      [.delete entry.heightKey, .delete entry.blockKey]) := by
  induction chunks generalizing loop with
  | nil => rfl
  | cons chunk chunks ih =>
    rw [List.foldl_cons, ih, List.flatten_cons, List.flatMap_append, write_append]
    rfl

theorem prunedCount_foldl_flushChunk (chunks : List (List DeleteEntry)) (loop : BadgerDBPruneLoop) :
    (chunks.foldl flushChunk loop).prunedCount =
      loop.prunedCount + Int64.ofNat chunks.flatten.length := by
  induction chunks generalizing loop with
  | nil => simp
  | cons chunk chunks ih =>
    rw [List.foldl_cons, ih, List.flatten_cons, List.length_append, Int64.ofNat_add,
      ← Int64.add_assoc]
    exact congrArg (· + _) (foldl_count chunk loop.prunedCount)

theorem db_pruneLoop : (pruneLoop s before).db = write s.db (deletesOf (s.removed before)) := by
  rw [pruneLoop, db_foldl_flushChunk, Chunks.flatten_chunksOf (by decide), pruneScan_eq,
    List.flatMap_map, deletesOf, List.map_flatMap]
  rfl

theorem prunedCount_pruneLoop :
    (pruneLoop s before).prunedCount = Int64.ofNat (s.removed before).length := by
  rw [pruneLoop, prunedCount_foldl_flushChunk, Chunks.flatten_chunksOf (by decide), pruneScan_eq,
    List.length_map]
  exact Int64.zero_add _

theorem deletes_deleteBlocks : Deletes deleteBlocks := by
  intro s before
  refine ⟨(pruneLoop s before).bytesFreed, ?_⟩
  simp only [deleteBlocks, db_pruneLoop, prunedCount_pruneLoop, pruneScan_eq]
  rfl

instance : ArchiveStore BadgerDBBlockStore :=
  { archiveStore deleteBlocks deletes_deleteBlocks with
    new := BadgerDBBlockStore.loadMetadata ∅
    saveBlock := BadgerDBBlockStore.saveBlock
    loadBlock := BadgerDBBlockStore.loadBlock
    loadBlockByHash := BadgerDBBlockStore.loadBlockByHash
    hasBlock := BadgerDBBlockStore.hasBlock
    prune := BadgerDBBlockStore.prune }

end BadgerDBBlockStore

end Blockberry
