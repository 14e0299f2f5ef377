import Blockberry.BlockStore.MemoryPruning
import Blockberry.Lib.Trace

/-!
# The header-only block store

A header-only store is a memory store without the data of its blocks. The two are written
independently; each call on the one is shown to be the call on the other with the data left out.
-/

namespace Blockberry

open FiniteMap

/-- Reasons for which `SaveBlock` of a header-only store fails. -/
inductive HeaderError where
  | blockAlreadyExists
  | hashAlreadyExists (existingHeight : Int64)
  deriving DecidableEq, Repr

structure HeaderOnlyBlockStore where
  headers : Finmap fun _ : Int64 => Bytes
  byHash : Finmap fun _ : Bytes => Int64
  height : Int64
  base : Int64

namespace HeaderOnlyBlockStore

def new : HeaderOnlyBlockStore := ⟨∅, ∅, 0, 0⟩

variable (s : HeaderOnlyBlockStore)

variable (height : Int64)

/-- The writes at the end of `SaveBlock`. -/
def put (hash : Bytes) : HeaderOnlyBlockStore where
  headers := s.headers.insert height hash
  byHash := s.byHash.insert hash height
  height := if height > s.height then height else s.height
  base := if s.base = 0 ∨ height < s.base then height else s.base

def saveBlock (hash _data : Bytes) : HeaderOnlyBlockStore × Option HeaderError :=
  if height ∈ s.headers then (s, some .blockAlreadyExists)
  else
    match s.byHash.lookup hash with
    | some existingHeight =>
      if existingHeight ≠ height then (s, some (.hashAlreadyExists existingHeight))
      else (s.put height hash, none)
    | none => (s.put height hash, none)

def loadBlock : Option (Bytes × Bytes) :=
  (s.headers.lookup height).map fun hash => (hash, [])

def loadBlockByHash (hash : Bytes) : Option (Int64 × Bytes) :=
  (s.byHash.lookup hash).map fun height => (height, [])

def hasBlock : Bool := decide (height ∈ s.headers)

end HeaderOnlyBlockStore

/-- The calls of the common interface. -/
inductive BlockCall where
  | saveBlock (height : Int64) (hash data : Bytes)
  | loadBlock (height : Int64)
  | loadBlockByHash (hash : Bytes)
  | hasBlock (height : Int64)
  | height
  | base
  deriving DecidableEq, Repr

/-- What a call returns, with `none` and `false` for errors. -/
inductive BlockReply where
  | saved (ok : Bool)
  | block (found : Option (Bytes × Bytes))
  | record (found : Option (Int64 × Bytes))
  | has (found : Bool)
  | height (height : Int64)
  deriving DecidableEq, Repr

def BlockReply.withoutData : BlockReply → BlockReply
  | block found => block (found.map fun entry => (entry.1, []))
  | record found => record (found.map fun entry => (entry.1, []))
  | reply => reply

def PrunableMemoryBlockStore.serve (m : PrunableMemoryBlockStore) :
    BlockCall → PrunableMemoryBlockStore × BlockReply
  | .saveBlock height hash data =>
    ((m.saveBlock height hash data).1, .saved (m.saveBlock height hash data).2.isNone)
  | .loadBlock height => (m, .block (m.toMemoryBlockStore.loadBlock height))
  | .loadBlockByHash hash => (m, .record (m.loadBlockByHash hash))
  | .hasBlock height => (m, .has (m.toMemoryBlockStore.hasBlock height))
  | .height => (m, .height m.height)
  | .base => (m, .height m.base)

def HeaderOnlyBlockStore.serve (s : HeaderOnlyBlockStore) :
    BlockCall → HeaderOnlyBlockStore × BlockReply
  | .saveBlock height hash data =>
    ((s.saveBlock height hash data).1, .saved (s.saveBlock height hash data).2.isNone)
  | .loadBlock height => (s, .block (s.loadBlock height))
  | .loadBlockByHash hash => (s, .record (s.loadBlockByHash hash))
  | .hasBlock height => (s, .has (s.hasBlock height))
  | .height => (s, .height s.height)
  | .base => (s, .height s.base)

def replies {State : Type} (serve : State → BlockCall → State × BlockReply) (start : State)
    (calls : List BlockCall) : List BlockReply :=
  Run.trace (fun state call => (serve state call).1) (fun state call => [(serve state call).2])
    start calls

namespace PrunableMemoryBlockStore

variable (m : PrunableMemoryBlockStore)

/-- The store with the data of its blocks left out. -/
def headers : HeaderOnlyBlockStore where
  headers := mapValues BlockEntry.hash m.blocks
  byHash := m.byHash
  height := m.height
  base := m.base

theorem headers_put {h : Int64} {hash data : Bytes} (free : h ∉ m.blocks)
    (fresh : m.byHash.lookup hash = none) :
    (m.put h hash data free fresh).headers = m.headers.put h hash := by
  rw [headers, headers, HeaderOnlyBlockStore.put, HeaderOnlyBlockStore.mk.injEq]
  exact ⟨mapValues_insert _ _ _ _, rfl, rfl, rfl⟩

theorem saveBlock_headers (h : Int64) (hash data : Bytes) :
    (m.headers.saveBlock h hash data).1 = (m.saveBlock h hash data).1.headers ∧
      (m.headers.saveBlock h hash data).2.isNone = (m.saveBlock h hash data).2.isNone := by
  have mem_headers : h ∈ m.headers.headers ↔ h ∈ m.blocks := mem_mapValues _ _ h
  simp only [HeaderOnlyBlockStore.saveBlock, mem_headers]
  rcases m.saveBlock_cases h hash data with ⟨err, taken, refused⟩ | ⟨free, fresh, saved⟩
  · rw [refused]
    split
    next => exact ⟨rfl, rfl⟩
    next free =>
      have known : (m.byHash.lookup hash).isSome = true := by
        rw [hasBlock_archive, isSome_record] at taken
        exact taken.resolve_left fun stored => free (of_decide_eq_true stored)
      obtain ⟨other, indexed⟩ := Option.isSome_iff_exists.mp known
      -- the indexed height has a block, the height of the call has none
      have different : other ≠ h := by
        rintro rfl
        obtain ⟨entry, found, -⟩ := m.block_of_byHash hash other indexed
        exact free (Finmap.mem_of_lookup_eq_some found)
      rw [show m.headers.byHash.lookup hash = some other from indexed]
      simp [different]
  · rw [saved, if_neg free, show m.headers.byHash.lookup hash = none from fresh]
    exact ⟨(m.headers_put free fresh).symm, rfl⟩

theorem serve_headers (call : BlockCall) :
    m.headers.serve call = ((m.serve call).1.headers, (m.serve call).2.withoutData) := by
  cases call with
  | saveBlock h hash data =>
    obtain ⟨sameStore, sameReply⟩ := m.saveBlock_headers h hash data
    rw [HeaderOnlyBlockStore.serve, sameStore, sameReply]
    rfl
  | loadBlock h =>
    simp [HeaderOnlyBlockStore.serve, serve, BlockReply.withoutData, HeaderOnlyBlockStore.loadBlock,
      MemoryBlockStore.loadBlock, headers, lookup_mapValues, Function.comp_def]
  | loadBlockByHash hash =>
    simp [HeaderOnlyBlockStore.serve, serve, BlockReply.withoutData, headers,
      HeaderOnlyBlockStore.loadBlockByHash, loadBlockByHash, Function.comp_def]
  | hasBlock h =>
    simp [HeaderOnlyBlockStore.serve, serve, BlockReply.withoutData, HeaderOnlyBlockStore.hasBlock,
      MemoryBlockStore.hasBlock, headers, mem_mapValues]
  | height | base => rfl

theorem replies_headers (calls : List BlockCall) :
    replies HeaderOnlyBlockStore.serve m.headers calls =
      (replies serve m calls).map BlockReply.withoutData := by
  induction calls generalizing m with
  | nil => rfl
  | cons call calls ih =>
    rw [replies, replies, Run.trace, Run.trace, List.map_append, m.serve_headers call]
    exact congrArg _ (ih (m.serve call).1)

end PrunableMemoryBlockStore

/-- A header-only store replies to any calls as a memory store does, without the data. -/
theorem headerOnly_replies (calls : List BlockCall) :
    replies HeaderOnlyBlockStore.serve .new calls =
      (replies PrunableMemoryBlockStore.serve .new calls).map BlockReply.withoutData :=
  PrunableMemoryBlockStore.replies_headers .new calls

end Blockberry
