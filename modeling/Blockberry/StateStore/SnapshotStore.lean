import Blockberry.Lib.FiniteMap
import Blockberry.StateStore.IAVL
import Blockberry.StateStore.Snapshot

/-!
# The file snapshot store

`Create` exports the saved tree, compresses the nodes, cuts the result into chunk files and writes
the metadata beside them. `Import` rebuilds a tree from the chunks of a provider. The files are a
map from paths to contents without errors of its own. Compression and SHA-256 are parameters.
-/

namespace Blockberry.StateStore

open BigEndian List Option Nat

/-- `compress/gzip`, as far as whole buffers are concerned. -/
structure Gzip where
  compress : Bytes → Bytes
  decompress : Bytes → Option Bytes
  decompress_compress : ∀ data, decompress (compress data) = some data

inductive SnapshotError where
  | chunkNotFound
  | gzipReader
  | decodingNode (err : DecodeError)
  | importing
  deriving DecidableEq, Repr

inductive SnapshotFile where
  | metadata
  | chunk (index : Int)
  deriving DecidableEq, Repr

/-- The contents of the files, by directory and name. -/
abbrev SnapshotFiles := Finmap fun _ : Bytes × SnapshotFile => Bytes

structure SnapshotChunk where
  index : Int
  hash : Bytes
  data : Bytes
  deriving DecidableEq, Repr

structure ChunkProvider where
  chunkCount : Int
  getChunk : Int → Except SnapshotError Bytes

/-- `MemoryChunkProvider` over a list of chunks. -/
def memoryChunkProvider (chunks : List Bytes) : ChunkProvider where
  chunkCount := chunks.length
  getChunk index :=
    if index < 0 then .error .chunkNotFound
    else chunks[index.toNat]?.elim (.error .chunkNotFound) .ok

/-- The nanoseconds of the zero time. -/
def zeroUnixNano : Int := -62135596800 * 10 ^ 9

def encodeSnapshotMetadata (s : Snapshot) : Bytes :=
  encode 4 s.version.toNat ++ encodeWord s.height ++ writeSized s.hash ++
    encode 4 (s.chunkSize % 2 ^ 32).toNat ++ encode 4 (s.chunks % 2 ^ 32).toNat ++
    writeSized s.appHash ++ encodeWord (Int64.ofInt (s.createdAt.getD zeroUnixNano)) ++
    writeSized s.metadata

structure FileSnapshotStore (T : Type) where
  stateStore : IAVLStore T
  chunkSize : Int
  files : SnapshotFiles

def snapshotDir (hash : Bytes) : Bytes := hash.take 8

/-- The loop of `Create` over the chunks. -/
def writeChunks (dir : Bytes) : Nat → List Bytes → SnapshotFiles → SnapshotFiles
  | _, [], files => files
  | i, chunk :: chunks, files =>
    writeChunks dir (i + 1) chunks (files.insert (dir, .chunk i) chunk)

namespace FileSnapshotStore

variable {T : Type} (lib : Avlberry T) (gzip : Gzip) (sha256 : Bytes → Bytes)

variable (s : FileSnapshotStore T)

/-- The bytes that `Create` cuts into chunks. -/
def exportData : Bytes :=
  gzip.compress ((lib.exportNodes s.stateStore.tree.saved).flatMap encodeExportNode)

/-- `Create` at the time `now`. It does not return for a chunk size that is not
positive. -/
def create (height : Int64) (now : Int) : Option (Snapshot × FileSnapshotStore T) :=
  (splitIntoChunks (s.exportData lib gzip) s.chunkSize).map fun chunks =>
    let hash := snapshotHash sha256 height chunks
    let snapshot : Snapshot :=
      { version := snapshotVersion
        height
        hash
        chunkSize := s.chunkSize
        chunks := chunks.length
        metadata := []
        appHash := s.stateStore.rootHash lib
        createdAt := some now }
    (snapshot,
      { s with
        files := (writeChunks (snapshotDir hash) 0 chunks s.files).insert
          (snapshotDir hash, .metadata) (encodeSnapshotMetadata snapshot) })

def loadChunk (hash : Bytes) (index : Int) : Except SnapshotError SnapshotChunk :=
  match s.files.lookup (snapshotDir hash, .chunk index) with
  | none => .error .chunkNotFound
  | some data => .ok { index, hash := sha256 data, data }

end FileSnapshotStore

/-- The loop of `Import` over the chunks of a provider. -/
def collectChunks (provider : ChunkProvider) : Except SnapshotError Bytes :=
  ((range provider.chunkCount.toNat).mapM fun i : Nat => provider.getChunk i).map flatten

/-- `Import`. The nodes go to the importer one by one; a failure at any of them leaves the
tree as it was. -/
def FileSnapshotStore.importSnapshot {T : Type} (lib : Avlberry T) (gzip : Gzip)
    (s : FileSnapshotStore T) (snapshot : Snapshot) (provider : ChunkProvider) :
    Except SnapshotError (FileSnapshotStore T) := do
  let buffer ← collectChunks provider
  let data ← (gzip.decompress buffer).elim (.error .gzipReader) .ok
  let nodes ← (decodeNodes data).mapError .decodingNode
  let tree ← (lib.importNodes s.stateStore.tree.saved snapshot.height nodes).elim
    (.error .importing) .ok
  .ok { s with stateStore := ⟨⟨tree, tree, snapshot.height⟩⟩ }

theorem lookup_writeChunks_of_lt (dir : Bytes) {i j : Nat} (before : j < i) (chunks : List Bytes)
    (files : SnapshotFiles) :
    (writeChunks dir i chunks files).lookup (dir, .chunk j) = files.lookup (dir, .chunk j) := by
  induction chunks generalizing i files with
  | nil => rfl
  | cons chunk chunks ih =>
    have other : (dir, SnapshotFile.chunk j) ≠ (dir, SnapshotFile.chunk i) := by
      simp [Nat.ne_of_lt before]
    rw [writeChunks, ih (Nat.lt_succ_of_lt before), Finmap.lookup_insert_of_ne _ other]

theorem lookup_writeChunks (dir : Bytes) (i : Nat) {chunks : List Bytes} {k : Nat}
    (inRange : k < chunks.length) (files : SnapshotFiles) :
    (writeChunks dir i chunks files).lookup (dir, .chunk ((i + k : Nat) : Int)) = chunks[k]? := by
  induction chunks generalizing i k files with
  | nil => exact absurd inRange (not_lt_zero _)
  | cons chunk chunks ih =>
    rw [writeChunks]
    cases k with
    | zero =>
      rw [add_zero, lookup_writeChunks_of_lt dir (lt_succ_self i), Finmap.lookup_insert]
      rfl
    | succ k =>
      rw [← succ_add_eq_add_succ, ih (i + 1) (lt_of_succ_lt_succ inRange)]
      rfl

theorem map_getD_range (chunks : List Bytes) :
    (range chunks.length).map (fun i => chunks.getD i []) = chunks := by
  apply ext_getElem
  · simp
  · intro i _ inRange
    simp [inRange]

/-- A provider of the chunks of a snapshot, as the store loads them. -/
structure ChunkProvider.Provides {T : Type} (provider : ChunkProvider) (sha256 : Bytes → Bytes)
    (s : FileSnapshotStore T) (snapshot : Snapshot) : Prop where
  chunkCount : provider.chunkCount = snapshot.chunks
  getChunk : ∀ index, 0 ≤ index → index < snapshot.chunks →
    provider.getChunk index = (s.loadChunk sha256 snapshot.hash index).map SnapshotChunk.data

section Create

variable {T : Type} {lib : Avlberry T} {gzip : Gzip} {sha256 : Bytes → Bytes}
  {s after : FileSnapshotStore T} {height : Int64} {now : Int} {snapshot : Snapshot}
  {provider : ChunkProvider}

theorem height_of_create (created : s.create lib gzip sha256 height now = some (snapshot, after)) :
    snapshot.height = height := by
  obtain ⟨chunks, -, same⟩ := map_eq_some_iff.mp created
  cases same
  rfl

theorem appHash_of_create (created : s.create lib gzip sha256 height now = some (snapshot, after)) :
    snapshot.appHash = s.stateStore.rootHash lib := by
  obtain ⟨chunks, -, same⟩ := map_eq_some_iff.mp created
  cases same
  rfl

theorem exists_create_iff : (∃ snapshot after, s.create lib gzip sha256 height now =
    some (snapshot, after)) ↔ s.exportData lib gzip = [] ∨ 0 < s.chunkSize := by
  rw [← exists_splitIntoChunks_iff]
  constructor
  · rintro ⟨snapshot, after, created⟩
    obtain ⟨chunks, isSplit, -⟩ := map_eq_some_iff.mp created
    exact ⟨chunks, isSplit⟩
  · rintro ⟨chunks, isSplit⟩
    exact ⟨_, _, map_eq_some_iff.mpr ⟨chunks, isSplit, rfl⟩⟩

theorem exists_create (lib : Avlberry T) (gzip : Gzip) (sha256 : Bytes → Bytes)
    (s : FileSnapshotStore T) (positive : 0 < s.chunkSize) (height : Int64) (now : Int) :
    ∃ snapshot after, s.create lib gzip sha256 height now = some (snapshot, after) :=
  exists_create_iff.mpr (.inr positive)

variable (created : s.create lib gzip sha256 height now = some (snapshot, after))

include created

theorem exists_chunks_of_create :
    ∃ chunks, splitIntoChunks (s.exportData lib gzip) s.chunkSize = some chunks ∧
      snapshot.chunks = chunks.length ∧
      ∀ k (inRange : k < chunks.length),
        (after.loadChunk sha256 snapshot.hash k).map SnapshotChunk.data = .ok chunks[k] := by
  obtain ⟨chunks, isSplit, same⟩ := map_eq_some_iff.mp created
  cases same
  refine ⟨chunks, isSplit, rfl, ?_⟩
  intro k inRange
  have stored := lookup_writeChunks (snapshotDir (snapshotHash sha256 height chunks)) 0 inRange
    s.files
  rw [zero_add] at stored
  rw [FileSnapshotStore.loadChunk, Finmap.lookup_insert_of_ne _ (by simp), stored,
    getElem?_eq_getElem inRange]
  rfl

theorem exists_provides :
    ∃ chunks, (memoryChunkProvider chunks).Provides sha256 after snapshot := by
  obtain ⟨chunks, -, count, load⟩ := exists_chunks_of_create created
  refine ⟨chunks, count.symm, ?_⟩
  intro index nonneg below
  obtain ⟨k, rfl⟩ := Int.eq_ofNat_of_zero_le nonneg
  have inRange : k < chunks.length := by
    rw [count] at below
    exact Int.ofNat_lt.mp below
  rw [load k inRange, memoryChunkProvider]
  simp [inRange]

theorem collectChunks_of_create (provides : provider.Provides sha256 after snapshot) :
    collectChunks provider = .ok (s.exportData lib gzip) := by
  obtain ⟨chunks, isSplit, chunkCount, load⟩ := exists_chunks_of_create created
  have each : ∀ i ∈ range chunks.length, provider.getChunk i = .ok (chunks.getD i []) := by
    intro i member
    have inRange := mem_range.mp member
    have below : (i : Int) < snapshot.chunks := chunkCount ▸ Int.ofNat_lt.mpr inRange
    rw [provides.getChunk i (Int.natCast_nonneg i) below, load i inRange]
    simp [inRange]
  have count : provider.chunkCount.toNat = chunks.length := by
    rw [provides.chunkCount, chunkCount]
    rfl
  rw [collectChunks, count, Fallible.mapM_eq_ok each, map_getD_range, Except.map,
    flatten_of_splitIntoChunks isSplit]

end Create

end Blockberry.StateStore
