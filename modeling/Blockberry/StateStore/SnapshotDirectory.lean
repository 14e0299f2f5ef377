import Mathlib
import Blockberry.Lib.FileTree
import Blockberry.Lib.SortSlice
import Blockberry.StateStore.Metadata

/-!
# Finding snapshots again

All calls name a snapshot by the first eight bytes of its hash, and all but `List` panic if the
hash is shorter. Only `Load` compares the whole hash. `os.ReadDir` gives the directories in the
order of their names; how `sort.Slice` orders snapshots of the same height is left open.
-/

namespace Blockberry.StateStore

open FileTree FileSnapshotStore List

inductive LookupError where
  | notFound
  | decodingMetadata (err : MetadataError)
  | corrupt
  deriving DecidableEq, Repr

/-- `Error` of the errors of the store. -/
def LookupError.message : LookupError → String
  | .notFound => "snapshot not found"
  | .decodingMetadata err => "decoding metadata: " ++ err.message
  | .corrupt => "snapshot is corrupt"

structure SnapshotInfo where
  height : Int64
  hash : Bytes
  chunks : Int
  size : Int
  createdAt : Option Int
  deriving DecidableEq, Repr

/-- Greater heights come first. -/
def SnapshotInfo.rank (info : SnapshotInfo) : Nat := (2 ^ 63 - 1 - info.height.toInt).toNat

variable (files : SnapshotFiles)

def readDir : List Bytes := (directories files).sort (· ≤ ·)

/-- The size of a chunk file, or nothing if it is missing. -/
def chunkFileSize (dir : Bytes) (index : Nat) : Int :=
  (files.lookup (dir, .chunk index)).elim 0 fun data => data.length

def totalSize (dir : Bytes) (chunks : Int) : Int :=
  ((List.range chunks.toNat).map (chunkFileSize files dir)).sum

/-- One round of the loop of `List`. -/
def snapshotInfo (dir : Bytes) : Option SnapshotInfo :=
  match files.lookup (dir, .metadata) with
  | none => none
  | some metadata =>
    match decodeSnapshotMetadata metadata with
    | .error _ => none
    | .ok snapshot =>
      some
        { height := snapshot.height
          hash := snapshot.hash
          chunks := snapshot.chunks
          size := totalSize files dir snapshot.chunks
          createdAt := snapshot.createdAt }

namespace FileSnapshotStore

variable {T : Type} (sorter : SortSlice.Sorter SnapshotInfo.rank)

variable (s : FileSnapshotStore T)

def setChunkSize (size : Int) : FileSnapshotStore T :=
  { s with chunkSize := size }

def list : List SnapshotInfo :=
  sorter.sort ((readDir s.files).filterMap (snapshotInfo s.files))

def load (hash : Bytes) : Except LookupError Snapshot :=
  match s.files.lookup (snapshotDir hash, .metadata) with
  | none => .error .notFound
  | some metadata =>
    match decodeSnapshotMetadata metadata with
    | .error err => .error (.decodingMetadata err)
    | .ok snapshot => if snapshot.hash = hash then .ok snapshot else .error .corrupt

def has (hash : Bytes) : Bool :=
  decide (snapshotDir hash ∈ directories s.files)

def delete (hash : Bytes) : Except LookupError (FileSnapshotStore T) :=
  if s.has hash then .ok { s with files := removeAll s.files (snapshotDir hash) }
  else .error .notFound

/-- The loop of `Prune`: the hashes it has deleted, the store and the error that ended it. -/
def deleteEach (s : FileSnapshotStore T) :
    List Bytes → List Bytes × FileSnapshotStore T × Option LookupError
  | [] => ([], s, none)
  | hash :: hashes =>
    match s.delete hash with
    | .error err => ([], s, some err)
    | .ok next =>
      let (deleted, last, err) := next.deleteEach hashes
      (hash :: deleted, last, err)

/-- `Prune`, with the hashes that it has deleted. A negative number of snapshots to keep
panics. -/
def prune (keepRecent : Int) : Option (List Bytes × FileSnapshotStore T × Option LookupError) :=
  if (s.list sorter).length ≤ keepRecent then some ([], s, none)
  else if keepRecent < 0 then none
  else some (s.deleteEach (((s.list sorter).drop keepRecent.toNat).map SnapshotInfo.hash))

end FileSnapshotStore

section Store

variable {T : Type} {sha256 : Bytes → Bytes} {sorter : SortSlice.Sorter SnapshotInfo.rank}
  {s : FileSnapshotStore T} {hash : Bytes}

theorem load_of_lookup {metadata : Bytes} {found : Snapshot}
    (stored : s.files.lookup (snapshotDir hash, .metadata) = some metadata)
    (read : decodeSnapshotMetadata metadata = .ok found) :
    s.load hash = if found.hash = hash then .ok found else .error .corrupt := by
  simp only [load, stored, read]

theorem exists_of_load {found : Snapshot} (loaded : s.load hash = .ok found) :
    ∃ metadata, s.files.lookup (snapshotDir hash, .metadata) = some metadata ∧
      decodeSnapshotMetadata metadata = .ok found ∧ found.hash = hash := by
  unfold load at loaded
  split at loaded
  next => cases loaded
  next metadata stored =>
    split at loaded
    next => cases loaded
    next snapshot read =>
      split at loaded
      next same =>
        cases loaded
        exact ⟨metadata, stored, read, same⟩
      next => cases loaded

theorem mem_readDir {files : SnapshotFiles} {dir : Bytes} :
    dir ∈ readDir files ↔ dir ∈ directories files := by
  rw [readDir, Finset.mem_sort]

theorem mem_list {info : SnapshotInfo} :
    info ∈ s.list sorter ↔ ∃ dir ∈ directories s.files, snapshotInfo s.files dir = some info := by
  rw [list, (sorter.perm _).mem_iff, mem_filterMap]
  simp only [mem_readDir]

theorem loadChunk_of_lookup {data : Bytes} {index : Int}
    (stored : s.files.lookup (snapshotDir hash, .chunk index) = some data) :
    s.loadChunk sha256 hash index = .ok ⟨index, sha256 data, data⟩ := by
  simp only [loadChunk, stored]

theorem loadChunks_of_lookup (sha256 : Bytes → Bytes) {parts : List Bytes}
    (stored : ∀ i : Nat, i < parts.length →
      s.files.lookup (snapshotDir hash, .chunk i) = parts[i]?) :
    ∃ chunks, (List.range parts.length).mapM (fun i : Nat => s.loadChunk sha256 hash i) =
        .ok chunks ∧
      chunks.map SnapshotChunk.data = parts := by
  have each : ∀ i ∈ List.range parts.length, s.loadChunk sha256 hash (i : Int) =
      .ok ⟨i, sha256 (parts.getD i []), parts.getD i []⟩ := by
    intro i member
    have inRange := mem_range.mp member
    apply loadChunk_of_lookup
    rw [stored i inRange, getD_eq_getElem?_getD, List.getElem?_eq_getElem inRange]
    rfl
  refine ⟨_, Fallible.mapM_eq_ok each, ?_⟩
  rw [map_map]
  exact map_getD_range parts

theorem exists_of_snapshotInfo {files : SnapshotFiles} {dir : Bytes} {info : SnapshotInfo}
    (isInfo : snapshotInfo files dir = some info) :
    ∃ metadata snapshot, files.lookup (dir, .metadata) = some metadata ∧
      decodeSnapshotMetadata metadata = .ok snapshot ∧ info.hash = snapshot.hash := by
  unfold snapshotInfo at isInfo
  split at isInfo
  next => cases isInfo
  next metadata stored =>
    split at isInfo
    next => cases isInfo
    next snapshot read =>
      cases isInfo
      exact ⟨metadata, snapshot, stored, read, rfl⟩

/-- The directories of some hashes are removed. -/
structure Removes (hashes : List Bytes) (before after : SnapshotFiles) : Prop where
  gone : ∀ key, key.1 ∈ hashes.map snapshotDir → after.lookup key = none
  kept : ∀ key, key.1 ∉ hashes.map snapshotDir → after.lookup key = before.lookup key

theorem removes_nothing (files : SnapshotFiles) : Removes [] files files where
  gone _ member := by cases member
  kept _ _ := rfl

theorem Removes.cons {hashes : List Bytes} {before between after : SnapshotFiles}
    (first : Removes [hash] before between) (later : Removes hashes between after) :
    Removes (hash :: hashes) before after where
  gone key removed := by
    by_cases again : key.1 ∈ hashes.map snapshotDir
    · exact later.gone key again
    · have isFirst : key.1 = snapshotDir hash := (mem_cons.mp removed).resolve_right again
      rw [later.kept key again, first.gone key (mem_singleton.mpr isFirst)]
  kept key other := by
    have notFirst : key.1 ∉ [hash].map snapshotDir := fun isFirst =>
      other (mem_cons.mpr (Or.inl (mem_singleton.mp isFirst)))
    rw [later.kept key fun again => other (mem_cons_of_mem _ again), first.kept key notFirst]

theorem removes_of_delete {after : FileSnapshotStore T}
    (deleted : s.delete hash = .ok after) : Removes [hash] s.files after.files := by
  unfold delete at deleted
  split at deleted
  next =>
    cases deleted
    constructor
    · intro key removed
      rw [lookup_removeAll, if_pos (mem_singleton.mp removed)]
    · intro key other
      rw [lookup_removeAll, if_neg fun same => other (mem_singleton.mpr same)]
  next => cases deleted

theorem removes_deleteEach (hashes : List Bytes) :
    Removes (s.deleteEach hashes).1 s.files (s.deleteEach hashes).2.1.files := by
  induction hashes generalizing s with
  | nil => exact removes_nothing s.files
  | cons hash hashes ih =>
    rw [deleteEach]
    split
    next => exact removes_nothing s.files
    next deleted => exact (removes_of_delete deleted).cons ih

theorem mem_of_deleteEach (hashes : List Bytes) :
    ∀ hash ∈ (s.deleteEach hashes).1, hash ∈ hashes := by
  induction hashes generalizing s with
  | nil => exact fun _ member => member
  | cons first hashes ih =>
    rw [deleteEach]
    split
    next => exact forall_mem_nil _
    next =>
      exact forall_mem_cons.mpr
        ⟨mem_cons_self, fun hash member => mem_cons_of_mem _ (ih hash member)⟩

theorem removes_of_prune {keepRecent : Int} {deleted : List Bytes} {after : FileSnapshotStore T}
    {err : Option LookupError} (pruned : s.prune sorter keepRecent = some (deleted, after, err)) :
    Removes deleted s.files after.files ∧
      ∀ hash ∈ deleted, ∃ info ∈ s.list sorter, info.hash = hash := by
  unfold prune at pruned
  split at pruned
  next =>
    cases pruned
    exact ⟨removes_nothing s.files, forall_mem_nil _⟩
  next =>
    split at pruned
    next => cases pruned
    have removes := removes_deleteEach (s := s)
      (((s.list sorter).drop keepRecent.toNat).map SnapshotInfo.hash)
    have listed := mem_of_deleteEach (s := s)
      (((s.list sorter).drop keepRecent.toNat).map SnapshotInfo.hash)
    rw [Option.some.inj pruned] at removes listed
    refine ⟨removes, fun hash member => ?_⟩
    obtain ⟨info, isInfo, same⟩ := mem_map.mp (listed hash member)
    exact ⟨info, mem_of_mem_drop isInfo, same⟩

end Store

end Blockberry.StateStore
