import Blockberry.StateStore.SnapshotCatalog

/-!
# Eight bytes for a hash

`Has`, `LoadChunk` and `Delete` take any hash that begins with the eight bytes of a directory for
that of its snapshot, where `Load` reports a corrupt snapshot. Besides, a snapshot whose metadata
is refused by `Load` is there for the others.
-/

namespace Blockberry.StateStore

open FileTree Finmap List

section Identity

variable {T : Type}

/-- The snapshot in the directory of a hash has that hash. -/
def Catalog.Stores (c : Catalog T) (hash : Bytes) : Prop :=
  ∃ snapshot, c.current.lookup (snapshotDir hash) = some snapshot ∧ snapshot.hash = hash

/-- The functions that take a hash mean the snapshot with this hash. -/
structure Catalog.Identifies (c : Catalog T) (sha256 : Bytes → Bytes) (hash : Bytes) : Prop where
  has_iff : c.store.has hash = true ↔ ∃ found, c.store.load hash = .ok found
  chunk : ∀ index chunk, c.store.loadChunk sha256 hash index = .ok chunk → c.Stores hash
  delete : ¬c.Stores hash → c.store.delete hash = .error .notFound

/-- The strings of a snapshot are as `Create` makes them. -/
structure Snapshot.Made (s : Snapshot) : Prop extends s.StringsFit where
  hashSize : s.hash.length = 32

/-- The directories are those of the snapshots that were last written there. -/
structure Catalog.Represented (c : Catalog T) : Prop where
  written : ∀ dir snapshot, c.current.lookup dir = some snapshot →
    c.store.files.lookup (dir, .metadata) = some (encodeSnapshotMetadata snapshot)
  made : ∀ dir snapshot, c.current.lookup dir = some snapshot → snapshot.Made
  nothing : ∀ dir file, c.current.lookup dir = none → c.store.files.lookup (dir, file) = none

/-- The limits on the hashes are kept by SHA-256 and by the root hashes of avlberry. -/
structure HashSizes (lib : Avlberry T) (sha256 : Bytes → Bytes) : Prop where
  sha256 : ∀ bytes, (sha256 bytes).length = 32
  root : ∀ tree, (lib.hash tree).length ≤ maxSnapshotHashSize

variable {lib : Avlberry T} {gzip : Gzip} {sha256 : Bytes → Bytes}
  {sorter : SortSlice.Sorter SnapshotInfo.rank} {c : Catalog T}

theorem made_of_create (sizes : HashSizes lib sha256) {s after : FileSnapshotStore T}
    {height : Int64} {now : Int} {snapshot : Snapshot}
    (created : s.create lib gzip sha256 height now = some (snapshot, after)) :
    snapshot.Made := by
  obtain ⟨chunks, -, same⟩ := Option.map_eq_some_iff.mp created
  cases same
  refine ⟨⟨?_, sizes.root _, Nat.zero_le _⟩, sizes.sha256 _⟩
  change (sha256 _).length ≤ _
  rw [sizes.sha256]
  decide

theorem lookup_foldl_erase (hashes : List Bytes) (current : Finmap fun _ : Bytes => Snapshot)
    (dir : Bytes) :
    (hashes.foldl (fun current hash => current.erase (snapshotDir hash)) current).lookup dir =
      if dir ∈ hashes.map snapshotDir then none else current.lookup dir := by
  induction hashes generalizing current with
  | nil => rfl
  | cons hash hashes ih =>
    rw [foldl_cons, ih, FiniteMap.lookup_erase, map_cons]
    by_cases later : dir ∈ hashes.map snapshotDir
    · rw [if_pos later, if_pos (mem_cons_of_mem _ later)]
    · rw [if_neg later]
      by_cases same : snapshotDir hash = dir
      · rw [if_pos same, if_pos (same ▸ mem_cons_self)]
      · rw [if_neg same, if_neg (fun member => (mem_cons.mp member).elim (Ne.symm same) later)]

theorem represented_new (stateStore : IAVLStore T) (chunkSize : Int) :
    (Catalog.new stateStore chunkSize).Represented where
  written dir snapshot isCurrent := by
    change lookup dir (∅ : Finmap fun _ : Bytes => Snapshot) = _ at isCurrent
    rw [lookup_empty] at isCurrent
    cases isCurrent
  made dir snapshot isCurrent := by
    change lookup dir (∅ : Finmap fun _ : Bytes => Snapshot) = _ at isCurrent
    rw [lookup_empty] at isCurrent
    cases isCurrent
  nothing dir file _ := lookup_empty (dir, file)

variable (represented : c.Represented)

include represented

theorem Catalog.Represented.create (sizes : HashSizes lib sha256)
    (height : Int64) (now : Int) : (c.create lib gzip sha256 height now).Represented := by
  rw [Catalog.create]
  split
  next => exact represented
  next snapshot store created =>
    have current : ∀ dir, (c.current.insert (snapshotDir snapshot.hash) snapshot).lookup dir =
        if snapshotDir snapshot.hash = dir then some snapshot else c.current.lookup dir :=
      fun dir => FiniteMap.lookup_insert c.current _ dir snapshot
    refine ⟨?_, ?_, ?_⟩
    · intro dir found isCurrent
      rw [current] at isCurrent
      split at isCurrent
      next same =>
        cases isCurrent
        rw [← same]
        exact (writtenTo_of_create created).metadata
      next other =>
        exact (lookup_of_create created (Ne.symm other)).trans
          (represented.written dir found isCurrent)
    · intro dir found isCurrent
      rw [current] at isCurrent
      split at isCurrent
      next =>
        cases isCurrent
        exact made_of_create sizes created
      next => exact represented.made dir found isCurrent
    · intro dir file isNothing
      rw [current] at isNothing
      split at isNothing
      next => cases isNothing
      next other =>
        exact (lookup_of_create created (Ne.symm other)).trans
          (represented.nothing dir file isNothing)

theorem Catalog.Represented.forget {hashes : List Bytes}
    {after : FileSnapshotStore T} (removes : Removes hashes c.store.files after.files) :
    (c.forget after hashes).Represented := by
  have current : ∀ dir, (c.forget after hashes).current.lookup dir =
      if dir ∈ hashes.map snapshotDir then none else c.current.lookup dir :=
    lookup_foldl_erase hashes c.current
  refine ⟨?_, ?_, ?_⟩
  · intro dir found isCurrent
    rw [current] at isCurrent
    split at isCurrent
    next => cases isCurrent
    next kept =>
      exact (removes.kept (dir, .metadata) kept).trans (represented.written dir found isCurrent)
  · intro dir found isCurrent
    rw [current] at isCurrent
    split at isCurrent
    next => cases isCurrent
    next => exact represented.made dir found isCurrent
  · intro dir file isNothing
    rw [current] at isNothing
    split at isNothing
    next removed => exact removes.gone (dir, file) removed
    next kept =>
      exact (removes.kept (dir, file) kept).trans (represented.nothing dir file isNothing)

theorem Catalog.Represented.step (sizes : HashSizes lib sha256)
    (event : CatalogEvent T) : (c.step lib gzip sha256 sorter event).Represented := by
  cases event with
  | setChunkSize | update => exact ⟨represented.written, represented.made, represented.nothing⟩
  | create height now => exact represented.create sizes height now
  | delete hash =>
    change (c.delete hash).Represented
    rw [Catalog.delete]
    split
    next => exact represented
    next =>
      split
      next => exact represented
      next store deleted => exact represented.forget (removes_of_delete deleted)
  | prune keepRecent =>
    change (c.prune sorter keepRecent).Represented
    rw [Catalog.prune]
    split
    next => exact represented
    next deleted store err pruned => exact represented.forget (removes_of_prune pruned).1

/-! ## What a hash stands for -/

theorem Catalog.Represented.has_iff (hash : Bytes) :
    c.store.has hash = true ↔ ∃ snapshot, c.current.lookup (snapshotDir hash) = some snapshot := by
  rw [FileSnapshotStore.has, decide_eq_true_iff, mem_directories]
  constructor
  · rintro ⟨file, present⟩
    cases isCurrent : c.current.lookup (snapshotDir hash) with
    | none =>
      rw [← lookup_isSome, represented.nothing _ file isCurrent] at present
      cases present
    | some snapshot => exact ⟨snapshot, rfl⟩
  · rintro ⟨snapshot, isCurrent⟩
    exact ⟨.metadata, mem_of_lookup_eq_some (represented.written _ snapshot isCurrent)⟩

theorem Catalog.Represented.hash_of_listed {info : SnapshotInfo}
    (listed : info ∈ c.store.list sorter) : info.hash.length = 32 := by
  obtain ⟨dir, -, isInfo⟩ := mem_list.mp listed
  obtain ⟨metadata, found, stored, read, sameHash⟩ := exists_of_snapshotInfo isInfo
  cases isCurrent : c.current.lookup dir with
  | none =>
    rw [represented.nothing dir .metadata isCurrent] at stored
    cases stored
  | some snapshot =>
    have made := represented.made dir snapshot isCurrent
    rw [represented.written dir snapshot isCurrent] at stored
    cases stored
    by_cases few : snapshot.chunks % 2 ^ 32 ≤ maxSnapshotChunks
    · rw [decodeSnapshotMetadata_of_few made.toStringsFit few] at read
      cases read
      rw [sameHash]
      exact made.hashSize
    · rw [decodeSnapshotMetadata_of_many made.hash (Int.not_le.mp few)] at read
      cases read

/-- `Load` succeeds for the hash of a snapshot whose chunk count is not refused. -/
theorem Catalog.Represented.exists_load_iff {hash : Bytes}
    {snapshot : Snapshot} (isCurrent : c.current.lookup (snapshotDir hash) = some snapshot) :
    (∃ found, c.store.load hash = .ok found) ↔
      snapshot.hash = hash ∧ snapshot.chunks % 2 ^ 32 ≤ maxSnapshotChunks := by
  have isMetadata := represented.written _ snapshot isCurrent
  have fit := (represented.made _ snapshot isCurrent).toStringsFit
  constructor
  · rintro ⟨found, loaded⟩
    obtain ⟨metadata, stored, read, sameHash⟩ := exists_of_load loaded
    rw [isMetadata] at stored
    cases stored
    by_cases few : snapshot.chunks % 2 ^ 32 ≤ maxSnapshotChunks
    · rw [decodeSnapshotMetadata_of_few fit few] at read
      cases read
      exact ⟨sameHash, few⟩
    · rw [decodeSnapshotMetadata_of_many fit.hash (Int.not_le.mp few)] at read
      cases read
  · rintro ⟨sameHash, few⟩
    refine ⟨snapshot.asRead, ?_⟩
    rw [load_of_lookup isMetadata (decodeSnapshotMetadata_of_few fit few)]
    exact if_pos sameHash

/-- A hash means its snapshot if and only if the snapshot in its directory, if any, has this
hash and a chunk count that is not refused. -/
theorem Catalog.Represented.identifies_iff (hash : Bytes) : c.Identifies sha256 hash ↔
      ∀ snapshot, c.current.lookup (snapshotDir hash) = some snapshot →
        snapshot.hash = hash ∧ snapshot.chunks % 2 ^ 32 ≤ maxSnapshotChunks := by
  constructor
  · intro identifies snapshot isCurrent
    have isThere := (represented.has_iff hash).mpr ⟨snapshot, isCurrent⟩
    exact (represented.exists_load_iff isCurrent).mp (identifies.has_iff.mp isThere)
  · intro own
    refine ⟨?_, ?_, ?_⟩
    · rw [represented.has_iff]
      constructor
      · rintro ⟨snapshot, isCurrent⟩
        exact (represented.exists_load_iff isCurrent).mpr (own snapshot isCurrent)
      · rintro ⟨found, loaded⟩
        obtain ⟨metadata, stored, -, -⟩ := exists_of_load loaded
        cases isCurrent : c.current.lookup (snapshotDir hash) with
        | none =>
          rw [represented.nothing _ .metadata isCurrent] at stored
          cases stored
        | some snapshot => exact ⟨snapshot, rfl⟩
    · intro index chunk loaded
      cases isCurrent : c.current.lookup (snapshotDir hash) with
      | none =>
        rw [FileSnapshotStore.loadChunk, represented.nothing _ (.chunk index) isCurrent] at loaded
        cases loaded
      | some snapshot => exact ⟨snapshot, isCurrent, (own snapshot isCurrent).1⟩
    · intro notStored
      have notThere : ¬c.store.has hash = true := by
        rw [represented.has_iff]
        rintro ⟨snapshot, isCurrent⟩
        exact notStored ⟨snapshot, isCurrent, (own snapshot isCurrent).1⟩
      rw [FileSnapshotStore.delete, if_neg notThere]

omit represented

/-- After every run of calls, a hash means the snapshot with this hash if and only if no snapshot
with another hash that begins with the same eight bytes is stored, and none with a chunk count that
is refused. -/
theorem hash_identifies_iff (sizes : HashSizes lib sha256) (stateStore : IAVLStore T)
    (chunkSize : Int) (events : List (CatalogEvent T)) (hash : Bytes) :
    let c :=
      Run.after (Catalog.step lib gzip sha256 sorter) (Catalog.new stateStore chunkSize) events
    c.Identifies sha256 hash ↔
      ∀ snapshot, c.current.lookup (snapshotDir hash) = some snapshot →
        snapshot.hash = hash ∧ snapshot.chunks % 2 ^ 32 ≤ maxSnapshotChunks := by
  have represented : (Run.after (Catalog.step lib gzip sha256 sorter)
      (Catalog.new stateStore chunkSize) events).Represented :=
    Run.invariant_after events (represented_new stateStore chunkSize)
      fun c event holds => holds.step sizes event
  exact represented.identifies_iff hash

end Identity

namespace FlatTree

/-- Ordered maps with an empty root hash. -/
def rootless : Avlberry FlatTree := { lib with hash := fun _ => [] }

/-- The first 32 bytes in place of a digest. -/
def firstBytes (bytes : Bytes) : Bytes := (bytes ++ replicate 32 0).take 32

theorem hashSizes_firstBytes : HashSizes rootless firstBytes where
  sha256 bytes := by simp [firstBytes]
  root _ := Nat.zero_le _

def oneSnapshot : Catalog FlatTree :=
  Run.after (Catalog.step rootless plain firstBytes (SortSlice.insertion SnapshotInfo.rank))
    (Catalog.new (StateHistory.ofCalls lib oneCommit).store 1024) [.create 1 0]

def ownHash : Bytes :=
  [0, 0, 0, 0, 0, 0, 0, 1, 0, 0, 0, 1, 1, 0, 0, 0, 1, 10, 0, 0, 0, 0, 0, 0, 0, 0, 1, 0, 0, 0, 0, 0]

/-- Another hash with the same first bytes. -/
def otherHash : Bytes := [0, 0, 0, 0, 0, 0, 0, 1] ++ replicate 24 0

theorem exists_current_ownHash : ∃ snapshot,
    oneSnapshot.current.lookup (snapshotDir ownHash) = some snapshot ∧ snapshot.hash = ownHash ∧
      snapshot.chunks = 1 := by
  have stored : (oneSnapshot.current.lookup (snapshotDir ownHash)).map
      (fun snapshot => (snapshot.hash, snapshot.chunks)) = some (ownHash, 1) := by
    decide +kernel
  obtain ⟨snapshot, isCurrent, same⟩ := Option.map_eq_some_iff.mp stored
  exact ⟨snapshot, isCurrent, congrArg Prod.fst same, congrArg Prod.snd same⟩

theorem ownHash_identifies : oneSnapshot.Stores ownHash ∧
    oneSnapshot.Identifies firstBytes ownHash := by
  obtain ⟨snapshot, isCurrent, sameHash, oneChunk⟩ := exists_current_ownHash
  refine ⟨⟨snapshot, isCurrent, sameHash⟩,
    (hash_identifies_iff hashSizes_firstBytes _ _ _ ownHash).mpr ?_⟩
  intro found isFound
  change oneSnapshot.current.lookup (snapshotDir ownHash) = some found at isFound
  rw [isCurrent] at isFound
  cases isFound
  rw [oneChunk]
  exact ⟨sameHash, by decide⟩

/-- A hash that no snapshot has is found, has chunks and deletes the snapshot of another. -/
theorem otherHash_taken_for_own : otherHash.length = 32 ∧ ¬oneSnapshot.Stores otherHash ∧
    oneSnapshot.store.has otherHash = true ∧
    oneSnapshot.store.load otherHash = .error .corrupt ∧
    (oneSnapshot.store.loadChunk firstBytes otherHash 0).isOk = true ∧
    (oneSnapshot.store.delete otherHash).map (fun after => after.has ownHash) = .ok false ∧
    ¬oneSnapshot.Identifies firstBytes otherHash := by
  have isThere : oneSnapshot.store.has otherHash = true := by decide +kernel
  have corrupt : oneSnapshot.store.load otherHash = .error .corrupt := by decide +kernel
  refine ⟨by decide, ?_, isThere, corrupt, by decide +kernel, by decide +kernel, ?_⟩
  · rintro ⟨found, isFound, isOther⟩
    obtain ⟨snapshot, isCurrent, sameHash, -⟩ := exists_current_ownHash
    have sameDir : snapshotDir otherHash = snapshotDir ownHash := by decide
    rw [sameDir, isCurrent] at isFound
    cases isFound
    rw [sameHash] at isOther
    exact absurd isOther (by decide)
  · intro identifies
    obtain ⟨found, loaded⟩ := identifies.has_iff.mp isThere
    rw [corrupt] at loaded
    cases loaded

end FlatTree

end Blockberry.StateStore
