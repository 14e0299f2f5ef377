import Blockberry.StateStore.SnapshotContents
import Blockberry.StateStore.SnapshotDirectory

/-!
# A snapshot store in use

The calls on a file snapshot store, in any order, with two records that the store does not have:
the snapshots created and not deleted since, each with the data exported for it, and for each
directory the snapshot last written there.
-/

namespace Blockberry.StateStore

open FileTree

/-- A snapshot that `Create` has returned, and the exported data. -/
structure Kept where
  snapshot : Snapshot
  data : Bytes
  deriving DecidableEq, Repr

def Kept.dir (k : Kept) : Bytes := snapshotDir k.snapshot.hash

def Kept.parts (k : Kept) : List Bytes :=
  (splitIntoChunks k.data k.snapshot.chunkSize).getD []

/-- A snapshot store with the snapshots it should have. -/
structure Catalog (T : Type) where
  store : FileSnapshotStore T
  kept : List Kept
  current : Finmap fun _ : Bytes => Snapshot

/-- The calls. The state store may have any other contents at any time. -/
inductive CatalogEvent (T : Type) where
  | setChunkSize (size : Int)
  | update (stateStore : IAVLStore T)
  | create (height : Int64) (now : Int)
  | delete (hash : Bytes)
  | prune (keepRecent : Int)

namespace Catalog

variable {T : Type} (lib : Avlberry T) (gzip : Gzip) (sha256 : Bytes → Bytes)
  (sorter : SortSlice.Sorter SnapshotInfo.rank)

def new (stateStore : IAVLStore T) (chunkSize : Int) : Catalog T where
  store := ⟨stateStore, chunkSize, ∅⟩
  kept := []
  current := ∅

/-- A call that does not return changes nothing. -/
def create (c : Catalog T) (height : Int64) (now : Int) : Catalog T :=
  match c.store.create lib gzip sha256 height now with
  | none => c
  | some (snapshot, store) =>
    { store
      kept := c.kept ++ [⟨snapshot, c.store.exportData lib gzip⟩]
      current := c.current.insert (snapshotDir snapshot.hash) snapshot }

/-- The records without the snapshots of some hashes. -/
def forget (c : Catalog T) (store : FileSnapshotStore T) (hashes : List Bytes) : Catalog T where
  store
  kept := c.kept.filter fun k => !hashes.contains k.snapshot.hash
  current := hashes.foldl (fun current hash => current.erase (snapshotDir hash)) c.current

/-- A hash of less than eight bytes panics. -/
def delete (c : Catalog T) (hash : Bytes) : Catalog T :=
  if hash.length < 8 then c
  else
    match c.store.delete hash with
    | .error _ => c
    | .ok store => c.forget store [hash]

def prune (c : Catalog T) (keepRecent : Int) : Catalog T :=
  match c.store.prune sorter keepRecent with
  | none => c
  | some (deleted, store, _) => c.forget store deleted

def step (c : Catalog T) : CatalogEvent T → Catalog T
  | .setChunkSize size => { c with store := c.store.setChunkSize size }
  | .update stateStore => { c with store := { c.store with stateStore } }
  | .create height now => c.create lib gzip sha256 height now
  | .delete hash => c.delete hash
  | .prune keepRecent => c.prune sorter keepRecent

end Catalog

theorem lookup_writeChunks_of_ne {dir : Bytes} {key : Bytes × SnapshotFile}
    (other : ∀ i : Nat, key ≠ (dir, .chunk i)) (i : Nat) (chunks : List Bytes)
    (files : SnapshotFiles) : (writeChunks dir i chunks files).lookup key = files.lookup key := by
  induction chunks generalizing i files with
  | nil => rfl
  | cons chunk chunks ih =>
    rw [writeChunks, ih, Finmap.lookup_insert_of_ne _ (other i)]

/-- The files of one directory are those of a created snapshot. -/
structure Kept.WrittenTo (k : Kept) (sha256 : Bytes → Bytes) (files : SnapshotFiles) : Prop where
  split : splitIntoChunks k.data k.snapshot.chunkSize = some k.parts
  count : k.snapshot.chunks = k.parts.length
  hash : k.snapshot.hash = snapshotHash sha256 k.snapshot.height k.parts
  noMetadata : k.snapshot.metadata = []
  metadata : files.lookup (k.dir, .metadata) = some (encodeSnapshotMetadata k.snapshot)
  chunk : ∀ i : Nat, i < k.parts.length → files.lookup (k.dir, .chunk i) = k.parts[i]?

section Create

variable {T : Type} {lib : Avlberry T} {gzip : Gzip} {sha256 : Bytes → Bytes}
  {s after : FileSnapshotStore T} {height : Int64} {now : Int} {snapshot : Snapshot}

theorem writtenTo_of_create
    (created : s.create lib gzip sha256 height now = some (snapshot, after)) :
    (Kept.mk snapshot (s.exportData lib gzip)).WrittenTo sha256 after.files := by
  obtain ⟨chunks, isSplit, same⟩ := Option.map_eq_some_iff.mp created
  have parts : Kept.parts ⟨snapshot, s.exportData lib gzip⟩ = chunks := by
    cases same
    exact congrArg (Option.getD · []) isSplit
  cases same
  refine ⟨?_, ?_, ?_, rfl, Finmap.lookup_insert _, ?_⟩
  · rw [parts]
    exact isSplit
  · rw [parts]
  · rw [parts]
  · intro i inRange
    rw [parts] at inRange ⊢
    have stored := lookup_writeChunks (snapshotDir (snapshotHash sha256 height chunks)) 0 inRange
      s.files
    rw [Nat.zero_add] at stored
    exact (Finmap.lookup_insert_of_ne _ (by simp)).trans stored

theorem lookup_of_create (created : s.create lib gzip sha256 height now = some (snapshot, after))
    {key : Bytes × SnapshotFile} (other : key.1 ≠ snapshotDir snapshot.hash) :
    after.files.lookup key = s.files.lookup key := by
  obtain ⟨chunks, -, same⟩ := Option.map_eq_some_iff.mp created
  cases same
  have otherKey : ∀ file, key ≠ (snapshotDir (snapshotHash sha256 height chunks), file) := by
    rintro file rfl
    exact other rfl
  exact (Finmap.lookup_insert_of_ne _ (otherKey .metadata)).trans
    (lookup_writeChunks_of_ne (fun i => otherKey (.chunk i)) 0 chunks s.files)

end Create

end Blockberry.StateStore
