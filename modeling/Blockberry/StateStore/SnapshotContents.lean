import Blockberry.StateStore.FlatTree
import Blockberry.StateStore.SnapshotStore

/-!
# What a snapshot restores

`Create` takes a height, but exports the version committed last and records the hash of the working
tree. So a snapshot for an earlier version restores it only if the contents are still the same.
Besides, nodes above the limits of reading and empty values do not survive the encoding.
-/

namespace Blockberry.StateStore

open Fallible IAVLStore

section Rebuild

variable {T : Type} (lib : Avlberry T)

/-- A tree is rebuilt from its encoded nodes. -/
def Rebuilds (version : Int64) (tree rebuilt : T) : Prop :=
  ∃ nodes, decodeNodes ((lib.exportNodes tree).flatMap encodeExportNode) = .ok nodes ∧
    lib.importNodes lib.empty version nodes = some rebuilt

variable {lib} {version : Int64} {tree rebuilt : T}

theorem get_eq_of_exportNodes_eq (same : lib.exportNodes rebuilt = lib.exportNodes tree)
    (key : Bytes) : lib.get rebuilt key = lib.get tree key := by
  apply Option.ext
  intro value
  rw [lib.get_eq_some_iff, lib.get_eq_some_iff, same]

theorem exists_rebuilds (survive : ∀ node ∈ lib.exportNodes tree, node.Survives)
    (version : Int64) : ∃ rebuilt, Rebuilds lib version tree rebuilt := by
  obtain ⟨rebuilt, imported⟩ :=
    Option.isSome_iff_exists.mp (lib.importNodes_exportNodes version tree)
  exact ⟨rebuilt, _, decodeNodes_of_survive survive, imported⟩

/-- A tree that is rebuilt at all has nodes that survive, unless a length is cut. -/
theorem survives_of_rebuilds (fit : ∀ node ∈ lib.exportNodes tree, node.LengthsFit)
    (rebuilds : Rebuilds lib version tree rebuilt) :
    ∀ node ∈ lib.exportNodes tree, node.Survives := by
  obtain ⟨nodes, read, imported⟩ := rebuilds
  have within := withinLimits_of_decodeNodes fit read
  rw [decodeNodes_flatMap within] at read
  have exported := lib.exportNodes_importNodes version nodes rebuilt imported
  rw [← Except.ok.inj read] at exported
  intro node member
  refine ⟨within node member, ?_⟩
  intro isEmpty
  have isLeaf : node.height = 0 := by
    by_contra inner
    rw [lib.inner_value tree node member inner] at isEmpty
    cases isEmpty
  have isExported : node.readBack ∈ lib.exportNodes rebuilt := by
    rw [exported]
    exact List.mem_map_of_mem member
  have isSome := lib.leaf_value rebuilt node.readBack isExported isLeaf
  simp [ExportNode.readBack, ExportNode.valueBytes, isEmpty] at isSome

theorem exportNodes_of_rebuilds (survive : ∀ node ∈ lib.exportNodes tree, node.Survives)
    (rebuilds : Rebuilds lib version tree rebuilt) :
    lib.exportNodes rebuilt = lib.exportNodes tree := by
  obtain ⟨nodes, read, imported⟩ := rebuilds
  rw [decodeNodes_of_survive survive] at read
  rw [lib.exportNodes_importNodes version nodes rebuilt imported, ← Except.ok.inj read]

end Rebuild

section Restore

variable {T : Type} {lib : Avlberry T} {gzip : Gzip} {sha256 : Bytes → Bytes}
  {s after : FileSnapshotStore T} {height : Int64} {now : Int} {snapshot : Snapshot}
  {provider : ChunkProvider}

theorem importSnapshot_eq_ok_iff
    (created : s.create lib gzip sha256 height now = some (snapshot, after))
    (provides : provider.Provides sha256 after snapshot) {target restored : FileSnapshotStore T}
    (isNew : target.stateStore = new lib) :
    target.importSnapshot lib gzip snapshot provider = .ok restored ↔
      ∃ rebuilt, Rebuilds lib height s.stateStore.tree.saved rebuilt ∧
        restored = { target with stateStore := ⟨⟨rebuilt, rebuilt, height⟩⟩ } := by
  have decompressed : gzip.decompress (s.exportData lib gzip) =
      some ((lib.exportNodes s.stateStore.tree.saved).flatMap encodeExportNode) :=
    gzip.decompress_compress _
  rw [FileSnapshotStore.importSnapshot, collectChunks_of_create created provides, ok_bind,
    elim_eq_ok_iff.mpr decompressed, ok_bind, height_of_create created, isNew]
  constructor
  · intro isOk
    obtain ⟨nodes, read, isOk⟩ := exists_of_bind_eq_ok isOk
    obtain ⟨rebuilt, imported, isOk⟩ := exists_of_bind_eq_ok isOk
    exact ⟨rebuilt, ⟨nodes, mapError_eq_ok_iff.mp read, elim_eq_ok_iff.mp imported⟩,
      (Except.ok.inj isOk).symm⟩
  · intro restoredFrom
    obtain ⟨rebuilt, ⟨nodes, read, imported⟩, rfl⟩ := restoredFrom
    rw [mapError_eq_ok_iff.mpr read, ok_bind, new, elim_eq_ok_iff.mpr imported, ok_bind]

structure Restores (lib : Avlberry T) (gzip : Gzip) (target : FileSnapshotStore T)
    (snapshot : Snapshot) (provider : ChunkProvider) (entry : Committed T) : Prop where
  contents : ∃ restored, target.importSnapshot lib gzip snapshot provider = .ok restored ∧
    ∀ key, restored.stateStore.get lib key = lib.get entry.tree key
  appHash : snapshot.appHash = entry.rootHash

structure StillCurrent (lib : Avlberry T) (store : IAVLStore T) (last entry : Committed T) :
    Prop where
  contents : ∀ key, lib.get last.tree key = lib.get entry.tree key
  workingHash : store.rootHash lib = entry.rootHash
  survive : ∀ node ∈ lib.exportNodes last.tree, node.Survives

/-- For every history, a snapshot created for a version committed in it restores it if and only if
the version is still current, provided that no length of an exported key or value is cut. -/
theorem restores_iff_stillCurrent (ops : List StateOp) {entry : Committed T}
    (committed : entry ∈ (StateHistory.ofCalls lib ops).commits)
    (ofHistory : s.stateStore = (StateHistory.ofCalls lib ops).store)
    (created : s.create lib gzip sha256 entry.version now = some (snapshot, after))
    (provides : provider.Provides sha256 after snapshot) {target : FileSnapshotStore T}
    (isNew : target.stateStore = IAVLStore.new lib) :
    ∃ last, (StateHistory.ofCalls lib ops).commits.getLast? = some last ∧
      (Restores lib gzip target snapshot provider entry ∧
          (∀ node ∈ lib.exportNodes last.tree, node.LengthsFit) ↔
        StillCurrent lib (StateHistory.ofCalls lib ops).store last entry) := by
  obtain ⟨last, isLast, saved⟩ := StateHistory.exists_last committed
  have imports : ∀ restored, target.importSnapshot lib gzip snapshot provider = .ok restored ↔ _ :=
    fun restored => importSnapshot_eq_ok_iff created provides isNew
  have appHash := appHash_of_create created
  rw [ofHistory] at appHash
  rw [ofHistory, saved] at imports
  refine ⟨last, isLast, ?_⟩
  constructor
  · intro both
    obtain ⟨restores, fit⟩ := both
    obtain ⟨restored, imported, contents⟩ := restores.contents
    obtain ⟨rebuilt, rebuilds, rfl⟩ := (imports restored).mp imported
    have survive := survives_of_rebuilds fit rebuilds
    refine ⟨?_, appHash.symm.trans restores.appHash, survive⟩
    intro key
    rw [← contents key, ← get_eq_of_exportNodes_eq (exportNodes_of_rebuilds survive rebuilds) key]
    rfl
  · intro current
    obtain ⟨rebuilt, rebuilds⟩ := exists_rebuilds current.survive entry.version
    have sameNodes := exportNodes_of_rebuilds current.survive rebuilds
    refine ⟨⟨⟨_, (imports _).mpr ⟨rebuilt, rebuilds, rfl⟩, ?_⟩, ?_⟩, ?_⟩
    · intro key
      exact (get_eq_of_exportNodes_eq sameNodes key).trans (current.contents key)
    · exact appHash.trans current.workingHash
    · intro node member
      exact (current.survive node member).lengthsFit

end Restore

namespace FlatTree

/-- Compression that does nothing. -/
def plain : Gzip := ⟨id, some, fun _ => rfl⟩

def oneCommit : List StateOp := [.set (some [1]) (some [10]), .commit]

def twoCommits : List StateOp := oneCommit ++ [.set (some [1]) (some [20]), .commit]

/-- A snapshot store over the state store of a history. -/
def snapshotStore (ops : List StateOp) : FileSnapshotStore FlatTree :=
  ⟨(StateHistory.ofCalls lib ops).store, 1024, ∅⟩

def emptyStore : FileSnapshotStore FlatTree := ⟨new lib, 1024, ∅⟩

def firstCommit : Committed FlatTree :=
  ⟨lib.hash (lib.set lib.empty [1] [10]), 0 + 1, lib.set lib.empty [1] [10]⟩

theorem restores_first_commit : ∃ snapshot after chunks,
    (snapshotStore oneCommit).create lib plain id firstCommit.version 0 = some (snapshot, after) ∧
      Restores lib plain emptyStore snapshot (memoryChunkProvider chunks) firstCommit := by
  obtain ⟨snapshot, after, created⟩ :=
    exists_create lib plain id (snapshotStore oneCommit) (by decide) firstCommit.version 0
  obtain ⟨chunks, provides⟩ := exists_provides created
  have committed : firstCommit ∈ (StateHistory.ofCalls lib oneCommit).commits :=
    List.mem_singleton.mpr rfl
  have isNew : emptyStore.stateStore = IAVLStore.new lib := rfl
  obtain ⟨last, isLast, restores⟩ :=
    restores_iff_stillCurrent oneCommit committed rfl created provides isNew
  cases isLast
  have current : StillCurrent lib (StateHistory.ofCalls lib oneCommit).store firstCommit
      firstCommit := ⟨fun _ => rfl, rfl, by decide +kernel⟩
  exact ⟨snapshot, after, chunks, created, (restores.mpr current).1⟩

/-- A snapshot for the first of two versions has the contents and the hash of the
second. -/
theorem create_exports_last_commit :
    firstCommit ∈ (StateHistory.ofCalls lib twoCommits).commits ∧
      ∃ snapshot after chunks restored,
        (snapshotStore twoCommits).create lib plain id firstCommit.version 0 =
            some (snapshot, after) ∧
          (memoryChunkProvider chunks).Provides id after snapshot ∧
          emptyStore.importSnapshot lib plain snapshot (memoryChunkProvider chunks) =
            .ok restored ∧
          restored.stateStore.get lib [1] = some [20] ∧
          lib.get firstCommit.tree [1] = some [10] ∧
          snapshot.appHash ≠ firstCommit.rootHash ∧
          ¬Restores lib plain emptyStore snapshot (memoryChunkProvider chunks) firstCommit := by
  refine ⟨List.mem_cons_self, ?_⟩
  obtain ⟨snapshot, after, created⟩ :=
    exists_create lib plain id (snapshotStore twoCommits) (by decide) firstCommit.version 0
  obtain ⟨chunks, provides⟩ := exists_provides created
  have survive : ∀ node ∈ lib.exportNodes (snapshotStore twoCommits).stateStore.tree.saved,
      node.Survives := by decide +kernel
  obtain ⟨rebuilt, rebuilds⟩ := exists_rebuilds survive firstCommit.version
  have isNew : emptyStore.stateStore = IAVLStore.new lib := rfl
  have imported := (importSnapshot_eq_ok_iff created provides isNew).mpr ⟨rebuilt, rebuilds, rfl⟩
  have restoredValue : lib.get rebuilt [1] = some [20] := by
    rw [get_eq_of_exportNodes_eq (exportNodes_of_rebuilds survive rebuilds)]
    decide +kernel
  have otherHash : snapshot.appHash ≠ firstCommit.rootHash := by
    rw [appHash_of_create created]
    decide +kernel
  exact ⟨snapshot, after, chunks, _, created, provides, imported, restoredValue,
    by decide +kernel, otherHash, fun restores => otherHash restores.appHash⟩

end FlatTree

end Blockberry.StateStore
