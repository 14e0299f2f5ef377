import Blockberry.StateStore.SnapshotCatalog

/-!
# Whether created snapshots can be found

A created snapshot can be listed, loaded and read as long as its metadata is within the limits of
reading and no other snapshot is written to its directory or deleted through it. The directory is
named by eight bytes of the hash, and the hash covers the height and the exported data only.
-/

namespace Blockberry.StateStore

open FileTree List SortSlice

/-- The fields of a snapshot other than its time and application metadata. -/
structure Snapshot.Agrees (s other : Snapshot) : Prop where
  height : s.height = other.height
  hash : s.hash = other.hash
  chunkSize : s.chunkSize = other.chunkSize
  chunks : s.chunks = other.chunks
  appHash : s.appHash = other.appHash

/-- The metadata of a snapshot is within the limits of reading, and nothing in it but the
time is cut. -/
structure Snapshot.Readable (s : Snapshot) : Prop extends s.StringsFit where
  chunkSize_nonneg : 0 ≤ s.chunkSize
  chunkSize_lt : s.chunkSize < 2 ^ 32
  chunks_nonneg : 0 ≤ s.chunks
  chunks_le : s.chunks ≤ maxSnapshotChunks

section Readable

variable {s found : Snapshot}

theorem Snapshot.Readable.chunks_emod (readable : s.Readable) : s.chunks % 2 ^ 32 = s.chunks :=
  Int.emod_eq_of_lt readable.chunks_nonneg (Int.lt_of_le_of_lt readable.chunks_le (by decide))

theorem Snapshot.Readable.asRead_agrees (readable : s.Readable) : s.asRead.Agrees s where
  height := rfl
  hash := rfl
  chunkSize := Int.emod_eq_of_lt readable.chunkSize_nonneg readable.chunkSize_lt
  chunks := readable.chunks_emod
  appHash := rfl

theorem Snapshot.Readable.decode (readable : s.Readable) :
    decodeSnapshotMetadata (encodeSnapshotMetadata s) = .ok s.asRead := by
  refine decodeSnapshotMetadata_of_few readable.toStringsFit ?_
  rw [readable.chunks_emod]
  exact readable.chunks_le

theorem Snapshot.Agrees.readable (agrees : found.Agrees s) (encodable : found.Encodable)
    (noMetadata : s.metadata = []) : s.Readable where
  hash := agrees.hash ▸ encodable.hash
  appHash := agrees.appHash ▸ encodable.appHash
  metadata := by simp [noMetadata]
  chunkSize_nonneg := agrees.chunkSize ▸ encodable.chunkSize_nonneg
  chunkSize_lt := agrees.chunkSize ▸ encodable.chunkSize_lt
  chunks_nonneg := agrees.chunks ▸ encodable.chunks_nonneg
  chunks_le := agrees.chunks ▸ encodable.chunks_le

end Readable

section Available

variable {T : Type} (sha256 : Bytes → Bytes) (sorter : SortSlice.Sorter SnapshotInfo.rank)

/-- A created snapshot is listed and loaded as it was returned, and its chunks make up the
exported data. -/
structure Kept.Available (k : Kept) (s : FileSnapshotStore T) : Prop where
  listed : ∃ info ∈ s.list sorter, info.height = k.snapshot.height ∧
    info.hash = k.snapshot.hash ∧ info.chunks = k.snapshot.chunks
  loaded : ∃ found, s.load k.snapshot.hash = .ok found ∧ found.Agrees k.snapshot
  chunks : ∃ chunks : List SnapshotChunk,
    (List.range k.snapshot.chunks.toNat).mapM (fun i : Nat =>
      s.loadChunk sha256 k.snapshot.hash i) = .ok chunks ∧
      (chunks.map SnapshotChunk.data).flatten = k.data

/-- Two snapshots of the same data. -/
structure Kept.SameAs (k other : Kept) : Prop where
  height : k.snapshot.height = other.snapshot.height
  chunkSize : k.snapshot.chunkSize = other.snapshot.chunkSize
  appHash : k.snapshot.appHash = other.snapshot.appHash
  data : k.data = other.data

def FileSnapshotStore.exportHash (lib : Avlberry T) (gzip : Gzip) (s : FileSnapshotStore T)
    (height : Int64) : Bytes :=
  sha256 (encodeInt64 height ++ s.exportData lib gzip)

structure FileSnapshotStore.WithinLimits (lib : Avlberry T) (gzip : Gzip)
    (s : FileSnapshotStore T) (height : Int64) : Prop where
  hash : (s.exportHash sha256 lib gzip height).length ≤ maxSnapshotHashSize
  appHash : (s.stateStore.rootHash lib).length ≤ maxSnapshotHashSize
  chunkSize_nonneg : 0 ≤ s.chunkSize
  chunkSize_lt : s.chunkSize < 2 ^ 32
  few : ((s.exportData lib gzip).length : Int) ≤ maxSnapshotChunks * s.chunkSize

structure Kept.MadeFrom (lib : Avlberry T) (gzip : Gzip) (k : Kept) (s : FileSnapshotStore T)
    (height : Int64) : Prop where
  height : k.snapshot.height = height
  chunkSize : k.snapshot.chunkSize = s.chunkSize
  appHash : k.snapshot.appHash = s.stateStore.rootHash lib
  data : k.data = s.exportData lib gzip

structure Catalog.MayCreate (lib : Avlberry T) (gzip : Gzip) (c : Catalog T) (height : Int64) :
    Prop where
  withinLimits : c.store.WithinLimits sha256 lib gzip height
  others : ∀ k ∈ c.kept, k.dir = snapshotDir (c.store.exportHash sha256 lib gzip height) →
    k.MadeFrom lib gzip c.store height

def Careful (lib : Avlberry T) (gzip : Gzip) (c : Catalog T) : CatalogEvent T → Prop
  | .create height _ =>
    c.store.exportData lib gzip = [] ∨ 0 < c.store.chunkSize → c.MayCreate sha256 lib gzip height
  | .delete hash => 8 ≤ hash.length → ∀ k ∈ c.kept, k.dir = snapshotDir hash →
      k.snapshot.hash = hash
  | _ => True

/-- The files of a snapshot are there; the metadata may be that of a later snapshot of the
same data. -/
structure Kept.StoredIn (k : Kept) (files : SnapshotFiles) : Prop where
  flatten : k.parts.flatten = k.data
  count : k.snapshot.chunks = k.parts.length
  hash : k.snapshot.hash = snapshotHash sha256 k.snapshot.height k.parts
  noMetadata : k.snapshot.metadata = []
  metadata : ∃ latest : Snapshot, latest.Readable ∧ latest.Agrees k.snapshot ∧
    files.lookup (k.dir, .metadata) = some (encodeSnapshotMetadata latest)
  chunk : ∀ i : Nat, i < k.parts.length → files.lookup (k.dir, .chunk i) = k.parts[i]?

/-- Every metadata file that can be read has a hash that belongs to its directory. -/
def WellPlaced (files : SnapshotFiles) : Prop :=
  ∀ dir metadata snapshot, files.lookup (dir, .metadata) = some metadata →
    decodeSnapshotMetadata metadata = .ok snapshot → snapshotDir snapshot.hash = dir

structure Catalog.Intact (c : Catalog T) : Prop where
  stored : ∀ k ∈ c.kept, k.StoredIn sha256 c.store.files
  placed : WellPlaced c.store.files

end Available

section Stored

variable {T : Type} {sha256 : Bytes → Bytes} {sorter : SortSlice.Sorter SnapshotInfo.rank}
  {s : FileSnapshotStore T} {k : Kept}

theorem Kept.StoredIn.available (stored : k.StoredIn sha256 s.files) :
    k.Available sha256 sorter s := by
  obtain ⟨latest, readable, agrees, isMetadata⟩ := stored.metadata
  have agreesAsRead := readable.asRead_agrees
  have sameHash : latest.asRead.hash = k.snapshot.hash := agreesAsRead.hash.trans agrees.hash
  constructor
  · have isInfo : snapshotInfo s.files k.dir = some
        ⟨latest.height, latest.hash, latest.asRead.chunks,
          totalSize s.files k.dir latest.asRead.chunks, latest.asRead.createdAt⟩ := by
      simp only [snapshotInfo, isMetadata, readable.decode]
      rfl
    have isDirectory : k.dir ∈ directories s.files :=
      mem_directories.mpr ⟨.metadata, Finmap.mem_of_lookup_eq_some isMetadata⟩
    exact ⟨_, mem_list.mpr ⟨k.dir, isDirectory, isInfo⟩, agrees.height, agrees.hash,
      agreesAsRead.chunks.trans agrees.chunks⟩
  · refine ⟨latest.asRead, ?_, ?_⟩
    · rw [load_of_lookup isMetadata readable.decode, if_pos sameHash]
    · exact ⟨agrees.height, agrees.hash, agreesAsRead.chunkSize.trans agrees.chunkSize,
        agreesAsRead.chunks.trans agrees.chunks, agrees.appHash⟩
  · obtain ⟨chunks, loaded, areParts⟩ := loadChunks_of_lookup sha256 stored.chunk
    refine ⟨chunks, ?_, by rw [areParts, stored.flatten]⟩
    rw [stored.count]
    exact loaded

theorem Kept.StoredIn.of_lookup_eq {files after : SnapshotFiles} (stored : k.StoredIn sha256 files)
    (same : ∀ file, after.lookup (k.dir, file) = files.lookup (k.dir, file)) :
    k.StoredIn sha256 after where
  flatten := stored.flatten
  count := stored.count
  hash := stored.hash
  noMetadata := stored.noMetadata
  metadata := by
    obtain ⟨latest, readable, agrees, isMetadata⟩ := stored.metadata
    exact ⟨latest, readable, agrees, (same .metadata).trans isMetadata⟩
  chunk i inRange := (same (.chunk i)).trans (stored.chunk i inRange)

theorem Kept.WrittenTo.flatten {files : SnapshotFiles} (written : k.WrittenTo sha256 files) :
    k.parts.flatten = k.data :=
  flatten_of_splitIntoChunks written.split

theorem Kept.WrittenTo.storedIn {files : SnapshotFiles} (written : k.WrittenTo sha256 files)
    (readable : k.snapshot.Readable) : k.StoredIn sha256 files where
  flatten := written.flatten
  count := written.count
  hash := written.hash
  noMetadata := written.noMetadata
  metadata := ⟨k.snapshot, readable, ⟨rfl, rfl, rfl, rfl, rfl⟩, written.metadata⟩
  chunk := written.chunk

theorem Kept.SameAs.storedIn {new : Kept} {before after : SnapshotFiles} (same : k.SameAs new)
    (stored : k.StoredIn sha256 before) (written : new.WrittenTo sha256 after)
    (readable : new.snapshot.Readable) : k.StoredIn sha256 after := by
  have parts : k.parts = new.parts := by
    rw [Kept.parts, Kept.parts, same.data, same.chunkSize]
  have hash : new.snapshot.hash = k.snapshot.hash := by
    rw [stored.hash, written.hash, parts, same.height]
  have dir : k.dir = new.dir := congrArg snapshotDir hash.symm
  have chunks : new.snapshot.chunks = k.snapshot.chunks := by
    rw [stored.count, written.count, parts]
  refine ⟨stored.flatten, stored.count, stored.hash, stored.noMetadata, ?_, ?_⟩
  · refine ⟨new.snapshot, readable, ⟨same.height.symm, hash, same.chunkSize.symm, chunks,
      same.appHash.symm⟩, ?_⟩
    rw [dir]
    exact written.metadata
  · rw [dir, parts]
    exact written.chunk

theorem Kept.WrittenTo.readable (written : k.WrittenTo sha256 s.files)
    (available : k.Available sha256 sorter s) : k.snapshot.Readable := by
  obtain ⟨found, loaded, agrees⟩ := available.loaded
  obtain ⟨metadata, isMetadata, read, -⟩ := exists_of_load loaded
  exact agrees.readable (encodable_of_decodeSnapshotMetadata read).1 written.noMetadata

/-- What is available from files that were just written is what was written. -/
theorem Kept.WrittenTo.sameAs {new : Kept} (written : new.WrittenTo sha256 s.files)
    (readable : new.snapshot.Readable) (sameDir : k.dir = new.dir)
    (available : k.Available sha256 sorter s) : k.SameAs new := by
  obtain ⟨found, loaded, agrees⟩ := available.loaded
  obtain ⟨metadata, isMetadata, read, -⟩ := exists_of_load loaded
  have isNew : metadata = encodeSnapshotMetadata new.snapshot := by
    have stored : s.files.lookup (k.dir, .metadata) = some metadata := isMetadata
    rw [sameDir, written.metadata] at stored
    exact (Option.some.inj stored).symm
  rw [isNew, readable.decode] at read
  cases read
  have asRead := readable.asRead_agrees
  have sameCount : k.snapshot.chunks = new.snapshot.chunks := agrees.chunks.symm.trans asRead.chunks
  refine ⟨agrees.height.symm, agrees.chunkSize.symm.trans asRead.chunkSize, agrees.appHash.symm, ?_⟩
  obtain ⟨chunks, loadedChunks, flatten⟩ := available.chunks
  have stored : ∀ i : Nat, i < new.parts.length →
      s.files.lookup (snapshotDir k.snapshot.hash, .chunk i) = new.parts[i]? := by
    have dir : snapshotDir k.snapshot.hash = new.dir := sameDir
    rw [dir]
    exact written.chunk
  obtain ⟨newChunks, loadedNew, areParts⟩ := loadChunks_of_lookup sha256 stored
  have count : k.snapshot.chunks.toNat = new.parts.length := by
    rw [sameCount, written.count]
    rfl
  rw [count, loadedNew] at loadedChunks
  cases loadedChunks
  rw [← flatten, areParts, written.flatten]

end Stored

section Steps

variable {T : Type} {lib : Avlberry T} {gzip : Gzip} {sha256 : Bytes → Bytes}
  {sorter : Sorter SnapshotInfo.rank} {c : Catalog T}

/-- Every snapshot that is kept is available. -/
def Catalog.AllAvailable (sha256 : Bytes → Bytes) (sorter : Sorter SnapshotInfo.rank)
    (c : Catalog T) : Prop :=
  ∀ k ∈ c.kept, k.Available sha256 sorter c.store

theorem Catalog.Intact.allAvailable (intact : c.Intact sha256) : c.AllAvailable sha256 sorter :=
  fun k member => (intact.stored k member).available

section Create

variable {height : Int64} {now : Int} {snapshot : Snapshot} {store : FileSnapshotStore T}

theorem storedIn_of_create (intact : c.Intact sha256)
    (created : c.store.create lib gzip sha256 height now = some (snapshot, store))
    (readable : snapshot.Readable)
    (same : ∀ k ∈ c.kept, k.dir = snapshotDir snapshot.hash →
      k.SameAs ⟨snapshot, c.store.exportData lib gzip⟩) :
    ∀ k ∈ c.kept ++ [⟨snapshot, c.store.exportData lib gzip⟩], k.StoredIn sha256 store.files := by
  have written := writtenTo_of_create created
  rw [forall_mem_append, forall_mem_singleton]
  refine ⟨fun k member => ?_, written.storedIn readable⟩
  have stored := intact.stored k member
  by_cases sameDir : k.dir = snapshotDir snapshot.hash
  · exact (same k member sameDir).storedIn stored written readable
  · exact stored.of_lookup_eq fun file => lookup_of_create created sameDir

theorem wellPlaced_of_create (placed : WellPlaced c.store.files)
    (created : c.store.create lib gzip sha256 height now = some (snapshot, store))
    (readable : snapshot.Readable) : WellPlaced store.files := by
  intro dir metadata found isMetadata read
  by_cases sameDir : dir = snapshotDir snapshot.hash
  · have isNew : store.files.lookup (snapshotDir snapshot.hash, .metadata) = _ :=
      (writtenTo_of_create created).metadata
    rw [sameDir, isNew] at isMetadata
    cases isMetadata
    rw [readable.decode] at read
    cases read
    exact sameDir.symm
  · rw [lookup_of_create created sameDir] at isMetadata
    exact placed dir metadata found isMetadata read

theorem hash_of_create
    (created : c.store.create lib gzip sha256 height now = some (snapshot, store)) :
    snapshot.hash = c.store.exportHash sha256 lib gzip height := by
  obtain ⟨chunks, isSplit, same⟩ := Option.map_eq_some_iff.mp created
  cases same
  exact congrArg (fun data => sha256 (encodeInt64 height ++ data))
    (flatten_of_splitIntoChunks isSplit)

theorem readable_iff_withinLimits
    (created : c.store.create lib gzip sha256 height now = some (snapshot, store)) :
    snapshot.Readable ↔ c.store.WithinLimits sha256 lib gzip height := by
  have isHash := hash_of_create created
  obtain ⟨chunks, isSplit, same⟩ := Option.map_eq_some_iff.mp created
  cases same
  constructor
  · intro readable
    refine ⟨isHash ▸ readable.hash, readable.appHash, readable.chunkSize_nonneg,
      readable.chunkSize_lt, ?_⟩
    exact (length_le_iff_of_splitIntoChunks isSplit readable.chunkSize_nonneg _).mp
      (Int.ofNat_le.mp readable.chunks_le)
  · intro limits
    refine ⟨⟨?_, limits.appHash, Nat.zero_le _⟩, limits.chunkSize_nonneg, limits.chunkSize_lt,
      Int.natCast_nonneg _, ?_⟩
    · rw [isHash]
      exact limits.hash
    · exact Int.ofNat_le.mpr
        ((length_le_iff_of_splitIntoChunks isSplit limits.chunkSize_nonneg _).mpr limits.few)

theorem sameAs_iff_madeFrom
    (created : c.store.create lib gzip sha256 height now = some (snapshot, store)) (k : Kept) :
    k.SameAs ⟨snapshot, c.store.exportData lib gzip⟩ ↔ k.MadeFrom lib gzip c.store height := by
  obtain ⟨chunks, -, same⟩ := Option.map_eq_some_iff.mp created
  cases same
  constructor
  · intro same
    exact ⟨same.height, same.chunkSize, same.appHash, same.data⟩
  · intro made
    exact ⟨made.height, made.chunkSize, made.appHash, made.data⟩

/-- The condition before the call, in terms of the snapshot that is then returned. -/
theorem mayCreate_iff
    (created : c.store.create lib gzip sha256 height now = some (snapshot, store)) :
    c.MayCreate sha256 lib gzip height ↔
      snapshot.Readable ∧ ∀ k ∈ c.kept, k.dir = snapshotDir snapshot.hash →
        k.SameAs ⟨snapshot, c.store.exportData lib gzip⟩ := by
  rw [readable_iff_withinLimits created, hash_of_create created]
  constructor
  · intro may
    exact ⟨may.withinLimits, fun k member sameDir =>
      (sameAs_iff_madeFrom created k).mpr (may.others k member sameDir)⟩
  · rintro ⟨limits, same⟩
    exact ⟨limits, fun k member sameDir =>
      (sameAs_iff_madeFrom created k).mp (same k member sameDir)⟩

/-- After a snapshot was created, all are available if and only if it could be. -/
theorem create_allAvailable_iff (intact : c.Intact sha256)
    (created : c.store.create lib gzip sha256 height now = some (snapshot, store)) :
    (∀ k ∈ c.kept ++ [⟨snapshot, c.store.exportData lib gzip⟩], k.Available sha256 sorter store) ↔
      c.MayCreate sha256 lib gzip height := by
  rw [mayCreate_iff created]
  have written := writtenTo_of_create created
  constructor
  · intro available
    obtain ⟨others, isAvailable⟩ := forall_mem_append.mp available
    have readable := written.readable (isAvailable _ (mem_singleton.mpr rfl))
    exact ⟨readable, fun k member sameDir => written.sameAs readable sameDir (others k member)⟩
  · rintro ⟨readable, same⟩ k member
    exact (storedIn_of_create intact created readable same k member).available

end Create

section Delete

variable {hashes : List Bytes} {after : FileSnapshotStore T}

/-- Snapshots stay where all that are removed with a directory have the hash that was
deleted. -/
theorem Catalog.Intact.forget (intact : c.Intact sha256)
    (removes : Removes hashes c.store.files after.files)
    (own : ∀ k ∈ c.kept, ∀ hash ∈ hashes, k.dir = snapshotDir hash → k.snapshot.hash = hash) :
    (c.forget after hashes).Intact sha256 := by
  constructor
  · intro k member
    obtain ⟨wasKept, notDeleted⟩ := mem_filter.mp member
    refine (intact.stored k wasKept).of_lookup_eq fun file => ?_
    have otherDir : k.dir ∉ hashes.map snapshotDir := by
      intro removed
      obtain ⟨hash, isHash, sameDir⟩ := mem_map.mp removed
      rw [own k wasKept hash isHash sameDir.symm] at notDeleted
      simp [isHash] at notDeleted
    exact removes.kept (k.dir, file) otherDir
  · intro dir metadata found isMetadata read
    change after.files.lookup (dir, .metadata) = some metadata at isMetadata
    by_cases removed : dir ∈ hashes.map snapshotDir
    · rw [removes.gone (dir, .metadata) removed] at isMetadata
      cases isMetadata
    · rw [removes.kept (dir, .metadata) removed] at isMetadata
      exact intact.placed dir metadata found isMetadata read

/-- A snapshot of another hash in a directory that was deleted is lost. -/
theorem own_of_allAvailable {hash : Bytes} (removes : Removes [hash] c.store.files after.files)
    (available : (c.forget after [hash]).AllAvailable sha256 sorter) {k : Kept}
    (member : k ∈ c.kept) (sameDir : k.dir = snapshotDir hash) : k.snapshot.hash = hash := by
  by_contra other
  have stillKept : k ∈ (c.forget after [hash]).kept := mem_filter.mpr ⟨member, by simp [other]⟩
  obtain ⟨found, loaded, -⟩ := (available k stillKept).loaded
  obtain ⟨metadata, isMetadata, -, -⟩ := exists_of_load loaded
  have stored : after.files.lookup (k.dir, .metadata) = some metadata := isMetadata
  rw [removes.gone (k.dir, .metadata) (mem_singleton.mpr sameDir)] at stored
  cases stored

/-- The hashes that are listed are those of the snapshots that are kept in their
directories. -/
theorem Catalog.Intact.own_of_listed (intact : c.Intact sha256) {info : SnapshotInfo}
    (listed : info ∈ c.store.list sorter) {k : Kept} (member : k ∈ c.kept)
    (sameDir : k.dir = snapshotDir info.hash) : k.snapshot.hash = info.hash := by
  obtain ⟨dir, -, isInfo⟩ := mem_list.mp listed
  obtain ⟨metadata, found, isMetadata, read, sameHash⟩ := exists_of_snapshotInfo isInfo
  have placed := intact.placed dir metadata found isMetadata read
  rw [← placed, ← sameHash, ← sameDir] at isMetadata
  obtain ⟨latest, readable, agrees, isLatest⟩ := (intact.stored k member).metadata
  rw [isLatest] at isMetadata
  cases isMetadata
  rw [readable.decode] at read
  cases read
  exact agrees.hash.symm.trans sameHash.symm

end Delete

theorem intact_new (stateStore : IAVLStore T) (chunkSize : Int) :
    (Catalog.new stateStore chunkSize).Intact sha256 where
  stored := forall_mem_nil _
  placed dir metadata found isMetadata := by
    change Finmap.lookup (dir, SnapshotFile.metadata) (∅ : SnapshotFiles) = _ at isMetadata
    rw [Finmap.lookup_empty] at isMetadata
    cases isMetadata

theorem Catalog.Intact.step (intact : c.Intact sha256) {event : CatalogEvent T}
    (careful : Careful sha256 lib gzip c event) :
    (c.step lib gzip sha256 sorter event).Intact sha256 := by
  cases event with
  | setChunkSize | update => exact ⟨intact.stored, intact.placed⟩
  | create height now =>
    change (c.create lib gzip sha256 height now).Intact sha256
    rw [Catalog.create]
    split
    next => exact intact
    next snapshot store created =>
      have may := careful (exists_create_iff.mp ⟨snapshot, store, created⟩)
      obtain ⟨readable, same⟩ := (mayCreate_iff created).mp may
      exact ⟨storedIn_of_create intact created readable same,
        wellPlaced_of_create intact.placed created readable⟩
  | delete hash =>
    change (c.delete hash).Intact sha256
    rw [Catalog.delete]
    split
    next => exact intact
    next long =>
      split
      next => exact intact
      next store deleted =>
        apply intact.forget (removes_of_delete deleted)
        intro k member other isHash sameDir
        rw [mem_singleton.mp isHash] at sameDir ⊢
        exact careful (Nat.not_lt.mp long) k member sameDir
  | prune keepRecent =>
    change (c.prune sorter keepRecent).Intact sha256
    rw [Catalog.prune]
    split
    next => exact intact
    next deleted store err pruned =>
      obtain ⟨removes, listed⟩ := removes_of_prune pruned
      apply intact.forget removes
      intro k member hash isHash sameDir
      obtain ⟨info, isInfo, rfl⟩ := listed hash isHash
      exact intact.own_of_listed isInfo member sameDir

theorem step_allAvailable_iff (intact : c.Intact sha256) (event : CatalogEvent T) :
    (c.step lib gzip sha256 sorter event).AllAvailable sha256 sorter ↔
      Careful sha256 lib gzip c event := by
  constructor
  · intro available
    cases event with
    | setChunkSize | update => trivial
    | create height now =>
      intro returns
      obtain ⟨snapshot, store, created⟩ : ∃ snapshot store,
          c.store.create lib gzip sha256 height now = some (snapshot, store) :=
        exists_create_iff.mpr returns
      change (c.create lib gzip sha256 height now).AllAvailable sha256 sorter at available
      rw [Catalog.create, created] at available
      exact (create_allAvailable_iff intact created).mp available
    | delete hash =>
      intro long k member sameDir
      change (c.delete hash).AllAvailable sha256 sorter at available
      rw [Catalog.delete, if_neg (Nat.not_lt.mpr long)] at available
      cases outcome : c.store.delete hash with
      | error err =>
        -- The directory is there, so the deletion does not fail.
        obtain ⟨latest, -, -, isMetadata⟩ := (intact.stored k member).metadata
        rw [sameDir] at isMetadata
        have isThere : c.store.has hash = true := decide_eq_true
          (mem_directories.mpr ⟨_, Finmap.mem_of_lookup_eq_some isMetadata⟩)
        rw [FileSnapshotStore.delete, if_pos isThere] at outcome
        cases outcome
      | ok store =>
        rw [outcome] at available
        exact own_of_allAvailable (removes_of_delete outcome) available member sameDir
    | prune keepRecent => trivial
  · intro careful
    exact (intact.step careful).allAvailable

/-- In every run of calls on a store, the snapshots that were created and not deleted since
are available after each call if and only if each call is careful. -/
theorem created_snapshots_available_iff (lib : Avlberry T) (gzip : Gzip) (sha256 : Bytes → Bytes)
    (sorter : SortSlice.Sorter SnapshotInfo.rank) (stateStore : IAVLStore T) (chunkSize : Int)
    (events : List (CatalogEvent T)) :
    Run.EveryStep (Catalog.step lib gzip sha256 sorter)
        (fun c event => (c.step lib gzip sha256 sorter event).AllAvailable sha256 sorter)
        (Catalog.new stateStore chunkSize) events ↔
      Run.EveryStep (Catalog.step lib gzip sha256 sorter) (Careful sha256 lib gzip)
        (Catalog.new stateStore chunkSize) events := by
  have initially : (Catalog.new stateStore chunkSize).Intact sha256 := intact_new _ _
  exact Run.everyStep_iff initially (fun c event intact => step_allAvailable_iff intact event)
    (fun c event intact careful => intact.step careful) events

end Steps

namespace FlatTree

/-- A snapshot is created twice at one height, in chunks of 1024 bytes and then of five. -/
def rechunked : List (CatalogEvent FlatTree) := [.create 1 0, .setChunkSize 5, .create 1 0]

def rechunkedCatalog : Catalog FlatTree :=
  Run.after (Catalog.step lib plain id (insertion SnapshotInfo.rank))
    (Catalog.new (StateHistory.ofCalls lib oneCommit).store 1024) rechunked

/-- The second snapshot has the hash of the first and replaces it. -/
theorem rechunked_replaces_first : Function.Injective (id : Bytes → Bytes) ∧
    ∃ first ∈ rechunkedCatalog.kept,
      first.snapshot.chunkSize = 1024 ∧ first.snapshot.chunks = 1 ∧
        (rechunkedCatalog.store.load first.snapshot.hash).map
            (fun found => (found.chunkSize, found.chunks)) = .ok (5, 4) ∧
        ¬first.Available id (SortSlice.insertion SnapshotInfo.rank) rechunkedCatalog.store := by
  refine ⟨Function.injective_id, ?_⟩
  have isFirst : ∃ first ∈ rechunkedCatalog.kept,
      first.snapshot.chunkSize = 1024 ∧ first.snapshot.chunks = 1 ∧
        (rechunkedCatalog.store.load first.snapshot.hash).map
            (fun found => (found.chunkSize, found.chunks)) = .ok (5, 4) := by
    decide +kernel
  obtain ⟨first, isKept, chunkSize, chunks, loaded⟩ := isFirst
  refine ⟨first, isKept, chunkSize, chunks, loaded, ?_⟩
  intro available
  obtain ⟨found, isFound, agrees⟩ := available.loaded
  rw [isFound] at loaded
  have five : found.chunkSize = 5 := congrArg Prod.fst (Except.ok.inj loaded)
  rw [agrees.chunkSize, chunkSize] at five
  cases five

end FlatTree

end Blockberry.StateStore
