import Blockberry.Lib.Codec
import Blockberry.StateStore.SnapshotStore

/-!
# Snapshot metadata

The metadata file of a snapshot has the fields of the snapshot one after another. Reading
it refuses hashes, chunk counts and application metadata above fixed sizes, and returns
every error of the reader. Bytes after the last field are ignored.
-/

namespace Blockberry.StateStore

open BigEndian ByteReader Fallible Int Int64

inductive MetadataError where
  | read (err : ReadError)
  | hashTooLong (length : Nat)
  | tooManyChunks (count : Nat)
  | appHashTooLong (length : Nat)
  | metadataTooLong (length : Nat)
  deriving DecidableEq, Repr

def maxSnapshotHashSize : Nat := 64

def maxSnapshotMetadataSize : Nat := 1024 * 1024

def maxSnapshotChunks : Nat := 100000

/-- `Error` of the errors that reading the metadata makes itself. -/
def MetadataError.message : MetadataError → String
  | .read .eof => "EOF"
  | .read .unexpectedEOF => "unexpected EOF"
  | .hashTooLong length =>
    "hash length " ++ toString length ++ " exceeds maximum " ++ toString maxSnapshotHashSize
  | .tooManyChunks count =>
    "chunk count " ++ toString count ++ " exceeds maximum " ++ toString maxSnapshotChunks
  | .appHashTooLong length =>
    "app hash length " ++ toString length ++ " exceeds maximum " ++
      toString maxSnapshotHashSize
  | .metadataTooLong length =>
    "metadata length " ++ toString length ++ " exceeds maximum " ++
      toString maxSnapshotMetadataSize

/-- `decodeSnapshotMetadata`, with the bytes it has not read. -/
def readSnapshotMetadata (r : Bytes) : Except MetadataError (Snapshot × Bytes) := do
  let (version, r) ← readNat .read 4 r
  let (height, r) ← readWord .read r
  let (hash, r) ← ByteReader.readSized .read 4 maxSnapshotHashSize .hashTooLong r
  let (chunkSize, r) ← readNat .read 4 r
  let (chunks, r) ← readBounded .read 4 maxSnapshotChunks .tooManyChunks r
  let (appHash, r) ← ByteReader.readSized .read 4 maxSnapshotHashSize .appHashTooLong r
  let (createdAt, r) ← readWord .read r
  let (metadata, r) ← ByteReader.readSized .read 4 maxSnapshotMetadataSize .metadataTooLong r
  .ok ({ version := UInt32.ofNat version
         height
         hash
         chunkSize
         chunks
         metadata
         appHash
         createdAt := some createdAt.toInt }, r)

def decodeSnapshotMetadata (data : Bytes) : Except MetadataError Snapshot :=
  (readSnapshotMetadata data).map Prod.fst

/-- The fields of a snapshot fit into its metadata. -/
structure Snapshot.Encodable (s : Snapshot) : Prop where
  hash : s.hash.length ≤ maxSnapshotHashSize
  chunkSize_nonneg : 0 ≤ s.chunkSize
  chunkSize_lt : s.chunkSize < 2 ^ 32
  chunks_nonneg : 0 ≤ s.chunks
  chunks_le : s.chunks ≤ maxSnapshotChunks
  appHash : s.appHash.length ≤ maxSnapshotHashSize
  metadata : s.metadata.length ≤ maxSnapshotMetadataSize
  createdAt : ∃ nanos : Int64, s.createdAt = some nanos.toInt

theorem toNat_emod_lt (size : Int) : (size % 2 ^ 32).toNat < 256 ^ 4 := by
  have nonneg : 0 ≤ size % 2 ^ 32 := emod_nonneg size (by decide)
  have small : size % 2 ^ 32 < 2 ^ 32 := emod_lt_of_pos size (by decide)
  exact (toNat_lt nonneg).mpr small

theorem natCast_toNat_emod {size : Int} (nonneg : 0 ≤ size) (below : size < 2 ^ 32) :
    ((size % 2 ^ 32).toNat : Int) = size := by
  rw [emod_eq_of_lt nonneg below, toNat_of_nonneg nonneg]

theorem toNat_natCast_emod {size : Nat} (below : size < 2 ^ 32) :
    ((size : Int) % 2 ^ 32).toNat = size :=
  ofNat_inj.mp (natCast_toNat_emod (natCast_nonneg size) (ofNat_lt.mpr below))

section Fields

variable {s : Snapshot} (encodable : s.Encodable)

include encodable

theorem Snapshot.Encodable.chunkSize_back : ((s.chunkSize % 2 ^ 32).toNat : Int) = s.chunkSize :=
  natCast_toNat_emod encodable.chunkSize_nonneg encodable.chunkSize_lt

theorem Snapshot.Encodable.chunks_back : ((s.chunks % 2 ^ 32).toNat : Int) = s.chunks :=
  natCast_toNat_emod encodable.chunks_nonneg (lt_of_le_of_lt encodable.chunks_le (by decide))

theorem Snapshot.Encodable.chunks_toNat_le : (s.chunks % 2 ^ 32).toNat ≤ maxSnapshotChunks := by
  apply ofNat_le.mp
  rw [encodable.chunks_back]
  exact encodable.chunks_le

theorem Snapshot.Encodable.createdAt_back :
    some (Int64.ofInt (s.createdAt.getD zeroUnixNano)).toInt = s.createdAt := by
  obtain ⟨nanos, isNanos⟩ := encodable.createdAt
  rw [isNanos, Option.getD_some, ofInt_toInt]

end Fields

theorem encodable_and_fields_iff {version chunkSize chunks : Nat} {height createdAt : Int64}
    {hash appHash metadata : Bytes} (versionFits : version < 256 ^ 4)
    (hashFits : hash.length ≤ maxSnapshotHashSize) (chunkSizeFits : chunkSize < 256 ^ 4)
    (chunksFit : chunks ≤ maxSnapshotChunks) (appHashFits : appHash.length ≤ maxSnapshotHashSize)
    (metadataFits : metadata.length ≤ maxSnapshotMetadataSize) (s : Snapshot) :
    (s.Encodable ∧ s.version.toNat = version ∧ s.height = height ∧ s.hash = hash ∧
        (s.chunkSize % 2 ^ 32).toNat = chunkSize ∧ (s.chunks % 2 ^ 32).toNat = chunks ∧
        s.appHash = appHash ∧ Int64.ofInt (s.createdAt.getD zeroUnixNano) = createdAt ∧
        s.metadata = metadata) ↔
      s = { version := UInt32.ofNat version, height, hash, chunkSize, chunks, metadata, appHash,
            createdAt := some createdAt.toInt } := by
  constructor
  · rintro ⟨encodable, rfl, rfl, rfl, rfl, rfl, rfl, rfl, rfl⟩
    rw [encodable.chunkSize_back, encodable.chunks_back, encodable.createdAt_back,
      UInt32.ofNat_toNat]
  · rintro rfl
    have chunksSmall : chunks < 2 ^ 32 := Nat.lt_of_le_of_lt chunksFit (by decide)
    refine ⟨⟨hashFits, natCast_nonneg _, ofNat_lt.mpr chunkSizeFits, natCast_nonneg _,
      ofNat_le.mpr chunksFit, appHashFits, metadataFits, createdAt, rfl⟩, ?_⟩
    simp only [UInt32.toNat_ofNat_of_lt' versionFits, toNat_natCast_emod chunkSizeFits,
      toNat_natCast_emod chunksSmall, Option.getD_some, ofInt_toInt, and_self]

theorem codec_readSnapshotMetadata :
    Codec readSnapshotMetadata encodeSnapshotMetadata Snapshot.Encodable := by
  have fields : Codec readSnapshotMetadata
      (fun s : Snapshot => encode 4 s.version.toNat ++ (encodeWord s.height ++ (writeSized s.hash ++
        (encode 4 (s.chunkSize % 2 ^ 32).toNat ++ (encode 4 (s.chunks % 2 ^ 32).toNat ++
          (writeSized s.appHash ++ (encodeWord (Int64.ofInt (s.createdAt.getD zeroUnixNano)) ++
            (writeSized s.metadata ++ []))))))))
      Snapshot.Encodable := by
    have countRead : Codec (readBounded MetadataError.read 4 maxSnapshotChunks .tooManyChunks)
        (encode 4) (· ≤ maxSnapshotChunks) := codec_readBounded (by decide)
    unfold readSnapshotMetadata
    refine (codec_readNat 4).firstField (fun s : Snapshot => s.version.toNat)
      (fun s _ => s.version.toNat_lt) fun version versionFits => ?_
    refine codec_readWord.field Snapshot.height (fun _ _ => trivial) fun height _ => ?_
    refine (ByteReader.codec_readSized (by decide)).field Snapshot.hash
      (fun _ => Snapshot.Encodable.hash) fun hash hashFits => ?_
    refine (codec_readNat 4).field (fun s : Snapshot => (s.chunkSize % 2 ^ 32).toNat)
      (fun s _ => toNat_emod_lt s.chunkSize) fun chunkSize chunkSizeFits => ?_
    refine countRead.field (fun s : Snapshot => (s.chunks % 2 ^ 32).toNat)
      (fun _ => Snapshot.Encodable.chunks_toNat_le)
      fun chunks chunksFit => ?_
    refine (ByteReader.codec_readSized (by decide)).field Snapshot.appHash
      (fun _ => Snapshot.Encodable.appHash) fun appHash appHashFits => ?_
    refine codec_readWord.field
      (fun s : Snapshot => Int64.ofInt (s.createdAt.getD zeroUnixNano)) (fun _ _ => trivial)
      fun createdAt _ => ?_
    refine (ByteReader.codec_readSized (by decide)).field Snapshot.metadata
      (fun _ => Snapshot.Encodable.metadata) fun metadata metadataFits => ?_
    apply codec_record
    intro s
    simp only [and_assoc]
    exact encodable_and_fields_iff versionFits hashFits chunkSizeFits chunksFit appHashFits
      metadataFits s
  refine fields.congr (fun s => ?_) fun _ => Iff.rfl
  simp only [encodeSnapshotMetadata, List.append_assoc, List.append_nil]

section Decode

variable {s : Snapshot}

theorem decodeSnapshotMetadata_encodeSnapshotMetadata (encodable : s.Encodable) :
    decodeSnapshotMetadata (encodeSnapshotMetadata s) = .ok s := by
  have read := codec_readSnapshotMetadata.reads s encodable []
  rw [List.append_nil] at read
  rw [decodeSnapshotMetadata, read]
  rfl

theorem encodable_of_decodeSnapshotMetadata {data : Bytes}
    (read : decodeSnapshotMetadata data = .ok s) :
    s.Encodable ∧ encodeSnapshotMetadata s <+: data := by
  unfold decodeSnapshotMetadata at read
  cases outcome : readSnapshotMetadata data with
  | error err =>
    rw [outcome] at read
    cases read
  | ok pair =>
    rw [outcome] at read
    cases read
    obtain ⟨encodable, whole⟩ := codec_readSnapshotMetadata.written data pair.1 pair.2 outcome
    exact ⟨encodable, pair.2, whole.symm⟩

/-! ## Fields that are cut -/

/-- A snapshot as its metadata has it: sizes are cut to 32 bits and the time to 64. -/
def Snapshot.asRead (s : Snapshot) : Snapshot :=
  { s with
    chunkSize := s.chunkSize % 2 ^ 32
    chunks := s.chunks % 2 ^ 32
    createdAt := some (Int64.ofInt (s.createdAt.getD zeroUnixNano)).toInt }

theorem encodeSnapshotMetadata_asRead (s : Snapshot) :
    encodeSnapshotMetadata s.asRead = encodeSnapshotMetadata s := by
  simp only [encodeSnapshotMetadata, Snapshot.asRead, emod_emod_of_dvd _ (dvd_refl _),
    Option.getD_some, ofInt_toInt]

/-- The byte strings of a snapshot are within the limits of reading. -/
structure Snapshot.StringsFit (s : Snapshot) : Prop where
  hash : s.hash.length ≤ maxSnapshotHashSize
  appHash : s.appHash.length ≤ maxSnapshotHashSize
  metadata : s.metadata.length ≤ maxSnapshotMetadataSize

theorem Snapshot.StringsFit.asRead_encodable (fit : s.StringsFit)
    (few : s.chunks % 2 ^ 32 ≤ maxSnapshotChunks) : s.asRead.Encodable where
  hash := fit.hash
  chunkSize_nonneg := emod_nonneg _ (by decide)
  chunkSize_lt := emod_lt_of_pos _ (by decide)
  chunks_nonneg := emod_nonneg _ (by decide)
  chunks_le := few
  appHash := fit.appHash
  metadata := fit.metadata
  createdAt := ⟨_, rfl⟩

/-- Metadata whose chunk count is small enough after it was cut is read. -/
theorem decodeSnapshotMetadata_of_few (fit : s.StringsFit)
    (few : s.chunks % 2 ^ 32 ≤ maxSnapshotChunks) :
    decodeSnapshotMetadata (encodeSnapshotMetadata s) = .ok s.asRead := by
  rw [← encodeSnapshotMetadata_asRead]
  exact decodeSnapshotMetadata_encodeSnapshotMetadata (fit.asRead_encodable few)

theorem decodeSnapshotMetadata_of_many (hash : s.hash.length ≤ maxSnapshotHashSize)
    (many : maxSnapshotChunks < s.chunks % 2 ^ 32) :
    decodeSnapshotMetadata (encodeSnapshotMetadata s) =
      .error (.tooManyChunks (s.chunks % 2 ^ 32).toNat) := by
  have manyChunks : maxSnapshotChunks < (s.chunks % 2 ^ 32).toNat := by omega
  have versionRead (rest : Bytes) :
      readNat MetadataError.read 4 (encode 4 s.version.toNat ++ rest) = _ :=
    (codec_readNat 4).reads _ s.version.toNat_lt rest
  have heightRead (rest : Bytes) : readWord MetadataError.read (encodeWord s.height ++ rest) = _ :=
    codec_readWord.reads s.height trivial rest
  have hashRead (rest : Bytes) : ByteReader.readSized MetadataError.read 4 maxSnapshotHashSize
      .hashTooLong (writeSized s.hash ++ rest) = _ :=
    (ByteReader.codec_readSized (by decide)).reads s.hash hash rest
  have sizeRead (size : Int) (rest : Bytes) :
      readNat MetadataError.read 4 (encode 4 (size % 2 ^ 32).toNat ++ rest) = _ :=
    (codec_readNat 4).reads _ (toNat_emod_lt size) rest
  have chunksRead : ∀ rest, readBounded MetadataError.read 4 maxSnapshotChunks .tooManyChunks
      (encode 4 (s.chunks % 2 ^ 32).toNat ++ rest) =
        .error (.tooManyChunks (s.chunks % 2 ^ 32).toNat) := by
    intro rest
    rw [readBounded, sizeRead, ok_bind]
    exact if_pos manyChunks
  rw [decodeSnapshotMetadata, readSnapshotMetadata]
  simp only [encodeSnapshotMetadata, List.append_assoc, versionRead, heightRead, hashRead,
    sizeRead, chunksRead, ok_bind]
  rfl

/-! ## The round trip -/

/-- Metadata is read back as it was written, and a part of it is not read at all. -/
theorem snapshotMetadata_round_trip (encodable : s.Encodable) :
    decodeSnapshotMetadata (encodeSnapshotMetadata s) = .ok s ∧
      ∀ cut, cut <+: encodeSnapshotMetadata s → cut ≠ encodeSnapshotMetadata s →
        ∃ err, decodeSnapshotMetadata cut = .error err := by
  refine ⟨decodeSnapshotMetadata_encodeSnapshotMetadata encodable, ?_⟩
  intro cut isPart proper
  obtain ⟨err, failed⟩ := codec_readSnapshotMetadata.error_of_prefix encodable isPart proper
  exact ⟨err, by rw [decodeSnapshotMetadata, failed]; rfl⟩

def twoChunks : Snapshot := ⟨1, 5, [1, 2, 3], 1024, 2, [9], [7, 8], some 1000⟩

theorem twoChunks_round_trip :
    decodeSnapshotMetadata (encodeSnapshotMetadata twoChunks) = .ok twoChunks ∧
      ∀ cut, cut <+: encodeSnapshotMetadata twoChunks → cut ≠ encodeSnapshotMetadata twoChunks →
        ∃ err, decodeSnapshotMetadata cut = .error err :=
  snapshotMetadata_round_trip ⟨by decide, by decide, by decide, by decide, by decide, by decide,
    by decide, 1000, by decide⟩

end Decode

end Blockberry.StateStore
