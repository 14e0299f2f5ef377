import Blockberry.Lib.BigEndian
import Blockberry.Lib.Chunks
import Blockberry.Types.Basic

/-!
# Snapshots

A snapshot is the compressed export of the state tree, cut into chunks, together with
its metadata. Its hash covers the height and the chunks. SHA-256 is a parameter
wherever it is used.
-/

namespace Blockberry.StateStore

def snapshotVersion : UInt32 := 1

/-- `Snapshot`. A time is its nanoseconds, or none for the zero time. -/
structure Snapshot where
  version : UInt32
  height : Int64
  hash : Bytes
  chunkSize : Int
  chunks : Int
  metadata : Bytes
  appHash : Bytes
  createdAt : Option Int
  deriving DecidableEq, Repr

def encodeInt64 (v : Int64) : Bytes := BigEndian.encodeWord v

/-- The hash that `Create` gives a snapshot: the height and the chunks are written to
one digest. -/
def snapshotHash (sha256 : Bytes → Bytes) (height : Int64) (chunks : List Bytes) : Bytes :=
  sha256 (encodeInt64 height ++ chunks.flatten)

def splitIntoChunks (data : Bytes) (chunkSize : Int) : Option (List Bytes) :=
  if data = [] then some []
  else if chunkSize ≤ 0 then none
  else some (Chunks.chunksOf chunkSize.toNat data)

theorem flatten_of_splitIntoChunks {data : Bytes} {chunkSize : Int} {chunks : List Bytes}
    (split : splitIntoChunks data chunkSize = some chunks) : chunks.flatten = data := by
  unfold splitIntoChunks at split
  split at split
  next empty =>
    cases split
    exact empty.symm
  next =>
    split at split
    next => cases split
    next positive =>
      cases split
      exact Chunks.flatten_chunksOf (by omega) data

theorem exists_splitIntoChunks_iff {data : Bytes} {chunkSize : Int} :
    (∃ chunks, splitIntoChunks data chunkSize = some chunks) ↔ data = [] ∨ 0 < chunkSize := by
  unfold splitIntoChunks
  by_cases empty : data = []
  · simp [empty]
  · rw [if_neg empty]
    by_cases notPositive : chunkSize ≤ 0
    · simp [empty, notPositive]
    · simp [notPositive, Int.not_le.mp notPositive]

theorem length_le_iff_of_splitIntoChunks {data : Bytes} {chunkSize : Int} {chunks : List Bytes}
    (split : splitIntoChunks data chunkSize = some chunks) (nonneg : 0 ≤ chunkSize) (most : Nat) :
    chunks.length ≤ most ↔ (data.length : Int) ≤ most * chunkSize := by
  obtain ⟨size, rfl⟩ := Int.eq_ofNat_of_zero_le nonneg
  unfold splitIntoChunks at split
  split at split
  next empty =>
    cases split
    simp only [empty, List.length_nil, Nat.zero_le, true_iff]
    exact Int.mul_nonneg (Int.natCast_nonneg most) nonneg
  next =>
    split at split
    next => cases split
    next positive =>
      cases split
      have pos : 0 < size := Int.ofNat_lt.mp (Int.not_le.mp positive)
      rw [Int.toNat_natCast, Chunks.length_chunksOf pos, ceilDiv_le_iff_le_mul pos]
      norm_cast
      rw [Nat.mul_comm]

end Blockberry.StateStore
