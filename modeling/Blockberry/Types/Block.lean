import Blockberry.Types.Basic

/-!
# Block messages

The `BlockData` message of the schema, the structural checks on it, and the type of application
validators. The hash of a block is a parameter of later modules.
-/

namespace Blockberry

/-- A block as decoded from a peer's message. `height` is absent when the field
was not on the wire. -/
structure BlockData where
  height : Option Int64
  hash : Bytes
  data : Bytes
  deriving DecidableEq, Repr

def maxBlockHeight : Int64 := 4611686018427387903

def maxMessageSize : Nat := 10 * 1024 * 1024

inductive ValidationError where
  | negativeHeight (height : Int64)
  | heightTooLarge (height : Int64)
  | emptyHash
  | emptyData
  | dataTooLarge (size : Nat)
  deriving DecidableEq, Repr

/-- Text of an error, as it is passed on in a penalty. -/
def ValidationError.error : ValidationError → String
  | negativeHeight height =>
    "invalid block height: height cannot be negative: " ++ toString height
  | heightTooLarge height =>
    "invalid block height: height exceeds maximum: " ++ toString height ++ " > " ++
      toString maxBlockHeight
  | emptyHash => "block hash: empty data: hash cannot be empty"
  | emptyData => "block data: empty data"
  | dataTooLarge size =>
    "block data: data too large: " ++ toString size ++ " > " ++ toString maxMessageSize

def validateHeight (height : Int64) : Option ValidationError :=
  if height < 0 then some (.negativeHeight height)
  else if height > maxBlockHeight then some (.heightTooLarge height)
  else none

/-- `ValidateBlockData`. An absent height passes. -/
def validateBlockData (height : Option Int64) (hash data : Bytes) :
    Option ValidationError :=
  match height.bind validateHeight with
  | some err => some err
  | none =>
    if hash.length = 0 then some .emptyHash
    else if data.length = 0 then some .emptyData
    else if data.length > maxMessageSize then some (.dataTooLarge data.length)
    else none

theorem validateHeight_eq_none_iff {height : Int64} :
    validateHeight height = none ↔ 0 ≤ height ∧ height ≤ maxBlockHeight := by
  simp only [validateHeight]
  split
  next negative => simpa using fun nonneg => absurd negative (Int64.not_lt.mpr nonneg)
  next nonneg =>
    split
    next large => simpa using fun _ => Int64.not_le.mpr large
    next small => exact iff_of_true rfl ⟨Int64.not_lt.mp nonneg, Int64.not_lt.mp small⟩

theorem validateBlockData_some_eq_none_iff {height : Int64} {hash data : Bytes} :
    validateBlockData (some height) hash data = none ↔
      (0 ≤ height ∧ height ≤ maxBlockHeight) ∧ hash ≠ [] ∧ data ≠ [] ∧
        data.length ≤ maxMessageSize := by
  rw [← validateHeight_eq_none_iff]
  simp only [validateBlockData, Option.bind_some]
  cases validateHeight height with
  | some err => simp
  | none =>
    simp only [List.length_eq_zero_iff]
    split_ifs <;> simp_all

/-- `BlockValidator`: the error text, or nothing when the block is accepted. -/
abbrev BlockValidator := Int64 → Bytes → Bytes → Option String

def acceptAllBlockValidator : BlockValidator := fun _ _ _ => none

end Blockberry
