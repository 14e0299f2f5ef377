import Mathlib.Data.List.Basic
import Blockberry.Lib.BigEndian

/-!
# Self-delimiting encodings

An encoding that can be read back whatever follows it. Encodings are combined for pairs,
options and lists, and carried over along a retraction.
-/

namespace Serial

open BigEndian List

/-- Writing and reading a value at the front of a byte string. -/
structure Encoding (α : Type) where
  write : α → List UInt8
  read : List UInt8 → Option (α × List UInt8)
  read_write : ∀ value rest, read (write value ++ rest) = some (value, rest)

variable {α β : Type}

def byte : Encoding UInt8 where
  write value := [value]
  read
    | [] => none
    | value :: rest => some (value, rest)
  read_write _ _ := rfl

def pair (first : Encoding α) (second : Encoding β) : Encoding (α × β) where
  write value := first.write value.1 ++ second.write value.2
  read bytes :=
    (first.read bytes).bind fun left =>
      (second.read left.2).map fun right => ((left.1, right.1), right.2)
  read_write value rest := by
    rw [append_assoc, first.read_write, Option.bind_some, second.read_write, Option.map_some]

/-- Values that can be recovered from what is written for them. -/
def retract (encoding : Encoding β) (toβ : α → β) (ofβ : β → α)
    (inverse : ∀ value, ofβ (toβ value) = value) : Encoding α where
  write value := encoding.write (toβ value)
  read bytes := (encoding.read bytes).map fun found => (ofβ found.1, found.2)
  read_write value rest := by
    rw [encoding.read_write, Option.map_some, inverse]

/-- A mark before every item, and another one at the end. -/
def writeItems (item : Encoding α) : List α → List UInt8
  | [] => [0]
  | value :: values => 1 :: (item.write value ++ writeItems item values)

def readItems (item : Encoding α) : Nat → List UInt8 → Option (List α × List UInt8)
  | 0, _ => none
  | _ + 1, [] => none
  | rounds + 1, mark :: bytes =>
    if mark = 0 then some ([], bytes)
    else
      (item.read bytes).bind fun first =>
        (readItems item rounds first.2).map fun others => (first.1 :: others.1, others.2)

variable (item : Encoding α)

theorem readItems_writeItems (values : List α) {rounds : Nat}
    (enough : values.length < rounds) (rest : List UInt8) :
    readItems item rounds (writeItems item values ++ rest) = some (values, rest) := by
  induction values generalizing rounds with
  | nil =>
    cases rounds with
    | zero => exact absurd enough (Nat.not_lt_zero _)
    | succ rounds => rfl
  | cons value values ih =>
    cases rounds with
    | zero => exact absurd enough (Nat.not_lt_zero _)
    | succ rounds =>
      have later := ih (Nat.lt_of_succ_lt_succ enough)
      rw [writeItems, cons_append, append_assoc, readItems, if_neg (by decide),
        item.read_write, Option.bind_some, later, Option.map_some]

theorem length_lt_writeItems (values : List α) :
    values.length < (writeItems item values).length := by
  induction values with
  | nil => exact Nat.zero_lt_one
  | cons value values ih =>
    rw [writeItems, length_cons, length_cons, length_append]
    exact Nat.succ_lt_succ (Nat.lt_add_left _ ih)

def list : Encoding (List α) where
  write := writeItems item
  read bytes := readItems item bytes.length bytes
  read_write values rest := by
    apply readItems_writeItems
    rw [length_append]
    exact Nat.lt_add_right _ (length_lt_writeItems item values)

/-- An option as a list of at most one item. -/
def option : Encoding (Option α) :=
  retract (list item) Option.toList head? fun value => by
    cases value with
    | none | some => rfl

/-- A number of bounded width. -/
def bounded (width : Nat) (toNat : α → Nat) (ofNat : Nat → α)
    (fits : ∀ value, toNat value < 256 ^ width) (inverse : ∀ value, ofNat (toNat value) = value) :
    Encoding α :=
  retract (list byte) (fun value => encode width (toNat value)) (fun bytes => ofNat (decode bytes))
    fun value => by rw [decode_encode (fits value), inverse]

def bool : Encoding Bool :=
  retract byte (fun value => if value then 1 else 0) (· = 1) fun value => by
    cases value with
    | false | true => rfl

def nat : Encoding Nat :=
  retract (list byte) (replicate · 0) length fun _ => length_replicate

def int : Encoding Int :=
  retract (pair bool nat) (fun value => (decide (value < 0), value.natAbs))
    (fun parts => if parts.1 then -parts.2 else parts.2) fun value => by
      simp only [decide_eq_true_eq]
      split
      next negative => rw [Int.ofNat_natAbs_of_nonpos (Int.le_of_lt negative), Int.neg_neg]
      next notNegative => exact Int.natAbs_of_nonneg (Int.not_lt.mp notNegative)

def string : Encoding String :=
  retract (list nat) (fun text => text.toList.map Char.toNat)
    (fun codes => String.ofList (codes.map Char.ofNat)) fun text => by
      have same : Char.ofNat ∘ Char.toNat = id := funext Char.ofNat_toNat
      rw [map_map, same, map_id, String.ofList_toList]

end Serial
