import Blockberry.Lib.BigEndian
import Blockberry.Lib.Fallible

/-!
# Reading from a byte stream

Reading a number of bytes succeeds or meets the end of the stream, before the first byte or after
some. A loop reads items until one reports the end; its bound on the rounds is never met where
every item takes something.
-/

namespace ByteReader

open BigEndian List

variable {ε α β : Type}

inductive ReadError where
  | eof
  | unexpectedEOF
  deriving DecidableEq, Repr

/-- The next bytes and the rest. -/
def readFull (fail : ReadError → ε) (count : Nat) (input : List UInt8) :
    Except ε (List UInt8 × List UInt8) :=
  if count ≤ input.length then .ok (input.take count, input.drop count)
  else .error (fail (if input = [] then .eof else .unexpectedEOF))

/-- The next bytes as a number. -/
def readNat (fail : ReadError → ε) (width : Nat) (input : List UInt8) :
    Except ε (Nat × List UInt8) :=
  (readFull fail width input).map fun read => (decode read.1, read.2)

variable {fail : ReadError → ε}

theorem readFull_append {count : Nat} {bytes : List UInt8}
    (isCount : bytes.length = count) (rest : List UInt8) :
    readFull fail count (bytes ++ rest) = .ok (bytes, rest) := by
  subst isCount
  simp [readFull]

/-- Items until an error that marks the end, with a bound on the rounds. -/
def readMany (item : List UInt8 → Except ε (α × List UInt8)) (isEnd : ε → Bool) :
    Nat → List UInt8 → Except ε (List α)
  | 0, _ => .ok []
  | rounds + 1, input =>
    match item input with
    | .error err => if isEnd err then .ok [] else .error err
    | .ok (value, rest) => (readMany item isEnd rounds rest).map (value :: ·)

/-- Items until an error that marks the end. -/
def readAll (item : List UInt8 → Except ε (α × List UInt8)) (isEnd : ε → Bool)
    (input : List UInt8) : Except ε (List α) :=
  readMany item isEnd (input.length + 1) input

/-- An item takes something from the stream. -/
def Consumes (item : List UInt8 → Except ε (α × List UInt8)) : Prop :=
  ∀ input value rest, item input = .ok (value, rest) → rest.length < input.length

section Loops

variable {item : List UInt8 → Except ε (α × List UInt8)} {isEnd : ε → Bool}
  {input rest : List UInt8}

/-- With enough rounds the bound does not matter. -/
theorem readMany_eq_of_lt (consumes : Consumes item) {rounds rounds' : Nat}
    (enough : input.length < rounds) (enough' : input.length < rounds') :
    readMany item isEnd rounds input = readMany item isEnd rounds' input := by
  induction rounds generalizing rounds' input with
  | zero => exact absurd enough (Nat.not_lt_zero _)
  | succ rounds ih =>
    cases rounds' with
    | zero => exact absurd enough' (Nat.not_lt_zero _)
    | succ rounds' =>
      rw [readMany, readMany]
      cases outcome : item input with
      | error err => rfl
      | ok pair =>
        have shorter := consumes input pair.1 pair.2 outcome
        have same := ih (Nat.lt_of_lt_of_le shorter (Nat.le_of_lt_succ enough))
          (Nat.lt_of_lt_of_le shorter (Nat.le_of_lt_succ enough'))
        exact congrArg (Except.map (pair.1 :: ·)) same

theorem readAll_of_ok (consumes : Consumes item) {value : α}
    (read : item input = .ok (value, rest)) :
    readAll item isEnd input = (readAll item isEnd rest).map (value :: ·) := by
  rw [readAll, readMany, read, readAll]
  have same : readMany item isEnd input.length rest = readMany item isEnd (rest.length + 1) rest :=
    readMany_eq_of_lt consumes (consumes input value rest read) (Nat.lt_succ_self _)
  exact congrArg (Except.map (value :: ·)) same

theorem readAll_of_error {err : ε} (read : item input = .error err) :
    readAll item isEnd input = if isEnd err then .ok [] else .error err := by
  rw [readAll, readMany, read]

variable {encode : β → List UInt8} {value : β → α}

/-- Items that are read back one by one are read back all. -/
theorem readAll_flatMap_append (consumes : Consumes item) {items : List β}
    (reads : ∀ x ∈ items, ∀ rest, item (encode x ++ rest) = .ok (value x, rest))
    (rest : List UInt8) :
    readAll item isEnd (items.flatMap encode ++ rest) =
      (readAll item isEnd rest).map (items.map value ++ ·) := by
  induction items with
  | nil =>
    cases outcome : readAll item isEnd rest with
    | error | ok => simp [outcome, Except.map]
  | cons x items ih =>
    have first := reads x mem_cons_self (items.flatMap encode ++ rest)
    rw [flatMap_cons, append_assoc, readAll_of_ok consumes first,
      ih fun y member => reads y (mem_cons_of_mem _ member)]
    cases readAll item isEnd rest with
    | error | ok => rfl

end Loops

end ByteReader
