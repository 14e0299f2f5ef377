import Blockberry.Lib.ByteReader

/-!
# Readers and the encodings they read

A reader fits an encoding if it reads every valid item back, whatever follows, and everything it
reads is the encoding of a valid item. It fails on every proper part of an encoding, and a loop
that succeeds has read a sequence of encodings.
-/

namespace ByteReader

open BigEndian Fallible List

variable {ε α : Type}

structure Codec (item : List UInt8 → Except ε (α × List UInt8)) (encode : α → List UInt8)
    (valid : α → Prop) : Prop where
  reads : ∀ value, valid value → ∀ rest, item (encode value ++ rest) = .ok (value, rest)
  written : ∀ input value rest, item input = .ok (value, rest) →
    valid value ∧ input = encode value ++ rest

namespace Codec

variable {item : List UInt8 → Except ε (α × List UInt8)} {encode : α → List UInt8}
  {valid : α → Prop} (codec : Codec item encode valid)

include codec

/-- Nothing is read from a part of an encoding. -/
theorem error_of_prefix {value : α} (isValid : valid value) {cut : List UInt8}
    (isPart : cut <+: encode value) (proper : cut ≠ encode value) :
    ∃ err, item cut = .error err := by
  cases outcome : item cut with
  | error err => exact ⟨err, rfl⟩
  | ok pair =>
    obtain ⟨missing, whole⟩ := isPart
    obtain ⟨other, rest⟩ := pair
    obtain ⟨otherValid, isCut⟩ := codec.written cut other rest outcome
    have readOther := codec.reads other otherValid (rest ++ missing)
    rw [← append_assoc, ← isCut, whole] at readOther
    have readValue := codec.reads value isValid []
    rw [append_nil, readOther] at readValue
    have nothing : rest ++ missing = [] := congrArg Prod.snd (Except.ok.inj readValue)
    rw [(append_eq_nil_iff.mp nothing).2, append_nil] at whole
    exact absurd whole proper

/-- A loop succeeds on a sequence of encodings and a tail at which the reader meets what
counts as the end. -/
theorem readAll_eq_ok_iff (takes : Consumes item) {isEnd : ε → Bool} {input : List UInt8}
    {values : List α} :
    readAll item isEnd input = .ok values ↔ (∀ value ∈ values, valid value) ∧
        ∃ tail err, input = values.flatMap encode ++ tail ∧ item tail = .error err ∧
          isEnd err = true := by
  constructor
  · intro read
    induction values generalizing input with
    | nil =>
      refine ⟨forall_mem_nil _, input, ?_⟩
      cases outcome : item input with
      | error err =>
        rw [readAll_of_error outcome] at read
        split at read
        next atEnd => exact ⟨err, rfl, rfl, atEnd⟩
        next => cases read
      | ok pair =>
        rw [readAll_of_ok takes outcome] at read
        cases later : readAll item isEnd pair.2 <;> rw [later] at read <;> cases read
    | cons value values ih =>
      cases outcome : item input with
      | error err =>
        rw [readAll_of_error outcome] at read
        split at read <;> cases read
      | ok pair =>
        rw [readAll_of_ok takes outcome] at read
        cases later : readAll item isEnd pair.2 with
        | error err =>
          rw [later] at read
          cases read
        | ok others =>
          rw [later] at read
          cases read
          obtain ⟨isValid, isInput⟩ := codec.written input pair.1 pair.2 outcome
          obtain ⟨othersValid, tail, err, isRest, failed, atEnd⟩ := ih later
          refine ⟨forall_mem_cons.mpr ⟨isValid, othersValid⟩, tail, err, ?_, failed, atEnd⟩
          rw [isInput, isRest, flatMap_cons, append_assoc]
  · rintro ⟨areValid, tail, err, rfl, failed, atEnd⟩
    have whole : readAll item isEnd (values.flatMap encode ++ tail) = _ :=
      readAll_flatMap_append takes
        (fun value member => codec.reads value (areValid value member)) tail
    rw [whole, readAll_of_error failed, if_pos atEnd]
    simp [Except.map]

end Codec

section Records

variable {β : Type}

theorem Codec.congr {item : List UInt8 → Except ε (α × List UInt8)}
    {encode other : α → List UInt8} {valid wanted : α → Prop} (codec : Codec item encode valid)
    (same : ∀ value, other value = encode value) (isWanted : ∀ value, valid value ↔ wanted value) :
    Codec item other wanted where
  reads value isValid rest := by
    rw [same, codec.reads value ((isWanted value).mpr isValid)]
  written input value rest read := by
    rw [same, ← isWanted]
    exact codec.written input value rest read

/-- Items that are another form of what is read. -/
theorem Codec.map {item : List UInt8 → Except ε (α × List UInt8)} {encode : α → List UInt8}
    {valid : α → Prop} {wanted : β → Prop} (codec : Codec item encode valid) (ofα : α → β)
    (toα : β → α) (back : ∀ value, wanted value → valid (toα value) ∧ ofα (toα value) = value)
    (onto : ∀ value, valid value → wanted (ofα value) ∧ toα (ofα value) = value) :
    Codec (fun input => (item input).map fun read => (ofα read.1, read.2))
      (fun value => encode (toα value)) wanted where
  reads value isWanted rest := by
    rw [codec.reads _ (back value isWanted).1, Except.map, (back value isWanted).2]
  written input value rest read := by
    obtain ⟨⟨found, later⟩, isRead, same⟩ := map_eq_ok_iff.mp read
    cases same
    obtain ⟨isValid, isInput⟩ := codec.written input found later isRead
    rw [(onto found isValid).2]
    exact ⟨(onto found isValid).1, isInput⟩

/-- A reader of records that reads one field and then what follows it. The records of the rest
are those of which the field that was read is known. -/
theorem Codec.firstField {item : List UInt8 → Except ε (α × List UInt8)}
    {encode : α → List UInt8} {valid : α → Prop} {next : α × List UInt8 → Except ε (β × List UInt8)}
    {encodeRest : β → List UInt8} {validRecord : β → Prop} (codec : Codec item encode valid)
    (field : β → α) (fits : ∀ record, validRecord record → valid (field record))
    (later : ∀ value, valid value → Codec (fun input => next (value, input)) encodeRest
      fun record => validRecord record ∧ field record = value) :
    Codec (fun input => item input >>= next)
      (fun record => encode (field record) ++ encodeRest record) validRecord where
  reads record isRecord rest := by
    have isField := fits record isRecord
    rw [append_assoc, codec.reads _ isField, ok_bind]
    exact (later _ isField).reads record ⟨isRecord, rfl⟩ rest
  written input record rest read := by
    obtain ⟨⟨value, afterField⟩, fieldRead, restRead⟩ := exists_of_bind_eq_ok read
    obtain ⟨isField, isInput⟩ := codec.written input value afterField fieldRead
    obtain ⟨⟨isRecord, same⟩, isRest⟩ :=
      (later value isField).written afterField record rest restRead
    exact ⟨isRecord, by rw [isInput, isRest, same, append_assoc]⟩

/-- The same after other fields, which are known. -/
theorem Codec.field {item : List UInt8 → Except ε (α × List UInt8)} {encode : α → List UInt8}
    {valid : α → Prop} {next : α × List UInt8 → Except ε (β × List UInt8)}
    {encodeRest : β → List UInt8} {validRecord known : β → Prop}
    (codec : Codec item encode valid) (field : β → α)
    (fits : ∀ record, validRecord record → valid (field record))
    (later : ∀ value, valid value → Codec (fun input => next (value, input)) encodeRest
      fun record => validRecord record ∧ known record ∧ field record = value) :
    Codec (fun input => item input >>= next)
      (fun record => encode (field record) ++ encodeRest record)
      (fun record => validRecord record ∧ known record) :=
  codec.firstField field (fun record both => fits record both.1) fun value isValue =>
    (later value isValue).congr (fun _ => rfl) fun _ => and_assoc.symm

/-- All fields of a record have been read. -/
theorem codec_record {record : β} {valid : β → Prop}
    (only : ∀ other, valid other ↔ other = record) :
    Codec (fun input => (.ok (record, input) : Except ε (β × List UInt8))) (fun _ => []) valid where
  reads other isValid rest := by
    rw [(only other).mp isValid, nil_append]
  written input other rest read := by
    cases read
    exact ⟨(only record).mpr rfl, rfl⟩

end Records

section Fields

variable {fail : ReadError → ε}

theorem codec_readFull (count : Nat) :
    Codec (readFull fail count) id fun bytes => bytes.length = count where
  reads _ isCount rest := readFull_append isCount rest
  written input bytes rest read := by
    unfold readFull at read
    split at read
    next enough =>
      cases read
      exact ⟨length_take_of_le enough, (take_append_drop count input).symm⟩
    next => cases read

theorem codec_readNat (width : Nat) :
    Codec (readNat fail width) (encode width) fun value => value < 256 ^ width :=
  (codec_readFull width).map decode (encode width)
    (fun value fits => ⟨length_encode width value, decode_encode fits⟩) fun bytes isWidth => by
      subst isWidth
      exact ⟨decode_lt bytes, encode_decode bytes⟩

/-- The next eight bytes as a signed word. -/
def readWord (fail : ReadError → ε) (input : List UInt8) : Except ε (Int64 × List UInt8) :=
  (readFull fail 8 input).map fun read => (decodeWord read.1, read.2)

theorem codec_readWord : Codec (readWord fail) encodeWord fun _ => True :=
  (codec_readFull 8).map decodeWord encodeWord
    (fun word _ => ⟨length_encodeWord word, decodeWord_encodeWord word⟩)
    fun _ isWord => ⟨trivial, encodeWord_decodeWord isWord⟩

/-- The next bytes as a number, with a limit. -/
def readBounded (fail : ReadError → ε) (width maximum : Nat) (tooLarge : Nat → ε)
    (input : List UInt8) : Except ε (Nat × List UInt8) := do
  let (value, input) ← readNat fail width input
  if maximum < value then .error (tooLarge value) else .ok (value, input)

theorem codec_readBounded {width maximum : Nat} {tooLarge : Nat → ε}
    (small : maximum < 256 ^ width) :
    Codec (readBounded fail width maximum tooLarge) (encode width)
      fun value => value ≤ maximum where
  reads value within rest := by
    rw [readBounded, (codec_readNat width).reads _ (Nat.lt_of_le_of_lt within small), ok_bind]
    exact if_neg (Nat.not_lt.mpr within)
  written input value rest read := by
    obtain ⟨⟨found, later⟩, numberRead, isOk⟩ := exists_of_bind_eq_ok read
    change (if maximum < found then _ else _) = _ at isOk
    split at isOk
    next => cases isOk
    next within =>
      cases isOk
      exact ⟨Nat.not_lt.mp within, ((codec_readNat width).written input value rest numberRead).2⟩

/-- A string with its length before it. -/
def sized (width : Nat) (bytes : List UInt8) : List UInt8 := encode width bytes.length ++ bytes

/-- The length and the bytes after it, with a limit. -/
def readSized (fail : ReadError → ε) (width maximum : Nat) (tooLong : Nat → ε)
    (input : List UInt8) : Except ε (List UInt8 × List UInt8) := do
  let (length, input) ← readBounded fail width maximum tooLong input
  readFull fail length input

theorem codec_readSized {width maximum : Nat} {tooLong : Nat → ε} (small : maximum < 256 ^ width) :
    Codec (readSized fail width maximum tooLong) (sized width)
      fun bytes => bytes.length ≤ maximum where
  reads bytes within rest := by
    rw [readSized, sized, append_assoc, (codec_readBounded small).reads _ within, ok_bind]
    exact readFull_append rfl rest
  written input bytes rest read := by
    obtain ⟨⟨length, later⟩, lengthRead, isOk⟩ := exists_of_bind_eq_ok read
    obtain ⟨within, isInput⟩ := (codec_readBounded small).written input length later lengthRead
    obtain ⟨isLength, isLater⟩ := (codec_readFull length).written later bytes rest isOk
    subst isLength
    exact ⟨within, by rw [isInput, isLater, sized, append_assoc, id]⟩

end Fields

section Ends

variable {fail : ReadError → ε} (distinct : fail .unexpectedEOF ≠ fail .eof)

include distinct

variable {input : List UInt8}

theorem readFull_eq_eof_iff {count : Nat} :
    readFull fail count input = .error (fail .eof) ↔ input = [] ∧ 0 < count := by
  rw [readFull]
  split
  next enough =>
    constructor
    · intro failed
      cases failed
    · rintro ⟨rfl, positive⟩
      exact absurd enough (Nat.not_le.mpr positive)
  next missing =>
    split
    next empty => simp [empty, Nat.zero_lt_of_lt (Nat.not_le.mp missing)]
    next nonempty => simp [nonempty, distinct]

theorem readNat_eq_eof_iff {width : Nat} :
    readNat fail width input = .error (fail .eof) ↔ input = [] ∧ 0 < width := by
  rw [← readFull_eq_eof_iff distinct, readNat]
  cases readFull fail width input with
  | error | ok => simp [Except.map]

theorem readBounded_eq_eof_iff {width maximum : Nat} {tooLarge : Nat → ε}
    (other : ∀ value, tooLarge value ≠ fail .eof) :
    readBounded fail width maximum tooLarge input = .error (fail .eof) ↔
      input = [] ∧ 0 < width := by
  rw [readBounded, bind_eq_error_iff, readNat_eq_eof_iff distinct, or_iff_left]
  rintro ⟨⟨value, rest⟩, -, failed⟩
  change (if maximum < value then _ else _) = _ at failed
  split at failed
  next => exact other value (Except.error.inj failed)
  next => cases failed

/-- A sized string ends before its length, or after a length that promises more. -/
theorem readSized_eq_eof_iff {width maximum : Nat} {tooLong : Nat → ε}
    (other : ∀ length, tooLong length ≠ fail .eof) (small : maximum < 256 ^ width) :
    readSized fail width maximum tooLong input = .error (fail .eof) ↔ (input = [] ∧ 0 < width) ∨
        ∃ length, 0 < length ∧ length ≤ maximum ∧ input = encode width length := by
  rw [readSized, bind_eq_error_iff, readBounded_eq_eof_iff distinct other]
  apply or_congr_right
  constructor
  · rintro ⟨⟨length, rest⟩, lengthRead, failed⟩
    obtain ⟨rfl, positive⟩ := (readFull_eq_eof_iff distinct).mp failed
    obtain ⟨within, isInput⟩ := (codec_readBounded small).written input length [] lengthRead
    exact ⟨length, positive, within, by rw [isInput, append_nil]⟩
  · rintro ⟨length, positive, within, rfl⟩
    have lengthRead : readBounded fail width maximum tooLong (encode width length ++ []) = _ :=
      (codec_readBounded small).reads length within []
    rw [append_nil] at lengthRead
    exact ⟨(length, []), lengthRead, (readFull_eq_eof_iff distinct).mpr ⟨rfl, positive⟩⟩

end Ends

end ByteReader
