import Mathlib.Data.Nat.Basic
import Mathlib.Tactic.Ring

/-!
# Big-endian numbers of fixed width

The bytes of a number, most significant first. Encodings of one width can be decoded and are
ordered as the numbers are. A signed word is written as the unsigned word with the same bits, so
the order of words that are not negative is kept.
-/

namespace BigEndian

open List Nat

/-- The last `width` bytes of a number. -/
def encode : Nat → Nat → List UInt8
  | 0, _ => []
  | width + 1, value => UInt8.ofNat (value / 256 ^ width) :: encode width value

def decode (bytes : List UInt8) : Nat :=
  bytes.foldl (fun value byte => value * 256 + byte.toNat) 0

@[simp] theorem length_encode (width value : Nat) : (encode width value).length = width := by
  induction width with
  | zero => rfl
  | succ width ih => rw [encode, length_cons, ih]

theorem mod_succ (width value : Nat) : value % 256 ^ (width + 1) =
      (UInt8.ofNat (value / 256 ^ width)).toNat * 256 ^ width + value % 256 ^ width := by
  rw [pow_succ, mod_mul, UInt8.toNat_ofNat', mul_comm, add_comm]

variable (bytes : List UInt8)

theorem foldl_add (start : Nat) : bytes.foldl (fun value byte => value * 256 + byte.toNat) start =
      start * 256 ^ bytes.length + decode bytes := by
  induction bytes generalizing start with
  | nil => simp [decode]
  | cons byte bytes ih =>
    rw [decode, foldl_cons, foldl_cons, ih, ih, length_cons]
    ring

theorem decode_cons (byte : UInt8) (bytes : List UInt8) :
    decode (byte :: bytes) = byte.toNat * 256 ^ bytes.length + decode bytes := by
  rw [decode, foldl_cons, foldl_add, zero_mul, zero_add]

theorem decode_encode_mod (width value : Nat) :
    decode (encode width value) = value % 256 ^ width := by
  induction width with
  | zero => simp [encode, decode, mod_one]
  | succ width ih => rw [encode, decode_cons, ih, length_encode, mod_succ]

theorem decode_encode {width value : Nat} (fits : value < 256 ^ width) :
    decode (encode width value) = value := by
  rw [decode_encode_mod, mod_eq_of_lt fits]

theorem encode_inj {width left right : Nat} (leftFits : left < 256 ^ width)
    (rightFits : right < 256 ^ width) (same : encode width left = encode width right) :
    left = right := by
  rw [← decode_encode leftFits, same, decode_encode rightFits]

theorem decode_lt : decode bytes < 256 ^ bytes.length := by
  induction bytes with
  | nil => exact one_pos
  | cons byte bytes ih =>
    have step : (byte.toNat + 1) * 256 ^ bytes.length ≤ 256 * 256 ^ bytes.length :=
      mul_le_mul_right _ byte.toNat_lt
    rw [add_mul, one_mul] at step
    rw [decode_cons, length_cons, pow_succ, mul_comm _ 256]
    omega

/-- Multiples of the range are not seen. -/
theorem encode_mul_add (width factor value : Nat) :
    encode width (factor * 256 ^ width + value) = encode width value := by
  induction width generalizing factor with
  | zero => rfl
  | succ width ih =>
    have pos : 0 < 256 ^ width := Nat.pow_pos (by decide)
    have split : factor * 256 ^ (width + 1) + value = factor * 256 * 256 ^ width + value := by
      rw [pow_succ]
      ring
    rw [split, encode, encode, ih, mul_comm _ (256 ^ width), mul_add_div pos]
    congr 1
    apply UInt8.toNat_inj.mp
    rw [UInt8.toNat_ofNat', UInt8.toNat_ofNat', mul_comm factor]
    exact mul_add_mod _ _ _

theorem encode_decode : encode bytes.length (decode bytes) = bytes := by
  induction bytes with
  | nil => rfl
  | cons byte bytes ih =>
    have pos : 0 < 256 ^ bytes.length := Nat.pow_pos (by decide)
    rw [length_cons, encode, decode_cons, encode_mul_add, ih,
      mul_comm _ (256 ^ bytes.length), mul_add_div pos,
      div_eq_of_lt (decode_lt bytes), add_zero, UInt8.ofNat_toNat]

/-- Two numbers compare as their leading parts do, and then as their remainders. -/
theorem compare_mul_add {base high high' low low' : Nat} (fits : low < base) (fits' : low' < base) :
    compare (high * base + low) (high' * base + low') =
      (compare high high').then (compare low low') := by
  rcases lt_trichotomy high high' with below | rfl | above
  · have step : high * base + base ≤ high' * base := by
      rw [← succ_mul]
      exact mul_le_mul_right base below
    rw [Nat.compare_eq_lt.mpr below, Nat.compare_eq_lt.mpr (by omega)]
    rfl
  · rw [Nat.compare_eq_eq.mpr rfl]
    rw [Ordering.eq_then]
    rcases lt_trichotomy low low' with below | rfl | above
    · rw [Nat.compare_eq_lt.mpr below, Nat.compare_eq_lt.mpr (Nat.add_lt_add_left below _)]
    · rw [Nat.compare_eq_eq.mpr rfl, Nat.compare_eq_eq.mpr rfl]
    · rw [Nat.compare_eq_gt.mpr above, Nat.compare_eq_gt.mpr (Nat.add_lt_add_left above _)]
  · have step : high' * base + base ≤ high * base := by
      rw [← succ_mul]
      exact mul_le_mul_right base above
    rw [Nat.compare_eq_gt.mpr above, Nat.compare_eq_gt.mpr (by omega)]
    rfl

theorem compare_byte (left right : UInt8) :
    compare left right = compare left.toNat right.toNat := by
  simp only [compare, compareOfLessAndEq, UInt8.lt_iff_toNat_lt, UInt8.toNat_inj]

/-- The order of the encodings is that of the numbers. -/
theorem compare_encode_mod (width left right : Nat) :
    compare (encode width left) (encode width right) =
      compare (left % 256 ^ width) (right % 256 ^ width) := by
  induction width with
  | zero => simp [encode, mod_one]
  | succ width ih =>
    have pos : 0 < 256 ^ width := Nat.pow_pos (by decide)
    rw [encode, encode, List.compare_cons_cons, ih, mod_succ, mod_succ,
      compare_mul_add (mod_lt left pos) (mod_lt right pos), compare_byte]

theorem compare_encode {width left right : Nat} (leftFits : left < 256 ^ width)
    (rightFits : right < 256 ^ width) :
    compare (encode width left) (encode width right) = compare left right := by
  rw [compare_encode_mod, mod_eq_of_lt leftFits, mod_eq_of_lt rightFits]

/-- Strings that begin with equally long parts compare as these do, and then as the rest. -/
theorem compare_append {first first' rest rest' : List UInt8}
    (sameLength : first.length = first'.length) :
    compare (first ++ rest) (first' ++ rest') =
      (compare first first').then (compare rest rest') := by
  induction first generalizing first' with
  | nil =>
    rw [length_nil, eq_comm, length_eq_zero_iff] at sameLength
    simp [sameLength]
  | cons byte first ih =>
    cases first' with
    | nil => cases sameLength
    | cons byte' first' =>
      rw [List.cons_append, List.cons_append, List.compare_cons_cons, List.compare_cons_cons,
        ih (succ.inj sameLength), Ordering.then_assoc]

def encodeWord (word : Int64) : List UInt8 := encode 8 word.toUInt64.toNat

/-- The first eight bytes as a signed word; a shorter string counts as zero. -/
def decodeWord (bytes : List UInt8) : Int64 :=
  if bytes.length < 8 then 0 else (UInt64.ofNat (decode (bytes.take 8))).toInt64

@[simp] theorem length_encodeWord (word : Int64) : (encodeWord word).length = 8 := length_encode 8 _

@[simp] theorem decodeWord_encodeWord_append (word : Int64) (rest : List UInt8) :
    decodeWord (encodeWord word ++ rest) = word := by
  have long : ¬(encodeWord word ++ rest).length < 8 := by simp
  have first : (encodeWord word ++ rest).take 8 = encodeWord word :=
    take_left' (length_encodeWord word)
  have fits : word.toUInt64.toNat < 256 ^ 8 := word.toUInt64.toNat_lt
  rw [decodeWord, if_neg long, first, encodeWord, decode_encode fits, UInt64.ofNat_toNat]
  simp

@[simp] theorem decodeWord_encodeWord (word : Int64) : decodeWord (encodeWord word) = word := by
  simpa using decodeWord_encodeWord_append word []

theorem encodeWord_decodeWord {bytes : List UInt8} (isWord : bytes.length = 8) :
    encodeWord (decodeWord bytes) = bytes := by
  have long : ¬bytes.length < 8 := by omega
  have below : decode bytes < 2 ^ 64 := by
    have := decode_lt bytes
    rw [isWord] at this
    exact this
  have whole : bytes.take 8 = bytes := take_of_length_le (le_of_eq isWord)
  rw [decodeWord, if_neg long, whole, encodeWord]
  have back := encode_decode bytes
  rw [isWord] at back
  simp [UInt64.toNat_ofNat_of_lt' below, back]

theorem encodeWord_inj {left right : Int64} :
    encodeWord left = encodeWord right ↔ left = right := by
  refine ⟨fun same => ?_, congrArg encodeWord⟩
  rw [← decodeWord_encodeWord left, same, decodeWord_encodeWord]

theorem toNat_toUInt64 {word : Int64} (nonneg : 0 ≤ word.toInt) :
    (word.toUInt64.toNat : Int) = word.toInt := by
  have bound := word.toInt_lt
  have bits : word.toInt = (word.toUInt64.toNat : Int).bmod (2 ^ 64) := by
    rw [← UInt64.toNat_toBitVec, Int64.toBitVec_toUInt64, ← BitVec.toInt_eq_toNat_bmod]
    rfl
  have range := word.toUInt64.toNat_lt
  rw [Int.bmod_def] at bits
  split at bits
  next => omega
  next => omega

theorem compare_encodeWord {left right : Int64} (leftNonneg : 0 ≤ left.toInt)
    (rightNonneg : 0 ≤ right.toInt) :
    compare (encodeWord left) (encodeWord right) = compare left.toInt right.toInt := by
  have leftFits : left.toUInt64.toNat < 256 ^ 8 := left.toUInt64.toNat_lt
  have rightFits : right.toUInt64.toNat < 256 ^ 8 := right.toUInt64.toNat_lt
  rw [encodeWord, encodeWord, compare_encode leftFits rightFits, ← toNat_toUInt64 leftNonneg,
    ← toNat_toUInt64 rightNonneg]
  simp only [compare, compareOfLessAndEq, Int.ofNat_lt, Int.ofNat_inj]

end BigEndian
