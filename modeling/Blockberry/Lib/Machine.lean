import Mathlib.Algebra.Order.BigOperators.Group.List
import Mathlib.Data.Finset.Card
import Mathlib.Data.Int.Order.Basic
import Mathlib.Order.Interval.Finset.Nat
import Mathlib.Tactic.Linarith

/-!
# Signed machine words

A signed 64-bit word is read through its integer value. Every operation is the exact one followed
by `wrap`; this module states when that does nothing.
-/

namespace Machine

open Int64 Finset List

/-- Reduction of an integer to the value a signed 64-bit word keeps of it. -/
def wrap (value : Int) : Int := value.bmod (2 ^ 64)

/-- The integers that a signed 64-bit word represents. -/
def InRange (value : Int) : Prop := -2 ^ 63 ≤ value ∧ value < 2 ^ 63

instance (value : Int) : Decidable (InRange value) :=
  inferInstanceAs (Decidable (_ ∧ _))

@[simp] theorem wrap_of_inRange {value : Int} (inRange : InRange value) : wrap value = value := by
  obtain ⟨lower, upper⟩ := inRange
  exact Int.bmod_eq_of_le (by omega) (by omega)

theorem inRange_toInt (word : Int64) : InRange word.toInt := ⟨word.le_toInt, word.toInt_lt⟩

theorem exists_toInt_eq {value : Int} (inRange : InRange value) :
    ∃ word : Int64, word.toInt = value :=
  ⟨Int64.ofInt value, toInt_ofInt.trans (wrap_of_inRange inRange)⟩

/-! ## Single operations -/

theorem toInt_add (left right : Int64) : (left + right).toInt = wrap (left.toInt + right.toInt) :=
  Int64.toInt_add left right

variable {left right : Int64}

theorem toInt_add_of_inRange (inRange : InRange (left.toInt + right.toInt)) :
    (left + right).toInt = left.toInt + right.toInt := by
  rw [toInt_add, wrap_of_inRange inRange]

/-- A sum of words that overflows upwards is negative. -/
theorem toInt_add_neg_of_overflow (overflow : 2 ^ 63 ≤ left.toInt + right.toInt) :
    (left + right).toInt < 0 := by
  have leftBound := left.toInt_lt
  have rightBound := right.toInt_lt
  rw [toInt_add, wrap, Int.bmod_def]
  split <;> omega

/-- Adding a nonnegative word never gives more than the exact sum. -/
theorem toInt_add_le (nonneg : 0 ≤ right.toInt) :
    (left + right).toInt ≤ left.toInt + right.toInt := by
  rcases lt_or_ge (left.toInt + right.toInt) (2 ^ 63) with inRange | overflow
  · have lower := left.le_toInt
    rw [toInt_add_of_inRange ⟨by omega, inRange⟩]
  · have negative := toInt_add_neg_of_overflow overflow
    omega

theorem toInt_sub_of_inRange (inRange : InRange (left.toInt - right.toInt)) :
    (left - right).toInt = left.toInt - right.toInt := by
  rw [toInt_sub]
  exact wrap_of_inRange inRange

theorem toInt_mul_of_inRange (inRange : InRange (left.toInt * right.toInt)) :
    (left * right).toInt = left.toInt * right.toInt := by
  rw [toInt_mul]
  exact wrap_of_inRange inRange

/-- Division of a nonnegative word by a positive one never leaves the range, and
truncation is rounding down there. -/
theorem toInt_div_of_nonneg (nonneg : 0 ≤ left.toInt) (pos : 0 < right.toInt) :
    (left / right).toInt = left.toInt / right.toInt := by
  have quotientLe : left.toInt / right.toInt ≤ left.toInt := Int.ediv_le_self _ nonneg
  have quotientNonneg : 0 ≤ left.toInt / right.toInt := Int.ediv_nonneg nonneg pos.le
  have leftLt := left.toInt_lt
  rw [toInt_div, Int.tdiv_eq_ediv_of_nonneg nonneg]
  exact wrap_of_inRange ⟨by omega, by omega⟩

/-! ## Accumulating loops -/

/-- The exact sum of the values of a list of words. -/
def exactSum (words : List Int64) : Int := (words.map toInt).sum

@[simp] theorem exactSum_nil : exactSum [] = 0 := rfl

@[simp] theorem exactSum_cons (word : Int64) (words : List Int64) :
    exactSum (word :: words) = word.toInt + exactSum words := by
  simp [exactSum]

/-- A loop that adds the words one after another computes the wrapped exact
sum, whatever overflows happen on the way. -/
theorem toInt_foldl_add (words : List Int64) (start : Int64) : (words.foldl (· + ·) start).toInt =
      wrap (start.toInt + exactSum words) := by
  induction words generalizing start with
  | nil => simp [wrap_of_inRange (inRange_toInt start)]
  | cons word words ih =>
    simp only [foldl_cons, exactSum_cons]
    rw [ih, toInt_add, ← add_assoc]
    simp only [wrap, Int.bmod_add_bmod]

/-- The same for a loop that takes the words off one after another. -/
theorem toInt_foldl_sub (words : List Int64) (start : Int64) : (words.foldl (· - ·) start).toInt =
      wrap (start.toInt - exactSum words) := by
  induction words generalizing start with
  | nil => simp [wrap_of_inRange (inRange_toInt start)]
  | cons word words ih =>
    simp only [foldl_cons, exactSum_cons]
    rw [ih, toInt_sub, sub_add_eq_sub_sub]
    simp only [wrap, Int.bmod_sub_bmod]

theorem exactSum_nonneg {words : List Int64}
    (nonneg : ∀ word ∈ words, 0 ≤ word.toInt) : 0 ≤ exactSum words := by
  apply List.sum_nonneg
  intro value member
  obtain ⟨word, wordMem, rfl⟩ := mem_map.mp member
  exact nonneg word wordMem

/-! ## Counting words -/

/-- There are fewer positive words than a word can count. -/
theorem length_lt_of_pos {words : List Int64} (nodup : words.Nodup)
    (pos : ∀ word ∈ words, 0 < word) : words.length < 2 ^ 63 := by
  have positions : (words.toFinset.image fun word : Int64 => word.toInt.toNat) ⊆
      Ioo 0 (2 ^ 63) := by
    intro position member
    obtain ⟨word, inWords, rfl⟩ := mem_image.mp member
    have positive := pos word (mem_toFinset.mp inWords)
    have bound := word.toInt_lt
    rw [lt_iff_toInt_lt, toInt_zero] at positive
    rw [mem_Ioo]
    omega
  have injective : Set.InjOn (fun word : Int64 => word.toInt.toNat) words.toFinset := by
    intro left leftMember right rightMember same
    have leftPos := pos left (by simpa using leftMember)
    have rightPos := pos right (by simpa using rightMember)
    rw [lt_iff_toInt_lt, toInt_zero] at leftPos rightPos
    have values : left.toInt.toNat = right.toInt.toNat := same
    exact toInt_inj.mp (by omega)
  have counted := card_le_card positions
  rw [card_image_of_injOn injective, toFinset_card_of_nodup nodup,
    Nat.card_Ioo] at counted
  omega

end Machine
