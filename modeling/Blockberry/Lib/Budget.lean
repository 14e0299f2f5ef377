import Mathlib

/-!
# Prefixes within a budget

A loop that takes elements of a list one after another until the next one would exceed a limit
on the sum of their weights. A limit that is not positive is none. What it takes is the longest
prefix within the limit.
-/

namespace Budget

open List

variable {α β : Type*} (weight : α → Int) (limit : Int)

/-- The elements taken after those of a given total weight. -/
def take : Int → List α → List α
  | _, [] => []
  | total, x :: rest =>
    if 0 < limit ∧ limit < total + weight x then [] else x :: take (total + weight x) rest

/-- The sum of the weights. -/
def total (xs : List α) : Int := (xs.map weight).sum

/-- The elements are within the limit. -/
def Fits (xs : List α) : Prop := 0 < limit → total weight xs ≤ limit

/-- The longest prefix with a property. -/
structure LongestPrefix (within : List α → Prop) (taken xs : List α) : Prop where
  isPrefix : taken <+: xs
  fits : within taken
  longest : ∀ other, other <+: xs → within other → other <+: taken

variable {weight limit}

@[simp] theorem total_nil : total weight [] = 0 := rfl

@[simp] theorem total_cons (x : α) (rest : List α) :
    total weight (x :: rest) = weight x + total weight rest := sum_cons

theorem total_nonneg (nonneg : ∀ x, 0 ≤ weight x) (xs : List α) : 0 ≤ total weight xs := by
  apply sum_nonneg
  intro value member
  obtain ⟨x, -, rfl⟩ := mem_map.mp member
  exact nonneg x

theorem total_take_le (start : Int) (bounded : 0 < limit → start ≤ limit) (xs : List α) :
    0 < limit → start + total weight (take weight limit start xs) ≤ limit := by
  intro limited
  induction xs generalizing start with
  | nil =>
    rw [take, total_nil, Int.add_zero]
    exact bounded limited
  | cons x rest ih =>
    rw [take]
    split
    next =>
      rw [total_nil, Int.add_zero]
      exact bounded limited
    next fits =>
      rw [total_cons, ← Int.add_assoc]
      exact ih _ fun _ => not_lt.mp fun above => fits ⟨limited, above⟩

theorem take_isPrefix (start : Int) (xs : List α) : take weight limit start xs <+: xs := by
  induction xs generalizing start with
  | nil => exact prefix_rfl
  | cons x rest ih =>
    rw [take]
    split
    next => exact nil_prefix
    next => exact (prefix_cons_inj x).mpr (ih _)

variable (nonneg : ∀ x, 0 ≤ weight x)

include nonneg

/-- A prefix within the limit is taken. -/
theorem isPrefix_take (start : Int) {other xs : List α}
    (isPrefix : other <+: xs) (fits : 0 < limit → start + total weight other ≤ limit) :
    other <+: take weight limit start xs := by
  induction xs generalizing start other with
  | nil =>
    rw [prefix_nil.mp isPrefix]
    exact nil_prefix
  | cons x rest ih =>
    cases other with
    | nil => exact nil_prefix
    | cons y other =>
      obtain ⟨rfl, later⟩ := cons_prefix_cons.mp isPrefix
      have fitsLater : 0 < limit → start + weight y + total weight other ≤ limit := by
        intro limited
        rw [Int.add_assoc, ← total_cons]
        exact fits limited
      rw [take, if_neg]
      · exact (prefix_cons_inj y).mpr (ih _ later fitsLater)
      · rintro ⟨limited, above⟩
        have rest := total_nonneg nonneg other
        have bound := fitsLater limited
        omega

/-- The loop takes the longest prefix within the limit. -/
theorem longestPrefix_take (xs : List α) :
    LongestPrefix (Fits weight limit) (take weight limit 0 xs) xs where
  isPrefix := take_isPrefix 0 xs
  fits limited := by
    have bound := @total_take_le α weight limit 0 (fun limited => limited.le) xs limited
    rwa [Int.zero_add] at bound
  longest other isPrefix fits := by
    apply isPrefix_take nonneg 0 isPrefix
    rwa [Int.zero_add]

/-- A list within the limit is taken as a whole. -/
theorem take_of_fits {xs : List α} (fits : Fits weight limit xs) : take weight limit 0 xs = xs := by
  apply (take_isPrefix 0 xs).eq_of_length
  apply Nat.le_antisymm (take_isPrefix 0 xs).length_le
  exact ((longestPrefix_take nonneg xs).longest xs prefix_rfl fits).length_le

omit nonneg

theorem take_map (f : β → α) (start : Int) (xs : List β) :
    take weight limit start (xs.map f) = (take (weight ∘ f) limit start xs).map f := by
  induction xs generalizing start with
  | nil => rfl
  | cons x rest ih =>
    by_cases above : 0 < limit ∧ limit < start + weight (f x)
    · simp only [map_cons, take, Function.comp_apply, if_pos above, map_nil]
    · simp only [map_cons, take, Function.comp_apply, if_neg above, ih]

end Budget
