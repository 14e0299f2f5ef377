import Mathlib.Data.List.Basic
import Mathlib.Data.List.Nodup

/-!
# Removal from lists

Removing an element by putting the last one into its place keeps the order of the others if it is
one of the last two, and of no repetition-free list otherwise.
-/

namespace Removal

open List List

variable {α β : Type*} {xs init : List α} {last : α} {i : Nat}

/-- The last element takes the place of the one at a position. -/
def swapRemove (xs : List α) (i : Nat) : List α :=
  match xs.getLast? with
  | none => []
  | some last => (xs.set i last).dropLast

theorem swapRemove_of_getLast? (isLast : xs.getLast? = some last) (i : Nat) :
    swapRemove xs i = (xs.set i last).dropLast := by
  rw [swapRemove, isLast]

theorem swapRemove_of_lt (inside : i < init.length) :
    swapRemove (init ++ [last]) i = init.set i last := by
  rw [swapRemove_of_getLast? getLast?_concat, set_append_left i last inside]
  exact dropLast_concat

theorem swapRemove_length : swapRemove (init ++ [last]) init.length = init := by
  rw [swapRemove_of_getLast? getLast?_concat, set_append_right _ _ (Nat.le_refl _),
    Nat.sub_self]
  exact dropLast_concat

/-- One of the last two elements is removed without a change of the order. -/
theorem swapRemove_eq_eraseIdx (inside : i < xs.length) (recent : xs.length ≤ i + 2) :
    swapRemove xs i = xs.eraseIdx i := by
  rcases eq_nil_or_concat' xs with rfl | ⟨init, last, rfl⟩
  · exact absurd inside (Nat.not_lt_zero i)
  · rw [length_append, length_singleton] at inside recent
    rcases Nat.lt_succ_iff_lt_or_eq.mp inside with before | rfl
    · rw [swapRemove_of_lt before, eraseIdx_append_of_lt_length before]
      rcases eq_nil_or_concat' init with rfl | ⟨start, removed, rfl⟩
      · exact absurd before (Nat.not_lt_zero i)
      · rw [length_append, length_singleton] at before recent
        obtain rfl : i = start.length := by omega
        rw [set_append_right _ _ (Nat.le_refl _),
          eraseIdx_append_of_length_le (Nat.le_refl _), Nat.sub_self]
        simp
    · rw [swapRemove_length, eraseIdx_append_of_length_le (Nat.le_refl _), Nat.sub_self]
      simp

/-- Behind an element further ahead, the order changes. -/
theorem swapRemove_ne_eraseIdx (nodup : xs.Nodup) (older : i + 2 < xs.length) :
    swapRemove xs i ≠ xs.eraseIdx i := by
  rcases eq_nil_or_concat' xs with rfl | ⟨init, last, rfl⟩
  · exact absurd older (Nat.not_lt_zero _)
  · rw [length_append, length_singleton] at older
    have inside : i < init.length := by omega
    have next : i + 1 < init.length := by omega
    rw [swapRemove_of_lt inside, eraseIdx_append_of_lt_length inside]
    intro same
    have atPosition := congrArg (fun ys => ys[i]?) same
    simp only [getElem?_set_self inside] at atPosition
    rw [getElem?_append_left (by rw [length_eraseIdx_of_lt inside]; omega),
      getElem?_eraseIdx_of_ge (Nat.le_refl _), getElem?_eq_getElem next] at atPosition
    have isMember : last ∈ init := Option.some.inj atPosition ▸ getElem_mem next
    exact (nodup_append.mp nodup).2.2 last isMember last (mem_singleton_self last) rfl

theorem swapRemove_eq_eraseIdx_iff (nodup : xs.Nodup) (inside : i < xs.length) :
    swapRemove xs i = xs.eraseIdx i ↔ xs.length ≤ i + 2 := by
  constructor
  · intro same
    by_contra older
    exact swapRemove_ne_eraseIdx nodup (Nat.not_le.mp older) same
  · exact swapRemove_eq_eraseIdx inside

theorem swapRemove_map (f : α → β) (xs : List α) (i : Nat) :
    swapRemove (xs.map f) i = (swapRemove xs i).map f := by
  rw [swapRemove, swapRemove, getLast?_map]
  cases xs.getLast? with
  | none => rfl
  | some last =>
    change ((xs.map f).set i (f last)).dropLast = _
    rw [← map_set, ← map_dropLast]

section Key

variable {κ : Type*} [BEq κ]

/-- Several keys are removed one after the other. -/
theorem filter_not_contains_cons (key : α → κ) (xs : List α) (k : κ) (ks : List κ) :
    xs.filter (fun x => !(k :: ks).contains (key x)) =
      (xs.filter fun x => key x != k).filter fun x => !ks.contains (key x) := by
  rw [filter_filter]
  congr 1
  funext x
  rw [contains_cons, Bool.not_or, Bool.and_comm]
  rfl

variable [LawfulBEq κ] {key : α → κ}

theorem filter_key_eq_self {k : κ} (absent : ∀ x ∈ xs, key x ≠ k) :
    xs.filter (fun x => key x != k) = xs := by
  refine filter_eq_self.mpr ?_
  intro x member
  exact bne_iff_ne.mpr (absent x member)

theorem filter_key_eq_eraseIdx (nodup : (xs.map key).Nodup) (inside : i < xs.length) :
    xs.filter (fun x => key x != key xs[i]) = xs.eraseIdx i := by
  classical
  have distinct := nodup.of_map key
  rw [← distinct.erase_getElem i inside, distinct.erase_eq_filter]
  refine filter_congr ?_
  intro x member
  rw [Bool.eq_iff_iff, bne_iff_ne, bne_iff_ne]
  refine not_congr ⟨?_, congrArg key⟩
  exact inj_on_of_nodup_map nodup member (getElem_mem inside)

end Key

end Removal
