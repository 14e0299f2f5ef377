import Mathlib

/-!
# Exchange sort

Sorting by exchanges, highest keys first: each position is compared with all later ones and
exchanged with those of a higher key. A pass moves an element with the highest key to the position.
-/

namespace ExchangeSort

open List List.Perm

variable {α β P : Type*} [LinearOrder P] (key : α → P)

def pass : α → List α → α × List α
  | x, [] => (x, [])
  | x, y :: rest =>
    if key x < key y then ((pass y rest).1, x :: (pass y rest).2)
    else ((pass x rest).1, y :: (pass x rest).2)

/-- The passes for a number of positions. -/
def passes : Nat → List α → List α
  | 0, xs => xs
  | _ + 1, [] => []
  | n + 1, x :: rest => (pass key x rest).1 :: passes n (pass key x rest).2

def exchangeSort (xs : List α) : List α := passes key xs.length xs

/-! ## The result is a permutation in order -/

variable {key}

theorem pass_perm (x : α) (rest : List α) :
    ((pass key x rest).1 :: (pass key x rest).2).Perm (x :: rest) := by
  induction rest generalizing x with
  | nil => exact List.Perm.refl _
  | cons y rest ih =>
    rw [pass]
    split
    next => exact (swap x _ _).trans ((ih y).cons x)
    next =>
      have front : (y :: (pass key x rest).1 :: (pass key x rest).2).Perm (y :: x :: rest) :=
        (ih x).cons y
      exact ((swap y _ _).trans front).trans (swap x y rest)

theorem length_pass (x : α) (rest : List α) : (pass key x rest).2.length = rest.length :=
  Nat.succ.inj (pass_perm x rest).length_eq

theorem key_le_pass (x : α) (rest : List α) : key x ≤ key (pass key x rest).1 ∧
      ∀ y ∈ (pass key x rest).2, key y ≤ key (pass key x rest).1 := by
  induction rest generalizing x with
  | nil => exact ⟨le_rfl, forall_mem_nil _⟩
  | cons y rest ih =>
    rw [pass]
    split
    next above =>
      have first := above.le.trans (ih y).1
      exact ⟨first, forall_mem_cons.mpr ⟨first, (ih y).2⟩⟩
    next notAbove =>
      have second := (not_lt.mp notAbove).trans (ih x).1
      exact ⟨(ih x).1, forall_mem_cons.mpr ⟨second, (ih x).2⟩⟩

theorem passes_perm (n : Nat) (xs : List α) : (passes key n xs).Perm xs := by
  induction n generalizing xs with
  | zero => exact List.Perm.refl xs
  | succ n ih =>
    cases xs with
    | nil => exact List.Perm.refl []
    | cons x rest => exact ((ih _).cons _).trans (pass_perm x rest)

theorem exchangeSort_perm (xs : List α) : (exchangeSort key xs).Perm xs := passes_perm _ xs

/-- No key is above an earlier one. -/
abbrev InOrder (key : α → P) (xs : List α) : Prop := xs.Pairwise fun x y => key y ≤ key x

theorem inOrder_passes {n : Nat} {xs : List α} (enough : xs.length ≤ n) :
    InOrder key (passes key n xs) := by
  induction n generalizing xs with
  | zero =>
    rw [eq_nil_of_length_eq_zero (Nat.le_zero.mp enough)]
    exact List.Pairwise.nil
  | succ n ih =>
    cases xs with
    | nil => exact List.Pairwise.nil
    | cons x rest =>
      have fewer : (pass key x rest).2.length ≤ n := by
        rw [length_pass]
        exact Nat.le_of_succ_le_succ enough
      refine pairwise_cons.mpr ⟨?_, ih fewer⟩
      intro y member
      exact (key_le_pass x rest).2 y ((passes_perm n _).mem_iff.mp member)

theorem inOrder_exchangeSort (xs : List α) : InOrder key (exchangeSort key xs) :=
  inOrder_passes (Nat.le_refl _)

/-! ## Lists in order -/

theorem pass_of_le {x : α} {rest : List α} (highest : ∀ y ∈ rest, key y ≤ key x) :
    pass key x rest = (x, rest) := by
  induction rest with
  | nil => rfl
  | cons y rest ih =>
    rcases forall_mem_cons.mp highest with ⟨notAbove, others⟩
    rw [pass, if_neg (not_lt.mpr notAbove), ih others]

theorem passes_of_inOrder {xs : List α} (inOrder : InOrder key xs) (n : Nat) :
    passes key n xs = xs := by
  induction n generalizing xs with
  | zero => rfl
  | succ n ih =>
    cases xs with
    | nil => rfl
    | cons x rest =>
      rcases pairwise_cons.mp inOrder with ⟨highest, others⟩
      rw [passes, pass_of_le highest, ih others]

/-- A list in order stays as it is. -/
theorem exchangeSort_of_inOrder {xs : List α} (inOrder : InOrder key xs) :
    exchangeSort key xs = xs :=
  passes_of_inOrder inOrder _

/-! ## Elements seen through a function -/

theorem pass_map (f : β → α) (x : β) (rest : List β) : pass key (f x) (rest.map f) =
      (f (pass (key ∘ f) x rest).1, (pass (key ∘ f) x rest).2.map f) := by
  induction rest generalizing x with
  | nil => rfl
  | cons y rest ih =>
    by_cases above : key (f x) < key (f y)
    · simp only [map_cons, pass, Function.comp_apply, if_pos above, ih y]
    · simp only [map_cons, pass, Function.comp_apply, if_neg above, ih x]

theorem passes_map (f : β → α) (n : Nat) (xs : List β) :
    passes key n (xs.map f) = (passes (key ∘ f) n xs).map f := by
  induction n generalizing xs with
  | zero => rfl
  | succ n ih =>
    cases xs with
    | nil => rfl
    | cons x rest =>
      rw [map_cons, passes, passes, pass_map, ih, map_cons]

/-- The exchanges depend on the keys only. -/
theorem exchangeSort_map (f : β → α) (xs : List β) :
    exchangeSort key (xs.map f) = (exchangeSort (key ∘ f) xs).map f := by
  rw [exchangeSort, length_map, passes_map]
  rfl

end ExchangeSort
