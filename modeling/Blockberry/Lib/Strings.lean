import Mathlib.Data.List.Basic
import Mathlib.Data.List.Infix

/-!
# Splitting and trimming

A list is split at the first occurrence of a separator, and trimmed at both ends of
single elements or of short lists, such as the encodings of white space.
-/

namespace Strings

open List List

variable {α : Type} [DecidableEq α]

/-- What stands before and after the first occurrence of a separator. -/
def cut (sep : List α) : List α → Option (List α × List α)
  | [] => if sep = [] then some ([], []) else none
  | c :: s =>
    if sep.isPrefixOf (c :: s) then some ([], (c :: s).drop sep.length)
    else (cut sep s).map fun parts => (c :: parts.1, parts.2)

def contains (s sep : List α) : Bool := (cut sep s).isSome

/-- Elements of a set are dropped at both ends. -/
def trim (s cutset : List α) : List α :=
  (((s.dropWhile (· ∈ cutset)).reverse).dropWhile (· ∈ cutset)).reverse

/-- Units are dropped at the front, with a bound on their number. -/
def trimFront (units : List (List α)) : Nat → List α → List α
  | 0, s => s
  | rounds + 1, s =>
    match units.find? (·.isPrefixOf s) with
    | none => s
    | some unit => trimFront units rounds (s.drop unit.length)

/-- Units are dropped at both ends. -/
def trimUnits (units : List (List α)) (s : List α) : List α :=
  let front := trimFront units s.length s
  (trimFront (units.map reverse) front.length front.reverse).reverse

section Cut

variable {c : α} {sep front s : List α}

/-- No occurrence begins where the first element of the separator does not occur. -/
theorem cut_append (absent : c ∉ front) : cut (c :: sep) (front ++ s) =
      (cut (c :: sep) s).map fun parts => (front ++ parts.1, parts.2) := by
  induction front with
  | nil => simp
  | cons x front ih =>
    have different : c ≠ x := fun same => absent (same ▸ mem_cons_self)
    have notPrefix : (c :: sep).isPrefixOf (x :: (front ++ s)) = false := by
      simp [isPrefixOf, different]
    rw [cons_append, cut, notPrefix, ih fun member => absent (mem_cons_of_mem x member)]
    simp [Function.comp_def]

theorem cut_self_append (sep s : List α) (nonempty : sep ≠ []) :
    cut sep (sep ++ s) = some ([], s) := by
  cases sep with
  | nil => exact absurd rfl nonempty
  | cons c sep =>
    have isPrefix : (c :: sep).isPrefixOf (c :: (sep ++ s)) = true :=
      isPrefixOf_iff_prefix.mpr (prefix_append (c :: sep) s)
    rw [cons_append, cut, if_pos isPrefix]
    simp

/-- A single element as the separator. -/
theorem cut_singleton (absent : c ∉ front) (back : List α) :
    cut [c] (front ++ c :: back) = some (front, back) := by
  rw [cut_append absent]
  have found := cut_self_append [c] back (cons_ne_nil c [])
  rw [singleton_append] at found
  rw [found, Option.map_some, append_nil]

/-- The separator, with something after what is split. -/
theorem cut_pair_append_singleton {a b d : α} (different : b ≠ d) (s : List α) :
    cut [a, b] (s ++ [d]) = (cut [a, b] s).map fun parts => (parts.1, parts.2 ++ [d]) := by
  induction s with
  | nil => simp [cut]
  | cons x s ih =>
    rw [cons_append, cut, cut, ih]
    cases s with
    | nil => simp [cut, different]
    | cons y s =>
      by_cases found : a = x ∧ b = y
      · simp [found]
      · rw [not_and] at found
        by_cases first : a = x
        · simp [first, found first, Function.comp_def]
        · simp [first, Function.comp_def]

end Cut

section Trim

variable {units : List (List α)} {s : List α} {c : α}

theorem trimFront_eq_self (none : ∀ unit ∈ units, ¬unit <+: s) (rounds : Nat) :
    trimFront units rounds s = s := by
  cases rounds with
  | zero => rfl
  | succ rounds =>
    have notFound : units.find? (·.isPrefixOf s) = .none := by
      rw [find?_eq_none]
      intro unit member isPrefix
      apply none unit member
      exact isPrefixOf_iff_prefix.mp isPrefix
    rw [trimFront, notFound]

omit [DecidableEq α] in
/-- A unit at the front ends before an element that is not in it. -/
theorem isPrefix_of_append_cons {unit front back : List α} (absent : c ∉ unit)
    (isPrefix : unit <+: front ++ c :: back) : unit <+: front := by
  rcases prefix_or_prefix_of_prefix isPrefix (prefix_append front (c :: back)) with
    shorter | ⟨rest, rfl⟩
  · exact shorter
  · rw [prefix_append_right_inj] at isPrefix
    cases rest with
    | nil => rw [append_nil]
    | cons x rest =>
      rw [cons_prefix_cons] at isPrefix
      exact absurd (by rw [isPrefix.1]; simp) absent

omit [DecidableEq α] in
theorem isSuffix_of_append_cons {unit front back : List α} (absent : c ∉ unit)
    (isSuffix : unit <:+ front ++ c :: back) : unit <:+ back := by
  rw [← reverse_prefix] at isSuffix ⊢
  apply isPrefix_of_append_cons (mt mem_reverse.mp absent)
  rwa [reverse_append, reverse_cons, append_assoc, singleton_append] at isSuffix

/-- What no unit begins with at the front, or ends with at the end, is left alone. -/
theorem trimUnits_eq_self (noneFront : ∀ unit ∈ units, ¬unit <+: s)
    (noneBack : ∀ unit ∈ units, ¬unit <:+ s) : trimUnits units s = s := by
  have noneReversed : ∀ unit ∈ units.map reverse, ¬unit <+: s.reverse := by
    intro unit member isPrefix
    obtain ⟨original, isUnit, rfl⟩ := mem_map.mp member
    apply noneBack original isUnit
    exact reverse_prefix.mp isPrefix
  simp only [trimUnits, trimFront_eq_self noneFront, trimFront_eq_self noneReversed,
    reverse_reverse]

theorem mem_trimFront (absent : ∀ unit ∈ units, c ∉ unit) (member : c ∈ s) (rounds : Nat) :
    c ∈ trimFront units rounds s := by
  induction rounds generalizing s with
  | zero => exact member
  | succ rounds ih =>
    rw [trimFront]
    split
    next => exact member
    next unit found =>
      have isPrefix := isPrefixOf_iff_prefix.mp
        (find?_some (p := fun unit : List α => unit.isPrefixOf s) found)
      obtain ⟨rest, rfl⟩ := isPrefix
      apply ih
      rw [drop_left]
      exact (mem_append.mp member).resolve_left (absent unit (mem_of_find?_eq_some found))

/-- Trimming keeps what is in no unit. -/
theorem mem_trimUnits (absent : ∀ unit ∈ units, c ∉ unit) (member : c ∈ s) :
    c ∈ trimUnits units s := by
  have absentReversed : ∀ unit ∈ units.map reverse, c ∉ unit := by
    intro unit isUnit inUnit
    obtain ⟨original, isOriginal, rfl⟩ := mem_map.mp isUnit
    exact absent original isOriginal (mem_reverse.mp inUnit)
  apply mem_reverse.mpr
  exact mem_trimFront absentReversed (mem_reverse.mpr (mem_trimFront absent member _)) _

theorem dropWhile_eq_self {cutset : List α} (clean : ∀ x ∈ s, x ∉ cutset) :
    s.dropWhile (· ∈ cutset) = s := by
  cases s with
  | nil => rfl
  | cons x s =>
    apply dropWhile_cons_of_neg
    simpa using clean x mem_cons_self

/-- Trimming removes a pair of elements around what has none of them. -/
theorem trim_enclosed {cutset : List α} {left right : α} (isLeft : left ∈ cutset)
    (isRight : right ∈ cutset) (clean : ∀ x ∈ s, x ∉ cutset) :
    trim (left :: (s ++ [right])) cutset = s := by
  have cleanReverse : ∀ x ∈ s.reverse, x ∉ cutset := fun x member => clean x (mem_reverse.mp member)
  rw [trim, dropWhile_cons_of_pos (by simpa using isLeft)]
  cases s with
  | nil => simp [isRight]
  | cons x s =>
    have front : (x :: s ++ [right]).dropWhile (· ∈ cutset) = x :: s ++ [right] := by
      apply dropWhile_cons_of_neg
      simpa using clean x mem_cons_self
    rw [front, reverse_append, reverse_singleton, singleton_append,
      dropWhile_cons_of_pos (by simpa using isRight), dropWhile_eq_self cleanReverse,
      reverse_reverse]

end Trim

end Strings
