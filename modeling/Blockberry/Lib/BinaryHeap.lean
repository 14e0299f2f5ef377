import Mathlib

/-!
# Binary heaps behind an interface

A binary heap that reaches its elements through an interface: comparing and exchanging two
positions, appending, dropping the last. `Lawful` says what the operations do to the keys of the
positions. The keys are in heap order after `push` and `remove`, and whatever exchanges keep is
kept. Interfaces whose operations correspond give corresponding results.
-/

namespace BinaryHeap

open BinaryHeap Nat

/-- The operations that the algorithms use. -/
structure Interface (H α : Type) where
  len : H → Nat
  less : H → Nat → Nat → Bool
  swap : H → Nat → Nat → H
  append : H → α → H
  pop : H → H

def parent (j : Nat) : Nat := (j - 1) / 2

theorem parent_lt {j : Nat} (pos : 0 < j) : parent j < j := by
  unfold parent
  omega

section Algorithms

variable {H α : Type} (I : Interface H α)

/-- Exchange with the parent while the position is less. -/
def upLoop : Nat → H → Nat → H
  | 0, h, _ => h
  | rounds + 1, h, j =>
    if parent j = j ∨ I.less h j (parent j) = false then h
    else upLoop rounds (I.swap h (parent j) j) (parent j)

def up (h : H) (j : Nat) : H := upLoop I (j + 1) h j

/-- The child that is less than the other one. -/
def lesserChild (h : H) (i n : Nat) : Nat :=
  if 2 * i + 2 < n ∧ I.less h (2 * i + 2) (2 * i + 1) = true then 2 * i + 2 else 2 * i + 1

/-- Exchange with the lesser child while that is less, among the first `n` positions. -/
def downLoop (n : Nat) : Nat → H → Nat → H × Nat
  | 0, h, i => (h, i)
  | rounds + 1, h, i =>
    if n ≤ 2 * i + 1 then (h, i)
    else if I.less h (lesserChild I h i n) i = false then (h, i)
    else downLoop n rounds (I.swap h i (lesserChild I h i n)) (lesserChild I h i n)

/-- The heap, and whether the position has moved. -/
def down (h : H) (start n : Nat) : H × Bool :=
  ((downLoop I n n h start).1, start < (downLoop I n n h start).2)

def push (h : H) (x : α) : H := up I (I.append h x) (I.len (I.append h x) - 1)

/-- Order is restored at a position among the first `n`. -/
def settle (h : H) (i n : Nat) : H :=
  if (down I h i n).2 then (down I h i n).1 else up I (down I h i n).1 i

def remove (h : H) (i : Nat) : H :=
  I.pop (if I.len h - 1 = i then h else settle I (I.swap h i (I.len h - 1)) i (I.len h - 1))

end Algorithms

section Keys

variable {P : Type} [LinearOrder P] {k k' : Nat → P} {n i j : Nat}

/-- No key is above that of its parent, among the first `n`. -/
def Ordered (k : Nat → P) (n : Nat) : Prop := ∀ c, 0 < c → c < n → k c ≤ k (parent c)

/-- Two keys are exchanged. -/
structure Exchange (k k' : Nat → P) (i j : Nat) : Prop where
  left : k' i = k j
  right : k' j = k i
  other : ∀ c, c ≠ i → c ≠ j → k' c = k c

/-- Only the pair of a position and its parent may be out of order. -/
structure UpReady (k : Nat → P) (n j : Nat) : Prop where
  off : ∀ c, 0 < c → c < n → c ≠ j → k c ≤ k (parent c)
  below : ∀ c, 0 < c → c < n → parent c = j → 0 < j → k c ≤ k (parent j)

/-- Only the pairs of a position with its parent and its children may be out of order. -/
structure DownReady (k : Nat → P) (n i : Nat) : Prop where
  off : ∀ c, 0 < c → c < n → c ≠ i → parent c ≠ i → k c ≤ k (parent c)
  below : ∀ c, 0 < c → c < n → parent c = i → 0 < i → k c ≤ k (parent i)

theorem UpReady.ordered (ready : UpReady k n j) (inOrder : 0 < j → k j ≤ k (parent j)) :
    Ordered k n := by
  intro c pos inside
  by_cases same : c = j
  · rw [same] at pos ⊢
    exact inOrder pos
  · exact ready.off c pos inside same

theorem UpReady.exchange (ready : UpReady k n j) (pos : 0 < j) (inside : j < n)
    (above : k (parent j) < k j) (exchange : Exchange k k' (parent j) j) :
    UpReady k' n (parent j) := by
  have less := parent_lt pos
  constructor
  · intro c posChild insideChild notParent
    by_cases same : c = j
    · rw [same, exchange.right, exchange.left]
      exact above.le
    · rw [exchange.other c notParent same]
      have ordered := ready.off c posChild insideChild same
      by_cases sibling : parent c = parent j
      · rw [sibling] at ordered ⊢
        rw [exchange.left]
        exact (ordered.trans_lt above).le
      · by_cases child : parent c = j
        · rw [child, exchange.right]
          exact ready.below c posChild insideChild child pos
        · rw [exchange.other _ sibling child]
          exact ordered
  · intro c posChild insideChild isChild posParent
    have lower := parent_lt posParent
    have ordered := ready.off (parent j) posParent (less.trans inside) less.ne
    rw [exchange.other _ lower.ne (lower.trans less).ne]
    by_cases same : c = j
    · rw [same, exchange.right]
      exact ordered
    · have notParent : c ≠ parent j := by
        intro isParent
        rw [isParent] at isChild
        exact lower.ne isChild
      have childOrdered := ready.off c posChild insideChild same
      rw [isChild] at childOrdered
      rw [exchange.other c notParent same]
      exact childOrdered.trans ordered

theorem DownReady.upReady (ready : DownReady k n i)
    (inOrder : ∀ c, 0 < c → c < n → parent c = i → k c ≤ k i) : UpReady k n i := by
  constructor
  · intro c pos inside different
    by_cases child : parent c = i
    · rw [child]
      exact inOrder c pos inside child
    · exact ready.off c pos inside different child
  · exact ready.below

theorem DownReady.exchange (ready : DownReady k n i) (pos : 0 < j) (inside : j < n)
    (isChild : parent j = i) (highest : ∀ c, 0 < c → c < n → parent c = i → k c ≤ k j)
    (exchange : Exchange k k' i j) : DownReady k' n j := by
  have less : i < j := isChild ▸ parent_lt pos
  constructor
  · intro c posChild insideChild different notChild
    by_cases same : c = i
    · subst same
      have lower := parent_lt posChild
      rw [exchange.left, exchange.other _ lower.ne (lower.trans less).ne]
      exact ready.below j pos inside isChild posChild
    · rw [exchange.other c same different]
      by_cases child : parent c = i
      · rw [child, exchange.left]
        exact highest c posChild insideChild child
      · rw [exchange.other _ child notChild]
        exact ready.off c posChild insideChild same child
  · intro c posChild insideChild child _
    have lower : j < c := child ▸ parent_lt posChild
    rw [isChild, exchange.left, exchange.other c (less.trans lower).ne' lower.ne']
    have ordered := ready.off c posChild insideChild (less.trans lower).ne' (child ▸ less.ne')
    rwa [child] at ordered

end Keys

/-- What the operations do to the keys. Higher keys are less. -/
structure Lawful {H α P : Type} [LinearOrder P] (I : Interface H α) (key : H → Nat → P) :
    Prop where
  less_iff : ∀ h i j, I.less h i j = true ↔ key h j < key h i
  len_swap : ∀ h i j, I.len (I.swap h i j) = I.len h
  key_swap : ∀ h i j, i < I.len h → j < I.len h → Exchange (key h) (key (I.swap h i j)) i j
  len_append : ∀ h x, I.len (I.append h x) = I.len h + 1
  key_append : ∀ h x c, c < I.len h → key (I.append h x) c = key h c
  key_pop : ∀ h c, c < I.len h - 1 → key (I.pop h) c = key h c

section Kept

variable {H α : Type} {I : Interface H α} {n i j : Nat} {h : H} {holds : H → Prop}

theorem upLoop_keeps
    (keeps : ∀ h i j, i < n → j < n → i ≠ j → holds h → holds (I.swap h i j)) {rounds : Nat}
    (inside : j < n) (start : holds h) : holds (upLoop I rounds h j) := by
  induction rounds generalizing h j with
  | zero => exact start
  | succ rounds ih =>
    rw [upLoop]
    split
    next => exact start
    next goesOn =>
      have notRoot : parent j ≠ j := fun root => goesOn (Or.inl root)
      have pos : 0 < j := by
        apply pos_of_ne_zero
        intro zero
        rw [zero] at notRoot
        exact notRoot rfl
      have parentInside := (parent_lt pos).trans inside
      exact ih parentInside (keeps h _ j parentInside inside notRoot start)

/-- What every exchange keeps is kept on the way up. -/
theorem up_keeps (keeps : ∀ h i j, i < n → j < n → i ≠ j → holds h → holds (I.swap h i j))
    (inside : j < n) (start : holds h) : holds (up I h j) :=
  upLoop_keeps keeps inside start

theorem lesserChild_cases (I : Interface H α) (h : H) (i n : Nat) :
    lesserChild I h i n = 2 * i + 1 ∨ lesserChild I h i n = 2 * i + 2 ∧ 2 * i + 2 < n := by
  unfold lesserChild
  split
  next both => exact Or.inr ⟨rfl, both.1⟩
  next => exact Or.inl rfl

theorem lesserChild_lt (hasChild : ¬n ≤ 2 * i + 1) : lesserChild I h i n < n := by
  rcases lesserChild_cases I h i n with first | ⟨second, inside⟩
  · rw [first]
    exact not_le.mp hasChild
  · rw [second]
    exact inside

theorem lt_lesserChild (I : Interface H α) (h : H) (i n : Nat) : i < lesserChild I h i n := by
  rcases lesserChild_cases I h i n with first | ⟨second, -⟩
  · omega
  · omega

theorem parent_lesserChild (I : Interface H α) (h : H) (i n : Nat) :
    parent (lesserChild I h i n) = i := by
  unfold parent
  rcases lesserChild_cases I h i n with first | ⟨second, -⟩
  · omega
  · omega

theorem downLoop_keeps
    (keeps : ∀ h i j, i < n → j < n → i ≠ j → holds h → holds (I.swap h i j)) (rounds : Nat)
    (inside : i < n) (start : holds h) :
    holds (downLoop I n rounds h i).1 ∧ i ≤ (downLoop I n rounds h i).2 := by
  induction rounds generalizing h i with
  | zero => exact ⟨start, le_rfl⟩
  | succ rounds ih =>
    rw [downLoop]
    split
    next => exact ⟨start, le_rfl⟩
    next hasChild =>
      split
      next => exact ⟨start, le_rfl⟩
      have childInside : lesserChild I h i n < n := lesserChild_lt hasChild
      have above := lt_lesserChild I h i n
      have kept := keeps h i _ inside childInside above.ne start
      exact ⟨(ih childInside kept).1, above.le.trans (ih childInside kept).2⟩

theorem settle_keeps (keeps : ∀ h i j, i < n → j < n → i ≠ j → holds h → holds (I.swap h i j))
    (inside : i < n) (start : holds h) : holds (settle I h i n) := by
  have sunk : holds (down I h i n).1 := (downLoop_keeps keeps n inside start).1
  unfold settle
  split
  next => exact sunk
  next => exact up_keeps keeps inside sunk

end Kept

section Order

variable {H α P : Type} [LinearOrder P] {I : Interface H α} {key : H → Nat → P} {n i j : Nat}
  {h : H} (lawful : Lawful I key)

include lawful

theorem Lawful.len_keeps (length : Nat) :
    ∀ h i j, i < n → j < n → i ≠ j → I.len h = length → I.len (I.swap h i j) = length :=
  fun h i j _ _ _ same => (lawful.len_swap h i j).trans same

theorem Lawful.not_less : I.less h i j = false ↔ key h i ≤ key h j := by
  rw [← not_lt, ← lawful.less_iff, Bool.not_eq_true]

theorem Lawful.ordered_upLoop {rounds : Nat} (enough : j < rounds)
    (inside : j < n) (bound : n ≤ I.len h) (ready : UpReady (key h) n j) :
    Ordered (key (upLoop I rounds h j)) n := by
  induction rounds generalizing h j with
  | zero => exact absurd enough (not_lt_zero j)
  | succ rounds ih =>
    rw [upLoop]
    split
    next stops =>
      apply ready.ordered
      intro pos
      rcases stops with root | notLess
      · exact absurd root (parent_lt pos).ne
      · exact lawful.not_less.mp notLess
    next goesOn =>
      rw [not_or, Bool.not_eq_false, lawful.less_iff] at goesOn
      have pos : 0 < j := by
        apply pos_of_ne_zero
        intro zero
        rw [zero] at goesOn
        exact goesOn.1 rfl
      have less := parent_lt pos
      have exchange := lawful.key_swap h (parent j) j
        ((less.trans inside).trans_le bound) (inside.trans_le bound)
      exact ih (less.trans_le (le_of_lt_succ enough)) (less.trans inside)
        (bound.trans (lawful.len_swap h _ _).ge) (ready.exchange pos inside goesOn.2 exchange)

theorem Lawful.ordered_up (inside : j < n) (bound : n ≤ I.len h)
    (ready : UpReady (key h) n j) : Ordered (key (up I h j)) n :=
  lawful.ordered_upLoop (lt_succ_self j) inside bound ready

theorem Lawful.le_lesserChild {c : Nat} (pos : 0 < c) (inside : c < n)
    (isChild : parent c = i) : key h c ≤ key h (lesserChild I h i n) := by
  have oneOfTwo : c = 2 * i + 1 ∨ c = 2 * i + 2 := by
    unfold parent at isChild
    omega
  unfold lesserChild
  split
  next second =>
    rcases oneOfTwo with rfl | rfl
    · exact ((lawful.less_iff h _ _).mp second.2).le
    · exact le_rfl
  next first =>
    rcases oneOfTwo with rfl | rfl
    · exact le_rfl
    · rw [not_and, Bool.not_eq_true] at first
      exact lawful.not_less.mp (first inside)

/-- Once the position has moved it is in order with its parent. -/
theorem Lawful.downLoop_ready {rounds : Nat} (enough : n ≤ rounds + i)
    (inside : i < n) (bound : n ≤ I.len h) (ready : DownReady (key h) n i) :
    UpReady (key (downLoop I n rounds h i).1) n (downLoop I n rounds h i).2 ∧
      ((0 < i → key h i ≤ key h (parent i)) ∨ i < (downLoop I n rounds h i).2 →
        Ordered (key (downLoop I n rounds h i).1) n) := by
  induction rounds generalizing h i with
  | zero => omega
  | succ rounds ih =>
    rw [downLoop]
    split
    next noChild =>
      have upReady : UpReady (key h) n i := by
        apply ready.upReady
        intro c pos insideChild isChild
        unfold parent at isChild
        omega
      refine ⟨upReady, fun moved => upReady.ordered ?_⟩
      exact moved.resolve_right (lt_irrefl i)
    next hasChild =>
      split
      next notLess =>
        have upReady : UpReady (key h) n i := by
          apply ready.upReady
          intro c pos insideChild isChild
          exact (lawful.le_lesserChild pos insideChild isChild).trans (lawful.not_less.mp notLess)
        refine ⟨upReady, fun moved => upReady.ordered ?_⟩
        exact moved.resolve_right (lt_irrefl i)
      next less =>
        rw [Bool.not_eq_false, lawful.less_iff] at less
        have childInside : lesserChild I h i n < n := lesserChild_lt hasChild
        have above := lt_lesserChild I h i n
        have isChild := parent_lesserChild I h i n
        have exchange := lawful.key_swap h i (lesserChild I h i n) (inside.trans_le bound)
          (childInside.trans_le bound)
        have later := ih (by omega) childInside (bound.trans (lawful.len_swap h _ _).ge)
          (ready.exchange (zero_lt_of_lt above) childInside isChild
            (fun c pos insideChild child => lawful.le_lesserChild pos insideChild child) exchange)
        refine ⟨later.1, fun _ => later.2 (Or.inl fun _ => ?_)⟩
        rw [isChild, exchange.left, exchange.right]
        exact less.le

theorem Lawful.ordered_settle (inside : i < n) (bound : n ≤ I.len h)
    (ready : DownReady (key h) n i) : Ordered (key (settle I h i n)) n := by
  have loop := lawful.downLoop_ready (le_add_right n i) inside bound ready
  have kept := downLoop_keeps (lawful.len_keeps (I.len h)) n inside rfl
  unfold settle
  split
  next moved => exact loop.2 (Or.inr (of_decide_eq_true moved))
  next notMoved =>
    have stays : (downLoop I n n h i).2 = i := by
      apply le_antisymm _ kept.2
      exact not_lt.mp fun moved => notMoved (decide_eq_true moved)
    have upReady := loop.1
    rw [stays] at upReady
    exact lawful.ordered_up inside (bound.trans kept.1.ge) upReady

/-- Pushing keeps the heap order. -/
theorem Lawful.ordered_push (ordered : Ordered (key h) (I.len h)) (x : α) :
    Ordered (key (push I h x)) (I.len h + 1) := by
  have last : I.len (I.append h x) - 1 = I.len h := by
    rw [lawful.len_append]
    exact Nat.add_sub_cancel _ _
  rw [push, last]
  apply lawful.ordered_up (lt_succ_self _) (lawful.len_append h x).ge
  constructor
  · intro c pos inside notLast
    have insideOld := lt_of_le_of_ne (le_of_lt_succ inside) notLast
    rw [lawful.key_append h x c insideOld,
      lawful.key_append h x _ ((parent_lt pos).trans insideOld)]
    exact ordered c pos insideOld
  · intro c pos inside child
    have above := parent_lt pos
    omega

/-- Removing keeps the heap order. -/
theorem Lawful.ordered_remove (ordered : Ordered (key h) (I.len h))
    (inside : i < I.len h) : Ordered (key (remove I h i)) (I.len h - 1) := by
  have shrink {h' : H} (length : I.len h' = I.len h) (front : Ordered (key h') (I.len h - 1)) :
      Ordered (key (I.pop h')) (I.len h - 1) := by
    intro c pos insideFront
    rw [← length] at insideFront
    rw [lawful.key_pop h' c insideFront, lawful.key_pop h' _ ((parent_lt pos).trans insideFront)]
    exact front c pos (length ▸ insideFront)
  unfold remove
  split
  next =>
    exact shrink rfl fun c pos insideFront =>
      ordered c pos (insideFront.trans_le (sub_le _ _))
  next notLast =>
    have insideFront : i < I.len h - 1 := by omega
    have lastInside : I.len h - 1 < I.len h := by omega
    have exchange := lawful.key_swap h i (I.len h - 1) inside lastInside
    have lengthSwap := lawful.len_swap h i (I.len h - 1)
    apply shrink (settle_keeps (lawful.len_keeps (I.len h)) insideFront lengthSwap)
    apply lawful.ordered_settle insideFront ((sub_le _ _).trans lengthSwap.ge)
    constructor
    · intro c pos insideChild different notChild
      rw [exchange.other c different insideChild.ne,
        exchange.other _ notChild ((parent_lt pos).trans insideChild).ne]
      exact ordered c pos (insideChild.trans lastInside)
    · intro c pos insideChild child posHole
      have below : i < c := child ▸ parent_lt pos
      rw [exchange.other c below.ne' insideChild.ne,
        exchange.other _ (parent_lt posHole).ne ((parent_lt posHole).trans insideFront).ne]
      have first := ordered c pos (insideChild.trans lastInside)
      rw [child] at first
      exact first.trans (ordered i posHole inside)

end Order

section Morphism

variable {H H' α : Type} {I : Interface H α} {I' : Interface H' α} {f : H → H'}

/-- The second interface does to images what the first one does to heaps. -/
structure Morphism (I : Interface H α) (I' : Interface H' α) (f : H → H') : Prop where
  len : ∀ h, I'.len (f h) = I.len h
  less : ∀ h i j, I'.less (f h) i j = I.less h i j
  swap : ∀ h i j, I'.swap (f h) i j = f (I.swap h i j)
  append : ∀ h x, I'.append (f h) x = f (I.append h x)
  pop : ∀ h, I'.pop (f h) = f (I.pop h)

namespace Morphism

variable (morphism : Morphism I I' f)

include morphism

theorem upLoop (rounds : Nat) (h : H) (j : Nat) :
    upLoop I' rounds (f h) j = f (upLoop I rounds h j) := by
  induction rounds generalizing h j with
  | zero => rfl
  | succ rounds ih =>
    rw [BinaryHeap.upLoop, BinaryHeap.upLoop, morphism.less, morphism.swap, ih]
    split
    next => rfl
    next => rfl

theorem up (h : H) (j : Nat) : up I' (f h) j = f (up I h j) := morphism.upLoop (j + 1) h j

theorem lesserChild (h : H) (i n : Nat) :
    BinaryHeap.lesserChild I' (f h) i n = BinaryHeap.lesserChild I h i n := by
  rw [BinaryHeap.lesserChild, BinaryHeap.lesserChild, morphism.less]

theorem downLoop (n rounds : Nat) (h : H) (i : Nat) : downLoop I' n rounds (f h) i =
      (f (downLoop I n rounds h i).1, (downLoop I n rounds h i).2) := by
  induction rounds generalizing h i with
  | zero => rfl
  | succ rounds ih =>
    rw [BinaryHeap.downLoop, BinaryHeap.downLoop, morphism.lesserChild, morphism.less,
      morphism.swap, ih]
    split
    next => rfl
    next =>
      split
      next => rfl
      next => rfl

theorem settle (h : H) (i n : Nat) :
    BinaryHeap.settle I' (f h) i n = f (BinaryHeap.settle I h i n) := by
  rw [BinaryHeap.settle, BinaryHeap.settle, down, down, morphism.downLoop, morphism.up]
  split
  next => rfl
  next => rfl

theorem push (h : H) (x : α) : BinaryHeap.push I' (f h) x = f (BinaryHeap.push I h x) := by
  rw [BinaryHeap.push, BinaryHeap.push, morphism.append, morphism.len, morphism.up]

theorem remove (h : H) (i : Nat) : BinaryHeap.remove I' (f h) i = f (BinaryHeap.remove I h i) := by
  rw [BinaryHeap.remove, BinaryHeap.remove, morphism.len, morphism.swap, morphism.settle,
    ← morphism.pop]
  split
  next => rfl
  next => rfl

end Morphism

end Morphism

section Flat

variable {H α : Type} {I : Interface H α} {h : H}

/-- No position is less than another one. -/
def Flat (I : Interface H α) (h : H) : Prop := ∀ i j, I.less h i j = false

theorem Flat.upLoop (flat : Flat I h) (rounds j : Nat) : upLoop I rounds h j = h := by
  cases rounds with
  | zero => rfl
  | succ rounds => rw [BinaryHeap.upLoop, if_pos (Or.inr (flat j (parent j)))]

theorem Flat.downLoop (flat : Flat I h) (n rounds i : Nat) : downLoop I n rounds h i = (h, i) := by
  cases rounds with
  | zero => rfl
  | succ rounds =>
    rw [BinaryHeap.downLoop, flat]
    split
    next => rfl
    next => rfl

theorem Flat.settle (flat : Flat I h) (i n : Nat) : settle I h i n = h := by
  rw [BinaryHeap.settle, down, flat.downLoop]
  split
  next => rfl
  next => exact flat.upLoop (i + 1) i

/-- Pushing appends. -/
theorem Flat.push {x : α} (flat : Flat I (I.append h x)) : push I h x = I.append h x :=
  flat.upLoop _ _

/-- Removing puts the last element into the place of the removed one. -/
theorem Flat.remove {i : Nat} (flat : Flat I (I.swap h i (I.len h - 1))) :
    remove I h i = I.pop (if I.len h - 1 = i then h else I.swap h i (I.len h - 1)) := by
  rw [BinaryHeap.remove, flat.settle]

end Flat

end BinaryHeap
