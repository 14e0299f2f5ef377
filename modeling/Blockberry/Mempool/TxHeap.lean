import Blockberry.Lib.BinaryHeap
import Blockberry.Types.Basic

/-!
# The heap of a mempool

`txHeap` and `ttlTxHeap` are slices of pointers to entries that know their position. Here a pointer
is a number; what it points to is kept in one table for the index, which the heap changes, and one
for the other fields.
-/

namespace Blockberry.Mempool

open BinaryHeap List Function BinaryHeap

/-- `mempoolTx` and `ttlTx` without the index in the heap. Only entries of a `TTLMempool`
have an expiration time. -/
structure MempoolTx where
  hash : Bytes
  tx : Bytes
  priority : Int64
  addedAt : Int
  expiresAt : Option Int
  deriving DecidableEq, Repr

/-- An entry before anything is stored at its address. -/
def MempoolTx.zero : MempoolTx := ⟨[], [], 0, 0, none⟩

structure TxHeap where
  slots : List Nat
  obj : Nat → MempoolTx
  heapIndex : Nat → Int

namespace TxHeap

def new : TxHeap := ⟨[], fun _ => .zero, fun _ => 0⟩

variable (h : TxHeap)

def ptr (i : Nat) : Nat := h.slots.getD i 0

def priority (h : TxHeap) (i : Nat) : Int64 := (h.obj (h.ptr i)).priority

def len : Nat := h.slots.length

def less (i j : Nat) : Bool := h.priority j < h.priority i

def swap (i j : Nat) : TxHeap where
  slots := (h.slots.set i (h.ptr j)).set j (h.ptr i)
  obj := h.obj
  heapIndex := update (update h.heapIndex (h.ptr j) i) (h.ptr i) j

def push (item : Nat) : TxHeap where
  slots := h.slots ++ [item]
  obj := h.obj
  heapIndex := update h.heapIndex item h.slots.length

def pop : TxHeap where
  slots := h.slots.dropLast
  obj := h.obj
  heapIndex := update h.heapIndex (h.ptr (h.slots.length - 1)) (-1)

/-- `heap.Interface` of the slice. -/
def interface : Interface TxHeap Nat where
  len := len
  less := less
  swap := swap
  append := push
  pop := pop

def heapPush (item : Nat) : TxHeap := BinaryHeap.push interface h item

/-- `heap.Remove`, which panics if the index is out of range. -/
def heapRemove (i : Int) : Option TxHeap :=
  if 0 ≤ i ∧ i < h.slots.length then some (remove interface h i.toNat) else none

/-! ## Laws of the interface -/

variable {h h' : TxHeap} {i j n : Nat}

theorem ptr_eq (inside : i < h.slots.length) : h.ptr i = h.slots[i] := getD_eq_getElem _ _ inside

theorem ptr_mem (inside : i < h.slots.length) : h.ptr i ∈ h.slots := by
  rw [ptr_eq inside]
  exact getElem_mem inside

theorem exists_ptr {item : Nat} (member : item ∈ h.slots) :
    ∃ i, i < h.slots.length ∧ h.ptr i = item := by
  obtain ⟨i, inside, isItem⟩ := getElem_of_mem member
  exact ⟨i, inside, (ptr_eq inside).trans isItem⟩

theorem ptr_inj (nodup : h.slots.Nodup) (insideLeft : i < h.slots.length)
    (insideRight : j < h.slots.length) : h.ptr i = h.ptr j ↔ i = j := by
  rw [ptr_eq insideLeft, ptr_eq insideRight]
  exact nodup.getElem_inj_iff

@[simp] theorem length_swap (h : TxHeap) (i j : Nat) :
    (h.swap i j).slots.length = h.slots.length := by
  simp [swap]

theorem ptr_swap (insideLeft : i < h.slots.length) (insideRight : j < h.slots.length) (k : Nat) :
    (h.swap i j).ptr k = if k = j then h.ptr i else if k = i then h.ptr j else h.ptr k := by
  simp only [swap, ptr, getD_eq_getElem?_getD, List.getElem?_set, length_set]
  by_cases last : k = j
  · simp [last, insideRight]
  · by_cases first : k = i
    · simp [first, insideLeft, first ▸ last, Ne.symm (first ▸ last)]
    · simp [last, first, Ne.symm last, Ne.symm first]

theorem perm_swap (insideLeft : i < h.slots.length) (insideRight : j < h.slots.length) :
    (h.swap i j).slots.Perm h.slots := by
  rw [swap, ptr_eq insideLeft, ptr_eq insideRight]
  exact set_set_perm insideLeft insideRight

theorem ptr_push (inside : i < h.slots.length) (item : Nat) : (h.push item).ptr i = h.ptr i := by
  simp [push, ptr, List.getElem?_append_left inside]

theorem ptr_push_last (item : Nat) : (h.push item).ptr h.slots.length = item := by
  simp [push, ptr]

theorem ptr_pop (inside : i < h.slots.length - 1) : h.pop.ptr i = h.ptr i := by
  rw [ptr, ptr, pop, getD_eq_getElem?_getD, List.getElem?_dropLast, if_pos inside,
    getD_eq_getElem?_getD]

theorem lawful : Lawful interface fun h i => (priority h i).toInt where
  less_iff h i j := by
    change decide (h.priority j < h.priority i) = true ↔ _
    rw [decide_eq_true_eq, Int64.lt_iff_toInt_lt]
  len_swap h i j := length_swap h i j
  key_swap h i j insideLeft insideRight := by
    have pointer := ptr_swap (h := h) insideLeft insideRight
    have keys : ∀ k, (interface.swap h i j).priority k =
        if k = j then h.priority i else if k = i then h.priority j else h.priority k := by
      intro k
      change (h.obj ((h.swap i j).ptr k)).priority = _
      rw [pointer]
      split
      next => rfl
      next =>
        split
        next => rfl
        next => rfl
    constructor
    · rw [keys]
      split
      next same => rw [same]
      next => rw [if_pos rfl]
    · rw [keys, if_pos rfl]
    · intro c notLeft notRight
      rw [keys, if_neg notRight, if_neg notLeft]
  len_append h item := by
    change (h.slots ++ [item]).length = _
    exact length_append
  key_append h item c inside := by
    change ((h.obj ((h.push item).ptr c)).priority).toInt = _
    rw [ptr_push inside]
    rfl
  key_pop h c inside := by
    change ((h.obj (h.pop.ptr c)).priority).toInt = _
    rw [ptr_pop inside]
    rfl

/-! ## Positions and contents -/

/-- Every entry knows its position. -/
def Positioned (h : TxHeap) : Prop := ∀ i < h.slots.length, h.heapIndex (h.ptr i) = i

/-- A heap without repeated pointers, with the positions and the order of a heap. -/
structure Sound (h : TxHeap) : Prop where
  nodup : h.slots.Nodup
  positioned : h.Positioned
  ordered : Ordered (fun i => (h.priority i).toInt) h.slots.length

/-- The heap after exchanges among the first `n` positions. -/
structure Rearranged (h : TxHeap) (n : Nat) (h' : TxHeap) : Prop where
  perm : h'.slots.Perm h.slots
  obj : h'.obj = h.obj
  positioned : h'.Positioned
  tail : ∀ k, n ≤ k → h'.ptr k = h.ptr k

theorem Positioned.swap (positioned : h.Positioned) (nodup : h.slots.Nodup)
    (insideLeft : i < h.slots.length) (insideRight : j < h.slots.length) (different : i ≠ j) :
    (h.swap i j).Positioned := by
  intro k inside
  rw [length_swap] at inside
  have differ : h.ptr j ≠ h.ptr i :=
    fun same => different ((ptr_inj nodup insideRight insideLeft).mp same).symm
  rw [ptr_swap insideLeft insideRight]
  simp only [TxHeap.swap]
  split
  next isRight => rw [isRight, update_self]
  next notRight =>
    split
    next isLeft => rw [isLeft, update_of_ne differ, update_self]
    next notLeft =>
      have notFirst : h.ptr k ≠ h.ptr i :=
        fun same => notLeft ((ptr_inj nodup inside insideLeft).mp same)
      have notSecond : h.ptr k ≠ h.ptr j :=
        fun same => notRight ((ptr_inj nodup inside insideRight).mp same)
      rw [update_of_ne notFirst, update_of_ne notSecond]
      exact positioned k inside

theorem Rearranged.swap {start : TxHeap} (nodup : start.slots.Nodup)
    (bound : n ≤ start.slots.length) (h : TxHeap) (i j : Nat) (insideLeft : i < n)
    (insideRight : j < n) (different : i ≠ j) (rearranged : Rearranged start n h) :
    Rearranged start n (interface.swap h i j) := by
  have length := rearranged.perm.length_eq
  have left : i < h.slots.length := length ▸ insideLeft.trans_le bound
  have right : j < h.slots.length := length ▸ insideRight.trans_le bound
  constructor
  · exact (perm_swap left right).trans rearranged.perm
  · exact rearranged.obj
  · exact rearranged.positioned.swap (rearranged.perm.nodup_iff.mpr nodup) left right different
  · intro k atLeast
    change (h.swap i j).ptr k = _
    rw [ptr_swap left right, if_neg (insideRight.trans_le atLeast).ne',
      if_neg (insideLeft.trans_le atLeast).ne']
    exact rearranged.tail k atLeast

section Push

variable {item : Nat}

theorem length_push : (h.push item).slots.length = h.slots.length + 1 := length_append

variable (sound : h.Sound)

include sound

variable (fresh : item ∉ h.slots)

include fresh

theorem Sound.nodup_push : (h.push item).slots.Nodup := by
  rw [push, nodup_append]
  refine ⟨sound.nodup, nodup_singleton item, ?_⟩
  intro member inSlots other isItem same
  rw [mem_singleton.mp isItem] at same
  exact fresh (same ▸ inSlots)

theorem Sound.positioned_push : (h.push item).Positioned := by
  intro i inside
  rw [length_push] at inside
  rcases Nat.lt_succ_iff_lt_or_eq.mp inside with old | last
  · have notItem : h.ptr i ≠ item := fun same => fresh (same ▸ ptr_mem old)
    rw [ptr_push old]
    exact (update_of_ne notItem _ _).trans (sound.positioned i old)
  · rw [last, ptr_push_last]
    exact update_self _ _ _

theorem Sound.rearranged_heapPush :
    Rearranged (h.push item) (h.slots.length + 1) (h.heapPush item) := by
  have start : Rearranged (h.push item) (h.slots.length + 1) (h.push item) :=
    ⟨.refl _, rfl, sound.positioned_push fresh, fun _ _ => rfl⟩
  have inside : (h.push item).slots.length - 1 < h.slots.length + 1 := by
    rw [length_push]
    exact Nat.lt_succ_self _
  exact up_keeps (I := interface)
    (Rearranged.swap (sound.nodup_push fresh) length_push.ge) inside start

theorem Sound.heapPush : (h.heapPush item).Sound := by
  have rearranged := sound.rearranged_heapPush fresh
  refine ⟨rearranged.perm.nodup_iff.mpr (sound.nodup_push fresh), rearranged.positioned, ?_⟩
  rw [rearranged.perm.length_eq, length_push]
  exact lawful.ordered_push sound.ordered item

theorem Sound.perm_heapPush : (h.heapPush item).slots.Perm (item :: h.slots) :=
  (sound.rearranged_heapPush fresh).perm.trans (perm_append_singleton item h.slots)

end Push

section Remove

variable (sound : h.Sound)

include sound

variable (inside : i < h.slots.length)

include inside

theorem Sound.exists_remove : ∃ moved : TxHeap, remove interface h i = moved.pop ∧
      moved.slots.Perm h.slots ∧ moved.obj = h.obj ∧ moved.Positioned ∧
      moved.ptr (h.slots.length - 1) = h.ptr i := by
  unfold remove
  split
  next last =>
    change h.slots.length - 1 = i at last
    exact ⟨h, rfl, .refl _, rfl, sound.positioned, by rw [last]⟩
  next notLast =>
    change ¬h.slots.length - 1 = i at notLast
    have insideFront : i < h.slots.length - 1 := by omega
    have lastInside : h.slots.length - 1 < h.slots.length := by omega
    have swapped := perm_swap inside lastInside
    have start : Rearranged (h.swap i (h.slots.length - 1)) (h.slots.length - 1)
        (h.swap i (h.slots.length - 1)) :=
      ⟨.refl _, rfl, sound.positioned.swap sound.nodup inside lastInside insideFront.ne,
        fun _ _ => rfl⟩
    have settled := settle_keeps (I := interface)
      (Rearranged.swap (swapped.nodup_iff.mpr sound.nodup)
        ((Nat.sub_le _ _).trans swapped.length_eq.ge)) insideFront start
    refine ⟨_, rfl, settled.perm.trans swapped, settled.obj, settled.positioned, ?_⟩
    refine (settled.tail _ le_rfl).trans ?_
    rw [ptr_swap inside lastInside, if_pos rfl]

theorem Sound.perm_remove : (remove interface h i).slots.Perm (h.slots.erase (h.ptr i)) := by
  obtain ⟨moved, isPop, perm, -, -, last⟩ := sound.exists_remove inside
  have length := perm.length_eq
  have nonempty : moved.slots ≠ [] := ne_nil_of_length_pos (by omega)
  have lastItem : moved.slots.getLast nonempty = h.ptr i := by
    rw [← last, ← length, ptr_eq (by omega), getLast_eq_getElem]
  have split : h.slots.Perm (h.ptr i :: moved.slots.dropLast) := by
    have whole := dropLast_append_getLast nonempty
    rw [lastItem] at whole
    rw [← whole] at perm
    exact perm.symm.trans (perm_append_singleton _ _)
  rw [isPop]
  have erased := split.erase (h.ptr i)
  rw [erase_cons_head] at erased
  exact erased.symm

theorem Sound.obj_remove : (remove interface h i).obj = h.obj := by
  obtain ⟨moved, isPop, -, same, -⟩ := sound.exists_remove inside
  rw [isPop]
  exact same

theorem Sound.positioned_remove : (remove interface h i).Positioned := by
  obtain ⟨moved, isPop, perm, -, positioned, -⟩ := sound.exists_remove inside
  have nodup := perm.nodup_iff.mpr sound.nodup
  rw [isPop]
  intro k insideFront
  have front : k < moved.slots.length - 1 := by
    rwa [pop, length_dropLast] at insideFront
  have notLast : moved.ptr k ≠ moved.ptr (moved.slots.length - 1) := by
    rw [Ne, ptr_inj nodup (by omega) (by omega)]
    exact front.ne
  rw [ptr_pop front]
  exact (update_of_ne notLast _ _).trans (positioned k (by omega))

theorem Sound.remove : (remove interface h i).Sound := by
  have perm := sound.perm_remove inside
  have length := perm.length_eq
  rw [length_erase_of_mem (ptr_mem inside)] at length
  refine ⟨perm.nodup_iff.mpr (sound.nodup.erase _), sound.positioned_remove inside, ?_⟩
  rw [length]
  exact lawful.ordered_remove sound.ordered inside

end Remove

end TxHeap

end Blockberry.Mempool
