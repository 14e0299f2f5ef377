import Blockberry.Mempool.Pool

/-!
# Representation of the mempools

The map and the heap of a mempool always hold the same entries, with the right positions,
order and number of bytes, and within the limits. Both mempools change their entries in
two ways only, by dropping a position and by storing a new entry.
-/

namespace Blockberry.Mempool

open List TxHeap Finmap BinaryHeap Function

namespace Pool

variable {hashTx : Bytes → Bytes} {m m' : Pool} {i : Nat} {priority : Int64}

variable (obj : Nat → MempoolTx)

def totalSize (ptrs : List Nat) : Int :=
  (ptrs.map fun p => ((obj p).tx.length : Int)).sum

/-- The map, the heap and the number of bytes belong together. -/
structure Linked (hashTx : Bytes → Bytes) (m : Pool) : Prop where
  sound : m.heap.Sound
  lookup_iff : ∀ key p, m.txs.lookup key = some p ↔
    p ∈ m.heap.slots ∧ (m.heap.obj p).hash = key
  hashed : ∀ p ∈ m.heap.slots, (m.heap.obj p).hash = hashTx (m.heap.obj p).tx
  allocated : ∀ p ∈ m.heap.slots, p < m.next
  sizeBytes : m.sizeBytes = totalSize m.heap.obj m.heap.slots

theorem totalSize_perm {obj : Nat → MempoolTx} {ptrs ptrs' : List Nat} (perm : ptrs.Perm ptrs') :
    totalSize obj ptrs = totalSize obj ptrs' :=
  (perm.map _).sum_eq

theorem totalSize_cons (p : Nat) (ptrs : List Nat) :
    totalSize obj (p :: ptrs) = (obj p).tx.length + totalSize obj ptrs := by
  simp [totalSize]

theorem totalSize_erase {p : Nat} {ptrs : List Nat} (member : p ∈ ptrs) :
    totalSize obj (ptrs.erase p) = totalSize obj ptrs - (obj p).tx.length := by
  rw [totalSize_perm (perm_cons_erase member), totalSize_cons, add_sub_cancel_left]

theorem Linked.hash_inj (linked : Linked hashTx m) {p q : Nat} (inSlots : p ∈ m.heap.slots)
    (inSlots' : q ∈ m.heap.slots) (same : (m.heap.obj p).hash = (m.heap.obj q).hash) : p = q := by
  have first := (linked.lookup_iff _ p).mpr ⟨inSlots, same⟩
  have second := (linked.lookup_iff _ q).mpr ⟨inSlots', rfl⟩
  exact Option.some.inj (first.symm.trans second)

theorem Linked.size_eq (linked : Linked hashTx m) : m.size = m.heap.slots.length := by
  have keys : m.txs.keys = (m.heap.slots.map fun p => (m.heap.obj p).hash).toFinset := by
    apply Finset.ext
    intro key
    rw [Finmap.mem_keys, ← Finmap.lookup_isSome, Option.isSome_iff_exists, mem_toFinset, mem_map]
    simp only [linked.lookup_iff]
  have nodup : (m.heap.slots.map fun p => (m.heap.obj p).hash).Nodup :=
    linked.sound.nodup.map_on fun p inSlots q inSlots' same => linked.hash_inj inSlots inSlots' same
  rw [size, keys, toFinset_card_of_nodup nodup, length_map]

/-- The pool without the entry at a position. -/
def drop (m : Pool) (i : Nat) : Pool :=
  { m with heap := remove interface m.heap i
           txs := m.txs.erase (m.heap.obj (m.heap.ptr i)).hash
           sizeBytes := m.sizeBytes - (m.heap.obj (m.heap.ptr i)).tx.length }

variable (linked : Linked hashTx m)

include linked

theorem Linked.mem_drop (inside : i < m.heap.slots.length) {p : Nat} :
    p ∈ (m.drop i).heap.slots ↔ p ≠ m.heap.ptr i ∧ p ∈ m.heap.slots := by
  rw [drop, (linked.sound.perm_remove inside).mem_iff]
  exact linked.sound.nodup.mem_erase_iff

theorem Linked.obj_drop (inside : i < m.heap.slots.length) : (m.drop i).heap.obj = m.heap.obj :=
  linked.sound.obj_remove inside

theorem Linked.length_drop (inside : i < m.heap.slots.length) :
    (m.drop i).heap.slots.length + 1 = m.heap.slots.length := by
  have length := (linked.sound.perm_remove inside).length_eq
  rw [length_erase_of_mem (ptr_mem inside)] at length
  exact (congrArg (· + 1) length).trans (Nat.sub_add_cancel (Nat.zero_lt_of_lt inside))

theorem Linked.drop (inside : i < m.heap.slots.length) : Linked hashTx (m.drop i) := by
  have obj := linked.obj_drop inside
  have member := ptr_mem inside
  constructor
  · exact linked.sound.remove inside
  · intro key p
    rw [linked.mem_drop inside, obj]
    by_cases dropped : key = (m.heap.obj (m.heap.ptr i)).hash
    · rw [Pool.drop, dropped, lookup_erase]
      constructor
      · intro found
        cases found
      · intro found
        exact absurd (linked.hash_inj found.1.2 member found.2) found.1.1
    · rw [Pool.drop, lookup_erase_ne dropped, linked.lookup_iff]
      constructor
      · intro found
        refine ⟨⟨?_, found.1⟩, found.2⟩
        intro isDropped
        rw [isDropped] at found
        exact dropped found.2.symm
      · intro found
        exact ⟨found.1.2, found.2⟩
  · intro p inSlots
    rw [obj]
    exact linked.hashed p ((linked.mem_drop inside).mp inSlots).2
  · intro p inSlots
    exact linked.allocated p ((linked.mem_drop inside).mp inSlots).2
  · rw [obj]
    change m.sizeBytes - _ =
      totalSize m.heap.obj (remove interface m.heap i).slots
    rw [totalSize_perm (linked.sound.perm_remove inside), totalSize_erase _ member,
      linked.sizeBytes]

section Store

variable {entry : MempoolTx} (linked : Linked hashTx m)

include linked

theorem Linked.next_fresh : m.next ∉ m.heap.slots :=
  fun member => lt_irrefl _ (linked.allocated _ member)

theorem Linked.obj_allocated {p : Nat} (member : p ∈ m.heap.slots) :
    (m.allocated entry).obj p = m.heap.obj p := by
  apply update_of_ne
  intro same
  exact linked.next_fresh (same ▸ member)

theorem Linked.sound_allocated : (m.allocated entry).Sound := by
  have same {i : Nat} (inside : i < m.heap.slots.length) : m.heap.ptr i ≠ m.next :=
    fun equal => linked.next_fresh (equal ▸ ptr_mem inside)
  refine ⟨linked.sound.nodup, ?_, ?_⟩
  · intro i inside
    exact (update_of_ne (same inside) _ _).trans (linked.sound.positioned i inside)
  · intro c pos inside
    have parentInside := (parent_lt pos).trans inside
    have ordered := linked.sound.ordered c pos inside
    change ((m.allocated entry).obj (m.heap.ptr c)).priority.toInt ≤
      ((m.allocated entry).obj (m.heap.ptr (parent c))).priority.toInt
    rw [linked.obj_allocated (ptr_mem inside),
      linked.obj_allocated (ptr_mem parentInside)]
    exact ordered

theorem Linked.perm_store (entry : MempoolTx) :
    (m.store entry).heap.slots.Perm (m.next :: m.heap.slots) :=
  linked.sound_allocated.perm_heapPush linked.next_fresh

theorem Linked.obj_store (entry : MempoolTx) :
    (m.store entry).heap.obj = update m.heap.obj m.next entry :=
  (linked.sound_allocated.rearranged_heapPush linked.next_fresh).obj

theorem Linked.store (isHash : entry.hash = hashTx entry.tx)
    (fresh : entry.hash ∉ m.txs) : Linked hashTx (m.store entry) := by
  have perm := linked.perm_store entry
  have obj := linked.obj_store entry
  have old {p : Nat} (member : p ∈ m.heap.slots) : (m.store entry).heap.obj p = m.heap.obj p := by
    rw [obj]
    exact linked.obj_allocated member
  have new : (m.store entry).heap.obj m.next = entry := by rw [obj, update_self]
  constructor
  · exact linked.sound_allocated.heapPush linked.next_fresh
  · intro key p
    rw [perm.mem_iff, mem_cons]
    change (m.txs.insert entry.hash m.next).lookup key = some p ↔ _
    by_cases isNew : key = entry.hash
    · rw [isNew, lookup_insert, Option.some.injEq]
      constructor
      · intro same
        rw [← same, new]
        exact ⟨Or.inl rfl, rfl⟩
      · intro found
        rcases found.1 with isNext | member
        · exact isNext.symm
        · have stored := (linked.lookup_iff _ p).mpr
            ⟨member, (congrArg _ (old member)).symm.trans found.2⟩
          rw [lookup_eq_none.mpr fresh] at stored
          cases stored
    · rw [lookup_insert_of_ne _ isNew, linked.lookup_iff]
      constructor
      · intro found
        exact ⟨Or.inr found.1, (congrArg _ (old found.1)).trans found.2⟩
      · intro found
        rcases found.1 with isNext | member
        · rw [isNext, new] at found
          exact absurd found.2.symm isNew
        · exact ⟨member, (congrArg _ (old member)).symm.trans found.2⟩
  · intro p member
    rcases mem_cons.mp (perm.mem_iff.mp member) with isNext | isOld
    · rw [isNext, new]
      exact isHash
    · rw [old isOld]
      exact linked.hashed p isOld
  · intro p member
    change p < m.next + 1
    rcases mem_cons.mp (perm.mem_iff.mp member) with isNext | isOld
    · rw [isNext]
      exact Nat.lt_succ_self _
    · exact Nat.lt_succ_of_lt (linked.allocated p isOld)
  · have sum : totalSize (m.store entry).heap.obj m.heap.slots =
        totalSize m.heap.obj m.heap.slots := by
      unfold totalSize
      rw [map_congr_left fun p member => by rw [old member]]
    rw [totalSize_perm perm, totalSize_cons, new, sum]
    change m.sizeBytes + _ = _
    rw [linked.sizeBytes, add_comm]

end Store

end Pool

end Blockberry.Mempool
