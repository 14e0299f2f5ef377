import Blockberry.Lib.Run
import Blockberry.Mempool.Admission

/-!
# Invariants of the mempools

Every sequence of calls leaves a mempool in a state in which map, heap and number of bytes
belong together and the limits hold. No call removes from the heap at a position that does
not exist.
-/

namespace Blockberry.Mempool

open PriorityMempool TTLMempool

namespace Pool

variable {hashTx : Bytes → Bytes} {m m' : Pool} {priority : Int64}
  {evict : Pool → Int64 → Option (Pool × Bool)}

/-- The pool holds no more bytes than allowed. -/
def BytesOk (m : Pool) : Prop := 0 < m.maxBytes → m.sizeBytes ≤ m.maxBytes

structure Valid (hashTx : Bytes → Bytes) (m : Pool) : Prop where
  linked : Linked hashTx m
  countOk : m.CountOk
  bytesOk : m.BytesOk

theorem totalSize_eq_sum (obj : Nat → MempoolTx) {ptrs : List Nat} (nodup : ptrs.Nodup) :
    totalSize obj ptrs = ∑ p ∈ ptrs.toFinset, ((obj p).tx.length : Int) :=
  (List.sum_toFinset _ nodup).symm

theorem totalSize_le_of_subset (obj : Nat → MempoolTx) {ptrs ptrs' : List Nat}
    (nodup : ptrs.Nodup) (nodup' : ptrs'.Nodup) (subset : ∀ p ∈ ptrs', p ∈ ptrs) :
    totalSize obj ptrs' ≤ totalSize obj ptrs := by
  rw [totalSize_eq_sum obj nodup, totalSize_eq_sum obj nodup']
  apply Finset.sum_le_sum_of_subset_of_nonneg
  · intro p member
    exact List.mem_toFinset.mpr (subset p (List.mem_toFinset.mp member))
  · intro p _ _
    exact Int.natCast_nonneg _

theorem Evicted.valid (evicted : Evicted priority m m') (linked : Linked hashTx m')
    (valid : Valid hashTx m) : Valid hashTx m' := by
  refine ⟨linked, ?_, ?_⟩
  · intro limited
    rw [evicted.maxTxs] at limited ⊢
    exact (Int.ofNat_le.mpr (evicted.length_le linked)).trans (valid.countOk limited)
  · intro limited
    rw [evicted.maxBytes] at limited ⊢
    rw [linked.sizeBytes, evicted.obj]
    refine le_trans ?_ (valid.linked.sizeBytes ▸ valid.bytesOk limited)
    exact totalSize_le_of_subset _ valid.linked.sound.nodup linked.sound.nodup evicted.subset

theorem Admitted.valid {entry : MempoolTx} {outcome : Pool × Option AddError}
    (admitted : Admitted hashTx m entry outcome) (valid : Valid hashTx m)
    (isHash : entry.hash = hashTx entry.tx) (fresh : entry.hash ∉ m.txs) :
    Valid hashTx outcome.1 := by
  cases admitted with
  | stored left linked evicted fits room =>
    refine ⟨linked.store isHash fun member => fresh (evicted.txs _ member), ?_, ?_⟩
    · intro limited
      have length := (linked.perm_store entry).length_eq
      rw [List.length_cons] at length
      change 0 < left.maxTxs at limited
      change ((left.store entry).heap.slots.length : Int) ≤ left.maxTxs
      rw [evicted.maxTxs] at limited ⊢
      have bound := room limited
      omega
    · intro limited
      change 0 < left.maxBytes at limited
      change left.sizeBytes + _ ≤ left.maxBytes
      exact not_lt.mp fun above => fits ⟨limited, above⟩
  | full left linked evicted notLower blocked => exact evicted.valid linked valid

theorem Valid.addTx (evicts : Evicts evict) (valid : Valid hashTx m) (tx : Bytes) (addedAt : Int)
    (expiresAt : Option Int) :
    ∃ outcome, m.addTx evict (hashTx tx) tx addedAt expiresAt = some outcome ∧
      Valid hashTx outcome.1 := by
  unfold Pool.addTx
  split
  next => exact ⟨_, rfl, valid⟩
  next fresh =>
    split
    next => exact ⟨_, rfl, valid⟩
    next =>
      obtain ⟨outcome, isOutcome, admitted⟩ := admitEntry_spec evicts valid.linked valid.countOk
        ⟨hashTx tx, tx, m.priorityFunc tx, addedAt, expiresAt⟩
      exact ⟨outcome, isOutcome, admitted.valid valid rfl fresh⟩

theorem Valid.drop (valid : Valid hashTx m) {i : Nat} (inside : i < m.heap.slots.length) :
    Valid hashTx (m.drop i) := by
  have linked := valid.linked.drop inside
  refine ⟨linked, ?_, ?_⟩
  · intro limited
    have length := valid.linked.length_drop inside
    have bound := valid.countOk limited
    change _ ≤ m.maxTxs
    omega
  · intro limited
    have bound := valid.bytesOk limited
    change m.sizeBytes - _ ≤ m.maxBytes
    omega

theorem Linked.removeTx_eq_drop (linked : Linked hashTx m) {i : Nat}
    (inside : i < m.heap.slots.length) :
    m.removeTx (m.heap.obj (m.heap.ptr i)).hash = some (m.drop i) := by
  have found := (linked.lookup_iff _ _).mpr ⟨TxHeap.ptr_mem inside, rfl⟩
  rw [removeTx, found]
  simp only [linked.sound.positioned i inside, TxHeap.heapRemove]
  rw [if_pos ⟨Int.natCast_nonneg i, Int.ofNat_lt.mpr inside⟩]
  rfl

theorem Linked.removeTx_eq (linked : Linked hashTx m) {hashKey : Bytes} {p : Nat}
    (found : m.txs.lookup hashKey = some p) :
    ∃ i < m.heap.slots.length, m.removeTx hashKey = some (m.drop i) := by
  obtain ⟨inSlots, rfl⟩ := (linked.lookup_iff hashKey p).mp found
  obtain ⟨i, inside, rfl⟩ := TxHeap.exists_ptr inSlots
  exact ⟨i, inside, linked.removeTx_eq_drop inside⟩

theorem Valid.removeTx (valid : Valid hashTx m) (hashKey : Bytes) :
    ∃ next, m.removeTx hashKey = some next ∧ Valid hashTx next := by
  cases found : m.txs.lookup hashKey with
  | none =>
    refine ⟨m, ?_, valid⟩
    rw [Pool.removeTx, found]
  | some p =>
    obtain ⟨i, inside, removed⟩ := valid.linked.removeTx_eq found
    exact ⟨m.drop i, removed, valid.drop inside⟩

theorem Valid.removeTxs (valid : Valid hashTx m) (hashes : List Bytes) :
    ∃ next, m.removeTxs hashes = some next ∧ Valid hashTx next :=
  Run.exists_foldlM (fun _ hashKey holds => holds.removeTx hashKey) hashes valid

theorem valid_of_empty {m : Pool} (noSlots : m.heap.slots = []) (noTxs : m.txs = ∅)
    (noBytes : m.sizeBytes = 0) : Valid hashTx m := by
  refine ⟨⟨⟨?_, ?_, ?_⟩, ?_, ?_, ?_, ?_⟩, ?_, ?_⟩
  · rw [noSlots]
    exact List.nodup_nil
  · intro i inside
    rw [noSlots] at inside
    exact absurd inside (Nat.not_lt_zero i)
  · intro i _ inside
    rw [noSlots] at inside
    exact absurd inside (Nat.not_lt_zero i)
  · intro key p
    simp [noSlots, noTxs]
  · simp [noSlots]
  · simp [noSlots]
  · rw [noBytes, noSlots]
    rfl
  · intro limited
    rw [noSlots]
    exact limited.le
  · intro limited
    rw [noBytes]
    exact limited.le

theorem Valid.setPriorityFunc (valid : Valid hashTx m) (fn : Option PriorityFunc) :
    Valid hashTx (m.setPriorityFunc fn) where
  linked := ⟨valid.linked.sound, valid.linked.lookup_iff, valid.linked.hashed,
    valid.linked.allocated, valid.linked.sizeBytes⟩
  countOk := valid.countOk
  bytesOk := valid.bytesOk

theorem Valid.setTxValidator (valid : Valid hashTx m) (validator : Option TxValidator) :
    Valid hashTx (m.setTxValidator validator) where
  linked := ⟨valid.linked.sound, valid.linked.lookup_iff, valid.linked.hashed,
    valid.linked.allocated, valid.linked.sizeBytes⟩
  countOk := valid.countOk
  bytesOk := valid.bytesOk

theorem obj_reexpire (m : Pool) (mtx : Nat) (expiresAt : Option Int) (p : Nat) :
    ∃ time, (m.reexpire mtx expiresAt).heap.obj p = { m.heap.obj p with expiresAt := time } := by
  by_cases same : p = mtx
  · subst same
    exact ⟨expiresAt, Function.update_self _ _ _⟩
  · exact ⟨(m.heap.obj p).expiresAt, Function.update_of_ne same _ _⟩

theorem Valid.reexpire (valid : Valid hashTx m) (mtx : Nat) (expiresAt : Option Int) :
    Valid hashTx (m.reexpire mtx expiresAt) := by
  have hash (p : Nat) : ((m.reexpire mtx expiresAt).heap.obj p).hash = (m.heap.obj p).hash := by
    obtain ⟨time, same⟩ := m.obj_reexpire mtx expiresAt p
    rw [same]
  have tx (p : Nat) : ((m.reexpire mtx expiresAt).heap.obj p).tx = (m.heap.obj p).tx := by
    obtain ⟨time, same⟩ := m.obj_reexpire mtx expiresAt p
    rw [same]
  have priority (i : Nat) : (m.reexpire mtx expiresAt).heap.priority i = m.heap.priority i := by
    obtain ⟨time, same⟩ := m.obj_reexpire mtx expiresAt (m.heap.ptr i)
    change ((m.reexpire mtx expiresAt).heap.obj (m.heap.ptr i)).priority = _
    rw [same]
    rfl
  refine ⟨⟨⟨valid.linked.sound.nodup, valid.linked.sound.positioned, ?_⟩, ?_, ?_,
    valid.linked.allocated, ?_⟩, valid.countOk, valid.bytesOk⟩
  · simp only [priority]
    exact valid.linked.sound.ordered
  · intro key p
    rw [hash]
    exact valid.linked.lookup_iff key p
  · intro p member
    rw [hash, tx]
    exact valid.linked.hashed p member
  · simp only [totalSize, tx]
    exact valid.linked.sizeBytes

end Pool

section Runs

variable {hashTx : Bytes → Bytes}

theorem PriorityMempool.valid_step {m : PriorityMempool} (valid : m.Valid hashTx)
    (op : Op) : ∃ next, step hashTx m op = some next ∧
      next.Valid hashTx := by
  cases op with
  | addTx tx now =>
    cases tx with
    | none => exact ⟨m, rfl, valid⟩
    | some tx =>
      obtain ⟨outcome, isOutcome, validNext⟩ :=
        valid.addTx Pool.evicts_priorityMempool tx now none
      refine ⟨outcome.1, ?_, validNext⟩
      rw [step, addTx, isOutcome]
      rfl
  | removeTxs hashes => exact valid.removeTxs hashes
  | setPriorityFunc fn => exact ⟨_, rfl, valid.setPriorityFunc fn⟩
  | setTxValidator validator => exact ⟨_, rfl, valid.setTxValidator validator⟩
  | flush => exact ⟨_, rfl, Pool.valid_of_empty rfl rfl rfl⟩

theorem PriorityMempool.exists_run (hashTx : Bytes → Bytes) (cfg : Config) (ops : List Op) :
    ∃ m, run hashTx cfg ops = some m ∧ m.Valid hashTx :=
  Run.exists_foldlM (fun _ op valid => valid_step valid op) ops
    (Pool.valid_of_empty rfl rfl rfl)

theorem TTLMempool.valid_addTxWithTTL {m : TTLMempool} (valid : m.pool.Valid hashTx)
    (tx : Option Bytes) (ttl now : Int) :
    ∃ outcome, m.addTxWithTTL hashTx tx ttl now = some outcome ∧ outcome.1.pool.Valid hashTx := by
  cases tx with
  | none => exact ⟨_, rfl, valid⟩
  | some tx =>
    rw [addTxWithTTL]
    split
    next => exact ⟨_, rfl, valid⟩
    obtain ⟨outcome, isOutcome, validNext⟩ :=
      valid.addTx Pool.evicts_ttlMempool tx now (some (now + ttl))
    rw [isOutcome]
    exact ⟨_, rfl, validNext⟩

theorem TTLMempool.valid_step {m : TTLMempool} (valid : m.pool.Valid hashTx)
    (op : Op) : ∃ next, m.step hashTx op = some next ∧ next.pool.Valid hashTx := by
  cases op with
  | addTx tx now =>
    obtain ⟨outcome, isOutcome, validNext⟩ := valid_addTxWithTTL valid tx m.ttl now
    refine ⟨outcome.1, ?_, validNext⟩
    rw [step, addTx, isOutcome]
    rfl
  | addTxWithTTL tx ttl now =>
    obtain ⟨outcome, isOutcome, validNext⟩ := valid_addTxWithTTL valid tx ttl now
    refine ⟨outcome.1, ?_, validNext⟩
    rw [step, isOutcome]
    rfl
  | removeTxs hashes =>
    obtain ⟨pool, isPool, validNext⟩ := valid.removeTxs hashes
    refine ⟨{ m with pool }, ?_, validNext⟩
    rw [step, removeTxs, isPool]
    rfl
  | removeExpired now order =>
    obtain ⟨pool, isPool, validNext⟩ := valid.removeTxs (order.filter (m.isExpired now))
    refine ⟨{ m with pool }, ?_, validNext⟩
    rw [step, removeExpired, isPool]
    rfl
  | setTTL hash expiresAt =>
    refine ⟨_, rfl, ?_⟩
    rw [setTTL]
    split
    next => exact valid
    next mtx _ => exact valid.reexpire mtx _
  | extendTTL hash extension =>
    refine ⟨_, rfl, ?_⟩
    rw [extendTTL]
    split
    next => exact valid
    next mtx _ => exact valid.reexpire mtx _
  | setTxValidator validator => exact ⟨_, rfl, valid.setTxValidator validator⟩
  | flush => exact ⟨_, rfl, Pool.valid_of_empty rfl rfl rfl⟩

theorem TTLMempool.exists_run (hashTx : Bytes → Bytes) (cfg : Config) (ops : List Op) :
    ∃ m, run hashTx cfg ops = some m ∧ m.pool.Valid hashTx :=
  Run.exists_foldlM (fun _ op valid => valid_step valid op) ops
    (Pool.valid_of_empty rfl rfl rfl)

end Runs

/-- What holds of a mempool between calls. -/
structure Pool.Represents (hashTx : Bytes → Bytes) (m : Pool) : Prop where
  same_entries : ∀ p, p ∈ m.heap.slots ↔ ∃ key, m.txs.lookup key = some p
  nodup : m.heap.slots.Nodup
  keyed : ∀ key p, m.txs.lookup key = some p →
    key = (m.heap.obj p).hash ∧ (m.heap.obj p).hash = hashTx (m.heap.obj p).tx
  heapIndex : ∀ i < m.heap.slots.length, m.heap.heapIndex (m.heap.ptr i) = i
  maxHeap : ∀ i, 0 < i → i < m.heap.slots.length →
    m.heap.priority i ≤ m.heap.priority ((i - 1) / 2)
  sizeBytes : m.sizeBytes =
    (m.heap.slots.map fun p => ((m.heap.obj p).tx.length : Int)).sum
  count : 0 < m.maxTxs → (m.size : Int) ≤ m.maxTxs
  bytes : 0 < m.maxBytes → m.sizeBytes ≤ m.maxBytes

theorem Pool.Valid.represents {hashTx : Bytes → Bytes} {m : Pool} (valid : Valid hashTx m) :
    m.Represents hashTx where
  same_entries p := by
    simp only [valid.linked.lookup_iff, exists_and_left, exists_eq', and_true]
  nodup := valid.linked.sound.nodup
  keyed key p found := by
    have entry := (valid.linked.lookup_iff key p).mp found
    exact ⟨entry.2.symm, valid.linked.hashed p entry.1⟩
  heapIndex := valid.linked.sound.positioned
  maxHeap i pos inside := Int64.le_iff_toInt_le.mpr (valid.linked.sound.ordered i pos inside)
  sizeBytes := valid.linked.sizeBytes
  count limited := by
    rw [valid.linked.size_eq]
    exact valid.countOk limited
  bytes := valid.bytesOk

/-- After every sequence of calls, for any configuration, priority functions and validators,
a mempool has not panicked and represents one set of transactions. -/
theorem mempools_represent (hashTx : Bytes → Bytes) :
    (∀ cfg ops, ∃ m, PriorityMempool.run hashTx cfg ops = some m ∧ m.Represents hashTx) ∧
      ∀ cfg ops, ∃ m, TTLMempool.run hashTx cfg ops = some m ∧ m.pool.Represents hashTx := by
  constructor
  · intro cfg ops
    obtain ⟨m, isRun, valid⟩ := exists_run hashTx cfg ops
    exact ⟨m, isRun, valid.represents⟩
  · intro cfg ops
    obtain ⟨m, isRun, valid⟩ := exists_run hashTx cfg ops
    exact ⟨m, isRun, valid.represents⟩

end Blockberry.Mempool
