import Blockberry.Mempool.Representation

/-!
# Eviction and admission

What the eviction of a mempool removes, what is left when no more can be evicted, and the
outcomes of admitting a transaction. Evictions stop for want of lower priorities, after
those with lower priorities are gone.
-/

namespace Blockberry.Mempool.Pool

open List

variable {hashTx : Bytes → Bytes} {m m' : Pool} {i : Nat} {priority : Int64}

/-! ## One eviction -/

/-- The loop visits the positions of a slice, with or without the first one. -/
structure Visits (visited : Nat → List Nat) : Prop where
  inside : ∀ n, ∀ i ∈ visited n, i < n
  all : ∀ n i, i < n → i = 0 ∨ i ∈ visited n

theorem visits_range' : Visits fun n => List.range' 1 (n - 1) := by
  constructor
  · intro n i member
    rw [mem_range'_1] at member
    omega
  · intro n i inside
    rw [mem_range'_1]
    omega

theorem visits_range : Visits List.range := by
  constructor
  · intro n i member
    exact mem_range.mp member
  · intro n i inside
    exact Or.inr (mem_range.mpr inside)

theorem foldl_lowest (h : TxHeap) (visited : List Nat) (start : Nat) :
    ∃ low, visited.foldl (fun low i => if h.priority i < low.2 then (i, h.priority i) else low)
        (start, h.priority start) = (low, h.priority low) ∧
      (low = start ∨ low ∈ visited) ∧ h.priority low ≤ h.priority start ∧
      ∀ i ∈ visited, h.priority low ≤ h.priority i := by
  induction visited generalizing start with
  | nil => exact ⟨start, rfl, Or.inl rfl, Int64.le_refl _, forall_mem_nil _⟩
  | cons i visited ih =>
    rw [foldl_cons]
    by_cases lower : h.priority i < h.priority start
    · rw [if_pos lower]
      obtain ⟨low, isLow, oneOf, atMost, least⟩ := ih i
      refine ⟨low, isLow, Or.inr ?_, Int64.le_trans atMost (Int64.le_of_lt lower), ?_⟩
      · exact mem_cons.mpr oneOf
      · exact forall_mem_cons.mpr ⟨atMost, least⟩
    · rw [if_neg lower]
      obtain ⟨low, isLow, oneOf, atMost, least⟩ := ih start
      refine ⟨low, isLow, oneOf.imp_right (mem_cons_of_mem i), atMost, ?_⟩
      exact forall_mem_cons.mpr ⟨Int64.le_trans atMost (Int64.not_lt.mp lower), least⟩

theorem exists_lowest {visited : Nat → List Nat} (visits : Visits visited) {h : TxHeap}
    (nonempty : 0 < h.slots.length) :
    ∃ low, lowest h (visited h.slots.length) = (low, h.priority low) ∧ low < h.slots.length ∧
      ∀ i < h.slots.length, h.priority low ≤ h.priority i := by
  obtain ⟨low, isLow, oneOf, atMost, least⟩ := foldl_lowest h (visited h.slots.length) 0
  refine ⟨low, isLow, ?_, ?_⟩
  · rcases oneOf with isFirst | isVisited
    · exact isFirst ▸ nonempty
    · exact visits.inside _ low isVisited
  · intro i inside
    rcases visits.all _ i inside with isFirst | isVisited
    · exact isFirst ▸ atMost
    · exact least i isVisited

theorem evictLowest_cases {visited : Nat → List Nat} (visits : Visits visited) (m : Pool)
    (priority : Int64) :
    (evictLowest visited m priority = some (m, false) ∧
        ∀ p ∈ m.heap.slots, priority ≤ (m.heap.obj p).priority) ∨
      ∃ i < m.heap.slots.length, m.heap.priority i < priority ∧
        evictLowest visited m priority = some (m.drop i, true) := by
  unfold evictLowest
  split
  next empty =>
    left
    rw [eq_nil_of_length_eq_zero empty]
    exact ⟨rfl, forall_mem_nil _⟩
  next nonempty =>
    obtain ⟨low, isLow, inside, least⟩ := exists_lowest visits (Nat.pos_of_ne_zero nonempty)
    simp only [isLow]
    split
    next notLower =>
      left
      refine ⟨rfl, ?_⟩
      intro p member
      obtain ⟨i, insideSlots, rfl⟩ := TxHeap.exists_ptr member
      exact Int64.le_trans notLower (least i insideSlots)
    next lower =>
      right
      refine ⟨low, inside, Int64.not_le.mp lower, ?_⟩
      rw [TxHeap.heapRemove, if_pos ⟨Int.natCast_nonneg low, Int.ofNat_lt.mpr inside⟩]
      rfl

/-- An eviction function as both mempools have one. -/
def Evicts (evict : Pool → Int64 → Option (Pool × Bool)) : Prop :=
  ∀ m priority,
    (evict m priority = some (m, false) ∧
        ∀ p ∈ m.heap.slots, priority ≤ (m.heap.obj p).priority) ∨
      ∃ i < m.heap.slots.length, m.heap.priority i < priority ∧
        evict m priority = some (m.drop i, true)

theorem evicts_priorityMempool : Evicts PriorityMempool.evictLowestLocked :=
  evictLowest_cases visits_range'

theorem evicts_ttlMempool : Evicts TTLMempool.evictLowestLocked := evictLowest_cases visits_range

/-! ## Several evictions -/

/-- Entries of lower priority are gone. -/
structure Evicted (priority : Int64) (m m' : Pool) : Prop where
  subset : ∀ p ∈ m'.heap.slots, p ∈ m.heap.slots
  lower : ∀ p ∈ m.heap.slots, p ∉ m'.heap.slots → (m.heap.obj p).priority < priority
  obj : m'.heap.obj = m.heap.obj
  maxTxs : m'.maxTxs = m.maxTxs
  maxBytes : m'.maxBytes = m.maxBytes
  txs : ∀ key, key ∈ m'.txs → key ∈ m.txs

theorem Evicted.refl (priority : Int64) (m : Pool) : Evicted priority m m :=
  ⟨fun _ member => member, fun _ member gone => absurd member gone, rfl, rfl, rfl,
    fun _ member => member⟩

theorem Evicted.trans {m'' : Pool} (first : Evicted priority m m')
    (second : Evicted priority m' m'') : Evicted priority m m'' where
  subset p member := first.subset p (second.subset p member)
  lower p member gone := by
    by_cases between : p ∈ m'.heap.slots
    · rw [← first.obj]
      exact second.lower p between gone
    · exact first.lower p member between
  obj := second.obj.trans first.obj
  maxTxs := second.maxTxs.trans first.maxTxs
  maxBytes := second.maxBytes.trans first.maxBytes
  txs key member := first.txs key (second.txs key member)

theorem Linked.evicted_drop (linked : Linked hashTx m) (inside : i < m.heap.slots.length)
    (lower : m.heap.priority i < priority) : Evicted priority m (m.drop i) where
  subset p member := ((linked.mem_drop inside).mp member).2
  lower p member gone := by
    have dropped : p = m.heap.ptr i := by
      by_contra different
      exact gone ((linked.mem_drop inside).mpr ⟨different, member⟩)
    rw [dropped]
    exact lower
  obj := linked.obj_drop inside
  maxTxs := rfl
  maxBytes := rfl
  txs key member := (Finmap.mem_erase.mp member).2

/-- The bytes that a transaction would take the pool to are above the limit. -/
def Over (m : Pool) (txSize : Int) : Prop := 0 < m.maxBytes ∧ m.maxBytes < m.sizeBytes + txSize

instance (m : Pool) (txSize : Int) : Decidable (m.Over txSize) :=
  inferInstanceAs (Decidable (_ ∧ _))

variable {evict : Pool → Int64 → Option (Pool × Bool)}

/-- The loop for the limit of bytes ends, because it fits or because nothing of lower
priority is left. -/
theorem makeRoom_spec (evicts : Evicts evict) (priority : Int64) (txSize : Int) {rounds : Nat}
    (linked : Linked hashTx m) (enough : m.heap.slots.length < rounds) :
    ∃ left fits, makeRoom evict priority txSize rounds m = some (left, fits) ∧
      Linked hashTx left ∧ Evicted priority m left ∧ (fits = true ↔ ¬left.Over txSize) ∧
      (fits = false → ∀ p ∈ left.heap.slots, priority ≤ (left.heap.obj p).priority) := by
  induction rounds generalizing m with
  | zero => exact absurd enough (Nat.not_lt_zero _)
  | succ rounds ih =>
    rw [makeRoom]
    split
    next isOver =>
      rcases evicts m priority with ⟨outcome, notLower⟩ | ⟨i, inside, lower, outcome⟩
      · rw [outcome]
        refine ⟨m, false, rfl, linked, .refl priority m, ?_, fun _ => notLower⟩
        exact ⟨fun impossible => absurd impossible Bool.false_ne_true,
          fun notOver => absurd isOver notOver⟩
      · rw [outcome]
        have length := linked.length_drop inside
        obtain ⟨left, fits, result, linkedLeft, evicted, ends, notLower⟩ :=
          ih (linked.drop inside) (by omega)
        exact ⟨left, fits, result, linkedLeft, (linked.evicted_drop inside lower).trans evicted,
          ends, notLower⟩
    next notOver =>
      refine ⟨m, true, rfl, linked, .refl priority m, ?_,
        fun impossible => absurd impossible.symm Bool.false_ne_true⟩
      exact ⟨fun _ => notOver, fun _ => rfl⟩

/-! ## Admission -/

/-- The pool holds no more transactions than allowed. -/
def CountOk (m : Pool) : Prop := 0 < m.maxTxs → (m.heap.slots.length : Int) ≤ m.maxTxs

/-- The outcomes of admitting an entry: it is stored after evictions, or evictions do not
suffice. -/
inductive Admitted (hashTx : Bytes → Bytes) (m : Pool) (entry : MempoolTx) :
    Pool × Option AddError → Prop where
  | stored (left : Pool) (linked : Linked hashTx left) (evicted : Evicted entry.priority m left)
      (fits : ¬left.Over entry.tx.length)
      (room : 0 < m.maxTxs → (left.heap.slots.length : Int) < m.maxTxs) :
      Admitted hashTx m entry (left.store entry, none)
  | full (left : Pool) (linked : Linked hashTx left) (evicted : Evicted entry.priority m left)
      (notLower : ∀ p ∈ left.heap.slots, entry.priority ≤ (left.heap.obj p).priority)
      (blocked : left = m ∨ left.Over entry.tx.length) :
      Admitted hashTx m entry (left, some .mempoolFull)

theorem Evicted.length_le (evicted : Evicted priority m m') (linked : Linked hashTx m') :
    m'.heap.slots.length ≤ m.heap.slots.length :=
  (linked.sound.nodup.subperm evicted.subset).length_le

theorem checkCount_spec (evicts : Evicts evict) (linked : Linked hashTx m) (countOk : m.CountOk)
    (priority : Int64) :
    ∃ left room, checkCount evict priority m = some (left, room) ∧ Linked hashTx left ∧
      Evicted priority m left ∧
      (room = true → 0 < m.maxTxs → (left.heap.slots.length : Int) < m.maxTxs) ∧
      (room = false → left = m ∧ ∀ p ∈ m.heap.slots, priority ≤ (m.heap.obj p).priority) := by
  rw [checkCount, linked.size_eq]
  split
  next isFull =>
    rcases evicts m priority with ⟨outcome, notLower⟩ | ⟨i, inside, lower, outcome⟩
    · exact ⟨m, false, outcome, linked, .refl priority m,
        fun impossible => absurd impossible Bool.false_ne_true, fun _ => ⟨rfl, notLower⟩⟩
    · have length := linked.length_drop inside
      have bound := countOk isFull.1
      exact ⟨m.drop i, true, outcome, linked.drop inside, linked.evicted_drop inside lower,
        fun _ _ => by omega, fun impossible => absurd impossible.symm Bool.false_ne_true⟩
  next notFull =>
    rw [not_and, not_le] at notFull
    exact ⟨m, true, rfl, linked, .refl priority m, fun _ => notFull,
      fun impossible => absurd impossible.symm Bool.false_ne_true⟩

theorem admitEntry_eq {counted fitted : Pool} {room fits : Bool} {entry : MempoolTx}
    (isCounted : checkCount evict entry.priority m = some (counted, room))
    (isFitted : makeRoom evict entry.priority entry.tx.length (counted.heap.slots.length + 1)
      counted = some (fitted, fits)) :
    m.admitEntry evict entry = some (
      if room = false then (counted, some .mempoolFull)
      else if fits = false then (fitted, some .mempoolFull)
      else (fitted.store entry, none)) := by
  simp only [admitEntry, isCounted, Option.bind_eq_bind, Option.bind_some, isFitted]
  split
  next => rfl
  next =>
    split
    next => rfl
    next => rfl

theorem admitEntry_spec (evicts : Evicts evict) (linked : Linked hashTx m) (countOk : m.CountOk)
    (entry : MempoolTx) : ∃ outcome, m.admitEntry evict entry = some outcome ∧
      Admitted hashTx m entry outcome := by
  obtain ⟨counted, room, isCounted, linkedCounted, evictedCounted, hasRoom, noRoom⟩ :=
    checkCount_spec evicts linked countOk entry.priority
  obtain ⟨left, fits, isLeft, linkedLeft, evictedLeft, ends, notLower⟩ :=
    makeRoom_spec evicts entry.priority entry.tx.length linkedCounted (Nat.lt_succ_self _)
  have evicted := evictedCounted.trans evictedLeft
  refine ⟨_, admitEntry_eq isCounted isLeft, ?_⟩
  cases room with
  | false =>
    obtain ⟨rfl, notLowerCounted⟩ := noRoom rfl
    exact .full counted linked (.refl _ _) notLowerCounted (Or.inl rfl)
  | true =>
    cases fits with
    | false =>
      refine .full left linkedLeft evicted (notLower rfl) (Or.inr ?_)
      by_contra notOver
      cases ends.mpr notOver
    | true =>
      refine .stored left linkedLeft evicted (ends.mp rfl) ?_
      intro limited
      have fewer := evictedLeft.length_le linkedLeft
      have bound := hasRoom rfl limited
      omega

end Blockberry.Mempool.Pool
