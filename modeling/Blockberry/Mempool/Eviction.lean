import Blockberry.Mempool.Queries

/-!
# What an accepted transaction evicts

Each eviction removes an entry of the lowest priority held, if that is below the priority of the
new transaction. The evictions for an accepted transaction are followed one by one: each is made in
a state in which the transaction would exceed a limit.
-/

namespace Blockberry.Mempool

open List

namespace Pool

variable {hashTx : Bytes → Bytes} {m next left final : Pool} {entry gone : MempoolTx}
  {evicted : List MempoolTx}

/-! ## The content after dropping and storing -/

theorem Linked.holds_drop_iff (linked : Linked hashTx m) {i : Nat}
    (inside : i < m.heap.slots.length) :
    (m.drop i).Holds entry ↔ m.Holds entry ∧ entry ≠ m.heap.obj (m.heap.ptr i) := by
  rw [← (linked.drop inside).mem_entries_iff, ← linked.mem_entries_iff, entries, entries,
    mem_map, mem_map, linked.obj_drop inside]
  constructor
  · rintro ⟨p, member, rfl⟩
    obtain ⟨different, inSlots⟩ := (linked.mem_drop inside).mp member
    refine ⟨⟨p, inSlots, rfl⟩, ?_⟩
    intro same
    exact different (linked.hash_inj inSlots (TxHeap.ptr_mem inside) (congrArg MempoolTx.hash same))
  · rintro ⟨⟨p, inSlots, rfl⟩, different⟩
    refine ⟨p, (linked.mem_drop inside).mpr ⟨?_, inSlots⟩, rfl⟩
    rintro rfl
    exact different rfl

theorem Linked.holds_store_iff (linked : Linked hashTx m) (isHash : entry.hash = hashTx entry.tx)
    (fresh : entry.hash ∉ m.txs) {other : MempoolTx} :
    (m.store entry).Holds other ↔ m.Holds other ∨ other = entry := by
  rw [← (linked.store isHash fresh).mem_entries_iff, ← linked.mem_entries_iff, entries, entries,
    mem_map, mem_map, linked.obj_store]
  have old {p : Nat} (member : p ∈ m.heap.slots) :
      Function.update m.heap.obj m.next entry p = m.heap.obj p := linked.obj_allocated member
  constructor
  · rintro ⟨p, member, rfl⟩
    rcases mem_cons.mp ((linked.perm_store entry).mem_iff.mp member) with rfl | inSlots
    · exact .inr (Function.update_self _ _ _)
    · exact .inl ⟨p, inSlots, (old inSlots).symm⟩
  · rintro (⟨p, inSlots, rfl⟩ | rfl)
    · exact ⟨p, (linked.perm_store entry).mem_iff.mpr (mem_cons_of_mem _ inSlots), old inSlots⟩
    · exact ⟨m.next, (linked.perm_store other).mem_iff.mpr mem_cons_self,
        Function.update_self _ _ _⟩

/-! ## One eviction -/

/-- Adding the entry would exceed a limit. -/
def Exceeds (m : Pool) (entry : MempoolTx) : Prop :=
  0 < m.maxTxs ∧ m.maxTxs < m.size + 1 ∨ m.Over entry.tx.length

/-- An eviction that succeeds removes an entry of the lowest priority held. -/
def EvictsLeast (evict : Pool → Int64 → Option (Pool × Bool)) : Prop :=
  ∀ m priority next, evict m priority = some (next, true) →
    ∃ i < m.heap.slots.length, next = m.drop i ∧ m.heap.priority i < priority ∧
      ∀ j < m.heap.slots.length, m.heap.priority i ≤ m.heap.priority j

theorem evictLowest_least {visited : Nat → List Nat} (visits : Visits visited) :
    EvictsLeast (evictLowest visited) := by
  intro m priority next evicts
  unfold evictLowest at evicts
  split at evicts
  next => cases evicts
  next nonempty =>
    obtain ⟨low, isLow, inside, least⟩ := exists_lowest visits (Nat.pos_of_ne_zero nonempty)
    simp only [isLow] at evicts
    split at evicts
    next => cases evicts
    next lower =>
      rw [TxHeap.heapRemove, if_pos ⟨Int.natCast_nonneg low, Int.ofNat_lt.mpr inside⟩] at evicts
      cases evicts
      exact ⟨low, inside, rfl, Int64.not_le.mp lower, least⟩

variable {evict : Pool → Int64 → Option (Pool × Bool)}

/-- One eviction for an entry. -/
structure EvictsFor (evict : Pool → Int64 → Option (Pool × Bool)) (entry : MempoolTx) (m : Pool)
    (gone : MempoolTx) (next : Pool) : Prop where
  exceeds : m.Exceeds entry
  evicts : evict m entry.priority = some (next, true)
  held : m.Holds gone
  content : ∀ other, next.Holds other ↔ m.Holds other ∧ other ≠ gone

theorem Linked.priority_le (linked : Linked hashTx m) {i : Nat}
    (least : ∀ j < m.heap.slots.length, m.heap.priority i ≤ m.heap.priority j)
    {other : MempoolTx} (held : m.Holds other) : m.heap.priority i ≤ other.priority := by
  rw [← linked.mem_entries_iff, entries, mem_map] at held
  obtain ⟨p, inSlots, rfl⟩ := held
  obtain ⟨j, inside, rfl⟩ := TxHeap.exists_ptr inSlots
  exact least j inside

/-- What an eviction removes is below the entry and not above anything held. -/
theorem EvictsFor.spec (evictsFor : EvictsFor evict entry m gone next)
    (least : EvictsLeast evict) (linked : Linked hashTx m) :
    Linked hashTx next ∧ gone.priority < entry.priority ∧
      ∀ other, m.Holds other → gone.priority ≤ other.priority := by
  obtain ⟨i, inside, rfl, lower, lowest⟩ := least m entry.priority next evictsFor.evicts
  have isGone : gone = m.heap.obj (m.heap.ptr i) := by
    by_contra different
    have stays := (linked.holds_drop_iff inside).mpr ⟨evictsFor.held, different⟩
    exact ((evictsFor.content gone).mp stays).2 rfl
  rw [isGone]
  exact ⟨linked.drop inside, lower, fun other held => linked.priority_le lowest held⟩

theorem Linked.exists_evictsFor (linked : Linked hashTx m) (least : EvictsLeast evict)
    (exceeds : m.Exceeds entry) (evicts : evict m entry.priority = some (next, true)) :
    ∃ gone, EvictsFor evict entry m gone next := by
  obtain ⟨i, inside, rfl, -⟩ := least m entry.priority next evicts
  refine ⟨m.heap.obj (m.heap.ptr i), exceeds, evicts, ?_, ?_⟩
  · rw [← linked.mem_entries_iff]
    exact mem_map_of_mem (TxHeap.ptr_mem inside)
  · intro other
    exact linked.holds_drop_iff inside

/-! ## All evictions -/

/-- The evictions for an entry, one after another. -/
inductive Evictions (evict : Pool → Int64 → Option (Pool × Bool)) (entry : MempoolTx) :
    Pool → List MempoolTx → Pool → Prop where
  | done (m : Pool) : Evictions evict entry m [] m
  | next {m next left : Pool} {gone : MempoolTx} {evicted : List MempoolTx}
      (first : EvictsFor evict entry m gone next)
      (later : Evictions evict entry next evicted left) :
      Evictions evict entry m (gone :: evicted) left

/-- What the evictions have removed and left. -/
structure Removed (entry : MempoolTx) (m : Pool) (evicted : List MempoolTx) (left : Pool) :
    Prop where
  held : ∀ gone ∈ evicted, m.Holds gone
  lower : ∀ gone ∈ evicted, gone.priority < entry.priority
  lowest : ∀ gone ∈ evicted, ∀ kept, left.Holds kept → gone.priority ≤ kept.priority
  content : ∀ other, left.Holds other ↔ m.Holds other ∧ other ∉ evicted

theorem Evictions.removed (evictions : Evictions evict entry m evicted left)
    (least : EvictsLeast evict) (linked : Linked hashTx m) :
    Linked hashTx left ∧ Removed entry m evicted left := by
  induction evictions with
  | done m => exact ⟨linked, by simp, by simp, by simp, by simp⟩
  | next first later ih =>
    obtain ⟨linkedNext, lower, lowest⟩ := first.spec least linked
    obtain ⟨linkedLeft, removed⟩ := ih linkedNext
    refine ⟨linkedLeft, ?_, ?_, ?_, ?_⟩
    · refine forall_mem_cons.mpr ⟨first.held, ?_⟩
      intro gone member
      exact ((first.content gone).mp (removed.held gone member)).1
    · exact forall_mem_cons.mpr ⟨lower, removed.lower⟩
    · refine forall_mem_cons.mpr ⟨?_, removed.lowest⟩
      intro kept held
      exact lowest kept ((first.content kept).mp ((removed.content kept).mp held).1).1
    · intro other
      rw [removed.content, first.content, mem_cons, not_or, and_assoc]

theorem Evictions.append {evicted' : List MempoolTx} (first : Evictions evict entry m evicted next)
    (second : Evictions evict entry next evicted' left) :
    Evictions evict entry m (evicted ++ evicted') left := by
  induction first with
  | done m => exact second
  | next gone later ih => exact .next gone (ih second)

theorem Linked.evictions_checkCount (linked : Linked hashTx m) (least : EvictsLeast evict)
    (hasRoom : checkCount evict entry.priority m = some (left, true)) :
    ∃ evicted, Evictions evict entry m evicted left := by
  rw [checkCount] at hasRoom
  split at hasRoom
  next isFull =>
    have exceeds : m.Exceeds entry := .inl ⟨isFull.1, Int.lt_add_one_of_le isFull.2⟩
    obtain ⟨gone, evictsFor⟩ := linked.exists_evictsFor least exceeds hasRoom
    exact ⟨[gone], .next evictsFor (.done left)⟩
  next =>
    cases hasRoom
    exact ⟨[], .done _⟩

theorem Linked.evictions_makeRoom (linked : Linked hashTx m) (least : EvictsLeast evict)
    {rounds : Nat}
    (fits : makeRoom evict entry.priority entry.tx.length rounds m = some (left, true)) :
    ∃ evicted, Evictions evict entry m evicted left := by
  induction rounds generalizing m with
  | zero =>
    cases fits
    exact ⟨[], .done _⟩
  | succ rounds ih =>
    rw [makeRoom] at fits
    split at fits
    next isOver =>
      obtain ⟨⟨next, evicts⟩, isNext, later⟩ := Option.bind_eq_some_iff.mp fits
      cases evicts with
      | false => cases later
      | true =>
        obtain ⟨gone, evictsFor⟩ := linked.exists_evictsFor least (.inr isOver) isNext
        obtain ⟨evicted, evictions⟩ := ih (evictsFor.spec least linked).1 later
        exact ⟨gone :: evicted, .next evictsFor evictions⟩
    next =>
      cases fits
      exact ⟨[], .done _⟩

/-! ## Accepted transactions -/

/-- The entry was added after evictions for it. -/
def AddedAfter (evict : Pool → Int64 → Option (Pool × Bool)) (m : Pool) (entry : MempoolTx)
    (final : Pool) : Prop :=
  ∃ evicted left, Evictions evict entry m evicted left ∧ final = left.store entry ∧
    (∀ gone ∈ evicted, m.Holds gone ∧ gone.priority < entry.priority ∧
      ∀ kept, m.Holds kept → kept ∉ evicted → gone.priority ≤ kept.priority) ∧
    ∀ other, final.Holds other ↔ m.Holds other ∧ other ∉ evicted ∨ other = entry

theorem Linked.evictions_admitEntry (linked : Linked hashTx m) (least : EvictsLeast evict)
    (accepted : m.admitEntry evict entry = some (final, none)) :
    ∃ evicted left, Evictions evict entry m evicted left ∧ final = left.store entry := by
  obtain ⟨⟨counted, hasRoom⟩, isCounted, later⟩ := Option.bind_eq_some_iff.mp accepted
  cases hasRoom with
  | false => cases later
  | true =>
    obtain ⟨⟨left, fits⟩, isLeft, stored⟩ := Option.bind_eq_some_iff.mp later
    cases fits with
    | false => cases stored
    | true =>
      cases stored
      obtain ⟨first, evictions⟩ := linked.evictions_checkCount least isCounted
      obtain ⟨linkedCounted, -⟩ := evictions.removed least linked
      obtain ⟨second, evictions'⟩ := linkedCounted.evictions_makeRoom least isLeft
      exact ⟨first ++ second, left, evictions.append evictions', rfl⟩

theorem Linked.addedAfter_addTx (linked : Linked hashTx m) (least : EvictsLeast evict)
    {tx : Bytes} {addedAt : Int} {expiresAt : Option Int}
    (accepted : m.addTx evict (hashTx tx) tx addedAt expiresAt = some (final, none)) :
    m.AddedAfter evict ⟨hashTx tx, tx, m.priorityFunc tx, addedAt, expiresAt⟩ final := by
  rw [addTx] at accepted
  split at accepted
  next => cases accepted
  next fresh =>
    split at accepted
    next => cases accepted
    obtain ⟨evicted, left, evictions, rfl⟩ := linked.evictions_admitEntry least accepted
    obtain ⟨linkedLeft, removed⟩ := evictions.removed least linked
    have freshLeft : hashTx tx ∉ left.txs := by
      intro member
      obtain ⟨entry, isEntry⟩ := mem_txs_iff.mp member
      obtain ⟨held, isHash⟩ := linkedLeft.entryOf_eq_some_iff.mp isEntry
      have before := linked.entryOf_eq_some_iff.mpr ⟨((removed.content _).mp held).1, isHash⟩
      exact fresh (mem_txs_iff.mpr ⟨entry, before⟩)
    refine ⟨evicted, left, evictions, rfl, ?_, ?_⟩
    · intro gone member
      refine ⟨removed.held gone member, removed.lower gone member, ?_⟩
      intro kept held stays
      exact removed.lowest gone member kept ((removed.content kept).mpr ⟨held, stays⟩)
    · intro other
      rw [linkedLeft.holds_store_iff rfl freshLeft, removed.content]

end Pool

/-- For every accepted transaction in every reachable state of either mempool: the evicted
transactions were below it and not above any that is kept, each was evicted when a limit would have
been exceeded, and the others stay. -/
theorem accepted_after_evictions (hashTx : Bytes → Bytes) :
    (∀ cfg ops, ∃ m, PriorityMempool.run hashTx cfg ops = some m ∧
      ∀ tx now final, PriorityMempool.addTx hashTx m (some tx) now = some (final, none) →
        m.AddedAfter PriorityMempool.evictLowestLocked
          ⟨hashTx tx, tx, m.priorityFunc tx, now, none⟩ final) ∧
    ∀ cfg ops, ∃ m, TTLMempool.run hashTx cfg ops = some m ∧
      ∀ tx ttl now final, m.addTxWithTTL hashTx (some tx) ttl now = some (final, none) →
        m.pool.AddedAfter TTLMempool.evictLowestLocked
          ⟨hashTx tx, tx, m.pool.priorityFunc tx, now, some (now + ttl)⟩ final.pool := by
  constructor
  · intro cfg ops
    obtain ⟨m, isRun, valid⟩ := PriorityMempool.exists_run hashTx cfg ops
    refine ⟨m, isRun, ?_⟩
    intro tx now final accepted
    exact valid.linked.addedAfter_addTx (Pool.evictLowest_least Pool.visits_range') accepted
  · intro cfg ops
    obtain ⟨m, isRun, valid⟩ := TTLMempool.exists_run hashTx cfg ops
    refine ⟨m, isRun, ?_⟩
    intro tx ttl now final accepted
    rw [TTLMempool.addTxWithTTL] at accepted
    split at accepted
    next => cases accepted
    next =>
      obtain ⟨⟨pool, error⟩, isOutcome, isFinal⟩ := Option.map_eq_some_iff.mp accepted
      cases isFinal
      exact valid.linked.addedAfter_addTx (Pool.evictLowest_least Pool.visits_range) isOutcome

/-- A mempool for one transaction that prefers longer ones evicts the one it has. -/
theorem evicted_by_longer_tx : ∃ m final : PriorityMempool,
    PriorityMempool.run id ⟨1, 0, some fun tx => Int64.ofNat tx.length⟩
        [.setTxValidator (some fun _ => none), .addTx (some [1]) 0] = some m ∧
      PriorityMempool.addTx id m (some [1, 2]) 1 = some (final, none) ∧
      m.hasTx [1] = true ∧ final.hasTx [1] = false ∧
      m.AddedAfter PriorityMempool.evictLowestLocked
        ⟨[1, 2], [1, 2], m.priorityFunc [1, 2], 1, none⟩ final := by
  obtain ⟨m, isRun, after⟩ := (accepted_after_evictions id).1
    ⟨1, 0, some fun tx => Int64.ofNat tx.length⟩
    [.setTxValidator (some fun _ => none), .addTx (some [1]) 0]
  have answers : ((PriorityMempool.run id ⟨1, 0, some fun tx => Int64.ofNat tx.length⟩
        [.setTxValidator (some fun _ => none), .addTx (some [1]) 0]).bind fun m =>
      (PriorityMempool.addTx id m (some [1, 2]) 1).map fun outcome =>
        (m.hasTx [1], outcome.1.hasTx [1], outcome.2)) = some (true, false, none) := by
    decide +kernel
  rw [isRun, Option.bind_some] at answers
  obtain ⟨⟨final, err⟩, accepted, same⟩ := Option.map_eq_some_iff.mp answers
  simp only [Prod.mk.injEq] at same
  obtain ⟨had, hasNot, rfl⟩ := same
  exact ⟨m, final, isRun, accepted, had, hasNot, after [1, 2] 1 final accepted⟩

end Blockberry.Mempool
