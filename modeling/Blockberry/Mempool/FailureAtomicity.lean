import Blockberry.Mempool.Invariant

/-!
# Failed additions

An addition evicts before it knows whether the new transaction will fit. It fails with
fewer transactions than before exactly if there is something to evict and what may not be
evicted leaves no room for the new transaction.
-/

namespace Blockberry.Mempool

namespace Pool

variable {hashTx : Bytes → Bytes} {m m' left : Pool} {priority : Int64}
  {evict : Pool → Int64 → Option (Pool × Bool)}

/-- The transaction under a hash, with its priority. -/
def held (m : Pool) (hash : Bytes) : Option (Bytes × Int64) :=
  (m.txs.lookup hash).map fun p => ((m.heap.obj p).tx, (m.heap.obj p).priority)

/-- The same transactions with the same priorities, and the same number of bytes. -/
structure Unchanged (m m' : Pool) : Prop where
  held : ∀ hash, m'.held hash = m.held hash
  sizeBytes : m'.sizeBytes = m.sizeBytes

theorem Unchanged.refl (m : Pool) : Unchanged m m := ⟨fun _ => rfl, rfl⟩

/-- The entries that a new transaction may not evict. -/
def notLower (m : Pool) (priority : Int64) : List Nat :=
  m.heap.slots.filter fun p => priority ≤ (m.heap.obj p).priority

/-- A transaction that passes the checks, has something to evict, and does not fit beside
what it may not evict. -/
structure Displaces (m : Pool) (hash tx : Bytes) : Prop where
  fresh : hash ∉ m.txs
  accepted : m.validator.getD defaultTxValidator tx = none
  limited : 0 < m.maxBytes
  lower : ∃ p ∈ m.heap.slots, (m.heap.obj p).priority < m.priorityFunc tx
  tooLarge : m.maxBytes < totalSize m.heap.obj (m.notLower (m.priorityFunc tx)) + tx.length

theorem mem_notLower {p : Nat} :
    p ∈ m.notLower priority ↔ p ∈ m.heap.slots ∧ priority ≤ (m.heap.obj p).priority := by
  rw [notLower, List.mem_filter, decide_eq_true_eq]

theorem Evicted.mem_of_notLower (evicted : Evicted priority m left) {p : Nat}
    (member : p ∈ m.notLower priority) : p ∈ left.heap.slots := by
  rw [mem_notLower] at member
  by_contra gone
  exact Int64.not_lt.mpr member.2 (evicted.lower p member.1 gone)

theorem Linked.nodup_notLower (linked : Linked hashTx m) : (m.notLower priority).Nodup :=
  linked.sound.nodup.filter _

theorem Evicted.totalSize_le (evicted : Evicted priority m left) (linked : Linked hashTx m)
    (linkedLeft : Linked hashTx left) :
    totalSize m.heap.obj (m.notLower priority) ≤ left.sizeBytes := by
  rw [linkedLeft.sizeBytes, evicted.obj]
  exact totalSize_le_of_subset _ linkedLeft.sound.nodup linked.nodup_notLower
    fun p => evicted.mem_of_notLower

section Exhausted

variable (evicted : Evicted priority m left) (linked : Linked hashTx m)
  (linkedLeft : Linked hashTx left)
  (exhausted : ∀ p ∈ left.heap.slots, priority ≤ (left.heap.obj p).priority)

include evicted exhausted

theorem Evicted.mem_iff {p : Nat} : p ∈ left.heap.slots ↔ p ∈ m.notLower priority := by
  constructor
  · intro member
    have atLeast := exhausted p member
    rw [evicted.obj] at atLeast
    exact mem_notLower.mpr ⟨evicted.subset p member, atLeast⟩
  · exact evicted.mem_of_notLower

include linked linkedLeft

/-- When nothing of lower priority is left, exactly what may not be evicted is left. -/
theorem Evicted.sizeBytes_eq : left.sizeBytes = totalSize m.heap.obj (m.notLower priority) := by
  have perm : left.heap.slots.Perm (m.notLower priority) :=
    (List.perm_ext_iff_of_nodup linkedLeft.sound.nodup linked.nodup_notLower).mpr
      fun p => evicted.mem_iff exhausted
  rw [linkedLeft.sizeBytes, evicted.obj, totalSize_perm perm]

theorem Evicted.unchanged_iff :
    Unchanged m left ↔ ¬∃ p ∈ m.heap.slots, (m.heap.obj p).priority < priority := by
  constructor
  · intro unchanged someLower
    obtain ⟨p, member, lower⟩ := someLower
    have found := (linked.lookup_iff _ p).mpr ⟨member, rfl⟩
    have same := unchanged.held (m.heap.obj p).hash
    rw [held, held, found, Option.map_some] at same
    obtain ⟨q, foundLeft, -⟩ := Option.map_eq_some_iff.mp same
    have inLeft := (linkedLeft.lookup_iff _ q).mp foundLeft
    rw [evicted.obj] at inLeft
    have isSame := linked.hash_inj (evicted.subset q inLeft.1) member inLeft.2
    rw [isSame] at inLeft
    have atLeast := exhausted p inLeft.1
    rw [evicted.obj] at atLeast
    exact Int64.not_lt.mpr atLeast lower
  · intro noneLower
    have all : m.notLower priority = m.heap.slots := by
      apply List.filter_eq_self.mpr
      intro p member
      apply decide_eq_true
      exact Int64.not_lt.mp fun lower => noneLower ⟨p, member, lower⟩
    constructor
    · intro hash
      have same : left.txs.lookup hash = m.txs.lookup hash := by
        apply Option.ext
        intro p
        rw [linkedLeft.lookup_iff, linked.lookup_iff, evicted.mem_iff exhausted, all, evicted.obj]
      rw [held, held, same, evicted.obj]
    · rw [evicted.sizeBytes_eq linked linkedLeft exhausted, all, linked.sizeBytes]

end Exhausted

/-- A failed addition leaves the pool as it was, unless the transaction displaces others. -/
theorem Valid.addTx_unchanged_iff (evicts : Evicts evict) (valid : Valid hashTx m) (tx : Bytes)
    (addedAt : Int) (expiresAt : Option Int) :
    (∀ next err, m.addTx evict (hashTx tx) tx addedAt expiresAt = some (next, some err) →
        Unchanged m next) ↔ ¬Displaces m (hashTx tx) tx := by
  unfold Pool.addTx
  split
  next present =>
    constructor
    · intro _ displaces
      exact displaces.fresh present
    · intro _ next err isOutcome
      cases isOutcome
      exact .refl m
  next fresh =>
    split
    next reason rejected =>
      constructor
      · intro _ displaces
        rw [displaces.accepted] at rejected
        cases rejected
      · intro _ next err isOutcome
        cases isOutcome
        exact .refl m
    next accepted =>
      obtain ⟨outcome, isAdmitted, admitted⟩ := admitEntry_spec evicts valid.linked valid.countOk
        ⟨hashTx tx, tx, m.priorityFunc tx, addedAt, expiresAt⟩
      rw [isAdmitted]
      cases admitted with
      | stored left linked evicted fits room =>
        constructor
        · intro _ displaces
          apply fits
          have atLeast := evicted.totalSize_le valid.linked linked
          refine ⟨evicted.maxBytes.symm ▸ displaces.limited, ?_⟩
          rw [evicted.maxBytes]
          exact displaces.tooLarge.trans_le (by gcongr)
        · intro _ next err isOutcome
          cases isOutcome
      | full left linked evicted exhausted blocked =>
        have unchanged := evicted.unchanged_iff valid.linked linked exhausted
        constructor
        · intro same displaces
          exact unchanged.mp (same left .mempoolFull rfl) displaces.lower
        · intro notDisplaces next err isOutcome
          cases isOutcome
          rcases blocked with rfl | isOver
          · exact .refl left
          · apply unchanged.mpr
            intro someLower
            apply notDisplaces
            refine ⟨fresh, accepted, evicted.maxBytes ▸ isOver.1, someLower, ?_⟩
            rw [← evicted.maxBytes, ← evicted.sizeBytes_eq valid.linked linked exhausted]
            exact isOver.2

end Pool

/-- For every reachable state of both mempools and every transaction: additions that fail
leave the mempool as it was if and only if the transaction does not displace others. -/
theorem failed_additions_unchanged_iff (hashTx : Bytes → Bytes) :
    (∀ cfg ops m, PriorityMempool.run hashTx cfg ops = some m → ∀ tx now,
      (∀ next err, PriorityMempool.addTx hashTx m tx now = some (next, some err) →
          m.Unchanged next) ↔
        ∀ bytes, tx = some bytes → ¬m.Displaces (hashTx bytes) bytes) ∧
    (∀ cfg ops m, TTLMempool.run hashTx cfg ops = some m → ∀ tx ttl now,
      (∀ next err, m.addTxWithTTL hashTx tx ttl now = some (next, some err) →
          m.pool.Unchanged next.pool) ↔
        ∀ bytes, tx = some bytes → ¬(0 < m.maxTxSize ∧ m.maxTxSize < bytes.length) →
          ¬m.pool.Displaces (hashTx bytes) bytes) := by
  constructor
  · intro cfg ops m isRun tx now
    obtain ⟨reached, isReached, valid⟩ := PriorityMempool.exists_run hashTx cfg ops
    cases isRun.symm.trans isReached
    cases tx with
    | none =>
      constructor
      · intro _ bytes impossible
        cases impossible
      · intro _ next err isOutcome
        cases isOutcome
        exact .refl m
    | some tx =>
      have core := valid.addTx_unchanged_iff Pool.evicts_priorityMempool tx now none
      constructor
      · intro same bytes isTx
        cases isTx
        exact core.mp same
      · intro notDisplaces
        exact core.mpr (notDisplaces tx rfl)
  · intro cfg ops m isRun tx ttl now
    obtain ⟨reached, isReached, valid⟩ := TTLMempool.exists_run hashTx cfg ops
    cases isRun.symm.trans isReached
    cases tx with
    | none =>
      constructor
      · intro _ bytes impossible
        cases impossible
      · intro _ next err isOutcome
        cases isOutcome
        exact .refl m.pool
    | some tx =>
      have core := valid.addTx_unchanged_iff Pool.evicts_ttlMempool tx now (some (now + ttl))
      rw [TTLMempool.addTxWithTTL]
      split
      next large =>
        constructor
        · intro _ bytes isTx small
          cases isTx
          exact absurd large small
        · intro _ next err isOutcome
          cases isOutcome
          exact .refl m.pool
      next small =>
        constructor
        · intro same bytes isTx _
          cases isTx
          apply core.mp
          intro next err isOutcome
          apply same { m with pool := next } err
          rw [isOutcome]
          rfl
        · intro notDisplaces next err isOutcome
          obtain ⟨⟨pool, failure⟩, isPool, isNext⟩ := Option.map_eq_some_iff.mp isOutcome
          cases isNext
          exact core.mpr (notDisplaces tx rfl small) pool err isPool

/-- Transactions of five bytes with priorities 1 and 9 are held within ten bytes. -/
def twoHeld : Option PriorityMempool :=
  PriorityMempool.run id ⟨0, 10, some fun tx => Int64.ofNat (tx.headD 0).toNat⟩
    [.setTxValidator (some fun _ => none), .addTx (some [1, 0, 0, 0, 0]) 0,
      .addTx (some [9, 0, 0, 0, 0]) 0]

/-- Ten more bytes with priority 5 are refused, after the transaction with priority 1 is
gone. -/
theorem failed_addition_evicts :
    (twoHeld.map fun m => (m.held [1, 0, 0, 0, 0], m.sizeBytes)) =
        some (some ([1, 0, 0, 0, 0], 1), 10) ∧
      ((twoHeld.bind fun m =>
          PriorityMempool.addTx id m (some [5, 0, 0, 0, 0, 0, 0, 0, 0, 0]) 0).map fun outcome =>
        (outcome.2, outcome.1.held [1, 0, 0, 0, 0], outcome.1.sizeBytes)) =
        some (some .mempoolFull, none, 5) := by
  decide +kernel

end Blockberry.Mempool
