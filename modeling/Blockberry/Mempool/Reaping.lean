import Blockberry.Mempool.Queries

/-!
# Reaping

`ReapTxs` copies the entries of the heap, sorts the copy by exchanges and takes transactions from
its front until the next one would exceed the limit. What it returns is the longest prefix within
the limit of the entries in order of priority.
-/

namespace Blockberry.Mempool

open ExchangeSort Budget

/-- What is reaped of a set of entries: the longest prefix within a limit of all of them in order
of priority. -/
def ReapsInOrder (held : MempoolTx → Prop) (limit : Int) (reaped : List Bytes) : Prop :=
  ∃ sorted taken : List MempoolTx, (∀ entry, entry ∈ sorted ↔ held entry) ∧ sorted.Nodup ∧
    sorted.Pairwise (fun earlier later => later.priority ≤ earlier.priority) ∧
    LongestPrefix (Fits (fun entry => (entry.tx.length : Int)) limit) taken sorted ∧
    reaped = taken.map MempoolTx.tx

namespace Pool

variable {hashTx : Bytes → Bytes} {m : Pool}

theorem reapsInOrder_reapFrom (m : Pool) (maxBytes : Int) {copied : List MempoolTx}
    (nodup : copied.Nodup) :
    ReapsInOrder (· ∈ copied) (m.reapLimit maxBytes) (m.reapFrom maxBytes copied) := by
  have perm := @exchangeSort_perm _ _ _ (fun mtx : MempoolTx => mtx.priority.toInt) copied
  have inOrder := @inOrder_exchangeSort _ _ _ (fun mtx : MempoolTx => mtx.priority.toInt) copied
  refine ⟨_, _, fun entry => perm.mem_iff, perm.nodup_iff.mpr nodup, ?_,
    longestPrefix_take (fun entry => Int.natCast_nonneg _) _, rfl⟩
  exact inOrder.imp fun le => Int64.le_iff_toInt_le.mpr le

theorem reapFrom_nil (m : Pool) (maxBytes : Int) : m.reapFrom maxBytes [] = [] := rfl

theorem entries_eq_nil (empty : m.heap.slots.length = 0) : m.entries = [] := by
  rw [entries, List.eq_nil_of_length_eq_zero empty, List.map_nil]

end Pool

theorem PriorityMempool.reapTxs_eq (m : PriorityMempool) (maxBytes : Int) :
    m.reapTxs maxBytes = m.reapFrom maxBytes m.entries := by
  rw [PriorityMempool.reapTxs]
  split
  next empty => rw [Pool.entries_eq_nil empty, Pool.reapFrom_nil]
  next => rfl

theorem TTLMempool.reapTxs_eq (m : TTLMempool) (maxBytes now : Int) : m.reapTxs maxBytes now =
      m.pool.reapFrom maxBytes (m.pool.entries.filter (MempoolTx.live now)) := by
  rw [TTLMempool.reapTxs]
  split
  next empty => rw [Pool.entries_eq_nil empty, List.filter_nil, Pool.reapFrom_nil]
  next => rfl

/-- In every reachable state and for every limit, both mempools reap a longest prefix of the
transactions held, or held and not expired, in order of priority. -/
theorem reapTxs_inOrder (hashTx : Bytes → Bytes) :
    (∀ cfg ops, ∃ m, PriorityMempool.run hashTx cfg ops = some m ∧
      ∀ maxBytes, ReapsInOrder m.Holds (m.reapLimit maxBytes) (m.reapTxs maxBytes)) ∧
    ∀ cfg ops, ∃ m, TTLMempool.run hashTx cfg ops = some m ∧
      ∀ maxBytes now, ReapsInOrder (fun entry => m.pool.Holds entry ∧ entry.live now = true)
        (m.pool.reapLimit maxBytes) (m.reapTxs maxBytes now) := by
  constructor
  · intro cfg ops
    obtain ⟨m, isRun, valid⟩ := PriorityMempool.exists_run hashTx cfg ops
    refine ⟨m, isRun, ?_⟩
    intro maxBytes
    have held : (· ∈ m.entries) = m.Holds := by
      funext entry
      exact propext valid.linked.mem_entries_iff
    rw [PriorityMempool.reapTxs_eq, ← held]
    exact Pool.reapsInOrder_reapFrom m maxBytes valid.linked.nodup_entries
  · intro cfg ops
    obtain ⟨m, isRun, valid⟩ := TTLMempool.exists_run hashTx cfg ops
    refine ⟨m, isRun, ?_⟩
    intro maxBytes now
    have held : (· ∈ m.pool.entries.filter (MempoolTx.live now)) =
        fun entry => m.pool.Holds entry ∧ entry.live now = true := by
      funext entry
      rw [List.mem_filter, valid.linked.mem_entries_iff]
    rw [TTLMempool.reapTxs_eq, ← held]
    exact Pool.reapsInOrder_reapFrom m.pool maxBytes (valid.linked.nodup_entries.filter _)

end Blockberry.Mempool
