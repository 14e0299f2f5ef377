import Blockberry.Lib.Budget
import Blockberry.Lib.ExchangeSort
import Blockberry.Mempool.Invariant

/-!
# Reading the mempools

The calls that read a mempool, among them `ReapTxs`, which sorts a copy of the heap and takes
transactions from its front. A `TTLMempool` hides expired transactions from most of them.
-/

namespace Blockberry.Mempool

open Option Finmap

/-- The transaction has not expired: not `now.After(mtx.expiresAt)`. -/
def MempoolTx.live (now : Int) (entry : MempoolTx) : Bool :=
  !entry.expiresAt.any fun expiresAt => expiresAt < now

namespace Pool

variable (m : Pool)

/-- The entry under a hash. -/
def entryOf (hash : Bytes) : Option MempoolTx := (m.txs.lookup hash).map m.heap.obj

def getPriority (hash : Bytes) : Int64 :=
  match m.entryOf hash with
  | none => 0
  | some mtx => mtx.priority

/-- The hashes that `TxHashes` lists, in whatever order it visits the map. -/
def txHashes : Finset Bytes :=
  m.txs.keys.image fun hashKey => ((m.entryOf hashKey).map MempoolTx.hash).getD []

/-- The limit of `ReapTxs`: the argument, or the configured one if it is not positive. -/
def reapLimit (maxBytes : Int) : Int := if maxBytes ≤ 0 then m.maxBytes else maxBytes

/-- `ReapTxs` from the copy of the entries on. -/
def reapFrom (maxBytes : Int) (copied : List MempoolTx) : List Bytes :=
  let sorted := ExchangeSort.exchangeSort (fun mtx : MempoolTx => mtx.priority.toInt) copied
  (Budget.take (fun mtx => (mtx.tx.length : Int)) (m.reapLimit maxBytes) 0 sorted).map
    MempoolTx.tx

def entries : List MempoolTx := m.heap.slots.map m.heap.obj

end Pool

namespace PriorityMempool

def reapTxs (m : PriorityMempool) (maxBytes : Int) : List Bytes :=
  if m.heap.slots.length = 0 then [] else m.reapFrom maxBytes m.entries

def hasTx (m : PriorityMempool) (hash : Bytes) : Bool := (m.entryOf hash).isSome

/-- `GetTx`; `none` is `ErrTxNotFound`. -/
def getTx (m : PriorityMempool) (hash : Bytes) : Option Bytes := (m.entryOf hash).map MempoolTx.tx

end PriorityMempool

namespace TTLMempool

def reapTxs (m : TTLMempool) (maxBytes now : Int) : List Bytes :=
  if m.pool.heap.slots.length = 0 then []
  else m.pool.reapFrom maxBytes (m.pool.entries.filter (MempoolTx.live now))

def hasTx (m : TTLMempool) (hash : Bytes) (now : Int) : Bool :=
  match m.pool.entryOf hash with
  | none => false
  | some mtx => mtx.live now

/-- `GetTx`; `none` is `ErrTxNotFound`. -/
def getTx (m : TTLMempool) (hash : Bytes) (now : Int) : Option Bytes :=
  match m.pool.entryOf hash with
  | none => none
  | some mtx => if mtx.live now then some mtx.tx else none

end TTLMempool

namespace Pool

variable {hashTx : Bytes → Bytes} {m : Pool} {entry : MempoolTx} {hash : Bytes}

/-- The pool holds an entry. -/
def Holds (m : Pool) (entry : MempoolTx) : Prop := ∃ hash, m.entryOf hash = some entry

theorem mem_txs_iff : hash ∈ m.txs ↔ ∃ entry, m.entryOf hash = some entry := by
  simp only [mem_iff, entryOf, map_eq_some_iff]
  constructor
  · rintro ⟨p, found⟩
    exact ⟨m.heap.obj p, p, found, rfl⟩
  · rintro ⟨entry, p, found, -⟩
    exact ⟨p, found⟩

variable (linked : Linked hashTx m)

include linked

theorem Linked.entryOf_eq_some_iff :
    m.entryOf hash = some entry ↔ m.Holds entry ∧ entry.hash = hash := by
  have keyed {key : Bytes} (found : m.entryOf key = some entry) : entry.hash = key := by
    obtain ⟨p, isPtr, rfl⟩ := map_eq_some_iff.mp found
    exact ((linked.lookup_iff key p).mp isPtr).2
  constructor
  · intro found
    exact ⟨⟨hash, found⟩, keyed found⟩
  · rintro ⟨⟨key, found⟩, rfl⟩
    rwa [keyed found]

theorem Linked.mem_entries_iff : entry ∈ m.entries ↔ m.Holds entry := by
  rw [entries, List.mem_map]
  constructor
  · rintro ⟨p, inSlots, rfl⟩
    refine ⟨(m.heap.obj p).hash, ?_⟩
    rw [entryOf, (linked.lookup_iff _ p).mpr ⟨inSlots, rfl⟩, map_some]
  · rintro ⟨hash, found⟩
    obtain ⟨p, isPtr, isEntry⟩ := map_eq_some_iff.mp found
    exact ⟨p, ((linked.lookup_iff hash p).mp isPtr).1, isEntry⟩

theorem Linked.nodup_entries : m.entries.Nodup := by
  refine linked.sound.nodup.map_on ?_
  intro p inSlots q inSlots' same
  exact linked.hash_inj inSlots inSlots' (congrArg MempoolTx.hash same)

theorem Linked.mem_txHashes_iff : hash ∈ m.txHashes ↔ ∃ entry, m.entryOf hash = some entry := by
  rw [txHashes, Finset.mem_image]
  constructor
  · rintro ⟨key, isKey, rfl⟩
    obtain ⟨entry, isEntry⟩ := mem_txs_iff.mp (mem_keys.mp isKey)
    refine ⟨entry, ?_⟩
    rw [isEntry, map_some, getD_some, (linked.entryOf_eq_some_iff.mp isEntry).2]
    exact isEntry
  · rintro ⟨entry, isEntry⟩
    refine ⟨hash, mem_keys.mpr (mem_txs_iff.mpr ⟨entry, isEntry⟩), ?_⟩
    rw [isEntry, map_some, getD_some]
    exact (linked.entryOf_eq_some_iff.mp isEntry).2

end Pool

namespace TTLMempool

variable {m : TTLMempool} {now : Int}

/-- Nothing that the mempool stores has expired. -/
def NoneExpired (m : TTLMempool) (now : Int) : Prop :=
  ∀ hashKey ∈ m.pool.txs.keys, m.isExpired now hashKey = false

instance (m : TTLMempool) (now : Int) : Decidable (m.NoneExpired now) :=
  inferInstanceAs (Decidable (∀ hashKey ∈ m.pool.txs.keys, m.isExpired now hashKey = false))

theorem isExpired_eq_not_live {hash : Bytes} {entry : MempoolTx}
    (isEntry : m.pool.entryOf hash = some entry) : m.isExpired now hash = !entry.live now := by
  obtain ⟨p, found, rfl⟩ := map_eq_some_iff.mp isEntry
  rw [isExpired, found, MempoolTx.live, Bool.not_not]

theorem noneExpired_iff :
    m.NoneExpired now ↔ ∀ entry, m.pool.Holds entry → entry.live now = true := by
  constructor
  · rintro none entry ⟨hash, isEntry⟩
    have isKey := mem_keys.mpr (Pool.mem_txs_iff.mpr ⟨entry, isEntry⟩)
    have notExpired := none hash isKey
    rw [isExpired_eq_not_live isEntry, Bool.not_eq_false'] at notExpired
    exact notExpired
  · intro live hashKey isKey
    obtain ⟨entry, isEntry⟩ := Pool.mem_txs_iff.mp (mem_keys.mp isKey)
    rw [isExpired_eq_not_live isEntry, live _ ⟨hashKey, isEntry⟩, Bool.not_true]

theorem NoneExpired.filter_live {hashTx : Bytes → Bytes} (none : m.NoneExpired now)
    (linked : m.pool.Linked hashTx) :
    m.pool.entries.filter (MempoolTx.live now) = m.pool.entries :=
  List.filter_eq_self.mpr fun entry isEntry =>
    noneExpired_iff.mp none entry (linked.mem_entries_iff.mp isEntry)

end TTLMempool

end Blockberry.Mempool
