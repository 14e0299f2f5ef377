import Blockberry.Mempool.Queries

/-!
# Expired transactions before the cleanup

Between its expiration and the next cleanup a transaction is stored and hidden: `HasTx`, `GetTx`
and `ReapTxs` pass over it, while `AddTx` finds its hash and place taken and `TxHashes` lists it.
-/

namespace Blockberry.Mempool

namespace Pool

variable {evict : Pool → Int64 → Option (Pool × Bool)} {m : Pool}

/-- Some of the entries leave room for a transaction. -/
structure LeaveRoom (m : Pool) (among : List MempoolTx) (tx : Bytes) : Prop where
  count : 0 < m.maxTxs → (among.length : Int) + 1 ≤ m.maxTxs
  bytes : 0 < m.maxBytes →
    (among.map fun entry => (entry.tx.length : Int)).sum + tx.length ≤ m.maxBytes

theorem admitEntry_of_room {entry : MempoolTx} (room : 0 < m.maxTxs → (m.size : Int) < m.maxTxs)
    (fits : ¬ m.Over entry.tx.length) : m.admitEntry evict entry = some (m.store entry, none) := by
  have counted : checkCount evict entry.priority m = some (m, true) := by
    rw [checkCount, if_neg]
    rintro ⟨limited, full⟩
    exact absurd (room limited) (not_lt.mpr full)
  have fitted : makeRoom evict entry.priority entry.tx.length (m.heap.slots.length + 1) m =
      some (m, true) := by
    rw [makeRoom]
    exact if_neg fits
  rw [admitEntry_eq counted fitted]
  rfl

theorem Linked.admitEntry {hashTx : Bytes → Bytes} (linked : Linked hashTx m)
    {entry : MempoolTx} (room : m.LeaveRoom m.entries entry.tx) :
    m.admitEntry evict entry = some (m.store entry, none) := by
  apply admitEntry_of_room
  · intro limited
    have bound := room.count limited
    rw [entries, List.length_map] at bound
    rw [linked.size_eq]
    exact Int.lt_of_add_one_le bound
  · rintro ⟨limited, above⟩
    have bound := room.bytes limited
    rw [entries, List.map_map] at bound
    rw [linked.sizeBytes] at above
    exact absurd bound (not_le.mpr above)

end Pool

namespace TTLMempool

variable {hashTx : Bytes → Bytes} {m : TTLMempool} {now : Int}

def active (m : TTLMempool) (now : Int) : List MempoolTx :=
  m.pool.entries.filter (MempoolTx.live now)

/-- The transaction is not larger than a single one may be. -/
def SizeAllowed (m : TTLMempool) (tx : Bytes) : Prop :=
  0 < m.maxTxSize → (tx.length : Int) ≤ m.maxTxSize

/-- The validator in force accepts the transaction. -/
def Accepts (m : TTLMempool) (tx : Bytes) : Prop :=
  m.pool.validator.getD defaultTxValidator tx = none

/-- `AddTx` succeeds. -/
def Adds (hashTx : Bytes → Bytes) (m : TTLMempool) (tx : Bytes) (now : Int) : Prop :=
  ∃ next, m.addTx hashTx (some tx) now = some (next, none)

/-- What is not there and has room beside what has not expired can be added, and what is listed
is served. -/
structure HidesExpired (hashTx : Bytes → Bytes) (m : TTLMempool) (now : Int) : Prop where
  adds : ∀ tx, m.SizeAllowed tx → m.hasTx (hashTx tx) now = false → m.Accepts tx →
    m.pool.LeaveRoom (m.active now) tx → m.Adds hashTx tx now
  serves : ∀ hash ∈ m.pool.txHashes, ∃ tx, m.getTx hash now = some tx

/-- What is not stored and has room beside everything stored can be added. -/
theorem adds_of_room (linked : m.pool.Linked hashTx) {tx : Bytes} (allowed : m.SizeAllowed tx)
    (fresh : hashTx tx ∉ m.pool.txHashes) (accepts : m.Accepts tx)
    (room : m.pool.LeaveRoom m.pool.entries tx) : m.Adds hashTx tx now := by
  have notStored : hashTx tx ∉ m.pool.txs := by
    intro stored
    exact fresh (linked.mem_txHashes_iff.mpr (Pool.mem_txs_iff.mp stored))
  have added : ∃ pool, m.pool.addTx evictLowestLocked (hashTx tx) tx now (some (now + m.ttl)) =
      some (pool, none) := by
    rw [Pool.addTx, if_neg notStored, show m.pool.validator.getD defaultTxValidator tx = none
      from accepts]
    exact ⟨_, linked.admitEntry room⟩
  obtain ⟨pool, isAdded⟩ := added
  refine ⟨{ m with pool }, ?_⟩
  rw [addTx, addTxWithTTL, if_neg fun large => absurd (allowed large.1) (not_le.mpr large.2),
    isAdded]
  rfl

theorem getTx_iff (linked : m.pool.Linked hashTx) {hash : Bytes} (listed : hash ∈ m.pool.txHashes) :
    (∃ tx, m.getTx hash now = some tx) ↔ m.isExpired now hash = false := by
  obtain ⟨entry, isEntry⟩ := linked.mem_txHashes_iff.mp listed
  rw [getTx, isEntry, isExpired_eq_not_live isEntry]
  cases live : entry.live now with
  | false | true => simp [live]

theorem NoneExpired.not_listed (none : m.NoneExpired now) (linked : m.pool.Linked hashTx)
    {hash : Bytes} (hidden : m.hasTx hash now = false) : hash ∉ m.pool.txHashes := by
  intro listed
  obtain ⟨entry, isEntry⟩ := linked.mem_txHashes_iff.mp listed
  rw [hasTx, isEntry] at hidden
  exact absurd (noneExpired_iff.mp none entry ⟨hash, isEntry⟩) (Bool.not_eq_true _ ▸ hidden)

theorem hidesExpired_iff (linked : m.pool.Linked hashTx) :
    HidesExpired hashTx m now ↔ m.NoneExpired now := by
  constructor
  · intro hides
    refine noneExpired_iff.mpr ?_
    rintro entry ⟨hash, isEntry⟩
    have listed := linked.mem_txHashes_iff.mpr ⟨entry, isEntry⟩
    have notExpired := (getTx_iff linked listed).mp (hides.serves hash listed)
    rw [isExpired_eq_not_live isEntry, Bool.not_eq_false'] at notExpired
    exact notExpired
  · intro none
    constructor
    · intro tx allowed hidden accepts room
      rw [active, none.filter_live linked] at room
      exact adds_of_room linked allowed (none.not_listed linked hidden) accepts room
    · intro hash listed
      obtain ⟨entry, isEntry⟩ := linked.mem_txHashes_iff.mp listed
      refine (getTx_iff linked listed).mpr ?_
      rw [isExpired_eq_not_live isEntry, noneExpired_iff.mp none entry ⟨hash, isEntry⟩,
        Bool.not_true]

end TTLMempool

/-- In every reachable state and at every moment: what is not stored and has room beside everything
stored can be added; a listed hash is served if and only if it has not expired; and expired
transactions are without effect on additions and lists if and only if there are none. -/
theorem ttlMempool_before_cleanup (hashTx : Bytes → Bytes) (cfg : TTLMempool.Config)
    (ops : List TTLMempool.Op) :
    ∃ m, TTLMempool.run hashTx cfg ops = some m ∧ ∀ now,
      (∀ tx, m.SizeAllowed tx → hashTx tx ∉ m.pool.txHashes → m.Accepts tx →
        m.pool.LeaveRoom m.pool.entries tx → m.Adds hashTx tx now) ∧
      (∀ hash ∈ m.pool.txHashes,
        (∃ tx, m.getTx hash now = some tx) ↔ m.isExpired now hash = false) ∧
      (TTLMempool.HidesExpired hashTx m now ↔ m.NoneExpired now) := by
  obtain ⟨m, isRun, valid⟩ := TTLMempool.exists_run hashTx cfg ops
  refine ⟨m, isRun, ?_⟩
  intro now
  refine ⟨?_, ?_, TTLMempool.hidesExpired_iff valid.linked⟩
  · intro tx allowed fresh accepts room
    exact TTLMempool.adds_of_room valid.linked allowed fresh accepts room
  · intro hash listed
    exact TTLMempool.getTx_iff valid.linked listed

/-- At time 11 `HasTx` denies a transaction added at time 0 with a time to live of 10; it cannot be
added again, although nothing is limited, and `TxHashes` lists a hash that `GetTx` does not serve.
-/
theorem expired_blocks_addition :
    (TTLMempool.run id ⟨0, 0, 0, 10, none⟩
      [.setTxValidator (some fun _ => none), .addTx (some [1]) 0]).map (fun m =>
        (m.hasTx [1] 11, (m.addTx id (some [1]) 11).map Prod.snd, m.pool.txHashes,
          m.getTx [1] 11)) =
      some (false, some (some .txAlreadyExists), {[1]}, none) := by
  decide +kernel

end Blockberry.Mempool
