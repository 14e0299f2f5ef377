import Blockberry.Mempool.Reaping

/-!
# The two mempools answer alike

`PriorityMempool` and `TTLMempool` are written separately. As long as nothing expires they differ
in the times of their entries and in the positions that the search for the lowest priority visits.
Forgetting the times maps every operation to itself, so two mempools that agree up to the times
answer alike.
-/

namespace Blockberry.Mempool

open PriorityMempool Pool Option Function

/-! ## Calls and answers -/

inductive Call where
  | addTx (tx : Option Bytes)
  | removeTxs (hashes : List Bytes)
  | reapTxs (maxBytes : Int)
  | hasTx (hash : Bytes)
  | getTx (hash : Bytes)
  | getPriority (hash : Bytes)
  | size
  | sizeBytes
  | txHashes
  | flush

inductive Answer where
  | done
  | added (err : Option AddError)
  | reaped (txs : List Bytes)
  | has (found : Bool)
  | tx (found : Option Bytes)
  | priority (priority : Int64)
  | size (count : Nat)
  | sizeBytes (bytes : Int)
  | txHashes (hashes : Finset Bytes)
  deriving DecidableEq

/-- A call, or a round of the cleanup that only a `TTLMempool` has, and when it happens. -/
inductive Activity where
  | call (now : Int) (call : Call)
  | cleanup (now : Int) (order : List Bytes)

def Activity.now : Activity → Int
  | .call now _ => now
  | .cleanup now _ => now

/-- The answers to a sequence of activities, unless one of them panics. -/
def answers {State : Type} (serve : State → Activity → Option (State × Answer)) :
    State → List Activity → Option (List Answer)
  | _, [] => some []
  | m, activity :: rest =>
    (serve m activity).bind fun served =>
      (answers serve served.1 rest).map fun later => served.2 :: later

section Serve

variable (hashTx : Bytes → Bytes)

def PriorityMempool.serve (m : PriorityMempool) : Activity → Option (PriorityMempool × Answer)
  | .call now (.addTx tx) =>
    (PriorityMempool.addTx hashTx m tx now).map fun outcome => (outcome.1, .added outcome.2)
  | .call _ (.removeTxs hashes) => (m.removeTxs hashes).map fun next => (next, .done)
  | .call _ (.reapTxs maxBytes) => some (m, .reaped (m.reapTxs maxBytes))
  | .call _ (.hasTx hash) => some (m, .has (m.hasTx hash))
  | .call _ (.getTx hash) => some (m, .tx (m.getTx hash))
  | .call _ (.getPriority hash) => some (m, .priority (m.getPriority hash))
  | .call _ .size => some (m, .size m.size)
  | .call _ .sizeBytes => some (m, .sizeBytes m.sizeBytes)
  | .call _ .txHashes => some (m, .txHashes m.txHashes)
  | .call _ .flush => some (m.flush, .done)
  | .cleanup _ _ => some (m, .done)

def TTLMempool.serve (m : TTLMempool) : Activity → Option (TTLMempool × Answer)
  | .call now (.addTx tx) =>
    (m.addTx hashTx tx now).map fun outcome => (outcome.1, .added outcome.2)
  | .call _ (.removeTxs hashes) => (m.removeTxs hashes).map fun next => (next, .done)
  | .call now (.reapTxs maxBytes) => some (m, .reaped (m.reapTxs maxBytes now))
  | .call now (.hasTx hash) => some (m, .has (m.hasTx hash now))
  | .call now (.getTx hash) => some (m, .tx (m.getTx hash now))
  | .call _ (.getPriority hash) => some (m, .priority (m.pool.getPriority hash))
  | .call _ .size => some (m, .size m.pool.size)
  | .call _ .sizeBytes => some (m, .sizeBytes m.pool.sizeBytes)
  | .call _ .txHashes => some (m, .txHashes m.pool.txHashes)
  | .call _ .flush => some (m.flush, .done)
  | .cleanup now order => (m.removeExpired now order).map fun outcome => (outcome.1, .done)

/-- Nothing that is stored has expired when an activity begins. -/
def TTLMempool.unexpired (m : TTLMempool) : List Activity → Bool
  | [] => true
  | activity :: rest =>
    decide (m.NoneExpired activity.now) &&
      (m.serve hashTx activity).all fun served => served.1.unexpired rest

end Serve

/-! ## Forgetting the times -/

def MempoolTx.timeless (entry : MempoolTx) : MempoolTx :=
  { entry with addedAt := 0, expiresAt := none }

namespace TxHeap

def timeless (h : TxHeap) : TxHeap := { h with obj := fun p => (h.obj p).timeless }

theorem morphism_timeless : BinaryHeap.Morphism interface interface timeless where
  len _ := rfl
  less _ _ _ := rfl
  swap _ _ _ := rfl
  append _ _ := rfl
  pop _ := rfl

theorem heapPush_timeless (h : TxHeap) (item : Nat) :
    h.timeless.heapPush item = (h.heapPush item).timeless :=
  morphism_timeless.push h item

theorem heapRemove_timeless (h : TxHeap) (i : Int) :
    h.timeless.heapRemove i = (h.heapRemove i).map timeless := by
  rw [heapRemove, heapRemove, morphism_timeless.remove]
  change (if 0 ≤ i ∧ i < h.slots.length then _ else _) = _
  split
  next => rfl
  next => rfl

end TxHeap

namespace Pool

def timeless (m : Pool) : Pool := { m with heap := m.heap.timeless }

theorem txs_timeless (m : Pool) : m.timeless.txs = m.txs := rfl

theorem validator_timeless (m : Pool) : m.timeless.validator = m.validator := rfl

/-- The outcome of an operation without the times. -/
def timelessly {α : Type} (outcome : Option (Pool × α)) : Option (Pool × α) :=
  outcome.map fun result => (result.1.timeless, result.2)

variable {evict : Pool → Int64 → Option (Pool × Bool)} {m : Pool}

theorem evictLowest_timeless (visited : Nat → List Nat) (m : Pool) (newPriority : Int64) :
    evictLowest visited m.timeless newPriority =
      timelessly (evictLowest visited m newPriority) := by
  have remove := m.heap.heapRemove_timeless (lowest m.heap (visited m.heap.slots.length)).1
  simp only [evictLowest]
  change (if m.heap.slots.length = 0 then _ else
    if newPriority ≤ (lowest m.heap (visited m.heap.slots.length)).2 then _ else
      (m.heap.timeless.heapRemove (lowest m.heap (visited m.heap.slots.length)).1).map _) = _
  rw [remove]
  split
  next => rfl
  split
  next => rfl
  next =>
    rw [timelessly, map_map, map_map]
    rfl

/-- An eviction that does not look at the times. -/
def Timeless (evict : Pool → Int64 → Option (Pool × Bool)) : Prop :=
  ∀ m newPriority, evict m.timeless newPriority = timelessly (evict m newPriority)

theorem Timeless.checkCount (evictTimeless : Timeless evict) (priority : Int64) (m : Pool) :
    checkCount evict priority m.timeless = timelessly (checkCount evict priority m) := by
  rw [Pool.checkCount, Pool.checkCount, evictTimeless]
  change (if 0 < m.maxTxs ∧ m.maxTxs ≤ m.size then _ else _) = _
  split
  next => rfl
  next => rfl

theorem Timeless.makeRoom (evictTimeless : Timeless evict) (priority : Int64) (txSize : Int)
    (rounds : Nat) (m : Pool) :
    makeRoom evict priority txSize rounds m.timeless =
      timelessly (makeRoom evict priority txSize rounds m) := by
  induction rounds generalizing m with
  | zero => rfl
  | succ rounds ih =>
    rw [Pool.makeRoom, Pool.makeRoom, evictTimeless]
    change (if 0 < m.maxBytes ∧ m.maxBytes < m.sizeBytes + txSize then _ else _) = _
    split
    next =>
      cases evict m priority with
      | none => rfl
      | some outcome =>
        obtain ⟨left, evicted⟩ := outcome
        cases evicted with
        | false => rfl
        | true => exact ih left
    next => rfl

theorem store_timeless (m : Pool) (entry : MempoolTx) :
    m.timeless.store entry.timeless = (m.store entry).timeless := by
  have allocated : m.timeless.allocated entry.timeless = (m.allocated entry).timeless := by
    have obj : update (fun p => (m.heap.obj p).timeless) m.next entry.timeless =
        fun p => (update m.heap.obj m.next entry p).timeless := by
      funext p
      exact (apply_update (fun _ => MempoolTx.timeless) m.heap.obj m.next entry p).symm
    change TxHeap.mk _ (update (fun p => (m.heap.obj p).timeless) m.next entry.timeless) _
      = _
    rw [obj]
    rfl
  rw [store, allocated]
  change Pool.mk ((m.allocated entry).timeless.heapPush m.next) _ _ _ _ _ _ _ = _
  rw [TxHeap.heapPush_timeless]
  rfl

theorem Timeless.admitEntry (evictTimeless : Timeless evict) (m : Pool) (entry : MempoolTx) :
    m.timeless.admitEntry evict entry.timeless = timelessly (m.admitEntry evict entry) := by
  simp only [Pool.admitEntry]
  change (Pool.checkCount evict entry.priority m.timeless).bind _ = _
  rw [evictTimeless.checkCount]
  cases Pool.checkCount evict entry.priority m with
  | none => rfl
  | some counted =>
    obtain ⟨counted, room⟩ := counted
    cases room with
    | false => rfl
    | true =>
      change (Pool.makeRoom evict entry.priority entry.tx.length
        (counted.heap.slots.length + 1) counted.timeless).bind _ = timelessly
          ((Pool.makeRoom evict entry.priority entry.tx.length
            (counted.heap.slots.length + 1) counted).bind _)
      rw [evictTimeless.makeRoom]
      cases Pool.makeRoom evict entry.priority entry.tx.length
          (counted.heap.slots.length + 1) counted with
      | none => rfl
      | some fitted =>
        obtain ⟨fitted, fits⟩ := fitted
        cases fits with
        | false => rfl
        | true => exact congrArg (fun next => some (next, none)) (store_timeless fitted entry)

theorem Timeless.addTx (evictTimeless : Timeless evict) (m : Pool) (hash tx : Bytes)
    (addedAt : Int) (expiresAt : Option Int) :
    m.timeless.addTx evict hash tx 0 none =
      timelessly (m.addTx evict hash tx addedAt expiresAt) := by
  rw [Pool.addTx, Pool.addTx, txs_timeless, validator_timeless]
  split
  next => rfl
  next =>
    cases m.validator.getD defaultTxValidator tx with
    | some err => rfl
    | none => exact evictTimeless.admitEntry m ⟨hash, tx, m.priorityFunc tx, addedAt, expiresAt⟩

theorem removeTx_timeless (m : Pool) (hashKey : Bytes) :
    m.timeless.removeTx hashKey = (m.removeTx hashKey).map timeless := by
  rw [removeTx, removeTx, txs_timeless]
  cases m.txs.lookup hashKey with
  | none => rfl
  | some mtx =>
    change (m.heap.timeless.heapRemove (m.heap.heapIndex mtx)).map _ = _
    rw [TxHeap.heapRemove_timeless, map_map, map_map]
    rfl

theorem removeTxs_timeless (m : Pool) (hashes : List Bytes) :
    m.timeless.removeTxs hashes = (m.removeTxs hashes).map timeless := by
  induction hashes generalizing m with
  | nil => rfl
  | cons hash rest ih =>
    simp only [removeTxs, List.foldlM_cons, removeTx_timeless] at ih ⊢
    cases m.removeTx hash with
    | none => rfl
    | some next => exact ih next

theorem entryOf_timeless (m : Pool) (hash : Bytes) :
    m.timeless.entryOf hash = (m.entryOf hash).map MempoolTx.timeless := by
  rw [entryOf, entryOf, map_map]
  rfl

theorem getPriority_timeless (m : Pool) (hash : Bytes) :
    m.timeless.getPriority hash = m.getPriority hash := by
  rw [getPriority, getPriority, entryOf_timeless]
  cases m.entryOf hash with
  | none | some => rfl

theorem txHashes_timeless (m : Pool) : m.timeless.txHashes = m.txHashes := by
  simp only [txHashes, entryOf_timeless, map_map]
  rfl

theorem hasTx_timeless (m : Pool) (hash : Bytes) : hasTx m.timeless hash = hasTx m hash := by
  rw [hasTx, hasTx, entryOf_timeless, isSome_map]

theorem getTx_timeless (m : Pool) (hash : Bytes) : getTx m.timeless hash = getTx m hash := by
  rw [getTx, getTx, entryOf_timeless, map_map]
  rfl

theorem reapTxs_timeless (m : Pool) (maxBytes : Int) :
    reapTxs m.timeless maxBytes = reapTxs m maxBytes := by
  have entries : m.timeless.entries = m.entries.map MempoolTx.timeless := by
    rw [entries, entries, List.map_map]
    rfl
  rw [reapTxs_eq, reapTxs_eq, entries, reapFrom, reapFrom]
  simp only [ExchangeSort.exchangeSort_map, Budget.take_map, List.map_map]
  rfl

end Pool

namespace TTLMempool

variable {hashTx : Bytes → Bytes} {m : TTLMempool} {now : Int} (none : m.NoneExpired now)

include none

theorem NoneExpired.hasTx (hash : Bytes) :
    m.hasTx hash now = PriorityMempool.hasTx m.pool hash := by
  rw [TTLMempool.hasTx, PriorityMempool.hasTx]
  cases isEntry : m.pool.entryOf hash with
  | none => rfl
  | some entry => exact noneExpired_iff.mp none entry ⟨hash, isEntry⟩

theorem NoneExpired.getTx (hash : Bytes) :
    m.getTx hash now = PriorityMempool.getTx m.pool hash := by
  rw [TTLMempool.getTx, PriorityMempool.getTx]
  cases isEntry : m.pool.entryOf hash with
  | none => rfl
  | some entry => exact if_pos (noneExpired_iff.mp none entry ⟨hash, isEntry⟩)

theorem NoneExpired.reapTxs (linked : m.pool.Linked hashTx)
    (maxBytes : Int) : m.reapTxs maxBytes now = PriorityMempool.reapTxs m.pool maxBytes := by
  rw [TTLMempool.reapTxs_eq, PriorityMempool.reapTxs_eq, none.filter_live linked]

theorem NoneExpired.removeExpired (order : List Bytes) :
    m.removeExpired now order = some (m, 0) := by
  have notExpired (hashKey : Bytes) : m.isExpired now hashKey = false := by
    by_cases isKey : hashKey ∈ m.pool.txs.keys
    · exact none hashKey isKey
    · have absent : m.pool.txs.lookup hashKey = Option.none :=
        Finmap.lookup_eq_none.mpr fun member => isKey (Finmap.mem_keys.mpr member)
      rw [isExpired, absent]
  have noneListed : order.filter (m.isExpired now) = [] :=
    List.filter_eq_nil_iff.mpr fun hashKey _ => Bool.not_eq_true _ ▸ notExpired hashKey
  rw [TTLMempool.removeExpired, noneListed]
  rfl

end TTLMempool

/-! ## Equal answers -/

/-- The first position is the lowest so far without being visited. -/
theorem Pool.lowest_range (h : TxHeap) {n : Nat} (pos : 0 < n) :
    lowest h (List.range n) = lowest h (List.range' 1 (n - 1)) := by
  obtain ⟨rest, rfl⟩ := Nat.exists_eq_succ_of_ne_zero pos.ne'
  have irrefl : ¬ h.priority 0 < h.priority 0 := Int64.lt_irrefl
  rw [List.range_eq_range', List.range'_succ, lowest, List.foldl_cons, if_neg irrefl]
  rfl

theorem evictLowestLocked_eq : TTLMempool.evictLowestLocked = evictLowestLocked := by
  funext m newPriority
  rw [TTLMempool.evictLowestLocked, evictLowestLocked, evictLowest, evictLowest]
  split
  next => rfl
  next notEmpty => rw [lowest_range m.heap (Nat.pos_of_ne_zero notEmpty)]

section Mirrors

variable {hashTx : Bytes → Bytes} {p : PriorityMempool} {t : TTLMempool}

/-- The two mempools agree up to the times. -/
structure Mirrors (hashTx : Bytes → Bytes) (p : PriorityMempool) (t : TTLMempool) : Prop where
  timeless : p.timeless = t.pool.timeless
  unlimited : t.maxTxSize = 0
  valid : t.pool.Valid hashTx

variable (mirrors : Mirrors hashTx p t)

include mirrors

theorem Mirrors.addTx (tx : Option Bytes) (now : Int) :
    ∃ p' t' err, addTx hashTx p tx now = some (p', err) ∧
      t.addTx hashTx tx now = some (t', err) ∧ Mirrors hashTx p' t' := by
  cases tx with
  | none => exact ⟨p, t, some .invalidTx, rfl, rfl, mirrors⟩
  | some tx =>
    obtain ⟨outcome, isOutcome, valid⟩ :=
      mirrors.valid.addTx evicts_ttlMempool tx now (some (now + t.ttl))
    have evictTimeless : Timeless TTLMempool.evictLowestLocked :=
      Pool.evictLowest_timeless List.range
    have same : Pool.timelessly
        (Pool.addTx TTLMempool.evictLowestLocked p (hashTx tx) tx now none) =
          some (outcome.1.timeless, outcome.2) := by
      rw [← evictTimeless.addTx p (hashTx tx) tx now none, mirrors.timeless,
        evictTimeless.addTx t.pool (hashTx tx) tx now (some (now + t.ttl)), isOutcome]
      rfl
    obtain ⟨⟨p', err⟩, isAdded, isSame⟩ := map_eq_some_iff.mp same
    obtain ⟨timeless, rfl⟩ := Prod.mk.inj isSame
    refine ⟨p', { t with pool := outcome.1 }, outcome.2, ?_, ?_, timeless, mirrors.unlimited,
      valid⟩
    · rw [PriorityMempool.addTx, ← evictLowestLocked_eq]
      exact isAdded
    · rw [TTLMempool.addTx, TTLMempool.addTxWithTTL, mirrors.unlimited,
        if_neg fun large => Int.lt_irrefl 0 large.1, isOutcome]
      rfl

theorem Mirrors.removeTxs (hashes : List Bytes) :
    ∃ p' t', p.removeTxs hashes = some p' ∧ t.removeTxs hashes = some t' ∧
      Mirrors hashTx p' t' := by
  obtain ⟨pool, isPool, valid⟩ := mirrors.valid.removeTxs hashes
  have same : (p.removeTxs hashes).map Pool.timeless = some pool.timeless := by
    rw [← Pool.removeTxs_timeless, mirrors.timeless, Pool.removeTxs_timeless, isPool]
    rfl
  obtain ⟨p', isRemoved, timeless⟩ := map_eq_some_iff.mp same
  refine ⟨p', { t with pool }, isRemoved, ?_, timeless, mirrors.unlimited, valid⟩
  rw [TTLMempool.removeTxs, isPool]
  rfl

theorem Mirrors.read {α : Type} (query : Pool → α)
    (timeless : ∀ m : Pool, query m.timeless = query m) : query p = query t.pool := by
  rw [← timeless p, mirrors.timeless, timeless]

/-- As long as nothing has expired, the mempools give one answer and agree afterwards. -/
theorem Mirrors.serve (activity : Activity) (none : t.NoneExpired activity.now) :
    ∃ p' t' answer, serve hashTx p activity = some (p', answer) ∧
      t.serve hashTx activity = some (t', answer) ∧ Mirrors hashTx p' t' := by
  cases activity with
  | call now call =>
    change t.NoneExpired now at none
    cases call with
    | addTx tx =>
      obtain ⟨p', t', err, isAdded, isAdded', mirrors'⟩ := mirrors.addTx tx now
      refine ⟨p', t', .added err, ?_, ?_, mirrors'⟩
      · rw [PriorityMempool.serve, isAdded]
        rfl
      · rw [TTLMempool.serve, isAdded']
        rfl
    | removeTxs hashes =>
      obtain ⟨p', t', isRemoved, isRemoved', mirrors'⟩ := mirrors.removeTxs hashes
      refine ⟨p', t', .done, ?_, ?_, mirrors'⟩
      · rw [PriorityMempool.serve, isRemoved]
        rfl
      · rw [TTLMempool.serve, isRemoved']
        rfl
    | reapTxs maxBytes =>
      refine ⟨p, t, _, rfl, ?_, mirrors⟩
      rw [TTLMempool.serve, none.reapTxs mirrors.valid.linked,
        mirrors.read (reapTxs · maxBytes) fun m => m.reapTxs_timeless maxBytes]
    | hasTx hash =>
      refine ⟨p, t, _, rfl, ?_, mirrors⟩
      rw [TTLMempool.serve, none.hasTx, mirrors.read (hasTx · hash) fun m => m.hasTx_timeless hash]
    | getTx hash =>
      refine ⟨p, t, _, rfl, ?_, mirrors⟩
      rw [TTLMempool.serve, none.getTx, mirrors.read (getTx · hash) fun m => m.getTx_timeless hash]
    | getPriority hash =>
      refine ⟨p, t, _, rfl, ?_, mirrors⟩
      rw [TTLMempool.serve, mirrors.read (getPriority · hash) fun m => m.getPriority_timeless hash]
    | size =>
      refine ⟨p, t, _, rfl, ?_, mirrors⟩
      rw [TTLMempool.serve, mirrors.read size fun _ => rfl]
    | sizeBytes =>
      refine ⟨p, t, _, rfl, ?_, mirrors⟩
      rw [TTLMempool.serve, mirrors.read sizeBytes fun _ => rfl]
    | txHashes =>
      refine ⟨p, t, _, rfl, ?_, mirrors⟩
      rw [TTLMempool.serve, mirrors.read txHashes txHashes_timeless]
    | flush =>
      refine ⟨p.flush, t.flush, .done, rfl, rfl, ?_, mirrors.unlimited, valid_of_empty rfl rfl rfl⟩
      exact congrArg flush mirrors.timeless
  | cleanup now order =>
    change t.NoneExpired now at none
    refine ⟨p, t, .done, rfl, ?_, mirrors⟩
    rw [TTLMempool.serve, none.removeExpired]
    rfl

theorem Mirrors.answers (activities : List Activity)
    (unexpired : t.unexpired hashTx activities = true) :
    ∃ results, answers (PriorityMempool.serve hashTx) p activities = some results ∧
      answers (TTLMempool.serve hashTx) t activities = some results := by
  induction activities generalizing p t with
  | nil => exact ⟨[], rfl, rfl⟩
  | cons activity rest ih =>
    rw [TTLMempool.unexpired, Bool.and_eq_true, decide_eq_true_eq] at unexpired
    obtain ⟨p', t', answer, isServed, isServed', mirrors'⟩ := mirrors.serve activity unexpired.1
    rw [isServed', all_some] at unexpired
    obtain ⟨results, isResults, isResults'⟩ := ih mirrors' unexpired.2
    refine ⟨answer :: results, ?_, ?_⟩
    · rw [Mempool.answers, isServed, bind_some, isResults, map_some]
    · rw [Mempool.answers, isServed', bind_some, isResults', map_some]

end Mirrors

/-- With the same limits, priorities and validator, no limit for single transactions and nothing
expiring, both mempools give the same answers to every sequence of calls. -/
theorem answers_eq_of_unexpired (hashTx : Bytes → Bytes) (maxTxs maxBytes ttl : Int)
    (priorityFunc : Option PriorityFunc) (validator : Option TxValidator)
    (activities : List Activity)
    (unexpired : ((TTLMempool.new ⟨maxTxs, maxBytes, 0, ttl, priorityFunc⟩).setTxValidator
      validator).unexpired hashTx activities = true) :
    ∃ results,
      answers (PriorityMempool.serve hashTx)
        ((PriorityMempool.new ⟨maxTxs, maxBytes, priorityFunc⟩).setTxValidator validator)
        activities = some results ∧
      answers (TTLMempool.serve hashTx)
        ((TTLMempool.new ⟨maxTxs, maxBytes, 0, ttl, priorityFunc⟩).setTxValidator validator)
        activities = some results :=
  Mirrors.answers ⟨rfl, rfl, valid_of_empty rfl rfl rfl⟩ activities unexpired

/-- Three transactions for two places: the one of the lowest priority gives way in both. -/
theorem answers_eq_of_unexpired_full :
    ∃ results,
      answers (PriorityMempool.serve id)
        ((PriorityMempool.new ⟨2, 0, some fun tx => Int64.ofNat tx.length⟩).setTxValidator
          (some fun _ => none))
        [.call 0 (.addTx (some [1])), .call 1 (.addTx (some [1, 2])), .cleanup 2 [[1], [1, 2]],
          .call 3 (.addTx (some [1, 2, 3])), .call 4 (.reapTxs 0)] = some results ∧
      answers (TTLMempool.serve id)
        ((TTLMempool.new ⟨2, 0, 0, 10, some fun tx => Int64.ofNat tx.length⟩).setTxValidator
          (some fun _ => none))
        [.call 0 (.addTx (some [1])), .call 1 (.addTx (some [1, 2])), .cleanup 2 [[1], [1, 2]],
          .call 3 (.addTx (some [1, 2, 3])), .call 4 (.reapTxs 0)] = some results :=
  answers_eq_of_unexpired id 2 0 10 _ _ _ (by decide +kernel)

end Blockberry.Mempool
