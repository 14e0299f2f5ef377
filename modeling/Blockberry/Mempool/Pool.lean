import Blockberry.Lib.FiniteMap
import Blockberry.Mempool.TxHeap

/-!
# Mempools ordered by priority

`PriorityMempool` and `TTLMempool` keep their transactions in a map and in a heap of the same
entries, and count the bytes. The state that they share is `Pool`. `none` is the panic of
`heap.Remove` for an index out of range. Sizes are integers: the transactions held have less than
2^63 bytes.
-/

namespace Blockberry.Mempool

inductive AddError where
  | invalidTx
  | txTooLarge
  | txAlreadyExists
  | noTxValidator
  | rejected (reason : String)
  | mempoolFull
  deriving DecidableEq, Repr

abbrev PriorityFunc := Bytes → Int64

def defaultPriorityFunc : PriorityFunc := fun _ => 0

abbrev TxValidator := Bytes → Option AddError

def defaultTxValidator : TxValidator := fun _ => some .noTxValidator

/-- What the mempools have in common. `next` is the address of the next entry. -/
structure Pool where
  heap : TxHeap
  txs : Finmap fun _ : Bytes => Nat
  next : Nat
  sizeBytes : Int
  maxTxs : Int
  maxBytes : Int
  priorityFunc : PriorityFunc
  validator : Option TxValidator

namespace Pool

def new (maxTxs maxBytes : Int) (priorityFunc : Option PriorityFunc) : Pool where
  heap := TxHeap.new
  txs := ∅
  next := 0
  sizeBytes := 0
  maxTxs := maxTxs
  maxBytes := maxBytes
  priorityFunc := priorityFunc.getD defaultPriorityFunc
  validator := none

def size (m : Pool) : Nat := m.txs.keys.card

/-- The first of the lowest priorities, with its position. -/
def lowest (h : TxHeap) (visited : List Nat) : Nat × Int64 :=
  visited.foldl (fun low i => if h.priority i < low.2 then (i, h.priority i) else low)
    (0, h.priority 0)

/-- The eviction of both mempools, which differ in the positions that the loop visits. -/
def evictLowest (visited : Nat → List Nat) (m : Pool) (newPriority : Int64) :
    Option (Pool × Bool) :=
  if m.heap.slots.length = 0 then some (m, false)
  else
    let low := lowest m.heap (visited m.heap.slots.length)
    if newPriority ≤ low.2 then some (m, false)
    else
      let evicted := m.heap.obj (m.heap.ptr low.1)
      (m.heap.heapRemove low.1).map fun heap =>
        ({ m with heap
                  txs := m.txs.erase evicted.hash
                  sizeBytes := m.sizeBytes - evicted.tx.length }, true)

variable (evict : Pool → Int64 → Option (Pool × Bool))

/-- The check of the number of transactions. The result says whether there is room. -/
def checkCount (priority : Int64) (m : Pool) : Option (Pool × Bool) :=
  if 0 < m.maxTxs ∧ m.maxTxs ≤ m.size then evict m priority else some (m, true)

/-- The loop for the limit of bytes. The result says whether the transaction fits. -/
def makeRoom (evict : Pool → Int64 → Option (Pool × Bool)) (priority : Int64) (txSize : Int) :
    Nat → Pool → Option (Pool × Bool)
  | 0, m => some (m, true)
  | rounds + 1, m =>
    if 0 < m.maxBytes ∧ m.maxBytes < m.sizeBytes + txSize then
      (evict m priority).bind fun outcome =>
        if outcome.2 then makeRoom evict priority txSize rounds outcome.1
        else some (outcome.1, false)
    else some (m, true)

variable (m : Pool)

/-- The heap with a new entry in memory. -/
def allocated (entry : MempoolTx) : TxHeap :=
  { m.heap with obj := Function.update m.heap.obj m.next entry
                heapIndex := Function.update m.heap.heapIndex m.next 0 }

def store (entry : MempoolTx) : Pool :=
  { m with heap := (m.allocated entry).heapPush m.next
           txs := m.txs.insert entry.hash m.next
           next := m.next + 1
           sizeBytes := m.sizeBytes + entry.tx.length }

/-- The limits, and the insertion. -/
def admitEntry (entry : MempoolTx) :
    Option (Pool × Option AddError) := do
  let counted ← checkCount evict entry.priority m
  if counted.2 = false then some (counted.1, some .mempoolFull)
  else
    let fitted ← makeRoom evict entry.priority entry.tx.length
      (counted.1.heap.slots.length + 1) counted.1
    if fitted.2 = false then some (fitted.1, some .mempoolFull)
    else some (fitted.1.store entry, none)

/-- Adding a transaction, from the check whether it exists. -/
def addTx (hash tx : Bytes)
    (addedAt : Int) (expiresAt : Option Int) : Option (Pool × Option AddError) :=
  if hash ∈ m.txs then some (m, some .txAlreadyExists)
  else
    match m.validator.getD defaultTxValidator tx with
    | some err => some (m, some err)
    | none => m.admitEntry evict ⟨hash, tx, m.priorityFunc tx, addedAt, expiresAt⟩

def removeTx (hashKey : Bytes) : Option Pool :=
  match m.txs.lookup hashKey with
  | none => some m
  | some mtx =>
    (m.heap.heapRemove (m.heap.heapIndex mtx)).map fun heap =>
      { m with heap
               txs := m.txs.erase hashKey
               sizeBytes := m.sizeBytes - (m.heap.obj mtx).tx.length }

def removeTxs (hashes : List Bytes) : Option Pool := hashes.foldlM removeTx m

def flush : Pool :=
  { m with heap := { m.heap with slots := [] }, txs := ∅, sizeBytes := 0 }

def setPriorityFunc (fn : Option PriorityFunc) : Pool :=
  { m with priorityFunc := fn.getD defaultPriorityFunc }

def setTxValidator (validator : Option TxValidator) : Pool :=
  { m with validator := validator }

end Pool

abbrev PriorityMempool := Pool

namespace PriorityMempool

structure Config where
  maxTxs : Int
  maxBytes : Int
  priorityFunc : Option PriorityFunc

def new (cfg : Config) : PriorityMempool := Pool.new cfg.maxTxs cfg.maxBytes cfg.priorityFunc

def evictLowestLocked : PriorityMempool → Int64 → Option (PriorityMempool × Bool) :=
  Pool.evictLowest fun n => List.range' 1 (n - 1)

variable (hashTx : Bytes → Bytes)

def addTx (m : PriorityMempool) (tx : Option Bytes) (now : Int) :
    Option (PriorityMempool × Option AddError) :=
  match tx with
  | none => some (m, some .invalidTx)
  | some tx => Pool.addTx evictLowestLocked m (hashTx tx) tx now none

inductive Op where
  | addTx (tx : Option Bytes) (now : Int)
  | removeTxs (hashes : List Bytes)
  | setPriorityFunc (fn : Option PriorityFunc)
  | setTxValidator (validator : Option TxValidator)
  | flush

def step (m : PriorityMempool) : Op → Option PriorityMempool
  | .addTx tx now => (addTx hashTx m tx now).map Prod.fst
  | .removeTxs hashes => m.removeTxs hashes
  | .setPriorityFunc fn => some (m.setPriorityFunc fn)
  | .setTxValidator validator => some (m.setTxValidator validator)
  | .flush => some m.flush

/-- A mempool after calls, unless one of them panics. -/
def run (cfg : Config) (ops : List Op) : Option PriorityMempool :=
  ops.foldlM (step hashTx) (new cfg)

end PriorityMempool

def Pool.reexpire (m : Pool) (mtx : Nat) (expiresAt : Option Int) : Pool :=
  { m with heap := { m.heap with
      obj := Function.update m.heap.obj mtx { m.heap.obj mtx with expiresAt } } }

/-- `TTLMempool` without the goroutine that calls `removeExpired`. -/
structure TTLMempool where
  pool : Pool
  maxTxSize : Int
  ttl : Int

namespace TTLMempool

structure Config where
  maxTxs : Int
  maxBytes : Int
  maxTxSize : Int
  ttl : Int
  priorityFunc : Option PriorityFunc

/-- Thirty minutes, in nanoseconds. -/
def defaultTTL : Int := 30 * 60 * 1000000000

def new (cfg : Config) : TTLMempool where
  pool := Pool.new cfg.maxTxs cfg.maxBytes cfg.priorityFunc
  maxTxSize := cfg.maxTxSize
  ttl := if cfg.ttl ≤ 0 then defaultTTL else cfg.ttl

def evictLowestLocked : Pool → Int64 → Option (Pool × Bool) := Pool.evictLowest List.range

variable (hashTx : Bytes → Bytes)

variable (m : TTLMempool)

def addTxWithTTL (tx : Option Bytes) (ttl now : Int) : Option (TTLMempool × Option AddError) :=
  match tx with
  | none => some (m, some .invalidTx)
  | some tx =>
    if 0 < m.maxTxSize ∧ m.maxTxSize < tx.length then some (m, some .txTooLarge)
    else
      (m.pool.addTx evictLowestLocked (hashTx tx) tx now (some (now + ttl))).map fun outcome =>
        ({ m with pool := outcome.1 }, outcome.2)

def addTx (tx : Option Bytes) (now : Int) : Option (TTLMempool × Option AddError) :=
  m.addTxWithTTL hashTx tx m.ttl now

/-- `now.After(mtx.expiresAt)` for the entry under a key. -/
def isExpired (now : Int) (hashKey : Bytes) : Bool :=
  match m.pool.txs.lookup hashKey with
  | none => false
  | some mtx => (m.pool.heap.obj mtx).expiresAt.any fun expiresAt => expiresAt < now

/-- The loop over the map visits its keys in some order. The number of expired
transactions is returned. -/
def removeExpired (now : Int) (order : List Bytes) : Option (TTLMempool × Nat) :=
  let expired := order.filter (m.isExpired now)
  (m.pool.removeTxs expired).map fun pool => ({ m with pool }, expired.length)

def removeTxs (m : TTLMempool) (hashes : List Bytes) : Option TTLMempool :=
  (m.pool.removeTxs hashes).map fun pool => { m with pool }

def flush (m : TTLMempool) : TTLMempool := { m with pool := m.pool.flush }

def setTxValidator (m : TTLMempool) (validator : Option TxValidator) : TTLMempool :=
  { m with pool := m.pool.setTxValidator validator }

def setTTL (hash : Bytes) (expiresAt : Int) : TTLMempool × Bool :=
  match m.pool.txs.lookup hash with
  | none => (m, false)
  | some mtx => ({ m with pool := m.pool.reexpire mtx (some expiresAt) }, true)

def extendTTL (hash : Bytes) (extension : Int) : TTLMempool × Bool :=
  match m.pool.txs.lookup hash with
  | none => (m, false)
  | some mtx =>
    let expiresAt := (m.pool.heap.obj mtx).expiresAt.map fun expiresAt => expiresAt + extension
    ({ m with pool := m.pool.reexpire mtx expiresAt }, true)

inductive Op where
  | addTx (tx : Option Bytes) (now : Int)
  | addTxWithTTL (tx : Option Bytes) (ttl now : Int)
  | removeTxs (hashes : List Bytes)
  | removeExpired (now : Int) (order : List Bytes)
  | setTTL (hash : Bytes) (expiresAt : Int)
  | extendTTL (hash : Bytes) (extension : Int)
  | setTxValidator (validator : Option TxValidator)
  | flush

def step : Op → Option TTLMempool
  | .addTx tx now => (m.addTx hashTx tx now).map Prod.fst
  | .addTxWithTTL tx ttl now => (m.addTxWithTTL hashTx tx ttl now).map Prod.fst
  | .removeTxs hashes => m.removeTxs hashes
  | .removeExpired now order => (m.removeExpired now order).map Prod.fst
  | .setTTL hash expiresAt => some (m.setTTL hash expiresAt).1
  | .extendTTL hash extension => some (m.extendTTL hash extension).1
  | .setTxValidator validator => some (m.setTxValidator validator)
  | .flush => some m.flush

/-- A mempool after calls, unless one of them panics. -/
def run (cfg : Config) (ops : List Op) : Option TTLMempool :=
  ops.foldlM (step hashTx) (new cfg)

end TTLMempool

end Blockberry.Mempool
