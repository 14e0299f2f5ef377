import Blockberry.Lib.Removal
import Blockberry.Mempool.Reaping

/-!
# First in, first out

With `DefaultPriorityFunc` all priorities are equal, which is meant to make a `PriorityMempool` a
queue. The heap is then an unsorted list in which the last transaction takes the place of one that
is removed, so the order is kept as long as only the two most recent ones are removed.
-/

namespace Blockberry.Mempool

open Removal Budget PriorityMempool List Function

namespace TxHeap

variable {h : TxHeap} (equal : ∀ p, (h.obj p).priority = 0)

include equal

theorem flat_of_equal : BinaryHeap.Flat interface h := by
  intro i j
  change decide (h.priority j < h.priority i) = false
  rw [priority, priority, equal, equal]
  exact decide_eq_false Int64.lt_irrefl

theorem heapPush_of_equal (item : Nat) : h.heapPush item = h.push item :=
  (flat_of_equal (h := h.push item) equal).push

theorem slots_remove_of_equal {i : Nat} (inside : i < h.slots.length) :
    (BinaryHeap.remove interface h i).slots = swapRemove h.slots i := by
  have flat := flat_of_equal (h := h.swap i (h.slots.length - 1)) equal
  rw [BinaryHeap.Flat.remove flat]
  change (if h.slots.length - 1 = i then h else h.swap i (h.slots.length - 1)).slots.dropLast = _
  have nonempty : h.slots ≠ [] := ne_nil_of_length_pos (Nat.zero_lt_of_lt inside)
  have last : h.slots.getLast? = some (h.ptr (h.slots.length - 1)) := by
    rw [List.getLast?_eq_some_getLast nonempty, getLast_eq_getElem, ptr_eq]
  rw [swapRemove_of_getLast? last]
  split
  next isLast => rw [isLast, ptr_eq inside, set_getElem_self]
  next notLast =>
    change ((h.slots.set i _).set (h.slots.length - 1) _).dropLast = _
    rw [dropLast_eq_take, dropLast_eq_take, length_set, length_set, take_set_of_le (Nat.le_refl _)]

end TxHeap

open TxHeap

namespace Pool

variable {hashTx : Bytes → Bytes} {m : Pool} {queue : List Bytes} {i : Nat}

/-- A pool that gives all transactions the same priority. -/
structure Steady (hashTx : Bytes → Bytes) (m : Pool) : Prop where
  valid : m.Valid hashTx
  constant : m.priorityFunc = defaultPriorityFunc
  equal : ∀ p, (m.heap.obj p).priority = 0

def heldTxs (m : Pool) : List Bytes := m.entries.map MempoolTx.tx

variable (steady : Steady hashTx m)

include steady

variable {entry : MempoolTx}

theorem Steady.equal_allocated
    (isZero : entry.priority = 0) (p : Nat) : ((m.allocated entry).obj p).priority = 0 := by
  change (update m.heap.obj m.next entry p).priority = 0
  by_cases isNew : p = m.next
  · rw [isNew, update_self, isZero]
  · rw [update_of_ne isNew, steady.equal]

theorem Steady.heldTxs_store
    (isZero : entry.priority = 0) : (m.store entry).heldTxs = m.heldTxs ++ [entry.tx] := by
  have old : m.heap.slots.map (update m.heap.obj m.next entry) = m.entries :=
    map_congr_left fun p member => steady.valid.linked.obj_allocated member
  have pushed : (m.store entry).heap = (m.allocated entry).push m.next :=
    heapPush_of_equal (steady.equal_allocated isZero) m.next
  rw [heldTxs, entries, pushed]
  change ((m.heap.slots ++ [m.next]).map (update m.heap.obj m.next entry)).map _ = _
  rw [map_append, old, map_append, map_singleton, map_singleton, update_self]
  rfl

theorem Steady.heldTxs_drop (inside : i < m.heap.slots.length) :
    (m.drop i).heldTxs = swapRemove m.heldTxs i := by
  have slots : (m.drop i).heap.slots = swapRemove m.heap.slots i :=
    slots_remove_of_equal steady.equal inside
  rw [heldTxs, entries, slots, steady.valid.linked.obj_drop inside, ← swapRemove_map,
    ← swapRemove_map]
  rfl

theorem Steady.drop (inside : i < m.heap.slots.length) : Steady hashTx (m.drop i) where
  valid := steady.valid.drop inside
  constant := steady.constant
  equal p := by
    rw [steady.valid.linked.obj_drop inside]
    exact steady.equal p

omit steady

theorem Evicts.evict_eq {evict : Pool → Int64 → Option (Pool × Bool)} (evicts : Evicts evict)
    (equal : ∀ p, (m.heap.obj p).priority = 0) : evict m 0 = some (m, false) := by
  rcases evicts m 0 with unchanged | ⟨i, -, lower, -⟩
  · exact unchanged.1
  · rw [priority, equal] at lower
    exact absurd lower Int64.lt_irrefl

theorem Evicts.admitEntry_cases {evict : Pool → Int64 → Option (Pool × Bool)}
    (evicts : Evicts evict) (equal : ∀ p, (m.heap.obj p).priority = 0)
    (isZero : entry.priority = 0) :
    m.admitEntry evict entry = some (m.store entry, none) ∨
      m.admitEntry evict entry = some (m, some .mempoolFull) := by
  have noEviction : evict m entry.priority = some (m, false) := by
    rw [isZero]
    exact evicts.evict_eq equal
  have counted : ∃ room, checkCount evict entry.priority m = some (m, room) := by
    rw [checkCount]
    split
    next => exact ⟨false, noEviction⟩
    next => exact ⟨true, rfl⟩
  have fitted : ∃ fits, makeRoom evict entry.priority entry.tx.length
      (m.heap.slots.length + 1) m = some (m, fits) := by
    rw [makeRoom, noEviction]
    split
    next => exact ⟨false, rfl⟩
    next => exact ⟨true, rfl⟩
  obtain ⟨room, isCounted⟩ := counted
  obtain ⟨fits, isFitted⟩ := fitted
  rw [admitEntry_eq isCounted isFitted]
  cases room with
  | false => exact .inr rfl
  | true =>
    cases fits with
    | false => exact .inr rfl
    | true => exact .inl rfl

theorem Steady.addTx_cases (steady : Steady hashTx m) (tx : Option Bytes) (now : Int) :
    (∃ added next, tx = some added ∧
        PriorityMempool.addTx hashTx m tx now = some (next, none) ∧ Steady hashTx next ∧
        next.heldTxs = m.heldTxs ++ [added]) ∨
      ∃ err, PriorityMempool.addTx hashTx m tx now = some (m, some err) := by
  cases tx with
  | none => exact .inr ⟨_, rfl⟩
  | some tx =>
    obtain ⟨outcome, isOutcome, valid⟩ :=
      steady.valid.addTx evicts_priorityMempool tx now none
    rw [PriorityMempool.addTx]
    rw [Pool.addTx] at isOutcome ⊢
    split
    next => exact .inr ⟨_, rfl⟩
    next fresh =>
      rw [if_neg fresh] at isOutcome
      split
      next err _ => exact .inr ⟨err, rfl⟩
      next accepted =>
        have isZero : m.priorityFunc tx = 0 := by
          rw [steady.constant]
          rfl
        rw [accepted] at isOutcome
        have admitted := evicts_priorityMempool.admitEntry_cases steady.equal
          (show (⟨hashTx tx, tx, m.priorityFunc tx, now, none⟩ : MempoolTx).priority = 0
            from isZero)
        rcases admitted with stored | full
        · left
          refine ⟨tx, _, rfl, stored, ⟨?_, steady.constant, ?_⟩, steady.heldTxs_store isZero⟩
          · cases stored.symm.trans isOutcome
            exact valid
          · intro p
            rw [steady.valid.linked.obj_store]
            exact steady.equal_allocated isZero p
        · exact .inr ⟨_, full⟩

theorem Linked.nodup_hashes (linked : Linked hashTx m) : (m.heldTxs.map hashTx).Nodup := by
  have hashes : m.heldTxs.map hashTx = m.heap.slots.map fun p => (m.heap.obj p).hash := by
    rw [heldTxs, entries, map_map, map_map]
    exact map_congr_left fun p member => (linked.hashed p member).symm
  rw [hashes]
  exact linked.sound.nodup.map_on fun p inSlots q inSlots' same =>
    linked.hash_inj inSlots inSlots' same

end Pool

/-- What is left of a queue after a removal by hashes. -/
def remaining (hashTx : Bytes → Bytes) (queue hashes : List Bytes) : List Bytes :=
  queue.filter fun tx => !hashes.contains (hashTx tx)

/-- Only one of the two most recent transactions may have the hash. -/
def Recent (hashTx : Bytes → Bytes) (queue : List Bytes) (hash : Bytes) : Prop :=
  ∀ tx ∈ queue.take (queue.length - 2), hashTx tx ≠ hash

/-- Each removal is one of a recent transaction. -/
def AllRecent (hashTx : Bytes → Bytes) : List Bytes → List Bytes → Prop
  | _, [] => True
  | queue, hash :: rest =>
    Recent hashTx queue hash ∧ AllRecent hashTx (remaining hashTx queue [hash]) rest

section Queues

variable {hashTx : Bytes → Bytes} {queue : List Bytes} {i : Nat}

theorem remaining_singleton (hashTx : Bytes → Bytes) (queue : List Bytes) (hash : Bytes) :
    remaining hashTx queue [hash] = queue.filter fun tx => hashTx tx != hash := by
  rw [remaining]
  congr 1
  funext tx
  simp only [contains_cons, contains_nil, Bool.or_false, bne]

theorem remaining_cons (hashTx : Bytes → Bytes) (queue : List Bytes) (hash : Bytes)
    (rest : List Bytes) :
    remaining hashTx queue (hash :: rest) =
      remaining hashTx (remaining hashTx queue [hash]) rest := by
  rw [remaining_singleton]
  exact filter_not_contains_cons hashTx queue hash rest

theorem recent_iff (nodup : (queue.map hashTx).Nodup) (inside : i < queue.length) :
    Recent hashTx queue (hashTx queue[i]) ↔ queue.length ≤ i + 2 := by
  constructor
  · intro recent
    by_contra older
    refine recent queue[i] ?_ rfl
    exact mem_take_iff_getElem.mpr ⟨i, by omega, rfl⟩
  · intro late tx inFront same
    obtain ⟨j, early, rfl⟩ := mem_take_iff_getElem.mp inFront
    have sameTx := inj_on_of_nodup_map nodup (getElem_mem _) (getElem_mem inside) same
    have samePosition := (nodup.of_map hashTx).getElem_inj_iff.mp sameTx
    omega

end Queues

namespace Pool

variable {hashTx : Bytes → Bytes} {m : Pool} (steady : Steady hashTx m)

include steady

/-- One removal from a pool in order leaves it in order if and only if it is a recent one. -/
theorem Steady.removeTx (hash : Bytes) : ∃ next, m.removeTx hash = some next ∧ Steady hashTx next ∧
      (next.heldTxs = remaining hashTx m.heldTxs [hash] ↔ Recent hashTx m.heldTxs hash) := by
  have linked := steady.valid.linked
  by_cases held : ∃ tx ∈ m.heldTxs, hashTx tx = hash
  · obtain ⟨tx, isHeld, rfl⟩ := held
    obtain ⟨i, inside, rfl⟩ := getElem_of_mem isHeld
    have inSlots : i < m.heap.slots.length := by simpa [heldTxs, entries] using inside
    have isEntry : m.heldTxs[i] = (m.heap.obj (m.heap.ptr i)).tx := by
      simp [heldTxs, entries, ptr_eq inSlots]
    refine ⟨m.drop i, ?_, steady.drop inSlots, ?_⟩
    · rw [isEntry, ← linked.hashed _ (ptr_mem inSlots)]
      exact linked.removeTx_eq_drop inSlots
    · rw [steady.heldTxs_drop inSlots, remaining_singleton,
        filter_key_eq_eraseIdx linked.nodup_hashes inside, recent_iff linked.nodup_hashes inside]
      exact swapRemove_eq_eraseIdx_iff (linked.nodup_hashes.of_map hashTx) inside
  · have absent : ∀ tx ∈ m.heldTxs, hashTx tx ≠ hash := fun tx isHeld same =>
      held ⟨tx, isHeld, same⟩
    have notStored : m.txs.lookup hash = none := by
      refine Option.eq_none_iff_forall_ne_some.mpr ?_
      intro p found
      obtain ⟨inSlots, isHash⟩ := (linked.lookup_iff hash p).mp found
      refine absent (m.heap.obj p).tx ?_ ((linked.hashed p inSlots).symm.trans isHash)
      exact mem_map_of_mem (mem_map_of_mem inSlots)
    refine ⟨m, ?_, steady, ?_⟩
    · rw [Pool.removeTx, notStored]
    · rw [remaining_singleton, filter_key_eq_self absent]
      exact iff_of_true rfl fun tx inFront => absent tx (mem_of_mem_take inFront)

theorem Steady.removeTxs (hashes : List Bytes) :
    ∃ next, m.removeTxs hashes = some next ∧ Steady hashTx next ∧
      (AllRecent hashTx m.heldTxs hashes → next.heldTxs = remaining hashTx m.heldTxs hashes) := by
  induction hashes generalizing m with
  | nil => exact ⟨m, rfl, steady, fun _ => (filter_eq_self.mpr fun _ _ => rfl).symm⟩
  | cons hash rest ih =>
    obtain ⟨next, isRemoved, steadyNext, inOrder⟩ := steady.removeTx hash
    obtain ⟨last, isLast, steadyLast, inOrderLast⟩ := ih steadyNext
    refine ⟨last, ?_, steadyLast, ?_⟩
    · rw [Pool.removeTxs, foldlM_cons, isRemoved]
      exact isLast
    · rintro ⟨recent, later⟩
      rw [inOrder.mpr recent] at inOrderLast
      rw [remaining_cons]
      exact inOrderLast later

/-- With a limit that suffices, everything is reaped in the order of the heap. -/
theorem Steady.reapTxs {maxBytes : Int}
    (sufficient : Fits (fun tx : Bytes => (tx.length : Int)) (m.reapLimit maxBytes) m.heldTxs) :
    reapTxs m maxBytes = m.heldTxs := by
  have inOrder : ExchangeSort.InOrder (fun mtx : MempoolTx => mtx.priority.toInt) m.entries := by
    refine pairwise_of_forall_mem_list ?_
    intro first isFirst second isSecond
    obtain ⟨p, -, rfl⟩ := mem_map.mp isFirst
    obtain ⟨q, -, rfl⟩ := mem_map.mp isSecond
    change (m.heap.obj q).priority.toInt ≤ (m.heap.obj p).priority.toInt
    rw [steady.equal, steady.equal]
  have fits : Fits (fun mtx : MempoolTx => (mtx.tx.length : Int)) (m.reapLimit maxBytes)
      m.entries := by
    rw [Fits, total, heldTxs, map_map] at sufficient
    exact sufficient
  rw [reapTxs_eq, reapFrom, ExchangeSort.exchangeSort_of_inOrder inOrder,
    take_of_fits (fun mtx => Int.natCast_nonneg _) fits]
  rfl

end Pool

/-- A mempool, and the transactions that it holds in the order in which they were added. -/
structure Tracked where
  mempool : PriorityMempool
  queue : List Bytes

inductive QueueCall where
  | addTx (tx : Option Bytes) (now : Int)
  | removeTxs (hashes : List Bytes)

def QueueCall.op : QueueCall → PriorityMempool.Op
  | .addTx tx now => .addTx tx now
  | .removeTxs hashes => .removeTxs hashes

/-- No removal by several hashes. -/
def QueueCall.Single : QueueCall → Prop
  | .addTx _ _ => True
  | .removeTxs hashes => hashes.length ≤ 1

namespace Tracked

variable (hashTx : Bytes → Bytes)

def new (maxTxs maxBytes : Int) (validator : Option TxValidator) : Tracked :=
  ⟨(PriorityMempool.new ⟨maxTxs, maxBytes, none⟩).setTxValidator validator, []⟩

/-- The queue after a call: an added transaction is the last one, removed ones are left out. -/
def queueAfter (s : Tracked) : QueueCall → List Bytes
  | .addTx tx now =>
    match PriorityMempool.addTx hashTx s.mempool tx now with
    | some (_, none) => s.queue ++ tx.toList
    | _ => s.queue
  | .removeTxs hashes => remaining hashTx s.queue hashes

/-- A call. None of them panics. -/
def next (s : Tracked) (call : QueueCall) : Tracked :=
  ⟨(PriorityMempool.step hashTx s.mempool call.op).getD s.mempool, s.queueAfter hashTx call⟩

/-- A limit that suffices for everything held lets `ReapTxs` return it in the order of
addition. -/
def FirstIn (s : Tracked) : Prop :=
  ∀ maxBytes, Fits (fun tx : Bytes => (tx.length : Int)) (s.mempool.reapLimit maxBytes) s.queue →
    s.mempool.reapTxs maxBytes = s.queue

/-- A call removes only transactions that are among the two most recent ones. -/
def RemovesRecent (s : Tracked) : QueueCall → Prop
  | .addTx _ _ => True
  | .removeTxs hashes => AllRecent hashTx s.queue hashes

variable {hashTx} {s : Tracked}

theorem firstIn_iff (steady : s.mempool.Steady hashTx) :
    s.FirstIn ↔ s.mempool.heldTxs = s.queue := by
  constructor
  · intro firstIn
    have nonneg (txs : List Bytes) : 0 ≤ total (fun tx : Bytes => (tx.length : Int)) txs :=
      total_nonneg (fun tx => Int.natCast_nonneg _) txs
    have heldBytes := nonneg s.mempool.heldTxs
    have queueBytes := nonneg s.queue
    let maxBytes := total (fun tx : Bytes => (tx.length : Int)) s.mempool.heldTxs +
      total (fun tx : Bytes => (tx.length : Int)) s.queue + 1
    have limit : s.mempool.reapLimit maxBytes = maxBytes := if_neg (by omega)
    rw [← firstIn maxBytes (fun _ => by rw [limit]; omega)]
    exact (steady.reapTxs fun _ => by rw [limit]; omega).symm
  · intro inOrder maxBytes sufficient
    rw [← inOrder] at sufficient ⊢
    exact steady.reapTxs sufficient

/-- The mempool gives all transactions the same priority and holds them in order. -/
structure Queued (hashTx : Bytes → Bytes) (s : Tracked) : Prop where
  steady : s.mempool.Steady hashTx
  inOrder : s.mempool.heldTxs = s.queue

theorem queued_new (hashTx : Bytes → Bytes) (maxTxs maxBytes : Int)
    (validator : Option TxValidator) : Queued hashTx (new maxTxs maxBytes validator) where
  steady := ⟨Pool.valid_of_empty rfl rfl rfl, rfl, fun _ => rfl⟩
  inOrder := rfl

variable (queued : Queued hashTx s)

include queued

theorem Queued.addTx (tx : Option Bytes) (now : Int) :
    Queued hashTx (s.next hashTx (.addTx tx now)) := by
  rcases queued.steady.addTx_cases tx now with ⟨added, next, rfl, isAdded, steady, held⟩ |
    ⟨err, isAdded⟩
  · have isNext : s.next hashTx (.addTx (some added) now) = ⟨next, s.queue ++ [added]⟩ := by
      simp only [Tracked.next, QueueCall.op, step, queueAfter, isAdded]
      rfl
    rw [isNext]
    exact ⟨steady, held.trans (congrArg (· ++ [added]) queued.inOrder)⟩
  · have isNext : s.next hashTx (.addTx tx now) = s := by
      simp only [Tracked.next, QueueCall.op, step, queueAfter, isAdded]
      rfl
    rw [isNext]
    exact queued

theorem Queued.removeTxs {hashes : List Bytes} (recent : AllRecent hashTx s.queue hashes) :
    Queued hashTx (s.next hashTx (.removeTxs hashes)) := by
  obtain ⟨next, isRemoved, steady, inOrder⟩ := queued.steady.removeTxs hashes
  have isNext : s.next hashTx (.removeTxs hashes) = ⟨next, remaining hashTx s.queue hashes⟩ := by
    simp only [Tracked.next, QueueCall.op, step, isRemoved]
    rfl
  rw [isNext]
  rw [queued.inOrder] at inOrder
  exact ⟨steady, inOrder recent⟩

theorem Queued.next {call : QueueCall}
    (recent : s.RemovesRecent hashTx call) : Queued hashTx (s.next hashTx call) := by
  cases call with
  | addTx tx now => exact queued.addTx tx now
  | removeTxs hashes => exact queued.removeTxs recent

theorem Queued.firstIn : s.FirstIn := (firstIn_iff queued.steady).mpr queued.inOrder

/-- A single removal keeps the order only of a recent transaction. -/
theorem Queued.firstIn_next_iff {call : QueueCall}
    (single : call.Single) : (s.next hashTx call).FirstIn ↔ s.RemovesRecent hashTx call := by
  constructor
  · intro firstIn
    cases call with
    | addTx tx now => trivial
    | removeTxs hashes =>
      match hashes, single with
      | [], _ => trivial
      | [hash], _ =>
        obtain ⟨next, isRemoved, steady, inOrder⟩ := queued.steady.removeTx hash
        have isNext : s.next hashTx (.removeTxs [hash]) =
            ⟨next, remaining hashTx s.queue [hash]⟩ := by
          simp only [Tracked.next, QueueCall.op, step, Pool.removeTxs, foldlM_cons, isRemoved]
          rfl
        rw [isNext] at firstIn
        rw [queued.inOrder] at inOrder
        exact ⟨inOrder.mp ((firstIn_iff steady).mp firstIn), trivial⟩
  · intro recent
    exact (queued.next recent).firstIn

theorem Queued.everyStep_iff {calls : List QueueCall} (single : ∀ call ∈ calls, call.Single) :
    Run.EveryStep (Tracked.next hashTx) (fun s call => (s.next hashTx call).FirstIn) s calls ↔
      Run.EveryStep (Tracked.next hashTx) (RemovesRecent hashTx) s calls :=
  Run.everyStep_iff_of_forall queued (fun _ _ queued isSingle => queued.firstIn_next_iff isSingle)
    (fun _ _ queued _ recent => queued.next recent) single

omit queued

theorem foldlM_step (calls : List QueueCall) (valid : s.mempool.Valid hashTx) :
    (calls.map QueueCall.op).foldlM (step hashTx) s.mempool =
      some (Run.after (next hashTx) s calls).mempool := by
  induction calls generalizing s with
  | nil => rfl
  | cons call rest ih =>
    obtain ⟨m, isNext, validNext⟩ := valid_step valid call.op
    have isMempool : (s.next hashTx call).mempool = m := by
      rw [next, isNext]
      rfl
    rw [← isMempool] at validNext
    rw [map_cons, foldlM_cons, isNext, Run.after_cons, ← isMempool]
    exact ih validNext

end Tracked

/-- The calls do not panic. `ReapTxs` returns the transactions in the order of addition after every
sequence of calls that remove recent transactions only; of the sequences without removals by several
hashes, these are the ones after each of whose calls it does so. -/
theorem reapTxs_firstIn (hashTx : Bytes → Bytes) (maxTxs maxBytes : Int)
    (validator : Option TxValidator) (calls : List QueueCall) :
    (calls.map QueueCall.op).foldlM (PriorityMempool.step hashTx)
        (Tracked.new maxTxs maxBytes validator).mempool =
      some (Run.after (Tracked.next hashTx) (Tracked.new maxTxs maxBytes validator)
        calls).mempool ∧
    (Run.EveryStep (Tracked.next hashTx) (Tracked.RemovesRecent hashTx)
        (Tracked.new maxTxs maxBytes validator) calls →
      (Run.after (Tracked.next hashTx) (Tracked.new maxTxs maxBytes validator) calls).FirstIn) ∧
    ((∀ call ∈ calls, call.Single) →
      (Run.EveryStep (Tracked.next hashTx) (fun s call => (s.next hashTx call).FirstIn)
          (Tracked.new maxTxs maxBytes validator) calls ↔
        Run.EveryStep (Tracked.next hashTx) (Tracked.RemovesRecent hashTx)
          (Tracked.new maxTxs maxBytes validator) calls)) := by
  have queued := Tracked.queued_new hashTx maxTxs maxBytes validator
  refine ⟨Tracked.foldlM_step calls queued.steady.valid, ?_, ?_⟩
  · intro recent
    exact (recent.invariant queued fun _ _ before isRecent => before.next isRecent).firstIn
  · intro single
    exact queued.everyStep_iff single

/-- Three transactions are added and the first one is removed: the third one is now ahead of the
second. -/
theorem removal_breaks_order :
    let s := Run.after (Tracked.next id) (Tracked.new 0 0 (some fun _ => none))
      [.addTx (some [1]) 0, .addTx (some [2]) 1, .addTx (some [3]) 2, .removeTxs [[1]]]
    s.queue = [[2], [3]] ∧ s.mempool.reapTxs 100 = [[3], [2]] := by
  decide +kernel

end Blockberry.Mempool
