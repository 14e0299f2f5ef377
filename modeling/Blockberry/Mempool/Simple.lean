import Blockberry.Lib.Removal
import Blockberry.Lib.Run
import Blockberry.Mempool.Pool

/-!
# The simple mempool

`SimpleMempool` keeps transactions in a map by their hashes and the hashes in a list in the order
of addition. It is compared with the list of the transactions held, which the calls extend and
shorten.
-/

namespace Blockberry.Mempool

open Removal List FiniteMap

/-- The values of the map are slices; `none` is the nil slice. -/
structure SimpleMempool where
  txs : Finmap fun _ : Bytes => Option Bytes
  order : List Bytes
  maxTxs : Int
  maxBytes : Int
  maxTxSize : Int
  sizeBytes : Int
  validator : Option TxValidator

/-- `append([]byte(nil), tx...)`: the copy of a slice without bytes is nil. -/
def copyBytes (tx : Bytes) : Option Bytes := if tx.isEmpty then none else some tx

def sliceLen (slice : Option Bytes) : Int := (slice.getD []).length

namespace SimpleMempool

def newSimpleMempoolWithLimits (maxTxs maxBytes maxTxSize : Int) : SimpleMempool where
  txs := ∅
  order := []
  maxTxs := maxTxs
  maxBytes := maxBytes
  maxTxSize := maxTxSize
  sizeBytes := 0
  validator := none

variable (m : SimpleMempool)

def size : Nat := m.txs.keys.card

def store (hash tx : Bytes) : SimpleMempool :=
  { m with txs := m.txs.insert hash (copyBytes tx)
           order := m.order ++ [hash]
           sizeBytes := m.sizeBytes + tx.length }

def addTx (hashTx : Bytes → Bytes) (m : SimpleMempool) :
    Option Bytes → SimpleMempool × Option AddError
  | none => (m, some .invalidTx)
  | some tx =>
    if 0 < m.maxTxSize ∧ m.maxTxSize < tx.length then (m, some .txTooLarge)
    else if hashTx tx ∈ m.txs then (m, some .txAlreadyExists)
    else
      match m.validator.getD defaultTxValidator tx with
      | some err => (m, some err)
      | none =>
        if 0 < m.maxTxs ∧ m.maxTxs ≤ m.size then (m, some .mempoolFull)
        else if 0 < m.maxBytes ∧ m.maxBytes < m.sizeBytes + tx.length then
          (m, some .mempoolFull)
        else (m.store (hashTx tx) tx, none)

/-- One round of the loop over the hashes to remove. -/
def removeTx (hash : Bytes) : SimpleMempool :=
  match m.txs.lookup hash with
  | none => m
  | some tx => { m with txs := m.txs.erase hash, sizeBytes := m.sizeBytes - sliceLen tx }

/-- The list of hashes is rebuilt from the map. -/
def rebuildOrder : SimpleMempool :=
  { m with order := m.order.filter fun hash => (m.txs.lookup hash).isSome }

def removeTxs (hashes : List Bytes) : SimpleMempool :=
  (hashes.foldl removeTx m).rebuildOrder

def flush : SimpleMempool := { m with txs := ∅, order := [], sizeBytes := 0 }

def setTxValidator (validator : Option TxValidator) : SimpleMempool :=
  { m with validator }

def hasTx (hash : Bytes) : Bool := (m.txs.lookup hash).isSome

inductive Op where
  | addTx (tx : Option Bytes)
  | removeTxs (hashes : List Bytes)
  | flush
  | setTxValidator (validator : Option TxValidator)

end SimpleMempool

open SimpleMempool

/-! ## The transactions held -/

/-- A transaction, and the validator in force when it was added. -/
structure Held where
  tx : Bytes
  validator : TxValidator

/-- A mempool, and the transactions that it is to hold, in the order of insertion. -/
structure Recorded where
  mempool : SimpleMempool
  held : List Held

namespace Recorded

open SimpleMempool (Op)

variable (hashTx : Bytes → Bytes)

/-- An added transaction is the last one, removed ones are left out. -/
def next (s : Recorded) : Op → Recorded
  | .addTx tx =>
    match s.mempool.addTx hashTx tx with
    | (m, none) =>
      ⟨m, s.held ++ tx.toList.map fun tx =>
        ⟨tx, s.mempool.validator.getD defaultTxValidator⟩⟩
    | (m, some _) => ⟨m, s.held⟩
  | .removeTxs hashes =>
    ⟨s.mempool.removeTxs hashes, s.held.filter fun held => !hashes.contains (hashTx held.tx)⟩
  | .flush => ⟨s.mempool.flush, []⟩
  | .setTxValidator validator => ⟨s.mempool.setTxValidator validator, s.held⟩

/-- A mempool after calls, with what it is to hold. -/
def run (maxTxs maxBytes maxTxSize : Int) (ops : List Op) : Recorded :=
  Run.after (next hashTx) ⟨.newSimpleMempoolWithLimits maxTxs maxBytes maxTxSize, []⟩ ops

end Recorded

theorem copyBytes_getD (tx : Bytes) : (copyBytes tx).getD [] = tx := by
  cases tx with
  | nil | cons => rfl

theorem sliceLen_copyBytes (tx : Bytes) : sliceLen (copyBytes tx) = tx.length := by
  rw [sliceLen, copyBytes_getD]

namespace SimpleMempool

variable {hashTx : Bytes → Bytes} {m : SimpleMempool}

theorem addTx_cases (hashTx : Bytes → Bytes) (m : SimpleMempool) (tx : Option Bytes) :
    (∃ err, m.addTx hashTx tx = (m, some err)) ∨
      ∃ added, tx = some added ∧ m.addTx hashTx tx = (m.store (hashTx added) added, none) ∧
        hashTx added ∉ m.txs ∧ m.validator.getD defaultTxValidator added = none ∧
        (0 < m.maxTxs → (m.size : Int) < m.maxTxs) ∧
        (0 < m.maxBytes → m.sizeBytes + added.length ≤ m.maxBytes) := by
  cases tx with
  | none => exact .inl ⟨_, rfl⟩
  | some tx =>
    rw [addTx]
    split
    next => exact .inl ⟨_, rfl⟩
    split
    next => exact .inl ⟨_, rfl⟩
    next fresh =>
      split
      next err _ => exact .inl ⟨err, rfl⟩
      next accepted =>
        split
        next => exact .inl ⟨_, rfl⟩
        next room =>
          split
          next => exact .inl ⟨_, rfl⟩
          next fits =>
            refine .inr ⟨tx, rfl, rfl, fresh, accepted, ?_, ?_⟩
            · intro limited
              exact not_le.mp fun full => room ⟨limited, full⟩
            · intro limited
              exact not_lt.mp fun above => fits ⟨limited, above⟩

/-- Map and counter stand for the transactions. -/
structure Stores (hashTx : Bytes → Bytes) (m : SimpleMempool) (held : List Held) : Prop where
  nodup : (held.map fun entry => hashTx entry.tx).Nodup
  lookup_iff : ∀ key slice, m.txs.lookup key = some slice ↔
    ∃ entry ∈ held, hashTx entry.tx = key ∧ copyBytes entry.tx = slice
  sizeBytes : m.sizeBytes = (held.map fun entry => (entry.tx.length : Int)).sum

variable {held : List Held}

theorem stores_empty (noTxs : m.txs = ∅) (noBytes : m.sizeBytes = 0) : Stores hashTx m [] where
  nodup := nodup_nil
  lookup_iff key slice := by simp [noTxs]
  sizeBytes := noBytes

variable (stores : Stores hashTx m held)

include stores

theorem Stores.mem_iff (key : Bytes) : key ∈ m.txs ↔ ∃ entry ∈ held, hashTx entry.tx = key := by
  rw [Finmap.mem_iff]
  constructor
  · rintro ⟨slice, found⟩
    obtain ⟨entry, isHeld, isKey, -⟩ := (stores.lookup_iff key slice).mp found
    exact ⟨entry, isHeld, isKey⟩
  · rintro ⟨entry, isHeld, isKey⟩
    exact ⟨_, (stores.lookup_iff key _).mpr ⟨entry, isHeld, isKey, rfl⟩⟩

theorem Stores.store {tx : Bytes} (fresh : hashTx tx ∉ m.txs) (validator : TxValidator) :
    Stores hashTx (m.store (hashTx tx) tx) (held ++ [⟨tx, validator⟩]) where
  nodup := by
    rw [map_append, nodup_append]
    refine ⟨stores.nodup, nodup_singleton _, ?_⟩
    intro hash isHash other isOther same
    obtain ⟨entry, isHeld, rfl⟩ := mem_map.mp isHash
    rw [map_singleton, mem_singleton] at isOther
    exact fresh ((stores.mem_iff _).mpr ⟨entry, isHeld, same.trans isOther⟩)
  lookup_iff key slice := by
    rw [SimpleMempool.store, lookup_insert]
    simp only [mem_append, mem_singleton, or_and_right, exists_or, exists_eq_left]
    split
    next isNew =>
      subst isNew
      constructor
      · intro found
        exact .inr ⟨rfl, Option.some.inj found⟩
      · rintro (⟨entry, isHeld, isKey, -⟩ | ⟨-, rfl⟩)
        · exact absurd ((stores.mem_iff _).mpr ⟨entry, isHeld, isKey⟩) fresh
        · rfl
    next isOld =>
      rw [stores.lookup_iff]
      constructor
      · exact .inl
      · rintro (old | ⟨isNew, -⟩)
        · exact old
        · exact absurd isNew isOld
  sizeBytes := by
    rw [map_append, sum_append, ← stores.sizeBytes, map_singleton, sum_singleton]
    rfl

theorem Stores.removeTx (hash : Bytes) :
    Stores hashTx (m.removeTx hash) (held.filter fun entry => hashTx entry.tx != hash) := by
  rw [SimpleMempool.removeTx]
  split
  next absent =>
    have others : ∀ entry ∈ held, hashTx entry.tx ≠ hash := by
      intro entry isHeld same
      rw [(stores.lookup_iff hash _).mpr ⟨entry, isHeld, same, rfl⟩] at absent
      cases absent
    rw [filter_key_eq_self others]
    exact stores
  next slice found =>
    obtain ⟨entry, isHeld, rfl, rfl⟩ := (stores.lookup_iff hash slice).mp found
    refine ⟨stores.nodup.sublist (filter_sublist.map _), ?_, ?_⟩
    · intro key slice
      rw [lookup_erase]
      simp only [mem_filter, bne_iff_ne]
      split
      next isGone =>
        constructor
        · intro found
          cases found
        · rintro ⟨other, ⟨-, differs⟩, isKey, -⟩
          exact absurd (isKey.trans isGone.symm) differs
      next isKept =>
        rw [stores.lookup_iff]
        constructor
        · rintro ⟨other, isOther, isKey, isSlice⟩
          exact ⟨other, ⟨isOther, fun same => isKept (same.symm.trans isKey)⟩, isKey, isSlice⟩
        · rintro ⟨other, ⟨isOther, -⟩, isKey, isSlice⟩
          exact ⟨other, isOther, isKey, isSlice⟩
    · obtain ⟨i, inside, rfl⟩ := getElem_of_mem isHeld
      rw [filter_key_eq_eraseIdx stores.nodup inside]
      have perm := (getElem_cons_eraseIdx_perm inside).map fun entry => (entry.tx.length : Int)
      have sum := perm.sum_eq
      rw [map_cons, sum_cons, ← stores.sizeBytes] at sum
      change m.sizeBytes - sliceLen (copyBytes held[i].tx) = _
      rw [sliceLen_copyBytes, ← sum, add_sub_cancel_left]

theorem Stores.foldl_removeTx (hashes : List Bytes) :
    Stores hashTx (hashes.foldl SimpleMempool.removeTx m)
      (held.filter fun entry => !hashes.contains (hashTx entry.tx)) := by
  induction hashes generalizing m held with
  | nil =>
    have all : (held.filter fun entry => !([] : List Bytes).contains (hashTx entry.tx)) = held :=
      filter_eq_self.mpr fun _ _ => rfl
    rw [all]
    exact stores
  | cons hash rest ih =>
    rw [filter_not_contains_cons fun entry : Held => hashTx entry.tx]
    exact ih (stores.removeTx hash)

omit stores

theorem foldl_removeTx_unchanged (m : SimpleMempool) (hashes : List Bytes) :
    (hashes.foldl SimpleMempool.removeTx m).order = m.order ∧
      (hashes.foldl SimpleMempool.removeTx m).maxTxs = m.maxTxs ∧
      (hashes.foldl SimpleMempool.removeTx m).maxBytes = m.maxBytes := by
  induction hashes generalizing m with
  | nil => exact ⟨rfl, rfl, rfl⟩
  | cons hash rest ih =>
    obtain ⟨order, maxTxs, maxBytes⟩ := ih (m.removeTx hash)
    rw [foldl_cons, order, maxTxs, maxBytes, SimpleMempool.removeTx]
    split
    next => exact ⟨rfl, rfl, rfl⟩
    next => exact ⟨rfl, rfl, rfl⟩

theorem Stores.order_removeTxs (stores : Stores hashTx m held)
    (order : m.order = held.map fun entry => hashTx entry.tx) (hashes : List Bytes) :
    (m.removeTxs hashes).order = (held.filter fun entry => !hashes.contains (hashTx entry.tx)).map
        fun entry => hashTx entry.tx := by
  have kept := stores.foldl_removeTx hashes
  change (hashes.foldl SimpleMempool.removeTx m).order.filter _ = _
  rw [(foldl_removeTx_unchanged m hashes).1, order, filter_map]
  congr 1
  refine filter_congr ?_
  intro entry isHeld
  rw [Function.comp_apply, Bool.eq_iff_iff, Finmap.lookup_isSome, kept.mem_iff]
  constructor
  · rintro ⟨other, isOther, same⟩
    rw [← same]
    exact (mem_filter.mp isOther).2
  · intro notRemoved
    exact ⟨entry, mem_filter.mpr ⟨isHeld, notRemoved⟩, rfl⟩

end SimpleMempool

namespace Recorded

open SimpleMempool (Op Stores)

variable {hashTx : Bytes → Bytes} {maxTxs maxBytes : Int} {s : Recorded}

/-- What every call keeps. -/
structure Valid (hashTx : Bytes → Bytes) (maxTxs maxBytes : Int) (s : Recorded) : Prop where
  stores : Stores hashTx s.mempool s.held
  order : s.mempool.order = s.held.map fun entry => hashTx entry.tx
  accepted : ∀ entry ∈ s.held, entry.validator entry.tx = none
  maxTxs_eq : s.mempool.maxTxs = maxTxs
  maxBytes_eq : s.mempool.maxBytes = maxBytes
  count : 0 < maxTxs → (s.held.length : Int) ≤ maxTxs
  bytes : 0 < maxBytes → s.mempool.sizeBytes ≤ maxBytes

variable (valid : Valid hashTx maxTxs maxBytes s)

include valid

theorem Valid.enumerates : Enumerates s.mempool.order s.mempool.txs where
  nodup := valid.order ▸ valid.stores.nodup
  mem_iff key := by rw [valid.order, valid.stores.mem_iff, mem_map]

theorem Valid.size_eq : s.mempool.size = s.held.length := by
  rw [size, ← valid.enumerates.length_eq, valid.order, length_map]

theorem Valid.addTx (tx : Option Bytes) :
    Valid hashTx maxTxs maxBytes (s.next hashTx (.addTx tx)) := by
  rcases s.mempool.addTx_cases hashTx tx with ⟨err, failed⟩ |
    ⟨added, rfl, stored, fresh, accepted, room, fits⟩
  · have isNext : s.next hashTx (.addTx tx) = s := by
      rw [next, failed]
    rw [isNext]
    exact valid
  · have isNext : s.next hashTx (.addTx (some added)) = ⟨s.mempool.store (hashTx added) added,
          s.held ++ [⟨added, s.mempool.validator.getD defaultTxValidator⟩]⟩ := by
      rw [next, stored]
      rfl
    rw [isNext]
    refine ⟨valid.stores.store fresh _, ?_, ?_, valid.maxTxs_eq, valid.maxBytes_eq, ?_, ?_⟩
    · rw [map_append, ← valid.order]
      rfl
    · intro entry isHeld
      rcases mem_append.mp isHeld with isOld | isNew
      · exact valid.accepted entry isOld
      · rw [mem_singleton.mp isNew]
        exact accepted
    · intro limited
      rw [valid.maxTxs_eq, valid.size_eq] at room
      rw [length_append, length_singleton, Nat.cast_add, Nat.cast_one]
      exact room limited
    · intro limited
      rw [valid.maxBytes_eq] at fits
      exact fits limited

theorem Valid.removeTxs (hashes : List Bytes) :
    Valid hashTx maxTxs maxBytes (s.next hashTx (.removeTxs hashes)) := by
  have kept := valid.stores.foldl_removeTx hashes
  obtain ⟨-, sameMaxTxs, sameMaxBytes⟩ :=
    foldl_removeTx_unchanged s.mempool hashes
  have fewer : (s.held.filter fun entry => !hashes.contains (hashTx entry.tx)).Sublist s.held :=
    filter_sublist
  refine ⟨⟨kept.nodup, kept.lookup_iff, kept.sizeBytes⟩,
    valid.stores.order_removeTxs valid.order hashes, ?_, sameMaxTxs.trans valid.maxTxs_eq,
    sameMaxBytes.trans valid.maxBytes_eq, ?_, ?_⟩
  · intro entry isHeld
    exact valid.accepted entry (fewer.subset isHeld)
  · intro limited
    exact (Int.ofNat_le.mpr fewer.length_le).trans (valid.count limited)
  · intro limited
    refine le_trans ?_ (valid.bytes limited)
    change (hashes.foldl SimpleMempool.removeTx s.mempool).sizeBytes ≤ _
    rw [kept.sizeBytes, valid.stores.sizeBytes]
    refine (fewer.map _).sum_le_sum ?_
    intro length isLength
    obtain ⟨entry, -, rfl⟩ := mem_map.mp isLength
    exact Int.natCast_nonneg _

theorem Valid.next (op : Op) : Valid hashTx maxTxs maxBytes (s.next hashTx op) := by
  cases op with
  | addTx tx => exact valid.addTx tx
  | removeTxs hashes => exact valid.removeTxs hashes
  | flush =>
    exact ⟨stores_empty rfl rfl, rfl, forall_mem_nil _, valid.maxTxs_eq,
      valid.maxBytes_eq, le_of_lt, le_of_lt⟩
  | setTxValidator validator =>
    exact ⟨⟨valid.stores.nodup, valid.stores.lookup_iff, valid.stores.sizeBytes⟩, valid.order,
      valid.accepted, valid.maxTxs_eq, valid.maxBytes_eq, valid.count, valid.bytes⟩

omit valid

theorem valid_run (hashTx : Bytes → Bytes) (maxTxs maxBytes maxTxSize : Int) (ops : List Op) :
    Valid hashTx maxTxs maxBytes (run hashTx maxTxs maxBytes maxTxSize ops) :=
  Run.invariant_after ops
    ⟨stores_empty rfl rfl, rfl, forall_mem_nil _, rfl, rfl, le_of_lt, le_of_lt⟩
    fun _ op valid => valid.next op

/-- What a mempool says of the transactions inserted and not removed. -/
structure Consistent (hashTx : Bytes → Bytes) (maxTxs maxBytes : Int) (s : Recorded) : Prop where
  enumerates : Enumerates s.mempool.order s.mempool.txs
  inserted : s.mempool.order = s.held.map fun entry => hashTx entry.tx
  content : ∀ entry ∈ s.held,
    s.mempool.txs.lookup (hashTx entry.tx) = some (copyBytes entry.tx)
  keyed : ∀ key slice, s.mempool.txs.lookup key = some slice → key = hashTx (slice.getD [])
  sizeBytes : s.mempool.sizeBytes = (s.held.map fun entry => (entry.tx.length : Int)).sum
  count : 0 < maxTxs → (s.mempool.size : Int) ≤ maxTxs
  bytes : 0 < maxBytes → s.mempool.sizeBytes ≤ maxBytes
  accepted : ∀ entry ∈ s.held, entry.validator entry.tx = none
  failure : ∀ tx m err, s.mempool.addTx hashTx tx = (m, some err) → m = s.mempool

theorem Valid.consistent (valid : Valid hashTx maxTxs maxBytes s) :
    s.Consistent hashTx maxTxs maxBytes where
  enumerates := valid.enumerates
  inserted := valid.order
  content entry isHeld := (valid.stores.lookup_iff _ _).mpr ⟨entry, isHeld, rfl, rfl⟩
  keyed key slice found := by
    obtain ⟨entry, -, isKey, rfl⟩ := (valid.stores.lookup_iff key slice).mp found
    rw [copyBytes_getD, isKey]
  sizeBytes := valid.stores.sizeBytes
  count limited := by
    rw [valid.size_eq]
    exact valid.count limited
  bytes := valid.bytes
  accepted := valid.accepted
  failure tx m err isFailed := by
    rcases s.mempool.addTx_cases hashTx tx with ⟨other, failed⟩ | ⟨added, -, stored, -⟩
    · rw [failed] at isFailed
      exact (Prod.mk.inj isFailed).1.symm
    · rw [stored] at isFailed
      cases (Prod.mk.inj isFailed).2

end Recorded

/-- After every sequence of calls, with any limits and validators, map, list and counter agree
with the transactions inserted and not removed. -/
theorem simpleMempool_consistent (hashTx : Bytes → Bytes) (maxTxs maxBytes maxTxSize : Int)
    (ops : List SimpleMempool.Op) :
    (Recorded.run hashTx maxTxs maxBytes maxTxSize ops).Consistent hashTx maxTxs maxBytes :=
  (Recorded.valid_run hashTx maxTxs maxBytes maxTxSize ops).consistent

end Blockberry.Mempool
