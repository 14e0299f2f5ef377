import Blockberry.Lib.Run
import Blockberry.Indexer.TxIndexer

/-!
# Entries of the index

The database holds primary entries, under keys that begin with `th/`, and secondary ones.
What a call does to the entries of each kind is stated here once, key by key.
-/

namespace Blockberry.Indexer

open BigEndian KeyValue List

/-- A key that is not a primary one. -/
def Secondary (key : Bytes) : Prop := ∀ hash, key ≠ txHashKey hash

theorem txHashKey_inj {left right : Bytes} : txHashKey left = txHashKey right ↔ left = right := by
  rw [txHashKey, txHashKey, append_cancel_left_eq]

theorem secondary_txHeightKey (height : UInt64) (hash : Bytes) :
    Secondary (txHeightKey height hash) := by
  intro other same
  simp [txHeightKey, txHashKey, prefixTxByHeight, prefixTxByHash] at same

theorem secondary_eventPrefix_append (kind key value rest : Bytes) :
    Secondary (eventPrefix kind key value ++ rest) := by
  intro other same
  simp [eventPrefix, txHashKey, prefixTxByEvent, prefixTxByHash] at same

theorem secondary_of_mem {result : TxIndexResult} {all : Bool} {hash key : Bytes}
    (member : key ∈ result.secondaryKeys all hash) : Secondary key := by
  rcases mem_cons.mp member with rfl | isEvent
  · exact secondary_txHeightKey _ _
  · obtain ⟨attr, -, rfl⟩ := mem_map.mp isEvent
    exact secondary_eventPrefix_append _ _ _ _

namespace TxIndexer

variable (json : Json)

/-- The record that is stored for a hash. -/
def stored (idx : TxIndexer) (hash : Bytes) : Option TxIndexResult :=
  idx.db[txHashKey hash]?.bind json.unmarshal

/-- The secondary keys of a result in an indexer. -/
def keysOf (idx : TxIndexer) (result : TxIndexResult) (hash : Bytes) : List Bytes :=
  result.secondaryKeys idx.indexAllEvents hash

variable {json} {idx : TxIndexer} {result : TxIndexResult} {hash key : Bytes}

theorem getUnlocked_of_stored (found : idx.stored json hash = some result) :
    idx.getUnlocked json hash = .ok result := by
  obtain ⟨data, isData, read⟩ := Option.bind_eq_some_iff.mp found
  rw [getUnlocked, isData]
  simp only [read]

theorem getUnlocked_of_not_stored (missing : idx.stored json hash = none) :
    ∃ err, idx.getUnlocked json hash = .error err := by
  rw [getUnlocked]
  cases isData : idx.db[txHashKey hash]? with
  | none => exact ⟨.txNotFound, rfl⟩
  | some data =>
    rw [stored, isData, Option.bind_some] at missing
    simp only [missing]
    exact ⟨.unmarshaling, rfl⟩

/-! ## After `Index` -/

/-- The indexer after the writes of `Index`. -/
def put (json : Json) (idx : TxIndexer) (result : TxIndexResult) : TxIndexer :=
  { idx with db := write idx.db (idx.indexBatch json result) }

theorem index_eq_put (notClosed : idx.closed = false) (nonempty : result.hash ≠ []) :
    (idx.index json (some result)).1 = idx.put json result := by
  simp [index, nonempty, notClosed, put]

theorem indexBatch_eq (json : Json) (idx : TxIndexer) (result : TxIndexResult) :
    idx.indexBatch json result = [Write.put (txHashKey result.hash) (json.marshal result)] ++
        (idx.keysOf result result.hash).map (Write.put · result.hash) :=
  rfl

theorem put_primary (idx : TxIndexer) (result : TxIndexResult) (hash : Bytes) :
    (idx.put json result).db[txHashKey hash]? =
      if result.hash = hash then some (json.marshal result) else idx.db[txHashKey hash]? := by
  have notSecondary : txHashKey hash ∉ idx.keysOf result result.hash :=
    fun member => secondary_of_mem member hash rfl
  rw [put, indexBatch_eq, write_append, getElem?_write_puts, if_neg notSecondary,
    getElem?_write_put]
  simp only [txHashKey_inj]

theorem put_secondary (idx : TxIndexer) (result : TxIndexResult) (secondary : Secondary key) :
    (idx.put json result).db[key]? =
      if key ∈ idx.keysOf result result.hash then some result.hash else idx.db[key]? := by
  rw [put, indexBatch_eq, write_append, getElem?_write_puts, getElem?_write_put,
    if_neg (secondary result.hash).symm]
  by_cases member : key ∈ idx.keysOf result result.hash
  · rw [if_pos member, if_pos member]
  · rw [if_neg member, if_neg member]

theorem stored_put (idx : TxIndexer) (result : TxIndexResult) (hash : Bytes) :
    (idx.put json result).stored json hash =
      if result.hash = hash then some result else idx.stored json hash := by
  rw [stored, put_primary]
  split
  next => rw [Option.bind_some, json.unmarshal_marshal]
  next => rfl

/-! ## After `Delete` -/

/-- The indexer without a record and its secondary entries. -/
def erase (idx : TxIndexer) (result : TxIndexResult) (hash : Bytes) : TxIndexer :=
  { idx with db := write idx.db ((txHashKey hash :: idx.keysOf result hash).map .delete) }

theorem delete_of_stored (notClosed : idx.closed = false) (nonempty : hash ≠ [])
    (found : idx.stored json hash = some result) :
    (idx.delete json hash).1 = idx.erase result hash := by
  rw [delete, if_neg nonempty, if_neg (Bool.eq_false_iff.mp notClosed), getUnlocked_of_stored found]
  rfl

theorem delete_of_not_stored (missing : idx.stored json hash = none) :
    (idx.delete json hash).1 = idx := by
  obtain ⟨err, isError⟩ := getUnlocked_of_not_stored missing
  rw [delete, isError]
  split
  next => rfl
  split
  next => rfl
  next =>
    cases err with
    | indexCorrupted | txNotFound | invalidQuery | unmarshaling => rfl

theorem erase_primary (idx : TxIndexer) (result : TxIndexResult) (hash query : Bytes) :
    (idx.erase result hash).db[txHashKey query]? =
      if query = hash then none else idx.db[txHashKey query]? := by
  have notSecondary : txHashKey query ∉ idx.keysOf result hash :=
    fun member => secondary_of_mem member query rfl
  rw [erase, getElem?_write_delete]
  simp only [mem_cons, txHashKey_inj, notSecondary, or_false]

theorem erase_secondary (idx : TxIndexer) (result : TxIndexResult) (hash : Bytes)
    (secondary : Secondary key) :
    (idx.erase result hash).db[key]? =
      if key ∈ idx.keysOf result hash then none else idx.db[key]? := by
  rw [erase, getElem?_write_delete]
  simp only [mem_cons, secondary hash, false_or]

theorem stored_erase (idx : TxIndexer) (result : TxIndexResult) (hash query : Bytes) :
    (idx.erase result hash).stored json query =
      if query = hash then none else idx.stored json query := by
  rw [stored, erase_primary]
  split
  next => rw [Option.bind_none]
  next => rfl

/-! ## What an iterator finds -/

theorem mem_under {start : Bytes} :
    hash ∈ idx.under start ↔ ∃ key, start <+: key ∧ idx.db[key]? = some hash := by
  rw [under, values, mem_map]
  constructor
  · rintro ⟨⟨key, value⟩, selected, rfl⟩
    exact ⟨key, mem_select_isPrefixOf.mp selected⟩
  · rintro ⟨key, isPrefix, entry⟩
    exact ⟨(key, hash), mem_select_isPrefixOf.mpr ⟨isPrefix, entry⟩, rfl⟩

/-- No value is found twice exactly if no two of the keys have the same. -/
theorem nodup_under_iff {start : Bytes} :
    (idx.under start).Nodup ↔ ∀ left right hash, start <+: left → start <+: right →
      idx.db[left]? = some hash → idx.db[right]? = some hash → left = right := by
  have distinct : (select idx.db fun key => start.isPrefixOf key).Nodup := by
    apply (pairwise_select idx.db _).imp
    rintro left right less rfl
    rw [Std.compare_self] at less
    cases less
  rw [under, values, nodup_map_iff_inj_on distinct]
  constructor
  · intro injective left right hash isLeft isRight leftEntry rightEntry
    exact congrArg Prod.fst (injective
      (left, hash) (mem_select_isPrefixOf.mpr ⟨isLeft, leftEntry⟩)
      (right, hash) (mem_select_isPrefixOf.mpr ⟨isRight, rightEntry⟩) rfl)
  · rintro injective ⟨left, hash⟩ isLeft ⟨right, other⟩ isRight rfl
    obtain ⟨leftPrefix, leftEntry⟩ := mem_select_isPrefixOf.mp isLeft
    obtain ⟨rightPrefix, rightEntry⟩ := mem_select_isPrefixOf.mp isRight
    rw [injective left right hash leftPrefix rightPrefix leftEntry rightEntry]

/-! ## Runs of calls -/

/-- The calls that change an index. -/
inductive Op where
  | index (result : Option TxIndexResult)
  | delete (hash : Bytes)
  deriving DecidableEq, Repr

def step (json : Json) (idx : TxIndexer) : Op → TxIndexer
  | .index result => (idx.index json result).1
  | .delete hash => (idx.delete json hash).1

variable (notClosed : idx.closed = false)

include notClosed

theorem step_cases (op : Op) : (idx.step json op = idx ∧
        ((∃ hash, op = .delete hash ∧ (hash = [] ∨ idx.stored json hash = none)) ∨
          ∃ result, op = .index result ∧ ∀ r, result = some r → r.hash = [])) ∨
      (∃ result, op = .index (some result) ∧ result.hash ≠ [] ∧
        idx.step json op = idx.put json result) ∨
      ∃ hash result, op = .delete hash ∧ hash ≠ [] ∧ idx.stored json hash = some result ∧
        idx.step json op = idx.erase result hash := by
  cases op with
  | index result =>
    cases result with
    | none =>
      left
      refine ⟨rfl, Or.inr ⟨none, rfl, ?_⟩⟩
      intro r impossible
      cases impossible
    | some result =>
      by_cases empty : result.hash = []
      · left
        refine ⟨by simp [step, index, empty], Or.inr ⟨some result, rfl, ?_⟩⟩
        intro r isResult
        cases isResult
        exact empty
      · right
        left
        exact ⟨result, rfl, empty, index_eq_put notClosed empty⟩
  | delete hash =>
    by_cases empty : hash = []
    · left
      exact ⟨by simp [step, delete, empty], Or.inl ⟨hash, rfl, Or.inl empty⟩⟩
    · cases found : idx.stored json hash with
      | none =>
        left
        exact ⟨delete_of_not_stored found, Or.inl ⟨hash, rfl, Or.inr found⟩⟩
      | some result =>
        right
        right
        exact ⟨hash, result, rfl, empty, found, delete_of_stored notClosed empty found⟩

theorem closed_step (op : Op) : (idx.step json op).closed = false := by
  rcases step_cases notClosed op with
    ⟨same, -⟩ | ⟨result, -, -, isPut⟩ | ⟨hash, result, -, -, -, isErase⟩
  · rw [same, notClosed]
  · rw [isPut]
    exact notClosed
  · rw [isErase]
    exact notClosed

theorem closed_after (ops : List Op) : (Run.after (step json) idx ops).closed = false := by
  induction ops generalizing idx with
  | nil => exact notClosed
  | cons op ops ih => exact ih (closed_step notClosed op)

/-- A record that is stored after some calls was there before or has been indexed. -/
theorem stored_after {ops : List Op}
    (found : (Run.after (step json) idx ops).stored json hash = some result) :
    idx.stored json hash = some result ∨
      Op.index (some result) ∈ ops ∧ result.hash = hash ∧ hash ≠ [] := by
  induction ops generalizing idx with
  | nil => exact Or.inl found
  | cons op ops ih =>
    rcases ih (closed_step notClosed op) found with isStored | ⟨isAdded, isHash⟩
    · rcases step_cases notClosed op with
        ⟨same, -⟩ | ⟨added, rfl, nonempty, isPut⟩ | ⟨deleted, old, rfl, -, -, isErase⟩
      · rw [same] at isStored
        exact Or.inl isStored
      · rw [isPut, stored_put] at isStored
        split at isStored
        next same =>
          cases isStored
          exact Or.inr ⟨mem_cons_self, same, same ▸ nonempty⟩
        next => exact Or.inl isStored
      · rw [isErase, stored_erase] at isStored
        split at isStored
        next => cases isStored
        next => exact Or.inl isStored
    · exact Or.inr ⟨mem_cons_of_mem op isAdded, isHash⟩

end TxIndexer

end Blockberry.Indexer
