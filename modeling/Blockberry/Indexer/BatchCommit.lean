import Blockberry.Indexer.Entries

/-!
# Batches of index operations

A batch keeps its writes in the order of the operations, except that the secondary entries of
deleted hashes are removed at the end, and only those of records stored before the batch. `Commit`
does what the single calls do exactly if, for every secondary key, the removal at the end is that
of the last call that touches the key, and no unreadable record is deleted alone.
-/

namespace Blockberry.Indexer

open KeyValue List Option TxBatch Run

namespace TxIndexer

variable {json : Json} {idx direct : TxIndexer} {hash key : Bytes} {ops : List Op}

def batchStep (json : Json) (idx : TxIndexer) (b : TxBatch) : Op → TxBatch
  | .index result => b.add json idx result
  | .delete hash => b.delete hash

def batchOf (json : Json) (idx : TxIndexer) (ops : List Op) : TxBatch :=
  ops.foldl (batchStep json idx) newTxBatch

def committed (json : Json) (idx : TxIndexer) (ops : List Op) : TxIndexer :=
  ((batchOf json idx ops).commit json idx).1

/-- What a call does to a secondary key: nothing, removing it, or setting it. -/
def touch (json : Json) (idx : TxIndexer) (key : Bytes) : Op → Option (Option Bytes)
  | .index none => none
  | .index (some result) =>
    if result.hash ≠ [] ∧ (idx.keysOf result result.hash).contains key then
      some (some result.hash)
    else none
  | .delete hash =>
    match idx.stored json hash with
    | none => none
    | some result =>
      if hash ≠ [] ∧ (idx.keysOf result hash).contains key then some none else none

/-- What the last call does that touches a key. -/
def lastTouch (json : Json) (key : Bytes) : TxIndexer → List Op → Option (Option Bytes)
  | _, [] => none
  | idx, op :: ops => (lastTouch json key (idx.step json op) ops).or (idx.touch json key op)

/-- The key belongs to the record that a deleted hash had before. -/
def Clears (json : Json) (idx : TxIndexer) (ops : List Op) (key : Bytes) : Prop :=
  ∃ hash result, Op.delete hash ∈ ops ∧ hash ≠ [] ∧ idx.stored json hash = some result ∧
    key ∈ idx.keysOf result hash

structure Agrees (json : Json) (idx : TxIndexer) (ops : List Op) (key : Bytes) : Prop where
  clears : lastTouch json key idx ops = some none → Clears json idx ops key
  cleared : Clears json idx ops key → lastTouch json key idx ops = some none ∨
    lastTouch json key idx ops = none ∧ idx.db[key]? = none

/-- There is a record, but it cannot be read. -/
def Unreadable (json : Json) (idx : TxIndexer) (hash : Bytes) : Prop :=
  idx.db[txHashKey hash]?.isSome = true ∧ idx.stored json hash = none

/-- The writes that an operation adds to a batch. -/
def writesOf (json : Json) (idx : TxIndexer) : Op → Batch
  | .index none => []
  | .index (some result) => if result.hash = [] then [] else idx.indexBatch json result
  | .delete hash => if hash = [] then [] else [.delete (txHashKey hash)]

/-- The hash that an operation marks for deletion. -/
def deletesOf : Op → List Bytes
  | .index _ => []
  | .delete hash => if hash = [] then [] else [hash]

variable (db : Database)

include db

variable {result : TxIndexResult}

theorem write_indexBatch_primary (result : TxIndexResult) (hash : Bytes) :
    (write db (idx.indexBatch json result))[txHashKey hash]? =
      if result.hash = hash then some (json.marshal result) else db[txHashKey hash]? :=
  put_primary { idx with db := db } result hash

theorem write_delete (key query : Bytes) :
    (write db [.delete key])[query]? = if query = key then none else db[query]? := by
  refine (getElem?_write_delete db [key] query).trans ?_
  simp only [mem_singleton]

omit db

/-- The keys that are removed at the end. -/
def cleanup (json : Json) (idx : TxIndexer) (ops : List Op) : List Bytes :=
  (ops.flatMap deletesOf).flatMap (storedKeys json idx)

theorem Clears.secondary (clears : Clears json idx ops key) : Secondary key := by
  obtain ⟨hash, result, -, -, -, member⟩ := clears
  exact secondary_of_mem member

theorem primary_cases (json : Json) (idx : TxIndexer) (op : Op) (hash : Bytes) :
    (∃ result, op = .index (some result) ∧ result.hash = hash ∧ hash ≠ []) ∨
      (op = .delete hash ∧ hash ≠ []) ∨
      ((∀ db : Database, (write db (writesOf json idx op))[txHashKey hash]? = db[txHashKey hash]?) ∧
        ∀ direct : TxIndexer, direct.closed = false →
          (direct.step json op).db[txHashKey hash]? = direct.db[txHashKey hash]?) := by
  cases op with
  | index result =>
    cases result with
    | none => exact Or.inr (Or.inr ⟨fun _ => rfl, fun _ _ => rfl⟩)
    | some result =>
      by_cases empty : result.hash = []
      · exact Or.inr (Or.inr ⟨fun _ => by simp [writesOf, empty],
          fun _ _ => by simp [step, index, empty]⟩)
      · by_cases same : result.hash = hash
        · exact Or.inl ⟨result, rfl, same, same ▸ empty⟩
        · refine Or.inr (Or.inr ⟨fun db => ?_, fun direct notClosed => ?_⟩)
          · rw [writesOf, if_neg empty, write_indexBatch_primary, if_neg same]
          · rw [step, index_eq_put notClosed empty, put_primary, if_neg same]
  | delete deleted =>
    by_cases empty : deleted = []
    · exact Or.inr (Or.inr ⟨fun _ => by simp [writesOf, empty],
        fun _ _ => by simp [step, delete, empty]⟩)
    · by_cases same : hash = deleted
      · exact Or.inr (Or.inl ⟨by rw [same], same ▸ empty⟩)
      · refine Or.inr (Or.inr ⟨fun db => ?_, fun direct notClosed => ?_⟩)
        · rw [writesOf, if_neg empty, write_delete, if_neg (mt txHashKey_inj.mp same)]
        · rw [step]
          cases found : direct.stored json deleted with
          | none => rw [delete_of_not_stored found]
          | some result =>
            rw [delete_of_stored notClosed empty found, erase_primary, if_neg same]

theorem Unreadable.congr {other : TxIndexer} (unreadable : Unreadable json idx hash)
    (same : idx.db[txHashKey hash]? = other.db[txHashKey hash]?) : Unreadable json other hash := by
  rwa [Unreadable, stored, same] at unreadable

variable (notClosed : direct.closed = false)

include notClosed

omit notClosed

theorem Unreadable.after (unreadable : Unreadable json direct hash)
    (notClosed : direct.closed = false)
    (notIndexed : ∀ result, Op.index (some result) ∈ ops → result.hash ≠ hash) :
    Unreadable json (after (TxIndexer.step json) direct ops) hash := by
  induction ops generalizing direct with
  | nil => exact unreadable
  | cons op ops ih =>
    have notLater : ∀ result, Op.index (some result) ∈ ops → result.hash ≠ hash :=
      fun result member => notIndexed result (mem_cons_of_mem op member)
    refine ih ?_ (closed_step notClosed op) notLater
    rcases primary_cases json direct op hash with
      ⟨result, rfl, isHash, -⟩ | ⟨rfl, nonempty⟩ | ⟨-, keepsDirect⟩
    · exact absurd isHash (notIndexed result mem_cons_self)
    · rw [TxIndexer.step, delete_of_not_stored unreadable.2]
      exact unreadable
    · exact unreadable.congr (keepsDirect direct notClosed).symm

end TxIndexer

open TxIndexer

def single : TxIndexer := (newTxIndexer true).step PlainJson.json (.index (some ⟨[9], 1, 0, none⟩))

end Blockberry.Indexer
