import Mathlib

/-!
# Ordered key-value stores

A store is an ordered map. A batch of writes takes effect as a whole, one write after
the other, and an iterator yields the entries of a range of keys in the order of the
keys.
-/

namespace KeyValue

open List Std Std.TreeMap

variable {κ ν : Type} {cmp : κ → κ → Ordering}

inductive Write (κ ν : Type) where
  | put (key : κ) (value : ν)
  | delete (key : κ)
  deriving DecidableEq, Repr

def Write.apply (db : TreeMap κ ν cmp) : Write κ ν → TreeMap κ ν cmp
  | .put key value => db.insert key value
  | .delete key => db.erase key

/-- The store after a batch. -/
def write (db : TreeMap κ ν cmp) (batch : List (Write κ ν)) : TreeMap κ ν cmp :=
  batch.foldl Write.apply db

@[simp] theorem write_nil (db : TreeMap κ ν cmp) : write db [] = db := rfl

theorem write_append (db : TreeMap κ ν cmp) (first second : List (Write κ ν)) :
    write db (first ++ second) = write (write db first) second := foldl_append

/-- Writing batch after batch is writing them all. -/
theorem foldl_write (db : TreeMap κ ν cmp) (batches : List (List (Write κ ν))) :
    batches.foldl write db = write db batches.flatten := by
  induction batches generalizing db with
  | nil => rfl
  | cons batch batches ih => rw [foldl_cons, ih, flatten_cons, write_append]

/-- The entries whose key satisfies a predicate, in the order of the keys. -/
def select (db : TreeMap κ ν cmp) (p : κ → Bool) : List (κ × ν) :=
  db.toList.filter fun entry => p entry.1

/-- The entries from a first key up to, and without, a limit. -/
def range (db : TreeMap κ ν cmp) (start limit : κ) : List (κ × ν) :=
  select db fun key => (cmp start key).isLE && cmp key limit == .lt

/-- The same entries, found by stopping at the first key that is not below the limit. -/
def scan (db : TreeMap κ ν cmp) (p : κ → Bool) (limit : κ) : List (κ × ν) :=
  (select db p).takeWhile fun entry => cmp entry.1 limit == .lt

section Lookup

variable [Std.TransCmp cmp] [Std.LawfulEqCmp cmp] [DecidableEq κ] (db : Std.TreeMap κ ν cmp)

include db

theorem getElem?_put (key query : κ) (value : ν) : (Write.apply db (.put key value))[query]? =
      if key = query then some value else db[query]? := by
  simp only [Write.apply, Std.TreeMap.getElem?_insert, Std.LawfulEqCmp.compare_eq_iff_eq]

theorem getElem?_delete (key query : κ) :
    (Write.apply db (.delete key))[query]? = if key = query then none else db[query]? := by
  simp only [Write.apply, getElem?_erase, Std.LawfulEqCmp.compare_eq_iff_eq]

theorem getElem?_write_put (key query : κ) (value : ν) :
    (write db [.put key value])[query]? = if key = query then some value else db[query]? :=
  getElem?_put db key query value

/-- A write that is part of a batch only under a condition. -/
theorem getElem?_write_putIf (condition : Prop) [Decidable condition] (key query : κ) (value : ν) :
    (write db (if condition then [.put key value] else []))[query]? =
      if condition ∧ key = query then some value else db[query]? := by
  by_cases holds : condition
  · simp [holds, getElem?_write_put]
  · simp [holds]

/-- One value under several keys. -/
theorem getElem?_write_puts (keys : List κ) (value : ν) (query : κ) :
    (write db (keys.map (.put · value)))[query]? =
      if query ∈ keys then some value else db[query]? := by
  induction keys generalizing db with
  | nil => simp
  | cons key keys ih =>
    have head : write db ((key :: keys).map (.put · value)) =
        write (Write.apply db (.put key value)) (keys.map (.put · value)) := rfl
    rw [head, ih, getElem?_put]
    by_cases later : query ∈ keys
    · simp [later]
    · by_cases same : key = query
      · simp [same]
      · simp [later, same, Ne.symm same]

theorem getElem?_write_delete (keys : List κ) (query : κ) :
    (write db (keys.map .delete))[query]? = if query ∈ keys then none else db[query]? := by
  induction keys generalizing db with
  | nil => simp
  | cons key keys ih =>
    have head : write db ((key :: keys).map .delete) =
        write (Write.apply db (.delete key)) (keys.map .delete) := rfl
    rw [head, ih, getElem?_delete]
    by_cases later : query ∈ keys
    · simp [later]
    · by_cases same : key = query
      · simp [same]
      · simp [later, same, Ne.symm same]

end Lookup

section Iterators

variable [Std.TransCmp cmp]

theorem mem_select [LawfulEqCmp cmp] {db : TreeMap κ ν cmp} {p : κ → Bool} {key : κ}
    {value : ν} : (key, value) ∈ select db p ↔ p key = true ∧ db[key]? = some value := by
  rw [select, mem_filter, mem_toList_iff_getElem?_eq_some]
  exact and_comm

/-- The entries under the keys that begin with a string. -/
theorem mem_select_isPrefixOf {α : Type} [BEq α] [LawfulBEq α]
    {cmp : List α → List α → Ordering} [TransCmp cmp] [LawfulEqCmp cmp]
    {db : TreeMap (List α) ν cmp} {start key : List α} {value : ν} :
    (key, value) ∈ select db (fun key => start.isPrefixOf key) ↔
      start <+: key ∧ db[key]? = some value := by
  rw [mem_select, isPrefixOf_iff_prefix]

theorem pairwise_select (db : TreeMap κ ν cmp) (p : κ → Bool) :
    (select db p).Pairwise fun left right => cmp left.1 right.1 = .lt :=
  ordered_keys_toList.filter _

theorem pairwise_range (db : TreeMap κ ν cmp) (start limit : κ) :
    (range db start limit).Pairwise fun left right => cmp left.1 right.1 = .lt :=
  pairwise_select db _

theorem mem_range [LawfulEqCmp cmp] {db : TreeMap κ ν cmp} {start limit key : κ}
    {value : ν} :
    (key, value) ∈ range db start limit ↔
      (cmp start key).isLE = true ∧ cmp key limit = .lt ∧ db[key]? = some value := by
  simp [range, mem_select, and_assoc]

/-- In an ordered list, stopping at the first entry that is not below the limit skips
nothing. -/
theorem takeWhile_eq_filter {entries : List (κ × ν)} {limit : κ}
    (ordered : entries.Pairwise fun left right => cmp left.1 right.1 = .lt) :
    (entries.takeWhile fun entry => cmp entry.1 limit == .lt) =
      entries.filter fun entry => cmp entry.1 limit == .lt := by
  induction entries with
  | nil => rfl
  | cons entry entries ih =>
    obtain ⟨first, rest⟩ := pairwise_cons.mp ordered
    rw [takeWhile_cons, filter_cons, ih rest]
    split
    next => rfl
    next notBelow =>
      symm
      apply filter_eq_nil_iff.mpr
      intro later member below
      have below : cmp later.1 limit = .lt := by simpa using below
      exact notBelow (by simpa using Std.TransCmp.lt_trans (first later member) below)

theorem scan_eq_select (db : TreeMap κ ν cmp) (p : κ → Bool) (limit : κ) :
    scan db p limit = select db fun key => p key && cmp key limit == .lt := by
  rw [scan, takeWhile_eq_filter (pairwise_select db p), select, select, filter_filter]
  congr 1
  funext entry
  exact Bool.and_comm _ _

end Iterators

section Prefixes

variable {α : Type} [Ord α] [Std.TransOrd α] [Std.LawfulEqOrd α]

/-- Between two keys with a common prefix all keys have it. -/
theorem isPrefix_of_between {first lower upper key : List α}
    (above : (compare (first ++ lower) key).isLE = true)
    (below : compare key (first ++ upper) = .lt) : first <+: key := by
  induction first generalizing key with
  | nil => exact nil_prefix
  | cons a first ih =>
    cases key with
    | nil => simp at above
    | cons b key =>
      rw [List.cons_append, List.compare_cons_cons] at above below
      have same : a = b := by
        cases order : compare a b with
        | lt =>
          rw [Std.OrientedCmp.gt_of_lt order] at below
          cases below
        | eq => exact Std.LawfulEqCmp.eq_of_compare order
        | gt =>
          rw [order] at above
          cases above
      subst same
      rw [compare_self] at above below
      exact cons_prefix_cons.mpr ⟨rfl, ih above below⟩

end Prefixes

end KeyValue
