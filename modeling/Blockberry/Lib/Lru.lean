import Mathlib.Data.List.Nodup

/-!
# Caches that forget the least recently added key

A cache of bounded size keeps its keys in the order in which they were last added, the newest
first. Adding a key to a full cache drops the last one. Asking for a key does not move it. This is
the documented behaviour of `Add` and `Contains` in the package `golang-lru`. It is assumed, not
taken from the code of the package.
-/

structure LruCache (α : Type) (capacity : Nat) where
  keys : List α
  nodup : keys.Nodup
  length_le : keys.length ≤ capacity

namespace LruCache

open List

variable {α : Type} {capacity : Nat}

def empty : LruCache α capacity where
  keys := []
  nodup := nodup_nil
  length_le := Nat.zero_le capacity

variable [DecidableEq α]

def add (cache : LruCache α capacity) (key : α) : LruCache α capacity where
  keys := (key :: cache.keys.erase key).take capacity
  nodup := by
    have fresh : key ∉ cache.keys.erase key := cache.nodup.not_mem_erase
    exact ((cache.nodup.erase key).cons fresh).sublist (take_sublist capacity _)
  length_le := length_take_le capacity _

def contains (cache : LruCache α capacity) (key : α) : Bool := cache.keys.contains key

theorem contains_empty (key : α) : (empty : LruCache α capacity).contains key = false := rfl

/-- Adding brings in no other key. -/
theorem eq_or_contains_of_add {cache : LruCache α capacity} {added key : α}
    (found : (cache.add added).contains key = true) :
    key = added ∨ cache.contains key = true := by
  have member : key ∈ (added :: cache.keys.erase added).take capacity := elem_iff.mp found
  rcases mem_cons.mp (mem_of_mem_take member) with same | other
  · exact Or.inl same
  · exact Or.inr (elem_iff.mpr (mem_of_mem_erase other))

end LruCache
