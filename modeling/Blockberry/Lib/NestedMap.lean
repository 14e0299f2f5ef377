import Blockberry.Lib.FiniteMap

/-!
# Maps of maps

A map whose values are maps again, of which none is kept empty and none grows beyond a bound.
An inner map that has been changed is put back, or dropped if nothing is left in it.
-/

namespace NestedMap

open FiniteMap

variable {α β γ : Type} [DecidableEq α]

/-- The inner map takes its place, or the key is deleted if it is empty. -/
def putBack (map : Finmap fun _ : α => Finmap fun _ : β => γ) (key : α)
    (inner : Finmap fun _ : β => γ) : Finmap fun _ : α => Finmap fun _ : β => γ :=
  if inner.keys.card = 0 then map.erase key else map.insert key inner

/-- The pair of keys has a value. -/
def Holds (map : Finmap fun _ : α => Finmap fun _ : β => γ) (key : α) (sub : β) : Prop :=
  ∃ inner, map.lookup key = some inner ∧ sub ∈ inner

/-- No inner map is empty or larger than the bound. -/
def Sized (bound : Int) (map : Finmap fun _ : α => Finmap fun _ : β => γ) : Prop :=
  ∀ key inner, map.lookup key = some inner → 0 < inner.keys.card ∧ inner.keys.card ≤ bound

variable {map : Finmap fun _ : α => Finmap fun _ : β => γ} {key other : α} {sub : β}
  {inner : Finmap fun _ : β => γ} {bound : Int}

theorem sized_empty : Sized bound (∅ : Finmap fun _ : α => Finmap fun _ : β => γ) := by
  intro key inner found
  rw [Finmap.lookup_empty] at found
  cases found

theorem Sized.insert (sized : Sized bound map) (positive : 0 < inner.keys.card)
    (small : inner.keys.card ≤ bound) : Sized bound (map.insert key inner) := by
  intro query value found
  rw [lookup_insert] at found
  split at found
  next =>
    cases found
    exact ⟨positive, small⟩
  next => exact sized query value found

theorem Sized.erase (sized : Sized bound map) (key : α) : Sized bound (map.erase key) := by
  intro query value found
  rw [lookup_erase] at found
  split at found
  next => cases found
  next => exact sized query value found

theorem Sized.putBack (sized : Sized bound map) (small : inner.keys.card ≤ bound) :
    Sized bound (putBack map key inner) := by
  rw [NestedMap.putBack]
  split
  next => exact sized.erase key
  next some => exact sized.insert (Nat.pos_of_ne_zero some) small

theorem holds_insert_of_mem (member : sub ∈ inner) : Holds (map.insert key inner) key sub :=
  ⟨inner, Finmap.lookup_insert map, member⟩

theorem Holds.insert_of_ne (holds : Holds map other sub) (different : key ≠ other) :
    Holds (map.insert key inner) other sub := by
  obtain ⟨found, isFound, member⟩ := holds
  exact ⟨found, by rw [lookup_insert, if_neg different, isFound], member⟩

theorem Holds.erase_of_ne (holds : Holds map other sub) (different : key ≠ other) :
    Holds (map.erase key) other sub := by
  obtain ⟨found, isFound, member⟩ := holds
  exact ⟨found, by rw [lookup_erase, if_neg different, isFound], member⟩

theorem holds_putBack_of_mem (member : sub ∈ inner) : Holds (putBack map key inner) key sub := by
  have notEmpty : inner.keys.card ≠ 0 := Finset.card_ne_zero_of_mem (Finmap.mem_keys.mpr member)
  rw [putBack, if_neg notEmpty]
  exact holds_insert_of_mem member

theorem Holds.putBack_of_ne (holds : Holds map other sub) (different : key ≠ other) :
    Holds (putBack map key inner) other sub := by
  rw [putBack]
  split
  next => exact holds.erase_of_ne different
  next => exact holds.insert_of_ne different

end NestedMap
