import Mathlib.Data.Finmap

/-!
# Iteration over finite maps

A hash map is an unordered finite map. A loop over one visits the keys in an
order that the language does not specify: any list that holds every key exactly
once.
-/

namespace FiniteMap

open Finmap Multiset

variable {α β : Type*} [DecidableEq α]

/-- An iteration order of a map. -/
structure Enumerates (order : List α) (map : Finmap fun _ : α => β) : Prop where
  nodup : order.Nodup
  mem_iff : ∀ key, key ∈ order ↔ key ∈ map

variable {map : Finmap fun _ : α => β}

theorem Enumerates.length_eq {order : List α}
    (enumerates : Enumerates order map) : order.length = map.keys.card := by
  rw [← List.toFinset_card_of_nodup enumerates.nodup]
  congr 1
  apply Finset.ext
  intro key
  rw [List.mem_toFinset, enumerates.mem_iff, mem_keys]

instance (order : List α) (map : Finmap fun _ : α => β) : Decidable (Enumerates order map) :=
  decidable_of_iff (order.Nodup ∧ order.toFinset = map.keys) <| by
    constructor
    · intro both
      refine ⟨both.1, fun key => ?_⟩
      rw [← List.mem_toFinset, both.2, Finmap.mem_keys]
    · intro enumerates
      refine ⟨enumerates.nodup, Finset.ext fun key => ?_⟩
      rw [List.mem_toFinset, enumerates.mem_iff, Finmap.mem_keys]

/-- A map with its values replaced by what a function makes of them. -/
def mapValues {γ : Type*} (f : β → γ) (map : Finmap fun _ : α => β) : Finmap fun _ : α => γ where
  entries := map.entries.map (Sigma.map id fun _ => f)
  nodupKeys := by
    rw [← Multiset.nodup_keys, Multiset.keys, Multiset.map_map]
    exact Multiset.nodup_keys.mpr map.nodupKeys

variable {γ : Type*}

theorem lookup_mapValues (f : β → γ) (map : Finmap fun _ : α => β) (key : α) :
    (mapValues f map).lookup key = (map.lookup key).map f := by
  apply Option.ext
  intro value
  rw [lookup_eq_some_iff, Option.map_eq_some_iff, mapValues, mem_map]
  constructor
  · rintro ⟨⟨other, original⟩, member, same⟩
    cases same
    exact ⟨original, lookup_eq_some_iff.mpr member, rfl⟩
  · rintro ⟨original, found, rfl⟩
    exact ⟨⟨key, original⟩, lookup_eq_some_iff.mp found, rfl⟩

theorem mem_mapValues (f : β → γ) (map : Finmap fun _ : α => β) (key : α) :
    key ∈ mapValues f map ↔ key ∈ map := by
  rw [← lookup_isSome, lookup_mapValues, Option.isSome_map, lookup_isSome]

/-- The entries whose values pass a test. -/
def filterValues (keep : β → Bool) (map : Finmap fun _ : α => β) : Finmap fun _ : α => β where
  entries := map.entries.filter fun entry => keep entry.2 = true
  nodupKeys := by
    rw [← Multiset.nodup_keys]
    exact nodup_of_le (map_le_map (filter_le _ _))
      (Multiset.nodup_keys.mpr map.nodupKeys)

theorem lookup_filterValues (keep : β → Bool) (map : Finmap fun _ : α => β) (key : α) :
    (filterValues keep map).lookup key = (map.lookup key).filter keep := by
  apply Option.ext
  intro value
  rw [lookup_eq_some_iff, Option.filter_eq_some_iff, lookup_eq_some_iff,
    filterValues, mem_filter]

theorem lookup_insert (map : Finmap fun _ : α => β) (key query : α) (value : β) :
    (map.insert key value).lookup query = if key = query then some value else map.lookup query := by
  split
  next same => rw [same, Finmap.lookup_insert]
  next different => exact Finmap.lookup_insert_of_ne _ (Ne.symm different)

theorem lookup_erase (map : Finmap fun _ : α => β) (key query : α) :
    (map.erase key).lookup query = if key = query then none else map.lookup query := by
  split
  next same => rw [same, Finmap.lookup_erase]
  next different => exact Finmap.lookup_erase_ne (Ne.symm different)

theorem mapValues_insert (f : β → γ) (map : Finmap fun _ : α => β) (key : α)
    (value : β) : mapValues f (map.insert key value) = (mapValues f map).insert key (f value) := by
  apply ext_lookup
  intro query
  rw [lookup_mapValues, lookup_insert, lookup_insert, lookup_mapValues]
  split <;> rfl

theorem mapValues_erase (f : β → γ) (map : Finmap fun _ : α => β) (key : α) :
    mapValues f (map.erase key) = (mapValues f map).erase key := by
  apply ext_lookup
  intro query
  rw [lookup_mapValues, lookup_erase, lookup_erase, lookup_mapValues]
  split <;> rfl

theorem keys_insert (map : Finmap fun _ : α => β) (key : α) (value : β) :
    (map.insert key value).keys = insert key map.keys := by
  apply Finset.ext
  intro query
  rw [mem_keys, mem_insert, Finset.mem_insert, mem_keys]

variable {key : α}

theorem card_keys_insert (absent : key ∉ map) (value : β) :
    (map.insert key value).keys.card = map.keys.card + 1 := by
  rw [keys_insert, Finset.card_insert_of_notMem (mt mem_keys.mp absent)]

theorem card_keys_insert_of_mem (present : key ∈ map)
    (value : β) : (map.insert key value).keys.card = map.keys.card := by
  rw [keys_insert, Finset.insert_eq_of_mem (mem_keys.mpr present)]

theorem card_keys_erase (present : key ∈ map) : (map.erase key).keys.card + 1 = map.keys.card := by
  rw [keys_erase, Finset.card_erase_add_one (mem_keys.mpr present)]

/-- The value of a key, or the zero value where the key is absent. -/
def valueOr (zero : β) (map : Finmap fun _ : α => β) (key : α) : β :=
  (map.lookup key).getD zero

@[simp] theorem valueOr_empty (zero : β) (key : α) :
    valueOr zero (∅ : Finmap fun _ : α => β) key = zero := by
  simp [valueOr]

theorem valueOr_insert (zero : β) (map : Finmap fun _ : α => β) (key query : α) (value : β) :
    valueOr zero (map.insert key value) query =
      if query = key then value else valueOr zero map query := by
  simp only [valueOr]
  split
  next equal =>
    subst equal
    simp
  next different => rw [lookup_insert_of_ne _ different]

/-! ## Counting -/

/-- How many values pass a test. -/
def countValues (keep : β → Bool) (map : Finmap fun _ : α => β) : Nat :=
  (map.entries.filter fun entry => keep entry.2 = true).card

variable {keep : β → Bool}

theorem countValues_insert (absent : key ∉ map) (value : β) :
    countValues keep (map.insert key value) = countValues keep map + (keep value).toNat := by
  rw [countValues, entries_insert_of_notMem absent, filter_cons, card_add,
    add_comm]
  cases keep value with
  | true | false => simp [countValues]

theorem insert_erase (map : Finmap fun _ : α => β) (key : α) (value : β) :
    (map.erase key).insert key value = map.insert key value := by
  apply ext_lookup
  intro query
  rw [lookup_insert, lookup_insert, lookup_erase]
  split <;> rfl

theorem insert_of_lookup {value : β}
    (found : map.lookup key = some value) : map.insert key value = map := by
  apply ext_lookup
  intro query
  rw [lookup_insert]
  split
  next same => rw [← same, found]
  next => rfl

theorem countValues_erase {value : β} (found : map.lookup key = some value) :
    countValues keep (map.erase key) + (keep value).toNat = countValues keep map := by
  have absent : key ∉ map.erase key := notMem_erase_self
  rw [← countValues_insert absent, insert_erase, insert_of_lookup found]

/-- A value replaced by another. -/
theorem countValues_replace {old : β} (found : map.lookup key = some old) (value : β) :
    countValues keep (map.insert key value) + (keep old).toNat =
      countValues keep map + (keep value).toNat := by
  have absent : key ∉ map.erase key := notMem_erase_self
  rw [← insert_erase, countValues_insert absent, ← countValues_erase found]
  omega

section Lists

variable {γ : Type*}

/-- A value is added to the list of a key. -/
def addTo (index : Finmap fun _ : α => List γ) (key : α) (value : γ) : Finmap fun _ : α => List γ :=
  index.insert key (valueOr [] index key ++ [value])

variable (index : Finmap fun _ : α => List γ) (key query : α)

theorem valueOr_addTo (value : γ) : valueOr [] (addTo index key value) query =
      if query = key then valueOr [] index query ++ [value] else valueOr [] index query := by
  rw [addTo, valueOr_insert]
  split
  next same => rw [same]
  next => rfl

/-- A list without values is removed with its key. -/
def dropEmpty (index : Finmap fun _ : α => List γ) (key : α) : Finmap fun _ : α => List γ :=
  if (valueOr [] index key).length = 0 then index.erase key else index

theorem valueOr_dropEmpty : valueOr [] (dropEmpty index key) query = valueOr [] index query := by
  rw [dropEmpty]
  split
  next empty =>
    rw [valueOr, lookup_erase]
    split
    next same =>
      rw [← same, List.length_eq_zero_iff.mp empty]
      rfl
    next => rfl
  next => rfl

variable [DecidableEq γ]

/-- The first mention of a value is removed from the list of a key. -/
def eraseFrom (index : Finmap fun _ : α => List γ) (key : α) (value : γ) :
    Finmap fun _ : α => List γ :=
  if (valueOr [] index key).contains value then
    index.insert key ((valueOr [] index key).erase value)
  else index

/-- The same, and the list with it if there are no values left. -/
def removeFrom (index : Finmap fun _ : α => List γ) (key : α) (value : γ) :
    Finmap fun _ : α => List γ :=
  dropEmpty (eraseFrom index key value) key

theorem valueOr_eraseFrom (value : γ) : valueOr [] (eraseFrom index key value) query =
      if query = key then (valueOr [] index query).erase value else valueOr [] index query := by
  rw [eraseFrom]
  split
  next =>
    rw [valueOr_insert]
    split
    next same => rw [same]
    next => rfl
  next absent =>
    split
    next same =>
      subst same
      rw [List.erase_of_not_mem (by simpa using absent)]
    next => rfl

theorem valueOr_removeFrom (value : γ) : valueOr [] (removeFrom index key value) query =
      if query = key then (valueOr [] index query).erase value else valueOr [] index query := by
  rw [removeFrom, valueOr_dropEmpty, valueOr_eraseFrom]

end Lists

end FiniteMap
