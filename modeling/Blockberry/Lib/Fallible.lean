import Mathlib.Data.List.Basic

/-!
# Computations that may fail

How sequences and loops of such computations succeed.
-/

namespace Fallible

variable {ε α β : Type}

theorem ok_bind (value : α) (next : α → Except ε β) : (Except.ok value >>= next) = next value := rfl

/-- A sequence succeeds if each of its computations does. -/
theorem exists_of_bind_eq_ok {first : Except ε α} {next : α → Except ε β} {result : β}
    (isOk : first >>= next = .ok result) :
    ∃ value, first = .ok value ∧ next value = .ok result := by
  cases first with
  | error err => cases isOk
  | ok value => exact ⟨value, rfl, isOk⟩

/-- A sequence fails where its first computation does, or the second after it. -/
theorem bind_eq_error_iff {first : Except ε α} {next : α → Except ε β} {err : ε} :
    first >>= next = .error err ↔
      first = .error err ∨ ∃ value, first = .ok value ∧ next value = .error err := by
  cases first with
  | error | ok => simp [Bind.bind, Except.bind]

variable {computation : Except ε α}

theorem map_eq_ok_iff {image : α → β} {result : β} :
    computation.map image = .ok result ↔
      ∃ value, computation = .ok value ∧ image value = result := by
  cases computation with
  | error | ok => simp [Except.map]

theorem map_eq_error_iff {image : α → β} {err : ε} :
    computation.map image = .error err ↔ computation = .error err := by
  cases computation with
  | error | ok => simp [Except.map]

theorem mapError_eq_ok_iff {ε' : Type} {wrap : ε → ε'} {result : α} :
    computation.mapError wrap = .ok result ↔ computation = .ok result := by
  cases computation with
  | error | ok => simp [Except.mapError]

theorem elim_eq_ok_iff {computation : Option α} {err : ε} {result : α} :
    computation.elim (Except.error err) Except.ok = Except.ok result ↔
      computation = some result := by
  cases computation with
  | none | some => simp

/-- A loop succeeds if each of its rounds does. -/
theorem mapM_eq_ok {compute : α → Except ε β} {result : α → β} {items : List α}
    (each : ∀ item ∈ items, compute item = .ok (result item)) :
    items.mapM compute = .ok (items.map result) := by
  induction items with
  | nil => rfl
  | cons item items ih =>
    have rest := ih fun other member => each other (List.mem_cons_of_mem _ member)
    rw [List.mapM_cons, each item List.mem_cons_self, ok_bind, rest]
    rfl

end Fallible
