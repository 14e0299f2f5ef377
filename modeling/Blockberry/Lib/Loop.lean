import Mathlib.Data.Nat.Init

/-!
# Loops

A loop is a function that takes one round: it goes on with the next state or ends the loop with
a result. A loop that goes on for ever has no result, so that termination is a statement about
the loop and not a restriction of the language it is written in.
-/

namespace Loop

variable {σ ρ : Type*}

inductive Round (σ ρ : Type*) where
  | next (state : σ)
  | done (result : ρ)
  deriving DecidableEq, Repr

/-- The loop ends with the result after finitely many rounds. -/
inductive Ends (round : σ → Round σ ρ) : σ → ρ → Prop where
  | done {state : σ} {result : ρ} : round state = .done result → Ends round state result
  | next {state later : σ} {result : ρ} :
      round state = .next later → Ends round later result → Ends round state result

variable {round : σ → Round σ ρ} {state : σ} {result : ρ}

theorem ends_of_next {later : σ} (isNext : round state = .next later) :
    Ends round state result ↔ Ends round later result := by
  constructor
  · intro ends
    cases ends with
    | done isDone => rw [isNext] at isDone; cases isDone
    | next isLater ends =>
      rw [isNext] at isLater
      cases isLater
      exact ends
  · exact Ends.next isNext

theorem ends_of_done {other : ρ} (isDone : round state = .done other) :
    Ends round state result ↔ result = other := by
  constructor
  · intro ends
    cases ends with
    | done isResult =>
      rw [isDone] at isResult
      cases isResult
      rfl
    | next isLater _ => rw [isDone] at isLater; cases isLater
  · rintro rfl
    exact Ends.done isDone

/-- A loop has at most one result. -/
theorem Ends.unique {other : ρ} (ends : Ends round state result)
    (endsToo : Ends round state other) : result = other := by
  induction ends with
  | done isDone => exact ((ends_of_done isDone).mp endsToo).symm
  | next isNext _ ih => exact ih ((ends_of_next isNext).mp endsToo)

/-- The rule for total correctness: each round goes on with a smaller variant, in the invariant,
or ends with a result that meets the postcondition. -/
theorem exists_ends (holds : σ → Prop) (variant : σ → Nat) {post : ρ → Prop}
    (each : ∀ state, holds state →
      (∃ later, round state = .next later ∧ holds later ∧ variant later < variant state) ∨
        ∃ result, round state = .done result ∧ post result)
    (initially : holds state) : ∃ result, Ends round state result ∧ post result := by
  induction size : variant state using Nat.strong_induction_on generalizing state with
  | h size ih =>
    rcases each state initially with ⟨later, isNext, holdsLater, smaller⟩ | ⟨result, isDone, met⟩
    · obtain ⟨result, ends, met⟩ := ih (variant later) (size ▸ smaller) holdsLater rfl
      exact ⟨result, ends.next isNext, met⟩
    · exact ⟨result, .done isDone, met⟩

/-- A loop that goes on from every state of an invariant never ends. -/
theorem not_ends (holds : σ → Prop)
    (each : ∀ state, holds state → ∃ later, round state = .next later ∧ holds later)
    (initially : holds state) (result : ρ) : ¬Ends round state result := by
  intro ends
  induction ends with
  | done isDone =>
    obtain ⟨later, isNext, -⟩ := each _ initially
    rw [isDone] at isNext
    cases isNext
  | next isNext _ ih =>
    obtain ⟨later, isLater, holdsLater⟩ := each _ initially
    rw [isNext] at isLater
    cases isLater
    exact ih holdsLater

end Loop
