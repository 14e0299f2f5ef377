import Mathlib.Order.Bounds.Basic
import Mathlib.Order.Nat

/-!
# Longest runs

A loop that takes one number after the other as long as a condition holds, and at most a
given number of them, takes the longest run of the condition within that bound.
-/

namespace LongestRun

open Nat

variable {p : Nat → Prop} {bound length : Nat}

/-- The lengths, up to a bound, of the initial segments on which `p` holds. -/
def lengths (p : Nat → Prop) (bound : Nat) : Set Nat :=
  {length | length ≤ bound ∧ ∀ i < length, p i}

theorem isGreatest_of_no_room : IsGreatest (lengths p 0) 0 :=
  ⟨⟨le_rfl, fun _ before => absurd before (not_lt_zero _)⟩, fun _ member => member.1⟩

theorem isGreatest_of_stop (stop : ¬p 0) : IsGreatest (lengths p bound) 0 := by
  refine ⟨⟨zero_le bound, fun _ before => absurd before (not_lt_zero _)⟩, ?_⟩
  intro length member
  by_contra longer
  exact stop (member.2 0 (Nat.lt_of_not_le longer))

theorem isGreatest_succ (first : p 0)
    (rest : IsGreatest (lengths (fun i => p (i + 1)) bound) length) :
    IsGreatest (lengths p (bound + 1)) (length + 1) := by
  constructor
  · refine ⟨succ_le_succ rest.1.1, ?_⟩
    intro i before
    cases i with
    | zero => exact first
    | succ i => exact rest.1.2 i (lt_of_succ_lt_succ before)
  · intro other member
    cases other with
    | zero => exact zero_le _
    | succ other =>
      refine succ_le_succ (rest.2 ⟨le_of_succ_le_succ member.1, ?_⟩)
      intro i before
      exact member.2 (i + 1) (succ_lt_succ before)

end LongestRun
