import Mathlib.Data.Int.Order.Basic
import Mathlib.Logic.Function.Basic

/-!
# Leasing ranges from a cursor

A cursor hands out consecutive ranges of the positions above `done` to workers, at most one to
each. Nothing is forgotten when every position between `done` and the cursor lies in the range of
some worker. The rules say which moves keep this.
-/

namespace Lease

open Function

variable {ι : Type*} {done done' cursor cursor' : ℤ} {range : ι → Option (ℤ × ℤ)}

/-- The range of a worker contains the position. -/
def Holds (range : ι → Option (ℤ × ℤ)) (worker : ι) (position : ℤ) : Prop :=
  ∃ low high, range worker = some (low, high) ∧ low ≤ position ∧ position ≤ high

/-- Every position passed by the cursor and not done is in some range. -/
def Covered (done cursor : ℤ) (range : ι → Option (ℤ × ℤ)) : Prop :=
  ∀ position, done < position → position < cursor → ∃ worker, Holds range worker position

theorem covered_of_cursor_le (behind : cursor ≤ done + 1) : Covered done cursor range := by
  intro position notDone passed
  omega

variable [DecidableEq ι] {worker : ι} {low high : ℤ}

theorem holds_update_of_ne {other : ι} {lease : Option (ℤ × ℤ)} {position : ℤ}
    (different : other ≠ worker) :
    Holds (update range worker lease) other position ↔ Holds range other position := by
  simp only [Holds, update_of_ne different]

variable (covered : Covered done cursor range)

include covered

/-- An idle worker gets the next range. -/
theorem Covered.issue (idle : range worker = none) :
    Covered done (high + 1) (update range worker (some (cursor, high))) := by
  intro position notDone passed
  rcases lt_or_ge position cursor with earlier | later
  · rcases covered position notDone earlier with ⟨other, holds⟩
    refine ⟨other, (holds_update_of_ne ?_).mpr holds⟩
    rintro rfl
    rcases holds with ⟨low, high, leased, -⟩
    rw [idle] at leased
    contradiction
  · exact ⟨worker, cursor, high, update_self .., later, Int.le_of_lt_add_one passed⟩

/-- A range is taken back and the cursor goes back to where it started. -/
theorem Covered.rewind (leased : range worker = some (low, high)) (back : cursor' ≤ cursor)
    (toStart : cursor' ≤ low) :
    Covered done cursor' (update range worker none) := by
  intro position notDone passed
  rcases covered position notDone (Int.lt_of_lt_of_le passed back) with ⟨other, holds⟩
  refine ⟨other, (holds_update_of_ne ?_).mpr holds⟩
  rintro rfl
  rcases holds with ⟨low', high', leased', above, -⟩
  rw [leased] at leased'
  cases leased'
  omega

/-- A range is dropped while `done` may rise: what it held is done or is held by
somebody else. -/
theorem Covered.drop (raised : done ≤ done')
    (elsewhere : ∀ position, Holds range worker position → done < position →
      position < cursor → (∃ other, other ≠ worker ∧ Holds range other position) ∨
        position ≤ done') :
    Covered done' cursor (update range worker none) := by
  intro position notDone passed
  rcases covered position (Int.lt_of_le_of_lt raised notDone) passed with ⟨holder, holds⟩
  by_cases same : holder = worker
  · subst same
    rcases elsewhere position holds (Int.lt_of_le_of_lt raised notDone) passed with
      ⟨other, different, held⟩ | isDone
    · exact ⟨other, (holds_update_of_ne different).mpr held⟩
    · exact absurd isDone (not_le.mpr notDone)
  · exact ⟨holder, (holds_update_of_ne same).mpr holds⟩

end Lease
