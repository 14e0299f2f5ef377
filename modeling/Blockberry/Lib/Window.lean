import Mathlib.Algebra.Order.BigOperators.Group.List
import Mathlib.Data.Int.Order.Basic
import Mathlib.Tactic.Linarith

/-!
# Amounts in a sliding window

A log lists entries with a time and an amount. The window of a given length that ends at a time
holds the entries after its start up to that time. A new entry that leaves room in the window
ending with it leaves room in every window.
-/

namespace Window

open List

variable {α : Type*} (time amount : α → Int)

/-- The amounts after a time. -/
def since (start : Int) (log : List α) : Int :=
  ((log.filter fun entry => start < time entry).map amount).sum

/-- The amounts after a time up to another. -/
def within (start finish : Int) (log : List α) : Int :=
  ((log.filter fun entry => start < time entry ∧ time entry ≤ finish).map amount).sum

/-- No window of the length holds more than the rate. -/
def Bounded (interval rate : Int) (log : List α) : Prop :=
  ∀ finish, within time amount (finish - interval) finish log ≤ rate

variable {time amount} {log : List α} (start : Int)

@[simp] theorem since_nil : since time amount start [] = 0 := rfl

variable (start finish : Int)

@[simp] theorem within_nil : within time amount start finish [] = 0 := rfl

theorem since_append (first second : List α) : since time amount start (first ++ second) =
      since time amount start first + since time amount start second := by
  simp [since]

theorem within_append (first second : List α) : within time amount start finish (first ++ second) =
      within time amount start finish first + within time amount start finish second := by
  simp [within]

theorem since_cons (entry : α) (log : List α) : since time amount start (entry :: log) =
      (if start < time entry then amount entry else 0) + since time amount start log := by
  rw [since, filter_cons]
  split <;> simp_all [since]

theorem within_cons (entry : α) (log : List α) : within time amount start finish (entry :: log) =
      (if start < time entry ∧ time entry ≤ finish then amount entry else 0) +
        within time amount start finish log := by
  rw [within, filter_cons]
  split <;> simp_all [within]

theorem since_eq_zero {start : Int} (past : ∀ entry ∈ log, time entry ≤ start) :
    since time amount start log = 0 := by
  have none : (log.filter fun entry => start < time entry) = [] := by
    rw [filter_eq_nil_iff]
    intro entry member
    have late := past entry member
    simpa using late
  rw [since, none]
  rfl

theorem since_eq_sum {start : Int} (later : ∀ entry ∈ log, start < time entry) :
    since time amount start log = (log.map amount).sum := by
  have all : (log.filter fun entry => start < time entry) = log := by
    rw [filter_eq_self]
    intro entry member
    simpa using later entry member
  rw [since, all]

/-- A window holds no more than there is since its start, or since an earlier time. -/
theorem within_le_since {early start : Int} (finish : Int) (earlier : early ≤ start)
    (nonneg : ∀ entry ∈ log, 0 ≤ amount entry) :
    within time amount start finish log ≤ since time amount early log := by
  induction log with
  | nil => rfl
  | cons entry log ih =>
    have rest := ih fun other member => nonneg other (mem_cons_of_mem _ member)
    have first := nonneg entry mem_cons_self
    rw [within_cons, since_cons]
    split
    next inside =>
      rw [if_pos (by omega)]
      omega
    next =>
      split
      next => omega
      next => omega

/-- An ordered log is what has left the window, and then what has not. -/
theorem exists_split (ordered : log.Pairwise fun earlier later => time earlier ≤ time later) :
    ∃ old rest, log = old ++ rest ∧ (∀ entry ∈ old, time entry ≤ start) ∧
      ∀ entry ∈ rest, start < time entry := by
  induction log with
  | nil => exact ⟨[], [], rfl, by simp, by simp⟩
  | cons entry log ih =>
    rw [pairwise_cons] at ordered
    by_cases isLive : start < time entry
    · refine ⟨[], entry :: log, rfl, by simp, fun other member => ?_⟩
      cases member with
      | head => exact isLive
      | tail _ member => exact isLive.trans_le (ordered.1 other member)
    · obtain ⟨old, rest, split, expired, live⟩ := ih ordered.2
      refine ⟨entry :: old, rest, by rw [split, cons_append], fun other member => ?_, live⟩
      cases member with
      | head => omega
      | tail _ member => exact expired other member

/-- An entry with room in the window that ends with it. -/
theorem Bounded.append {interval rate : Int} {entry : α}
    (bounded : Bounded time amount interval rate log)
    (nonneg : ∀ entry ∈ log, 0 ≤ amount entry)
    (room : since time amount (time entry - interval) log + amount entry ≤ rate) :
    Bounded time amount interval rate (log ++ [entry]) := by
  intro finish
  rw [within_append, within_cons, within_nil, add_zero]
  split
  next inside =>
    have held := @within_le_since α time amount log _ _ finish
      (show time entry - interval ≤ finish - interval by omega) nonneg
    omega
  next =>
    rw [add_zero]
    exact bounded finish

end Window
