import Mathlib.Data.List.Basic

/-!
# Finite runs of deterministic systems

A system is a step function on states and events; whatever the environment chooses is part of the
event. A run is the list of its events. Requirements are predicates on a state and the event taken
in it, demanded of every step.
-/

namespace Run

variable {State Event : Type*} (step : State → Event → State)

/-- The state after a list of events. -/
def after (start : State) (events : List Event) : State := events.foldl step start

@[simp] theorem after_nil (start : State) : after step start [] = start := rfl

@[simp] theorem after_cons (start : State) (event : Event) (events : List Event) :
    after step start (event :: events) = after step (step start event) events := rfl

@[simp] theorem after_append (start : State) (first second : List Event) :
    after step start (first ++ second) = after step (after step start first) second :=
  List.foldl_append

/-- Every event of the run meets the predicate in the state it is taken in. -/
def EveryStep (ok : State → Event → Prop) : State → List Event → Prop
  | _, [] => True
  | start, event :: events => ok start event ∧ EveryStep ok (step start event) events

variable {step} {ok : State → Event → Prop} {start : State} {holds : State → Prop}
  {events : List Event}

/-- The induction over runs: a property of the first state that every admitted
step preserves holds of the last one. -/
theorem EveryStep.invariant (every : EveryStep step ok start events) (initial : holds start)
    (preserved : ∀ state event, holds state → ok state event → holds (step state event)) :
    holds (after step start events) := by
  induction events generalizing start with
  | nil => exact initial
  | cons event events ih => exact ih every.2 (preserved _ _ initial every.1)

variable {good : State → Event → Prop}

/-- Two predicates on the steps that agree in every state that has an invariant, which the steps
they admit preserve, admit the same runs of events that are allowed. -/
theorem everyStep_iff_of_forall {allowed : Event → Prop} (initial : holds start)
    (agree : ∀ state event, holds state → allowed event → (good state event ↔ ok state event))
    (preserved : ∀ state event, holds state → allowed event → ok state event →
      holds (step state event))
    (all : ∀ event ∈ events, allowed event) :
    EveryStep step good start events ↔ EveryStep step ok start events := by
  induction events generalizing start with
  | nil => exact Iff.rfl
  | cons event events ih =>
    have first := all event List.mem_cons_self
    rw [EveryStep, EveryStep, agree start event initial first]
    apply and_congr_right
    intro admitted
    exact ih (preserved start event initial first admitted) fun later isLater =>
      all later (List.mem_cons_of_mem event isLater)

/-- The same for events that are all allowed. -/
theorem everyStep_iff (initial : holds start)
    (agree : ∀ state event, holds state → (good state event ↔ ok state event))
    (preserved : ∀ state event, holds state → ok state event → holds (step state event))
    (events : List Event) :
    EveryStep step good start events ↔ EveryStep step ok start events :=
  everyStep_iff_of_forall initial (fun state event holds _ => agree state event holds)
    (fun state event holds _ => preserved state event holds) fun _ _ => trivial

/-- What an invariant of the admitted steps implies of each of them holds along the run. -/
theorem EveryStep.imp_of_invariant (every : EveryStep step ok start events) (initial : holds start)
    (preserved : ∀ state event, holds state → ok state event → holds (step state event))
    (implies : ∀ state event, holds state → ok state event → good state event) :
    EveryStep step good start events := by
  induction events generalizing start with
  | nil => trivial
  | cons event events ih =>
    exact ⟨implies start event initial every.1, ih every.2 (preserved start event initial every.1)⟩

theorem everyStep_append (first second : List Event) : EveryStep step ok start (first ++ second) ↔
      EveryStep step ok start first ∧ EveryStep step ok (after step start first) second := by
  induction first generalizing start with
  | nil => exact (iff_of_eq (true_and _)).symm
  | cons event first ih =>
    rw [List.cons_append, EveryStep, EveryStep, ih, and_assoc, after_cons]

/-- The same induction when every event is admitted. -/
theorem invariant_after (events : List Event) (initial : holds start)
    (preserved : ∀ state event, holds state → holds (step state event)) :
    holds (after step start events) := by
  induction events generalizing start with
  | nil => exact initial
  | cons event events ih => exact ih (preserved _ _ initial)

/-- What an invariant implies of an event holds of every step of a run. -/
theorem everyStep_of_invariant (events : List Event) (initial : holds start)
    (preserved : ∀ state event, holds state → holds (step state event))
    (implies : ∀ state event, holds state → ok state event) :
    EveryStep step ok start events := by
  induction events generalizing start with
  | nil => trivial
  | cons event events ih => exact ⟨implies _ _ initial, ih (preserved _ _ initial)⟩

theorem everyStep_of_forall (all : ∀ state event, ok state event) (events : List Event) :
    EveryStep step ok start events := by
  induction events generalizing start with
  | nil => trivial
  | cons event events ih => exact ⟨all start event, ih⟩

/-- Steps that may fail do not, where an invariant lets each of them succeed. -/
theorem exists_foldlM {step : State → Event → Option State}
    (succeeds : ∀ state event, holds state → ∃ next, step state event = some next ∧ holds next)
    (events : List Event) {start : State} (initially : holds start) :
    ∃ last, events.foldlM step start = some last ∧ holds last := by
  induction events generalizing start with
  | nil => exact ⟨start, rfl, initially⟩
  | cons event events ih =>
    obtain ⟨next, isNext, holdsNext⟩ := succeeds start event initially
    obtain ⟨last, isLast, holdsLast⟩ := ih holdsNext
    refine ⟨last, ?_, holdsLast⟩
    rw [List.foldlM_cons, isNext]
    exact isLast

end Run
