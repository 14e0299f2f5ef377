import Blockberry.Lib.Run

/-!
# What a run does to the outside

Every step of a run may append entries to a log. Two kinds of facts about the whole
log are stated here once: a kind of entry occurs at most once if a flag of the state
guards it, and every entry is justified by the entries before it.
-/

namespace Run

variable {State Event Out : Type*}

/-- The log of a run. -/
def trace (step : State → Event → State) (emit : State → Event → List Out) :
    State → List Event → List Out
  | _, [] => []
  | start, event :: events => emit start event ++ trace step emit (step start event) events

variable {step : State → Event → State} {emit : State → Event → List Out} {start : State}

/-- The induction over runs for a property of the state and of the log up to it. -/
theorem invariant_trace {holds : State → List Out → Prop} (events : List Event)
    {log : List Out} (initial : holds start log)
    (preserved : ∀ state log event, holds state log →
      holds (step state event) (log ++ emit state event)) :
    holds (after step start events) (log ++ trace step emit start events) := by
  induction events generalizing start log with
  | nil => simpa [trace] using initial
  | cons event events ih =>
    have later := ih (preserved start log event initial)
    rwa [List.append_assoc] at later

/-- The same induction over the runs whose steps all meet a predicate. -/
theorem EveryStep.invariant_trace {ok : State → Event → Prop}
    {holds : State → List Out → Prop} {events : List Event} {log : List Out}
    (every : EveryStep step ok start events) (initial : holds start log)
    (preserved : ∀ state log event, holds state log → ok state event →
      holds (step state event) (log ++ emit state event)) :
    holds (after step start events) (log ++ trace step emit start events) := by
  induction events generalizing start log with
  | nil => simpa [trace] using initial
  | cons event events ih =>
    have later := ih every.2 (preserved start log event initial every.1)
    rwa [List.append_assoc] at later

section Once

variable {kind : Out → Bool} {done : State → Prop}

/-- A kind of entry that is not made once something is done does not occur after it. -/
theorem countP_trace_eq_zero
    (silent : ∀ state event, done state → (emit state event).countP kind = 0)
    (stays : ∀ state event, done state → done (step state event)) (events : List Event)
    (isDone : done start) : (trace step emit start events).countP kind = 0 := by
  induction events generalizing start with
  | nil => rfl
  | cons event events ih =>
    rw [trace, List.countP_append, silent start event isDone, ih (stays start event isDone)]

/-- A kind of entry occurs at most once if the step that makes one is the last to do so. -/
theorem countP_trace_le_one
    (silent : ∀ state event, done state → (emit state event).countP kind = 0)
    (stays : ∀ state event, done state → done (step state event))
    (once : ∀ state event, (emit state event).countP kind ≤ 1)
    (finishes : ∀ state event, 0 < (emit state event).countP kind → done (step state event))
    (events : List Event) : (trace step emit start events).countP kind ≤ 1 := by
  induction events generalizing start with
  | nil => exact Nat.zero_le 1
  | cons event events ih =>
    rw [trace, List.countP_append]
    rcases Nat.eq_zero_or_pos ((emit start event).countP kind) with zero | positive
    · rw [zero, Nat.zero_add]
      exact ih
    · rw [countP_trace_eq_zero silent stays events (finishes start event positive)]
      exact once start event

end Once

end Run

namespace Log

variable {Entry : Type*} {cause : List Entry → Entry → Prop} {log added : List Entry}
  {entry : Entry}

/-- Every entry has its cause in the entries before it. -/
def Causal (cause : List Entry → Entry → Prop) (log : List Entry) : Prop :=
  ∀ before entry after, log = before ++ entry :: after → cause before entry

theorem causal_nil : Causal cause [] := by
  intro before entry after split
  simp at split

theorem Causal.concat (causal : Causal cause log) (caused : cause log entry) :
    Causal cause (log ++ [entry]) := by
  intro before other after split
  rcases List.eq_nil_or_concat after with rfl | ⟨init, last, rfl⟩
  · rcases List.append_inj' split rfl with ⟨rfl, same⟩
    cases same
    exact caused
  · rw [List.concat_eq_append, ← List.cons_append, ← List.append_assoc] at split
    rcases List.append_inj' split rfl with ⟨rfl, -⟩
    exact causal before other init rfl

/-- The same for several entries, each caused by what is before it. -/
theorem Causal.append (causal : Causal cause log)
    (caused : ∀ first entry rest, added = first ++ entry :: rest → cause (log ++ first) entry) :
    Causal cause (log ++ added) := by
  induction added generalizing log with
  | nil => rwa [List.append_nil]
  | cons head tail ih =>
    have first : cause log head := by
      have atHead := caused [] head tail rfl
      rwa [List.append_nil] at atHead
    have later : Causal cause (log ++ [head] ++ tail) := by
      apply ih (causal.concat first)
      intro between entry rest split
      rw [List.append_assoc]
      exact caused (head :: between) entry rest (by rw [split, List.cons_append])
    rwa [List.append_assoc] at later

end Log
