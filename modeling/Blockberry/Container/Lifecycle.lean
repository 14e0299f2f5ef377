import Blockberry.Lib.Run
import Blockberry.Container.Sorting

/-!
# Runs of `StartAll` and `StopAll`

The container keeps one flag, which is set when every component has been started. A `StartAll` that
fails after a component has been started leaves it running with the flag down: the next `StopAll`
does nothing, and the next `StartAll` that gets as far starts it again. Dependencies always run
before what needs them is started.
-/

namespace Blockberry

open List Run

/-- A container together with the components that are running. -/
structure Deployment where
  container : Container
  running : Finset String

namespace ComponentCall

/-- The running components after a call. A failed `Start` leaves a component not running,
and `Stop` always stops it. -/
def apply (running : Finset String) : ComponentCall → Finset String
  | start name true => insert name running
  | start name false => running.erase name
  | stop name => running.erase name
  | onStart _ => running
  | validate _ => running
  | onStop _ => running

/-- `Start` is called on a component that is not running. -/
def OnIdle (running : Finset String) : ComponentCall → Prop
  | start name _ => name ∉ running
  | _ => True

/-- `Start` is called when all dependencies are running. -/
def WithDependencies (c : Container) (running : Finset String) : ComponentCall → Prop
  | start name _ => ∀ dep ∈ c.dependencies name, dep ∈ running
  | _ => True

def NotStart : ComponentCall → Prop
  | start _ _ => False
  | _ => True

/-- The calls that come before `Start`. -/
def IsPreparation : ComponentCall → Prop
  | onStart _ => True
  | validate _ => True
  | _ => False

end ComponentCall

open ComponentCall

/-- A call of the container, with iteration orders of its map and the errors of the
components. -/
inductive ContainerEvent (components : Components) where
  | startAll (orders : IterationOrders components) (outcomes : Outcomes)
  | stopAll (outcomes : Outcomes)

namespace Deployment

variable {components : Components}

/-- Components are registered, and nothing has been started. -/
def initial (components : Components) : Deployment := ⟨⟨components, [], false⟩, ∅⟩

def registerAll (registrations : List (String × Component × List String)) : Container :=
  Run.after (fun c (name, component, deps) => (c.register name component deps).toOption.getD c)
    Container.new registrations

/-- Every container begins a deployment once its components are registered. -/
theorem container_initial_registerAll
    (registrations : List (String × Component × List String)) :
    (initial (registerAll registrations).components).container = registerAll registrations := by
  let idle (c : Container) : Prop := (initial c.components).container = c
  refine @Run.invariant_after _ _ _ _ idle registrations rfl ?_
  rintro c ⟨name, component, deps⟩ isIdle
  rw [← isIdle]
  by_cases isTaken : name ∈ c.components
  · simp [idle, initial, Container.register, isTaken, Except.toOption]
  · simp [idle, initial, Container.register, isTaken, Except.toOption]

variable (s : Deployment)

def result : ContainerEvent components →
    Container × List ComponentCall × Option ContainerError
  | .startAll orders outcomes =>
    s.container.startAll orders.building orders.queueing orders.reporting outcomes
  | .stopAll outcomes => s.container.stopAll outcomes

variable (event : ContainerEvent components)

/-- The calls on components during a call of the container. -/
def calls : List ComponentCall :=
  (s.result event).2.1

def step : Deployment :=
  ⟨(s.result event).1, Run.after apply s.running (s.calls event)⟩

/-- `Start` is only called when all dependencies are running. -/
def StartsInOrder : Prop :=
  Run.EveryStep apply (WithDependencies s.container) s.running (s.calls event)

/-- `Start` is never called on a running component, and `StopAll` leaves none running. -/
structure StartsAndStops (s : Deployment) (event : ContainerEvent components) : Prop where
  starts : Run.EveryStep apply OnIdle s.running (s.calls event)
  stops : ∀ outcomes, event = .stopAll outcomes → (s.step event).running = ∅

end Deployment

/-! ## The errors of the components -/

namespace Outcomes

structure Prepares (outcomes : Outcomes) (c : Container) (order : List String) : Prop where
  onStart : ∀ name ∈ order, c.isLifecycleAware name = true → outcomes.onStart name = none
  validate : ∀ name ∈ order, c.isConfigurable name = true → outcomes.validate name = none

def StartsAllOrNone (outcomes : Outcomes) (order : List String) : Prop :=
  ∀ first ∈ order.head?, outcomes.start first = none →
    ∀ name ∈ order, outcomes.start name = none

end Outcomes

def Deployment.StartsAllOrNone {components : Components} (s : Deployment) :
    ContainerEvent components → Prop
  | .startAll orders outcomes =>
    s.container.started = false → ∀ order, s.container.topologicalSort orders.building
        orders.queueing orders.reporting = .ok order →
      outcomes.Prepares s.container order → outcomes.StartsAllOrNone order
  | .stopAll _ => True

namespace Container

variable {c : Container} {outcomes : Outcomes}

variable (applies : String → Bool)

variable (call : String → Bool → ComponentCall)

theorem attempt_cases (outcome : String → Option String) (wrap : String → String → ContainerError)
    (names : List String) :
    ((∀ name ∈ names, applies name = true → outcome name = none) ∧
        attempt applies call outcome wrap names =
          ((names.filter applies).map (call · true), none)) ∨
      ∃ before name err, before ++ [name] <+: names ∧
        (∀ earlier ∈ before, applies earlier = true → outcome earlier = none) ∧
        applies name = true ∧ outcome name = some err ∧
        attempt applies call outcome wrap names =
          ((before.filter applies).map (call · true) ++ [call name false],
            some (wrap name err)) := by
  induction names with
  | nil => exact Or.inl ⟨forall_mem_nil _, rfl⟩
  | cons first names ih =>
    cases isApplied : applies first with
    | false =>
      rcases ih with ⟨succeed, all⟩ | ⟨before, name, err, isPrefix, succeed, isFailed, isErr, fails⟩
      · left
        exact ⟨by simpa [isApplied] using succeed, by simp [attempt, isApplied, all]⟩
      · right
        refine ⟨first :: before, name, err, ?_, ?_, isFailed, isErr, ?_⟩
        · exact cons_prefix_cons.mpr ⟨rfl, isPrefix⟩
        · simpa [isApplied] using succeed
        · simp [attempt, isApplied, fails]
    | true =>
      cases isOutcome : outcome first with
      | some err =>
        right
        refine ⟨[], first, err, ⟨names, rfl⟩, forall_mem_nil _, isApplied, isOutcome, ?_⟩
        simp [attempt, isApplied, isOutcome]
      | none =>
        rcases ih with
          ⟨succeed, all⟩ | ⟨before, name, err, isPrefix, succeed, isFailed, isErr, fails⟩
        · left
          exact ⟨by simpa [isApplied, isOutcome] using succeed,
            by simp [attempt, isApplied, isOutcome, all]⟩
        · right
          refine ⟨first :: before, name, err, ?_, ?_, isFailed, isErr, ?_⟩
          · exact cons_prefix_cons.mpr ⟨rfl, isPrefix⟩
          · simpa [isApplied, isOutcome] using succeed
          · simp [attempt, isApplied, isOutcome, fails]

/-- The loop ends without an error exactly if no call fails. -/
theorem attempt_eq_none_iff (outcome : String → Option String)
    (wrap : String → String → ContainerError) (names : List String) :
    (attempt applies call outcome wrap names).2 = none ↔
      ∀ name ∈ names, applies name = true → outcome name = none := by
  rcases attempt_cases applies call outcome wrap names with
    ⟨succeed, all⟩ | ⟨before, name, err, isPrefix, -, isFailed, isErr, fails⟩
  · rw [all]
    exact iff_of_true rfl succeed
  · rw [fails]
    apply iff_of_false (Option.some_ne_none _)
    intro succeed
    have noErr := succeed name (isPrefix.subset (mem_append_right _ mem_cons_self)) isFailed
    cases isErr.symm.trans noErr

theorem isPreparation_of_attempt
    (isPreparation : ∀ name succeeded, (call name succeeded).IsPreparation)
    (outcome : String → Option String) (wrap : String → String → ContainerError) (names : List String) :
    ∀ made ∈ (attempt applies call outcome wrap names).1, made.IsPreparation := by
  intro made member
  rcases attempt_cases applies call outcome wrap names with
    ⟨-, allSucceed⟩ | ⟨before, name, err, -, -, -, -, fails⟩
  · rw [allSucceed] at member
    obtain ⟨other, -, rfl⟩ := mem_map.mp member
    exact isPreparation other true
  · rw [fails] at member
    rcases mem_append.mp member with isEarlier | isLast
    · obtain ⟨other, -, rfl⟩ := mem_map.mp isEarlier
      exact isPreparation other true
    · rw [mem_singleton.mp isLast]
      exact isPreparation name false

theorem isPreparation_callOnStart (c : Container) (outcomes : Outcomes) :
    ∀ call ∈ (c.callOnStart outcomes).1, call.IsPreparation :=
  isPreparation_of_attempt _ (fun name _ => .onStart name) (fun _ _ => trivial) _ _ _

theorem isPreparation_callValidate (c : Container) (outcomes : Outcomes) :
    ∀ call ∈ (c.callValidate outcomes).1, call.IsPreparation :=
  isPreparation_of_attempt _ (fun name _ => .validate name) (fun _ _ => trivial) _ _ _

theorem callStart_cases (c : Container) (outcomes : Outcomes) :
    ((∀ name ∈ c.order, outcomes.start name = none) ∧
        c.callStart outcomes = (c.order.map (.start · true), none)) ∨
      ∃ before name err, before ++ [name] <+: c.order ∧
        (∀ earlier ∈ before, outcomes.start earlier = none) ∧ outcomes.start name = some err ∧
        c.callStart outcomes =
          (before.map (.start · true) ++ [.start name false], some (.failedToStart name err)) := by
  have either := attempt_cases (fun _ => true) .start outcomes.start .failedToStart c.order
  simp only [filter_true, forall_const, true_and] at either
  exact either

/-- A `StartAll` that makes no `Start` call. -/
structure Quiet (c : Container) (result : Container × List ComponentCall × Option ContainerError) :
    Prop where
  components : result.1.components = c.components
  started : result.1.started = c.started
  order : c.started = true → result.1.order = c.order
  calls : ∀ call ∈ result.2.1, call.IsPreparation

/-- A `StartAll` that gets to the `Start` calls. -/
structure Reaches (c : Container) (outcomes : Outcomes) (order : List String)
    (prepared : List ComponentCall)
    (result : Container × List ComponentCall × Option ContainerError) : Prop where
  notStarted : c.started = false
  isStartOrder : c.IsStartOrder order
  preparation : ∀ call ∈ prepared, call.IsPreparation
  container : result.1 = { c with order := order, started := result.2.2.isNone }
  calls : result.2.1 = prepared ++ ({ c with order := order }.callStart outcomes).1
  error : result.2.2 = ({ c with order := order }.callStart outcomes).2

theorem isPreparation_append {first second : List ComponentCall}
    (isFirst : ∀ call ∈ first, call.IsPreparation)
    (isSecond : ∀ call ∈ second, call.IsPreparation) :
    ∀ call ∈ first ++ second, call.IsPreparation := by
  intro call member
  rcases mem_append.mp member with inFirst | inSecond
  · exact isFirst call inFirst
  · exact isSecond call inSecond

theorem launch_cases (notStarted : c.started = false) {order : List String}
    (isStartOrder : c.IsStartOrder order) (outcomes : Outcomes) :
    (¬outcomes.Prepares c order ∧ Quiet c ({ c with order := order }.launch outcomes)) ∨
      (outcomes.Prepares c order ∧ ∃ prepared,
        Reaches c outcomes order prepared ({ c with order := order }.launch outcomes)) := by
  have impossible : c.started = true → order = c.order := by
    intro started
    cases started.symm.trans notStarted
  have preparesOnStart := isPreparation_callOnStart { c with order := order } outcomes
  have preparesValidate := isPreparation_callValidate { c with order := order } outcomes
  have onStartEnds := attempt_eq_none_iff c.isLifecycleAware (fun name _ => .onStart name)
    outcomes.onStart .onStartFailed order
  have validateEnds := attempt_eq_none_iff c.isConfigurable (fun name _ => .validate name)
    outcomes.validate .validationFailed order
  change ({ c with order := order }.callOnStart outcomes).2 = none ↔ _ at onStartEnds
  change ({ c with order := order }.callValidate outcomes).2 = none ↔ _ at validateEnds
  rw [launch]
  cases prepares : { c with order := order }.callOnStart outcomes with
  | mk prepared err =>
    rw [prepares] at preparesOnStart onStartEnds
    cases err with
    | some err =>
      refine Or.inl ⟨fun succeed => ?_, rfl, rfl, impossible, preparesOnStart⟩
      cases onStartEnds.mpr succeed.onStart
    | none =>
      cases validates : { c with order := order }.callValidate outcomes with
      | mk validated err =>
        rw [validates] at preparesValidate validateEnds
        have preparation := isPreparation_append preparesOnStart preparesValidate
        cases err with
        | some err =>
          refine Or.inl ⟨fun succeed => ?_, rfl, rfl, impossible, preparation⟩
          cases validateEnds.mpr succeed.validate
        | none =>
          refine Or.inr ⟨⟨onStartEnds.mp rfl, validateEnds.mp rfl⟩, prepared ++ validated,
            notStarted, isStartOrder, preparation, ?_, ?_, ?_⟩
          · cases launches : { c with order := order }.callStart outcomes with
            | mk launched err =>
              cases err with
              | some err => simp [notStarted]
              | none => simp
          · cases launches : { c with order := order }.callStart outcomes with
            | mk launched err =>
              cases err with
              | some | none => rfl
          · cases launches : { c with order := order }.callStart outcomes with
            | mk launched err =>
              cases err with
              | some | none => rfl

variable {orders : IterationOrders c.components}

theorem reaches_startAll (notStarted : c.started = false) {order : List String}
    (sorts : c.topologicalSort orders.building orders.queueing orders.reporting = .ok order)
    (prepares : outcomes.Prepares c order) :
    ∃ prepared, Reaches c outcomes order prepared
      (c.startAll orders.building orders.queueing orders.reporting outcomes) := by
  have isStartOrder : c.IsStartOrder order := by
    rcases topologicalSort_cases c orders with
      ⟨-, _, _, isError⟩ | ⟨-, -, _, isError⟩ | ⟨-, -, other, isOrder, isStartOrder⟩
    · cases isError.symm.trans sorts
    · cases isError.symm.trans sorts
    · cases isOrder.symm.trans sorts
      exact isStartOrder
  rw [startAll, if_neg (Bool.eq_false_iff.mp notStarted), sorts]
  rcases launch_cases notStarted isStartOrder outcomes with ⟨unprepared, -⟩ | ⟨-, reaches⟩
  · exact absurd prepares unprepared
  · exact reaches

theorem startAll_cases (c : Container) (orders : IterationOrders c.components)
    (outcomes : Outcomes) :
    Quiet c (c.startAll orders.building orders.queueing orders.reporting outcomes) ∨
      ∃ order prepared,
        c.topologicalSort orders.building orders.queueing orders.reporting = .ok order ∧
        outcomes.Prepares c order ∧ Reaches c outcomes order prepared
          (c.startAll orders.building orders.queueing orders.reporting outcomes) := by
  rw [startAll]
  by_cases started : c.started = true
  · rw [if_pos started]
    exact Or.inl ⟨rfl, rfl, fun _ => rfl, by simp⟩
  · rw [if_neg started]
    rcases topologicalSort_cases c orders with
      ⟨-, _, _, isError⟩ | ⟨-, -, _, isError⟩ | ⟨-, -, order, isOrder, isStartOrder⟩
    · rw [isError]
      exact Or.inl ⟨rfl, rfl, fun _ => rfl, by simp⟩
    · rw [isError]
      exact Or.inl ⟨rfl, rfl, fun _ => rfl, by simp⟩
    · rw [isOrder]
      rcases launch_cases (Bool.eq_false_iff.mpr started) isStartOrder outcomes with
        ⟨-, quiet⟩ | ⟨prepares, prepared, reaches⟩
      · exact Or.inl quiet
      · exact Or.inr ⟨order, prepared, rfl, prepares, reaches⟩

end Container

open Container

section Running

variable {ok : Finset String → ComponentCall → Prop} {calls : List ComponentCall}

theorem after_preparation (preparation : ∀ call ∈ calls, call.IsPreparation)
    (running : Finset String) : after apply running calls = running := by
  induction calls with
  | nil => rfl
  | cons call calls ih =>
    rw [forall_mem_cons] at preparation
    have unchanged : apply running call = running := by
      cases call with
      | onStart | validate => rfl
      | start name succeeded => exact preparation.1.elim
      | onStop name => rfl
      | stop name => exact preparation.1.elim
    rw [after_cons, unchanged, ih preparation.2]

variable {call : ComponentCall}

theorem ComponentCall.IsPreparation.notStart (isPreparation : call.IsPreparation) :
    call.NotStart := by
  cases call with
  | start name succeeded => exact isPreparation.elim
  | onStart | validate | onStop | stop => trivial

theorem ComponentCall.NotStart.onIdle (notStart : call.NotStart) (running : Finset String) :
    call.OnIdle running := by
  cases call with
  | start name succeeded => exact notStart.elim
  | onStart | validate | onStop | stop => trivial

theorem ComponentCall.NotStart.withDependencies (notStart : call.NotStart) (c : Container)
    (running : Finset String) : call.WithDependencies c running := by
  cases call with
  | start name succeeded => exact notStart.elim
  | onStart | validate | onStop | stop => trivial

variable (notStart : ∀ call ∈ calls, call.NotStart)

include notStart

theorem everyStep_of_notStart
    (fine : ∀ call running, call.NotStart → ok running call) (running : Finset String) :
    EveryStep apply ok running calls := by
  induction calls generalizing running with
  | nil => trivial
  | cons call calls ih =>
    rw [forall_mem_cons] at notStart
    exact ⟨fine call running notStart.1, ih notStart.2 _⟩

theorem everyStep_onIdle (running : Finset String) : EveryStep apply OnIdle running calls :=
  everyStep_of_notStart notStart (fun _ running isOther => isOther.onIdle running) running

theorem everyStep_withDependencies (c : Container)
    (running : Finset String) : EveryStep apply (WithDependencies c) running calls :=
  everyStep_of_notStart notStart
    (fun _ running isOther => isOther.withDependencies c running) running

omit notStart

variable (names : List String)

include names

variable (running : Finset String)

include running

theorem after_starts :
    after apply running (names.map (.start · true)) = running ∪ names.toFinset := by
  induction names generalizing running with
  | nil => simp
  | cons name names ih =>
    rw [map_cons, after_cons, ih, toFinset_cons]
    simp [apply]

theorem everyStep_starts_iff : EveryStep apply ok running (names.map (.start · true)) ↔
      ∀ before name, before ++ [name] <+: names →
        ok (running ∪ before.toFinset) (.start name true) := by
  induction names generalizing running with
  | nil => simp [EveryStep]
  | cons first names ih =>
    rw [map_cons, EveryStep, ih]
    constructor
    · rintro ⟨isFirst, later⟩ before name isPrefix
      cases before with
      | nil =>
        rw [nil_append, cons_prefix_cons] at isPrefix
        simpa [isPrefix.1] using isFirst
      | cons other before =>
        rw [cons_append, cons_prefix_cons] at isPrefix
        have isLater := later before name isPrefix.2
        simpa [isPrefix.1, apply] using isLater
    · intro each
      constructor
      · simpa using each [] first ⟨names, rfl⟩
      · intro before name isPrefix
        have isLater := each (first :: before) name (cons_prefix_cons.mpr ⟨rfl, isPrefix⟩)
        simpa [apply] using isLater

theorem after_onStops : after apply running (names.map .onStop) = running := by
  induction names with
  | nil => rfl
  | cons name names ih => exact ih

theorem after_stops : after apply running (names.map .stop) = running \ names.toFinset := by
  induction names generalizing running with
  | nil => simp
  | cons name names ih =>
    rw [map_cons, after_cons, ih, toFinset_cons]
    apply Finset.ext
    intro other
    simp only [apply, Finset.mem_sdiff, Finset.mem_erase, Finset.mem_insert, not_or]
    rw [and_assoc, and_left_comm]

end Running

namespace Deployment

variable {components : Components} {s : Deployment} {event : ContainerEvent components}

structure Tracks (components : Components) (s : Deployment) : Prop where
  registered : s.container.components = components
  known : ∀ name ∈ s.running, name ∈ components
  ordered : s.container.started = true → ∀ name ∈ s.running, name ∈ s.container.order

theorem tracks_initial (components : Components) : Tracks components (initial components) :=
  ⟨rfl, by simp [initial], by simp [initial]⟩

theorem startAll_cases (tracks : Tracks components s) (orders : IterationOrders components)
    (outcomes : Outcomes) :
    s.container.Quiet (s.result (.startAll orders outcomes)) ∨ ∃ order prepared,
        s.container.topologicalSort orders.building orders.queueing orders.reporting = .ok order ∧
        outcomes.Prepares s.container order ∧
        s.container.Reaches outcomes order prepared (s.result (.startAll orders outcomes)) := by
  obtain ⟨rfl, -, -⟩ := tracks
  exact startAll_cases s.container orders outcomes

theorem reaches_cases {outcomes : Outcomes} {order : List String} {prepared : List ComponentCall}
    (reaches : s.container.Reaches outcomes order prepared (s.result event)) :
    (s.calls event = prepared ++ order.map (.start · true) ∧
        (∀ name ∈ order, outcomes.start name = none) ∧ (s.result event).2.2 = none ∧
        (s.step event).running = s.running ∪ order.toFinset) ∨
      ∃ before name, before ++ [name] <+: order ∧
        s.calls event = prepared ++ (before.map (.start · true) ++ [.start name false]) ∧
        ((∀ earlier ∈ before, outcomes.start earlier = none) ∧ outcomes.start name ≠ none) ∧
        (s.result event).2.2 ≠ none ∧
        (s.step event).running = (s.running ∪ before.toFinset).erase name := by
  rcases callStart_cases { s.container with order := order } outcomes with
    ⟨succeed, allSucceed⟩ | ⟨before, name, err, isPrefix, succeed, isErr, fails⟩
  · have isCalls : s.calls event = prepared ++ order.map (.start · true) := by
      rw [calls, reaches.calls, allSucceed]
    refine Or.inl ⟨isCalls, succeed, by rw [reaches.error, allSucceed], ?_⟩
    rw [step, isCalls, after_append, after_preparation reaches.preparation, after_starts]
  · have isCalls : s.calls event =
        prepared ++ (before.map (.start · true) ++ [.start name false]) := by
      rw [calls, reaches.calls, fails]
    refine Or.inr ⟨before, name, isPrefix, isCalls, ⟨succeed, by simp [isErr]⟩,
      by simp [reaches.error, fails], ?_⟩
    rw [step, isCalls, after_append, after_preparation reaches.preparation, after_append,
      after_starts]
    rfl

theorem running_quiet (quiet : s.container.Quiet (s.result event)) :
    (s.step event).running = s.running :=
  after_preparation quiet.calls s.running

theorem running_stopAll (started : s.container.started = true) (outcomes : Outcomes) :
    (s.step (.stopAll outcomes : ContainerEvent components)).running =
      s.running \ s.container.order.toFinset := by
  simp only [step, calls, result, stopAll, started, ↓reduceIte]
  rw [after_append, after_onStops, after_stops, toFinset_reverse]

theorem step_stopAll (notStarted : ¬s.container.started = true) (outcomes : Outcomes) :
    s.step (.stopAll outcomes : ContainerEvent components) = s := by
  simp only [step, calls, result, stopAll, if_neg notStarted]
  rfl

theorem started_stopAll (started : s.container.started = true) (outcomes : Outcomes) :
    (s.step (.stopAll outcomes : ContainerEvent components)).container =
      { s.container with started := false } := by
  simp only [step, result, stopAll, if_pos started]

theorem notStart_stopAll (s : Deployment) (outcomes : Outcomes) :
    ∀ call ∈ s.calls (.stopAll outcomes : ContainerEvent components), call.NotStart := by
  intro call member
  rw [calls, result, stopAll] at member
  split at member
  next =>
    rcases mem_append.mp member with isOnStop | isStop
    · obtain ⟨name, -, rfl⟩ := mem_map.mp isOnStop
      trivial
    · obtain ⟨name, -, rfl⟩ := mem_map.mp isStop
      trivial
  next => cases member

theorem Tracks.step (tracks : Tracks components s) (event : ContainerEvent components) :
    Tracks components (s.step event) := by
  cases event with
  | startAll orders outcomes =>
    rcases startAll_cases tracks orders outcomes with quiet | ⟨order, prepared, -, -, reaches⟩
    · refine ⟨quiet.components.trans tracks.registered, ?_, ?_⟩
      · rw [running_quiet quiet]
        exact tracks.known
      · rw [running_quiet quiet]
        intro started
        have startedBefore := quiet.started.symm.trans started
        have sameOrder := quiet.order startedBefore
        rw [Deployment.step, sameOrder]
        exact tracks.ordered startedBefore
    · have registered (name : String) : name ∈ order ↔ name ∈ components := by
        rw [reaches.isStartOrder.mem_iff, tracks.registered]
      have known : ∀ name ∈ (s.step (.startAll orders outcomes)).running, name ∈ components := by
        intro name member
        rcases reaches_cases reaches with
          ⟨-, -, -, isRunning⟩ | ⟨before, failed, isPrefix, -, -, -, isRunning⟩
        · rw [isRunning, Finset.mem_union, mem_toFinset, registered] at member
          exact member.elim (tracks.known name) id
        · rw [isRunning] at member
          have either := Finset.mem_of_mem_erase member
          rw [Finset.mem_union, mem_toFinset] at either
          rcases either with old | new
          · exact tracks.known name old
          · exact (registered name).mp (isPrefix.subset (mem_append_left _ new))
      refine ⟨?_, known, fun _ name member => ?_⟩
      · rw [Deployment.step, reaches.container]
        exact tracks.registered
      · rw [Deployment.step, reaches.container]
        exact (registered name).mpr (known name member)
  | stopAll outcomes =>
    by_cases started : s.container.started = true
    · refine ⟨?_, fun name member => ?_, fun isStarted => ?_⟩
      · rw [started_stopAll started]
        exact tracks.registered
      · rw [running_stopAll started] at member
        exact tracks.known name (Finset.mem_sdiff.mp member).1
      · rw [started_stopAll started] at isStarted
        cases isStarted
    · rw [step_stopAll started]
      exact tracks

/-! ## Dependencies -/

theorem Tracks.startsInOrder (tracks : Tracks components s) (event : ContainerEvent components) :
    s.StartsInOrder event := by
  cases event with
  | startAll orders outcomes =>
    rcases startAll_cases tracks orders outcomes with quiet | ⟨order, prepared, -, -, reaches⟩
    · exact everyStep_withDependencies (fun call member => (quiet.calls call member).notStart) _ _
    · have fine (before : List String) (name : String) (succeeded : Bool)
          (isPrefix : before ++ [name] <+: order) :
          (ComponentCall.start name succeeded).WithDependencies s.container
            (s.running ∪ before.toFinset) := by
        intro dep listed
        have earlier := reaches.isStartOrder.sorted before name isPrefix dep listed
        exact Finset.mem_union_right _ (mem_toFinset.mpr earlier)
      have prepares := everyStep_withDependencies
        (fun call member => (reaches.preparation call member).notStart) s.container s.running
      rw [StartsInOrder]
      rcases reaches_cases reaches with
        ⟨isCalls, -⟩ | ⟨before, failed, isPrefix, isCalls, -⟩
      · rw [isCalls, everyStep_append, after_preparation reaches.preparation, everyStep_starts_iff]
        exact ⟨prepares, fun before name isPrefix => fine before name true isPrefix⟩
      · rw [isCalls, everyStep_append, after_preparation reaches.preparation,
          everyStep_append, everyStep_starts_iff, after_starts]
        refine ⟨prepares, fun earlier name isEarlier => ?_, fine before failed false isPrefix,
          trivial⟩
        exact fine earlier name true
          (isEarlier.trans ((prefix_append before [failed]).trans isPrefix))
  | stopAll outcomes => exact everyStep_withDependencies (notStart_stopAll s outcomes) _ _

/-! ## Started and running -/

/-- Nothing is running while the container is not started. -/
def Settled (s : Deployment) : Prop := s.container.started = false → s.running = ∅

/-- Something is running although the container is not started. -/
def Stuck (s : Deployment) : Prop := s.container.started = false ∧ s.running.Nonempty

/-- In such a state a call that does not fail halfway does what it should. -/
theorem Settled.step (settled : s.Settled) (tracks : Tracks components s)
    (allOrNone : s.StartsAllOrNone event) : s.StartsAndStops event ∧ (s.step event).Settled := by
  cases event with
  | startAll orders outcomes =>
    have noStop (others : Outcomes) :
        (ContainerEvent.startAll orders outcomes) ≠ .stopAll others := by
      intro impossible
      cases impossible
    rcases startAll_cases tracks orders outcomes with
      quiet | ⟨order, prepared, sorts, prepares, reaches⟩
    · refine ⟨⟨?_, fun others same => absurd same (noStop others)⟩, fun notStarted => ?_⟩
      · exact everyStep_onIdle (fun call member => (quiet.calls call member).notStart) _
      · rw [running_quiet quiet]
        exact settled (quiet.started.symm.trans notStarted)
    · have nothing : s.running = ∅ := settled reaches.notStarted
      have preparesIdle := everyStep_onIdle
        (fun call member => (reaches.preparation call member).notStart) s.running
      rcases reaches_cases reaches with ⟨isCalls, -, noError, isRunning⟩ |
        ⟨before, failed, isPrefix, isCalls, ⟨succeed, isErr⟩, -, isRunning⟩
      · refine ⟨⟨?_, fun others same => absurd same (noStop others)⟩, fun notStarted => ?_⟩
        · rw [isCalls, everyStep_append, after_preparation reaches.preparation,
            everyStep_starts_iff, nothing]
          rw [nothing] at preparesIdle
          refine ⟨preparesIdle, fun before name isPrefix => ?_⟩
          have distinct := reaches.isStartOrder.nodup.sublist isPrefix.sublist
          rw [nodup_append] at distinct
          simp only [OnIdle, Finset.empty_union, mem_toFinset]
          exact fun member => distinct.2.2 name member name mem_cons_self rfl
        · rw [Deployment.step, reaches.container, noError] at notStarted
          cases notStarted
      · have isFirst : before = [] := by
          cases before with
          | nil => rfl
          | cons first before =>
            have isHead : first ∈ order.head? := by
              obtain ⟨rest, rfl⟩ := isPrefix
              rfl
            apply absurd _ isErr
            exact allOrNone reaches.notStarted order sorts prepares first isHead
              (succeed first mem_cons_self) failed
              (isPrefix.subset (mem_append_right _ mem_cons_self))
        subst isFirst
        refine ⟨⟨?_, fun others same => absurd same (noStop others)⟩, fun _ => ?_⟩
        · rw [isCalls, everyStep_append, after_preparation reaches.preparation]
          refine ⟨preparesIdle, ?_, trivial⟩
          rw [nothing]
          exact Finset.notMem_empty failed
        · rw [isRunning, nothing]
          rfl
  | stopAll outcomes =>
    have stops : (s.step (.stopAll outcomes : ContainerEvent components)).running = ∅ := by
      by_cases started : s.container.started = true
      · rw [running_stopAll started, Finset.sdiff_eq_empty_iff_subset]
        intro name member
        exact mem_toFinset.mpr (tracks.ordered started name member)
      · rw [step_stopAll started]
        exact settled (Bool.eq_false_iff.mpr started)
    exact ⟨⟨everyStep_onIdle (notStart_stopAll s outcomes) _, fun _ _ => stops⟩, fun _ => stops⟩

theorem stuck_of_not_allOrNone (tracks : Tracks components s)
    (halfway : ¬s.StartsAllOrNone event) : (s.step event).Stuck := by
  cases event with
  | stopAll outcomes => exact absurd trivial halfway
  | startAll orders outcomes =>
    simp only [StartsAllOrNone, Outcomes.StartsAllOrNone, not_forall] at halfway
    obtain
      ⟨notStarted, order, sorts, prepares, first, isHead, firstStarts, other, inOrder, fails⟩ :=
      halfway
    obtain ⟨rfl, -, -⟩ := tracks
    obtain ⟨prepared, reaches⟩ := reaches_startAll notStarted sorts prepares
    change s.container.Reaches outcomes order prepared (s.result (.startAll orders outcomes))
      at reaches
    rcases reaches_cases reaches with
      ⟨-, succeed, -⟩ | ⟨before, failed, isPrefix, -, ⟨-, isErr⟩, isError, isRunning⟩
    · exact absurd (succeed other inOrder) fails
    · constructor
      · rw [Deployment.step, reaches.container]
        exact Option.isNone_eq_false_iff.mpr (Option.isSome_iff_ne_none.mpr isError)
      · have distinct := reaches.isStartOrder.nodup.sublist isPrefix.sublist
        rw [nodup_append] at distinct
        have member : first ∈ before := by
          obtain ⟨rest, rfl⟩ := isPrefix
          cases before with
          | nil =>
            cases isHead
            exact absurd firstStarts isErr
          | cons earliest before =>
            cases isHead
            exact mem_cons_self
        rw [isRunning]
        refine ⟨first, Finset.mem_erase.mpr ⟨?_, ?_⟩⟩
        · exact distinct.2.2 first member failed mem_cons_self
        · exact Finset.mem_union_right _ (mem_toFinset.mpr member)

/-- From there on nothing helps: a call that does what it should leaves it running. -/
theorem Stuck.step (stuck : s.Stuck) (tracks : Tracks components s)
    (good : s.StartsAndStops event) : (s.step event).Stuck := by
  obtain ⟨notStarted, name, isRunning⟩ := stuck
  cases event with
  | startAll orders outcomes =>
    rcases startAll_cases tracks orders outcomes with quiet | ⟨order, prepared, -, -, reaches⟩
    · refine ⟨quiet.started.trans notStarted, name, ?_⟩
      rw [running_quiet quiet]
      exact isRunning
    · have starts := good.starts
      rcases reaches_cases reaches with
        ⟨isCalls, -⟩ | ⟨before, failed, -, isCalls, -, isError, isAfter⟩
      · rw [isCalls, everyStep_append, after_preparation reaches.preparation,
          everyStep_starts_iff] at starts
        have member : name ∈ order := by
          rw [reaches.isStartOrder.mem_iff, tracks.registered]
          exact tracks.known name isRunning
        obtain ⟨before, after, rfl⟩ := append_of_mem member
        have idle := starts.2 before name ⟨after, by simp⟩
        exact absurd (Finset.mem_union_left _ isRunning) idle
      · rw [isCalls, everyStep_append, after_preparation reaches.preparation,
          everyStep_append, after_starts] at starts
        have idle : failed ∉ s.running ∪ before.toFinset := starts.2.2.1
        constructor
        · rw [Deployment.step, reaches.container]
          exact Option.isNone_eq_false_iff.mpr (Option.isSome_iff_ne_none.mpr isError)
        · rw [isAfter, Finset.erase_eq_of_notMem idle]
          exact ⟨name, Finset.mem_union_left _ isRunning⟩
  | stopAll outcomes =>
    have stops := good.stops outcomes rfl
    rw [step_stopAll (Bool.eq_false_iff.mp notStarted)] at stops
    rw [stops] at isRunning
    exact absurd isRunning (Finset.notMem_empty name)

variable {events : List (ContainerEvent components)}

theorem Stuck.not_everyStep (stuck : s.Stuck) (tracks : Tracks components s) (outcomes : Outcomes) :
    ¬EveryStep Deployment.step StartsAndStops s (events ++ [.stopAll outcomes]) := by
  induction events generalizing s with
  | nil =>
    intro every
    have stillStuck := stuck.step tracks every.1
    rw [Stuck, every.1.stops outcomes rfl] at stillStuck
    exact Finset.not_nonempty_empty stillStuck.2
  | cons event events ih =>
    intro every
    exact ih (stuck.step tracks every.1) (tracks.step event) every.2

theorem everyStep_iff (settled : s.Settled) (tracks : Tracks components s) (outcomes : Outcomes) :
    EveryStep Deployment.step StartsAndStops s (events ++ [.stopAll outcomes]) ↔
      EveryStep Deployment.step StartsAllOrNone s events := by
  induction events generalizing s with
  | nil =>
    have allOrNone : s.StartsAllOrNone (.stopAll outcomes : ContainerEvent components) := trivial
    have last := settled.step tracks allOrNone
    exact iff_of_true ⟨last.1, trivial⟩ trivial
  | cons event events ih =>
    rw [cons_append, EveryStep, EveryStep]
    by_cases allOrNone : s.StartsAllOrNone event
    · have next := settled.step tracks allOrNone
      rw [ih next.2 (tracks.step event)]
      simp only [next.1, allOrNone, true_and]
    · have stuck := stuck_of_not_allOrNone tracks allOrNone
      apply iff_of_false
      · exact fun every => stuck.not_everyStep (tracks.step event) outcomes every.2
      · exact fun every => allOrNone every.1

end Deployment

open Deployment

/-- Whatever fails, `Start` is only called when the dependencies are running. In a run that ends
with `StopAll`, no running component is started and nothing runs after a `StopAll` exactly if in
every `StartAll` that gets to start components the first one fails to start or none does. -/
theorem startsAndStops_iff (components : Components) (events : List (ContainerEvent components))
    (outcomes : Outcomes) :
    Run.EveryStep step StartsInOrder (initial components) events ∧
      (Run.EveryStep step StartsAndStops (initial components) (events ++ [.stopAll outcomes]) ↔
        Run.EveryStep step StartsAllOrNone (initial components) events) := by
  have tracks := tracks_initial components
  constructor
  · exact everyStep_of_invariant events tracks (fun _ event isTracked => isTracked.step event)
      fun _ event isTracked => isTracked.startsInOrder event
  · exact everyStep_iff (fun _ => rfl) tracks outcomes

def twoComponents : Components :=
  ((∅ : Components).insert "a" ⟨⟨[], false, false⟩, []⟩).insert "b" ⟨⟨[], false, false⟩, []⟩

theorem enumerates_twoComponents : FiniteMap.Enumerates ["a", "b"] twoComponents where
  nodup := by decide
  mem_iff name := by
    have isEmpty : name ∉ (∅ : Components) := Finmap.notMem_empty
    rw [twoComponents, Finmap.mem_insert, Finmap.mem_insert]
    simp [isEmpty, or_comm]

def twoOrders : IterationOrders twoComponents where
  building := ["a", "b"]
  queueing := ["a", "b"]
  reporting := ["a", "b"]
  enumeratesBuilding := enumerates_twoComponents
  enumeratesQueueing := enumerates_twoComponents
  enumeratesReporting := enumerates_twoComponents

/-- Only `Start` of the second component fails, if any. -/
def outcomesOf (err : Option String) : Outcomes :=
  ⟨fun _ => none, fun _ => none, fun name => if name = "b" then err else none, fun _ => none,
    fun _ => none⟩

/-- The second component has failed to start. -/
def halfStarted : Deployment := (initial twoComponents).step (.startAll twoOrders (outcomesOf "no"))

/-- `StopAll` leaves the first component running, and `StartAll` starts it once more. -/
theorem halfStarted_not_stopped :
    (halfStarted.step (.stopAll (outcomesOf none) : ContainerEvent twoComponents)).running = {"a"} ∧
      "a" ∈ halfStarted.running ∧
      .start "a" true ∈ halfStarted.calls (.startAll twoOrders (outcomesOf none)) := by
  decide +kernel

end Blockberry
