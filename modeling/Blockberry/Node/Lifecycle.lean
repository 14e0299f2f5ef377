import Blockberry.Lib.Run
import Mathlib.Data.List.Nodup
import Mathlib.Logic.Function.Basic
import Mathlib.Tactic.Common

/-!
# Starting and stopping a node

`Node.Start` starts the network, the handshake handler and the reactors, and takes back what it has
started when one of them fails; `Node.Stop` stops them in the opposite order. Each has a running
flag and a channel that is closed to end its work; to close it twice is a panic.

The reactors and the node make a new channel whenever they start, the network has one from its
creation on, and the flags of the node and the network stay up when stopping fails. So the network
can be torn down once.
-/

namespace Blockberry.Lifecycle

open Bool Option

inductive Channel where
  | opened
  | closed
  deriving DecidableEq, Repr

/-- `close`, which panics on a closed channel. -/
def Channel.close : Channel → Option Channel
  | opened => some closed
  | closed => none

inductive Component where
  | handshakeHandler
  | pexReactor
  | housekeepingReactor
  | transactionsReactor
  | syncReactor
  deriving DecidableEq, Repr

def components : List Component :=
  [.handshakeHandler, .pexReactor, .housekeepingReactor, .transactionsReactor, .syncReactor]

/-- A component: `running` and `stop` or `stopCh`. -/
structure Reactor where
  running : Bool
  stopCh : Channel
  deriving DecidableEq, Repr

namespace Reactor

def start (enabled fails : Bool) (r : Reactor) : Except Unit Reactor :=
  if r.running then .ok r
  else if !enabled then .ok r
  else if fails then .error ()
  else .ok ⟨true, .opened⟩

/-- `Stop` of a component; its error is ignored by the node. -/
def stop (r : Reactor) : Option Reactor :=
  if r.running then r.stopCh.close.map fun stopCh => ⟨false, stopCh⟩ else some r

end Reactor

inductive NodeError where
  | alreadyStarted
  | notStarted
  | startingNetwork
  | starting (component : Component)
  | stoppingNetwork
  | closingBlockStore
  deriving DecidableEq, Repr

/-- The network: `started`, and the channel made by `NewNetwork`. -/
structure Network where
  started : Bool
  stopCh : Channel
  deriving DecidableEq, Repr

namespace Network

def start (fails : Bool) (n : Network) : Except NodeError Network :=
  if n.started then .error .alreadyStarted
  else if fails then .error .startingNetwork
  else .ok { n with started := true }

/-- The channel is closed before the glueberry node is stopped, and the flag falls only if that
succeeds. -/
def stop (fails : Bool) (n : Network) : Option (Network × Option NodeError) :=
  if !n.started then some (n, some .notStarted)
  else n.stopCh.close.map fun stopCh =>
    if fails then ({ n with stopCh }, some .stoppingNetwork) else (⟨false, stopCh⟩, none)

end Network

structure Node where
  started : Bool
  stopCh : Channel
  network : Network
  reactors : Component → Reactor

structure Failures where
  nodeStart : Bool
  component : Component → Bool
  nodeStop : Bool
  blockStoreClose : Bool

namespace Node

def newNode : Node where
  started := false
  stopCh := .opened
  network := ⟨false, .opened⟩
  reactors _ := ⟨false, .opened⟩

def setReactor (n : Node) (component : Component) (r : Reactor) : Node :=
  { n with reactors := Function.update n.reactors component r }

/-- The components are stopped one after another. -/
def stopAll : List Component → Node → Option Node
  | [], n => some n
  | component :: rest, n => do
      let r ← (n.reactors component).stop
      stopAll rest (n.setReactor component r)

/-- Only the PEX reactor can be disabled. -/
def enabled (pexEnabled : Bool) : Component → Bool
  | .pexReactor => pexEnabled
  | _ => true

/-- The components are started one after another. When one fails those before it and the network
are stopped. -/
def startAll (pexEnabled : Bool) (failures : Failures) :
    List Component → List Component → Node → Option (Node × Option NodeError)
  | _, [], n => some (n, none)
  | done, component :: rest, n =>
    match (n.reactors component).start (enabled pexEnabled component)
        (failures.component component) with
    | .ok r => startAll pexEnabled failures (component :: done) rest (n.setReactor component r)
    | .error () => do
        let n ← n.stopAll done
        let (network, _) ← n.network.stop failures.nodeStop
        return ({ n with network }, some (.starting component))

def start (pexEnabled : Bool) (failures : Failures) (n : Node) :
    Option (Node × Option NodeError) :=
  if n.started then some (n, some .alreadyStarted)
  else
    match n.network.start failures.nodeStart with
    | .error error => some (n, some error)
    | .ok network => do
        let (n, error) ← startAll pexEnabled failures [] components { n with network }
        match error with
        | some error => return (n, some error)
        | none => return ({ n with stopCh := .opened, started := true }, none)

/-- The end of `Stop`: the outcome of stopping the network, and the block store. -/
def finishStop (failures : Failures) (n : Node) :
    Network × Option NodeError → Node × Option NodeError
  | (network, some error) => ({ n with network }, some error)
  | (network, none) =>
    if failures.blockStoreClose then ({ n with network }, some .closingBlockStore)
    else ({ n with network, started := false }, none)

def stop (failures : Failures) (n : Node) : Option (Node × Option NodeError) :=
  if !n.started then some (n, some .notStarted)
  else do
    let stopCh ← n.stopCh.close
    let n ← stopAll components.reverse { n with stopCh }
    (n.network.stop failures.nodeStop).map (n.finishStop failures)

end Node

open Node

/-- A call on the node, with the failures it meets. -/
inductive NodeCall where
  | start (failures : Failures)
  | stop (failures : Failures)

namespace Node

def call (pexEnabled : Bool) (n : Node) : NodeCall → Option (Node × Option NodeError)
  | .start failures => n.start pexEnabled failures
  | .stop failures => n.stop failures

/-- The component would be started and fails. -/
def Fails (pexEnabled : Bool) (failures : Failures) (n : Node) (component : Component) : Prop :=
  (n.reactors component).running = false ∧ enabled pexEnabled component = true ∧
    failures.component component = true

/-- The call tears the network down: it stops a started node, or starts the network and fails
after that. -/
def TearsDown (pexEnabled : Bool) (n : Node) : NodeCall → Prop
  | .start failures =>
    n.started = false ∧ n.network.started = false ∧ failures.nodeStart = false ∧
      ∃ component ∈ components, n.Fails pexEnabled failures component
  | .stop _ => n.started = true

instance (pexEnabled : Bool) (failures : Failures) (n : Node) (component : Component) :
    Decidable (n.Fails pexEnabled failures component) := inferInstanceAs (Decidable (_ ∧ _))

instance (pexEnabled : Bool) (n : Node) (c : NodeCall) : Decidable (n.TearsDown pexEnabled c) :=
  match c with
  | .start _ => inferInstanceAs (Decidable (_ ∧ _))
  | .stop _ => inferInstanceAs (Decidable (_ = true))

end Node

/-- A node, and whether a call has torn its network down. -/
structure Traced where
  node : Node
  torn : Bool

namespace Traced

def init : Traced := ⟨.newNode, false⟩

/-- A call that panics leaves the node as it was; there is no next call then. -/
def step (pexEnabled : Bool) (s : Traced) (c : NodeCall) : Traced where
  node := ((s.node.call pexEnabled c).map (·.1)).getD s.node
  torn := s.torn || s.node.TearsDown pexEnabled c

end Traced

namespace Reactor

/-- A running component has an open channel. -/
def Sound (r : Reactor) : Prop := r.running = true → r.stopCh = .opened

variable {r : Reactor}

theorem Sound.stop (sound : r.Sound) : ∃ stopped, r.stop = some stopped ∧ stopped.Sound := by
  rw [Reactor.stop]
  split
  next running =>
    rw [sound running]
    exact ⟨⟨false, .closed⟩, rfl, by simp [Sound]⟩
  next => exact ⟨r, rfl, sound⟩

theorem Sound.start (sound : r.Sound) {enabled fails : Bool} {started : Reactor}
    (isStarted : r.start enabled fails = .ok started) : started.Sound := by
  rw [Reactor.start] at isStarted
  split at isStarted
  next =>
    cases isStarted
    exact sound
  next =>
    split at isStarted
    next =>
      cases isStarted
      exact sound
    next =>
      split at isStarted
      next => cases isStarted
      next =>
        cases isStarted
        exact fun _ => rfl

end Reactor

namespace Network

theorem start_eq_ok {n running : Network} {fails : Bool} (started : n.start fails = .ok running) :
    n.started = false ∧ fails = false ∧ running = { n with started := true } := by
  rw [Network.start] at started
  split at started
  next => cases started
  next idle =>
    split at started
    next => cases started
    next starts =>
      cases started
      exact ⟨not_eq_true _ ▸ idle, not_eq_true _ ▸ starts, rfl⟩

/-- A running network is stopped exactly if its channel is open, which is closed then. -/
theorem stop_running (fails : Bool) (stopCh : Channel) :
    match Network.stop fails ⟨true, stopCh⟩ with
    | none => stopCh = .closed
    | some result => stopCh = .opened ∧ result.1.stopCh = .closed := by
  cases stopCh with
  | closed => rfl
  | opened => cases fails <;> exact ⟨rfl, rfl⟩

end Network

namespace Node

/-- All components are sound. -/
def Sound (n : Node) : Prop := ∀ component, (n.reactors component).Sound

/-- The nodes differ in their components only. -/
structure SameBesides (n next : Node) : Prop where
  started : next.started = n.started
  stopCh : next.stopCh = n.stopCh
  network : next.network = n.network

variable {n : Node} {pexEnabled : Bool} {failures : Failures}

theorem reactors_setReactor (component other : Component) (r : Reactor) :
    (n.setReactor component r).reactors other =
      if other = component then r else n.reactors other := by
  rw [setReactor]
  exact Function.update_apply n.reactors component r other

theorem Sound.setReactor (sound : n.Sound) (component : Component) {r : Reactor}
    (isSound : r.Sound) : (n.setReactor component r).Sound := by
  intro other
  rw [reactors_setReactor]
  split
  next => exact isSound
  next => exact sound other

theorem Sound.stopAll (sound : n.Sound) (list : List Component) :
    ∃ next, n.stopAll list = some next ∧ next.Sound ∧ n.SameBesides next := by
  induction list generalizing n with
  | nil => exact ⟨n, rfl, sound, rfl, rfl, rfl⟩
  | cons component rest ih =>
    obtain ⟨r, isStopped, isSound⟩ := (sound component).stop
    obtain ⟨next, stopped, nextSound, same⟩ := ih (sound.setReactor component isSound)
    refine ⟨next, ?_, nextSound, same.started, same.stopCh, same.network⟩
    rw [stopAll, isStopped]
    exact stopped

theorem start_eq_error_iff (component : Component) :
    (n.reactors component).start (enabled pexEnabled component) (failures.component component) =
        .error () ↔
      n.Fails pexEnabled failures component := by
  rw [Reactor.start, Fails]
  cases (n.reactors component).running <;> cases enabled pexEnabled component <;>
    cases failures.component component <;> simp

theorem fails_setReactor {component other : Component} {r : Reactor}
    (different : other ≠ component) :
    (n.setReactor component r).Fails pexEnabled failures other ↔
      n.Fails pexEnabled failures other := by
  rw [Fails, Fails, reactors_setReactor, if_neg different]

/-- If no component fails all are started; otherwise what remains of the start is to stop the
network. -/
theorem Sound.startAll (sound : n.Sound) (pexEnabled : Bool) (failures : Failures)
    (done : List Component) {list : List Component} (nodup : list.Nodup) :
    ∃ next, next.Sound ∧ n.SameBesides next ∧
      if ∃ component ∈ list, n.Fails pexEnabled failures component then
        ∃ error, n.startAll pexEnabled failures done list =
          (n.network.stop failures.nodeStop).map fun result =>
            ({ next with network := result.1 }, some error)
      else n.startAll pexEnabled failures done list = some (next, none) := by
  induction list generalizing n done with
  | nil => exact ⟨n, sound, ⟨rfl, rfl, rfl⟩, by simp [startAll]⟩
  | cons component rest ih =>
    rw [List.nodup_cons] at nodup
    cases started : (n.reactors component).start (enabled pexEnabled component)
        (failures.component component) with
    | error =>
      obtain ⟨next, stopped, nextSound, same⟩ := sound.stopAll done
      refine ⟨next, nextSound, same, ?_⟩
      rw [if_pos ⟨component, List.mem_cons_self, (start_eq_error_iff component).mp started⟩]
      refine ⟨.starting component, ?_⟩
      rw [startAll, started]
      dsimp only
      rw [stopped, bind_eq_bind, bind_some, same.network]
      cases n.network.stop failures.nodeStop <;> rfl
    | ok r =>
      have passes : ¬n.Fails pexEnabled failures component := by
        rw [← start_eq_error_iff, started]
        exact fun isError => by cases isError
      have sameFails : (∃ other ∈ component :: rest, n.Fails pexEnabled failures other) ↔
          ∃ other ∈ rest, (n.setReactor component r).Fails pexEnabled failures other := by
        rw [List.exists_mem_cons_iff, or_iff_right passes]
        refine exists_congr fun other => and_congr_right fun member => ?_
        have different : other ≠ component := fun same => nodup.1 (same ▸ member)
        exact (fails_setReactor different).symm
      obtain ⟨next, nextSound, same, outcome⟩ :=
        ih (sound.setReactor component ((sound component).start started)) (component :: done)
          nodup.2
      refine ⟨next, nextSound, ⟨same.started, same.stopCh, same.network⟩, ?_⟩
      rw [startAll, started]
      simp only [sameFails]
      exact outcome

theorem nodup_components : components.Nodup := by decide

/-- A start is refused, or starts everything, or fails and has the running network to stop. -/
theorem Sound.start_cases (sound : n.Sound) (pexEnabled : Bool) (failures : Failures) :
    (¬n.TearsDown pexEnabled (.start failures) ∧
        ∃ error, n.start pexEnabled failures = some (n, some error)) ∨
      (¬n.TearsDown pexEnabled (.start failures) ∧
        ∃ next, n.start pexEnabled failures = some (next, none) ∧ next.Sound ∧
          next.stopCh = .opened ∧ next.network = { n.network with started := true }) ∨
      (n.TearsDown pexEnabled (.start failures) ∧
        ∃ (next : Node) (error : NodeError), next.Sound ∧ next.started = false ∧
          n.start pexEnabled failures =
            (Network.stop failures.nodeStop { n.network with started := true }).map fun result =>
              ({ next with network := result.1 }, some error)) := by
  by_cases started : n.started = true
  · refine .inl ⟨fun tears => ?_, .alreadyStarted, if_pos started⟩
    rw [tears.1] at started
    cases started
  cases network : n.network.start failures.nodeStart with
  | error error =>
    refine .inl ⟨fun tears => ?_, error, ?_⟩
    · rw [Network.start, tears.2.1, tears.2.2.1] at network
      cases network
    · rw [start, if_neg started, network]
  | ok running =>
    obtain ⟨idle, starts, isRunning⟩ := Network.start_eq_ok network
    have withNetwork : Sound { n with network := running } := sound
    obtain ⟨next, nextSound, same, outcome⟩ :=
      withNetwork.startAll pexEnabled failures [] nodup_components
    rw [start, if_neg started, network, ← isRunning]
    split at outcome
    next failing =>
      obtain ⟨error, outcome⟩ := outcome
      refine .inr (.inr ⟨⟨not_eq_true _ ▸ started, idle, starts, failing⟩, next, error,
        nextSound, ?_, ?_⟩)
      · exact same.started.trans (not_eq_true _ ▸ started)
      · dsimp only
        rw [outcome]
        cases Network.stop failures.nodeStop running <;> rfl
    next passing =>
      refine .inr (.inl ⟨fun tears => passing tears.2.2.2,
        { next with stopCh := .opened, started := true }, ?_, ?_, ?_, ?_⟩)
      · dsimp only
        rw [outcome]
        rfl
      · exact nextSound
      · rfl
      · exact same.network

theorem finishStop_fst (n : Node) (failures : Failures) (outcome : Network × Option NodeError) :
    (n.finishStop failures outcome).1.reactors = n.reactors ∧
      (n.finishStop failures outcome).1.stopCh = n.stopCh ∧
      (n.finishStop failures outcome).1.network = outcome.1 := by
  obtain ⟨network, error⟩ := outcome
  cases error with
  | some error => exact ⟨rfl, rfl, rfl⟩
  | none =>
    rw [finishStop]
    split <;> exact ⟨rfl, rfl, rfl⟩

/-- A stop is refused, or panics on the channel of the node, or stops everything up to the
network. -/
theorem Sound.stop_cases (sound : n.Sound) (failures : Failures) :
    (n.started = false ∧ ∃ error, n.stop failures = some (n, some error)) ∨
      (n.started = true ∧ n.stopCh = .closed ∧ n.stop failures = none) ∨
      (n.started = true ∧ n.stopCh = .opened ∧
        ∃ result : Network × Option NodeError → Node × Option NodeError,
          n.stop failures = (n.network.stop failures.nodeStop).map result ∧
          ∀ stopped, (result stopped).1.Sound ∧ (result stopped).1.stopCh = .closed ∧
            (result stopped).1.network = stopped.1) := by
  rw [stop]
  by_cases started : n.started = true
  · rw [started, Bool.not_true, if_neg Bool.false_ne_true]
    cases channel : n.stopCh with
    | closed => exact .inr (.inl ⟨rfl, rfl, rfl⟩)
    | opened =>
      have closed : Sound { n with stopCh := .closed } := sound
      obtain ⟨next, stopped, nextSound, same⟩ := closed.stopAll components.reverse
      refine .inr (.inr ⟨rfl, rfl, next.finishStop failures, ?_, fun outcome => ?_⟩)
      · rw [started] at stopped
        rw [Channel.close, bind_eq_bind, bind_some, stopped,
          bind_eq_bind, bind_some, same.network]
      · obtain ⟨sound, channel, network⟩ := next.finishStop_fst failures outcome
        exact ⟨fun component => sound ▸ nextSound component, channel.trans same.stopCh, network⟩
  · rw [not_eq_true] at started
    rw [started]
    exact .inl ⟨rfl, .notStarted, rfl⟩

end Node

structure Kept (s : Traced) : Prop where
  sound : s.node.Sound
  before : s.torn = false → s.node.network.stopCh = .opened ∧ s.node.stopCh = .opened ∧
    (s.node.started = true → s.node.network.started = true)
  after : s.torn = true → s.node.network.stopCh = .closed ∧
    (s.node.started = true → s.node.stopCh = .closed ∨ s.node.network.started = true)

theorem kept_init : Kept .init where
  sound _ := fun running => by cases running
  before _ := ⟨rfl, rfl, fun started => by cases started⟩
  after torn := by cases torn

namespace Kept

variable {s : Traced} {pexEnabled : Bool} {error : Option NodeError} {c : NodeCall}

theorem step_eq {next : Node} (done : s.node.call pexEnabled c = some (next, error)) :
    s.step pexEnabled c = ⟨next, s.torn || s.node.TearsDown pexEnabled c⟩ := by
  rw [Traced.step, done]
  rfl

theorem step_of_not_tearsDown (kept : Kept s) {next : Node}
    (done : s.node.call pexEnabled c = some (next, error))
    (spares : ¬s.node.TearsDown pexEnabled c) (sound : next.Sound)
    (channel : next.network.stopCh = s.node.network.stopCh)
    (opened : next = s.node ∨ next.stopCh = .opened ∧ next.network.started = true) :
    Kept (s.step pexEnabled c) := by
  rw [step_eq done, decide_eq_false spares, Bool.or_false]
  cases opened with
  | inl same => exact same ▸ ⟨kept.sound, kept.before, kept.after⟩
  | inr opened =>
    refine ⟨sound, fun intact => ⟨?_, opened.1, fun _ => opened.2⟩, fun torn => ⟨?_, fun _ => ?_⟩⟩
    · exact channel.trans (kept.before intact).1
    · exact channel.trans (kept.after torn).1
    · exact .inr opened.2

theorem step_of_tearsDown {next : Node} (done : s.node.call pexEnabled c = some (next, error))
    (tears : s.node.TearsDown pexEnabled c) (sound : next.Sound)
    (channel : next.network.stopCh = .closed)
    (stopped : next.started = false ∨ next.stopCh = .closed) :
    Kept (s.step pexEnabled c) := by
  rw [step_eq done, decide_eq_true tears, Bool.or_true]
  refine ⟨sound, fun intact => (by cases intact), fun _ => ⟨channel, fun started => .inl ?_⟩⟩
  refine stopped.resolve_left fun notStarted => ?_
  rw [notStarted] at started
  cases started

theorem torn_eq (kept : Kept s) : (s.node.network.stopCh = .closed → s.torn = true) ∧
      (s.node.network.stopCh = .opened → s.torn = false) := by
  constructor
  · intro closed
    by_contra intact
    have opened := (kept.before (not_eq_true _ ▸ intact)).1
    rw [closed] at opened
    cases opened
  · intro opened
    by_contra torn
    have closed := (kept.after (not_eq_false _ ▸ torn)).1
    rw [opened] at closed
    cases closed

theorem tear (kept : Kept s) (tears : s.node.TearsDown pexEnabled c) {fails : Bool}
    {result : Network × Option NodeError → Node × Option NodeError}
    (done : s.node.call pexEnabled c =
      (Network.stop fails ⟨true, s.node.network.stopCh⟩).map result)
    (leaves : ∀ stopped, (result stopped).1.Sound ∧ (result stopped).1.network = stopped.1 ∧
      ((result stopped).1.started = false ∨ (result stopped).1.stopCh = .closed)) :
    ((s.node.call pexEnabled c).isSome = true ↔ ¬(s.torn = true ∧ s.node.TearsDown pexEnabled c)) ∧
      (¬(s.torn = true ∧ s.node.TearsDown pexEnabled c) → Kept (s.step pexEnabled c)) := by
  have running := Network.stop_running fails s.node.network.stopCh
  cases stopped : Network.stop fails ⟨true, s.node.network.stopCh⟩ with
  | none =>
    rw [stopped] at running done
    have torn := kept.torn_eq.1 running
    rw [done]
    exact ⟨iff_of_false Bool.false_ne_true fun once => once ⟨torn, tears⟩,
      fun once => absurd ⟨torn, tears⟩ once⟩
  | some network =>
    rw [stopped] at running done
    obtain ⟨sound, isNetwork, down⟩ := leaves network
    have intact := kept.torn_eq.2 running.1
    rw [intact]
    refine ⟨iff_of_true (done ▸ rfl) fun both => Bool.false_ne_true both.1, fun _ => ?_⟩
    exact step_of_tearsDown done tears sound (isNetwork ▸ running.2) down

/-- A call panics exactly if it tears the network down a second time; otherwise what holds of the
channels is kept. -/
theorem call (kept : Kept s) (c : NodeCall) : ((s.node.call pexEnabled c).isSome = true ↔
        ¬(s.torn = true ∧ s.node.TearsDown pexEnabled c)) ∧
      (¬(s.torn = true ∧ s.node.TearsDown pexEnabled c) → Kept (s.step pexEnabled c)) := by
  cases c with
  | start failures =>
    obtain ⟨spares, error, done⟩ | ⟨spares, next, done, sound, opened, network⟩ |
      ⟨tears, next, error, sound, stopped, done⟩ := kept.sound.start_cases pexEnabled failures
    · refine ⟨iff_of_true (by rw [Node.call, done]; rfl) fun both => spares both.2, fun _ => ?_⟩
      exact kept.step_of_not_tearsDown done spares kept.sound rfl (.inl rfl)
    · refine ⟨iff_of_true (by rw [Node.call, done]; rfl) fun both => spares both.2, fun _ => ?_⟩
      refine kept.step_of_not_tearsDown done spares sound ?_ (.inr ⟨opened, ?_⟩)
      · rw [network]
      · rw [network]
    · exact kept.tear tears done fun result => ⟨sound, rfl, .inl stopped⟩
  | stop failures =>
    obtain ⟨notStarted, error, done⟩ | ⟨started, closed, done⟩ |
      ⟨started, opened, result, done, leaves⟩ := kept.sound.stop_cases failures
    · have spares : ¬s.node.TearsDown pexEnabled (.stop failures) := by
        rw [TearsDown, notStarted]
        exact Bool.false_ne_true
      refine ⟨iff_of_true (by rw [Node.call, done]; rfl) fun both => spares both.2, fun _ => ?_⟩
      exact kept.step_of_not_tearsDown done spares kept.sound rfl (.inl rfl)
    · have torn : s.torn = true := by
        by_contra intact
        have opened := (kept.before (not_eq_true _ ▸ intact)).2.1
        rw [closed] at opened
        cases opened
      rw [Node.call, done]
      exact ⟨iff_of_false Bool.false_ne_true fun once => once ⟨torn, started⟩,
        fun once => absurd ⟨torn, started⟩ once⟩
    · have running : s.node.network.started = true := by
        cases torn : s.torn with
        | false => exact (kept.before torn).2.2 started
        | true =>
          refine ((kept.after torn).2 started).resolve_left fun closed => ?_
          rw [opened] at closed
          cases closed
      have network : s.node.network = ⟨true, s.node.network.stopCh⟩ := running ▸ rfl
      refine kept.tear started (network ▸ done) fun stopped => ?_
      obtain ⟨sound, closed, isNetwork⟩ := leaves stopped
      exact ⟨sound, isNetwork, .inr closed⟩

end Kept

/-- Whatever the calls and their failures, no call closes a closed channel in exactly the runs in
which the network is torn down at most once. -/
theorem no_panic_iff (pexEnabled : Bool) (calls : List NodeCall) :
    Run.EveryStep (Traced.step pexEnabled)
        (fun s c => (s.node.call pexEnabled c).isSome = true) .init calls ↔
      Run.EveryStep (Traced.step pexEnabled)
        (fun s c => ¬(s.torn = true ∧ s.node.TearsDown pexEnabled c)) .init calls :=
  Run.everyStep_iff kept_init (fun _ c kept => (kept.call c).1) (fun _ c kept => (kept.call c).2)
    calls

/-- A node that is started and stopped twice panics without any failure, and so does one whose
block store fails to close when it is stopped again. -/
theorem second_stop_panics :
    let fine : Failures := ⟨false, fun _ => false, false, false⟩
    let unclosed : Failures := ⟨false, fun _ => false, false, true⟩
    let restarted := Run.after (Traced.step true) .init [.start fine, .stop fine, .start fine]
    let unstopped := Run.after (Traced.step true) .init [.start fine, .stop unclosed]
    (restarted.node.stop fine).isNone = true ∧ (unstopped.node.stop fine).isNone = true := by
  decide +kernel

end Blockberry.Lifecycle
