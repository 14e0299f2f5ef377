import Blockberry.Lib.Run
import Blockberry.Events.Bus

/-!
# The event bus at work

The goroutines that call the bus share its memory: the subscriptions, which are pointers, their
channels, the running flag and the stop channels. What a call does between two points at which
another goroutine can come in is one step. A subscription with a context has a watcher, which
unsubscribes by subscriber and query. Closing a closed channel and sending on one are panics, which
end the process.
-/

namespace Blockberry.Events

open FiniteMap Bus

/-- What a subscription points to: the channel and the `cancelled` flag. -/
structure Cell where
  buffer : List Event
  cancelled : Bool
  closed : Bool
  deriving DecidableEq, Repr

/-- A subscription of the map, with the number of its cell. -/
structure Live where
  subscription : Subscription
  cell : Nat

inductive Panic where
  | closeOfClosed (cell : Nat)
  | sendOnClosed (cell : Nat)
  | stopOfStopped
  deriving DecidableEq, Repr

structure Memory where
  config : EventBusConfig
  bufferSize : Nat
  subscriptions : Finmap fun _ : String => Live
  cells : List Cell
  running : Bool
  stopCh : Nat
  stopChs : List Bool
  contexts : Finset Nat
  wg : Nat

namespace Memory

def newBusWithConfig (config : EventBusConfig) (bufferSize : Int) : Memory where
  config := config
  bufferSize := if bufferSize ≤ 0 then 100 else bufferSize.toNat
  subscriptions := ∅
  cells := []
  running := false
  stopCh := 0
  stopChs := [false]
  contexts := ∅
  wg := 0

variable (m : Memory)

/-- The bus without what its subscriptions point to. -/
def bus : Bus := ⟨m.config, mapValues Live.subscription m.subscriptions, m.running⟩

variable (cell : Nat)

def isCancelled : Bool := m.cells[cell]?.any (·.cancelled)

def isClosed : Bool := m.cells[cell]?.any (·.closed)

def hasRoom : Bool :=
  m.cells[cell]?.any (·.buffer.length < m.bufferSize)

/-- A context that can be cancelled has been. -/
def isDone (context : Option Nat) : Bool := context.any (· ∈ m.contexts)

def isStopped (stopCh : Nat) : Bool := m.stopChs[stopCh]?.getD false

def markCancelled : Memory :=
  { m with cells := m.cells.modify cell ({ · with cancelled := true }) }

def close : Except Panic Memory :=
  if m.isClosed cell then .error (.closeOfClosed cell)
  else .ok { m with cells := m.cells.modify cell ({ · with closed := true }) }

/-- The subscription is marked, and closed if it had not been marked. -/
def cancelOnce : Except Panic Memory :=
  if m.isCancelled cell then .ok m else (m.markCancelled cell).close cell

/-- A send that does not wait. -/
def offer (event : Event) (m : Memory) (cell : Nat) : Except Panic Memory :=
  if m.isClosed cell then .error (.sendOnClosed cell)
  else if m.hasRoom cell then
    .ok { m with cells := m.cells.modify cell fun c => { c with buffer := c.buffer ++ [event] } }
  else .ok m

/-- The subscriber takes the first event from its channel. -/
def receive : Memory :=
  { m with cells := m.cells.modify cell fun c => { c with buffer := c.buffer.tail } }

/-- The subscriptions in the order of a loop over the map. -/
def visited (order : List String) : List Live := order.filterMap m.subscriptions.lookup

/-! ## The sections under the lock -/

variable (subscriber : String)

def subscribe (query : Query) : Memory × Except BusError Nat :=
  if subscriptionKey subscriber query ∈ m.subscriptions then (m, .error .subscriberExists)
  else if m.bus.full query then (m, .error .tooManySubscribers)
  else
    ({ m with
        subscriptions := m.subscriptions.insert (subscriptionKey subscriber query)
          ⟨⟨subscriber, query⟩, m.cells.length⟩
        cells := m.cells ++ [⟨[], false, false⟩] },
      .ok m.cells.length)

def unsubscribe (query : Query) :
    Except Panic (Memory × Option BusError) := do
  match m.subscriptions.lookup (subscriptionKey subscriber query) with
  | none => return (m, some .subscriberNotFound)
  | some live =>
    let m ← m.cancelOnce live.cell
    return ({ m with
      subscriptions := m.subscriptions.erase (subscriptionKey subscriber query) }, none)

/-- The subscription of a key belongs to a subscriber. -/
def owns (key : String) : Bool :=
  (m.subscriptions.lookup key).any (·.subscription.subscriber = subscriber)

def unsubscribeAll (order : List String) :
    Except Panic Memory := do
  let toDelete := order.filter (m.owns subscriber)
  let m ← (m.visited toDelete).foldlM (fun m live => m.cancelOnce live.cell) m
  return { m with subscriptions := toDelete.foldl (fun map key => map.erase key) m.subscriptions }

def clear (order : List String) : Except Panic Memory := do
  let m ← (m.visited order).foldlM (fun m live => (m.markCancelled live.cell).close live.cell) m
  return { m with subscriptions := ∅ }

/-- The subscription is to receive the event. -/
def wants (event : Event) (live : Live) : Bool :=
  !m.isCancelled live.cell && live.subscription.query.isMatch event

def publish (event : Event) (order : List String) : Except Panic Memory :=
  (m.visited order).foldlM
    (fun m live => if m.wants event live then m.offer event live.cell else .ok m) m

/-- The pointers that `PublishWithTimeout` collects. -/
def collect (event : Event) (order : List String) : List Nat :=
  ((m.visited order).filter (m.wants event)).map Live.cell

end Memory

/-! ## Goroutines -/

/-- A context that is never cancelled is `none`. -/
inductive Call where
  | start
  | stop
  | subscribe (context : Option Nat) (subscriber : String) (query : Query)
  | unsubscribe (subscriber : String) (query : Query)
  | unsubscribeAll (subscriber : String)
  | publish (event : Event)
  | publishWithTimeout (context : Option Nat) (event : Event)

inductive Outcome where
  | done
  | subscribed (cell : Nat)
  | failed (err : BusError)
  | contextDone
  | busStopped
  deriving DecidableEq, Repr

inductive Goroutine where
  | called (call : Call)
  | starting
  | stopping
  | clearing
  | draining
  | subscribing (context : Option Nat) (subscriber : String) (query : Query)
  | publishing (event : Event)
  | collecting (context : Option Nat) (event : Event)
  | sending (context : Option Nat) (event : Event) (cells : List Nat)
  | selecting (context : Option Nat) (event : Event) (cell : Nat) (cells : List Nat)
      (stopCh : Nat)
  | watching (context : Nat) (subscriber : String) (query : Query) (cell : Nat)
  | waiting (context : Nat) (subscriber : String) (query : Query) (cell : Nat) (stopCh : Nat)
  | returned (outcome : Outcome)

inductive Branch where
  | send
  | timeout
  | contextDone
  | stopped
  deriving DecidableEq, Repr

/-- What a step leaves open: the branch of a select and the order of a loop over the map. -/
structure Choice where
  branch : Branch
  order : List String

/-- The memory after a step, what the goroutine is at, and the goroutine it has started. -/
structure Progress where
  memory : Memory
  goroutine : Goroutine
  spawned : Option Goroutine

namespace Goroutine

/-- The watcher of a subscription with a context. -/
def watcher (context : Option Nat) (subscriber : String) (query : Query) (cell : Nat) :
    Option Goroutine :=
  context.map (watching · subscriber query cell)

/-- The next step of a goroutine. One that has to wait stays as it is. -/
def advance (m : Memory) (choice : Choice) : Goroutine → Except Panic Progress
  | called .start =>
    if m.running then return ⟨m, returned .done, none⟩
    else return ⟨{ m with running := true }, starting, none⟩
  | starting =>
    return ⟨{ m with stopCh := m.stopChs.length, stopChs := m.stopChs ++ [false] },
      returned .done, none⟩
  | called .stop =>
    if m.running then return ⟨{ m with running := false }, stopping, none⟩
    else return ⟨m, returned .done, none⟩
  | stopping =>
    if m.isStopped m.stopCh then throw .stopOfStopped
    else return ⟨{ m with stopChs := m.stopChs.set m.stopCh true }, clearing, none⟩
  | clearing => do
      if Enumerates choice.order m.subscriptions then
        return ⟨← m.clear choice.order, draining, none⟩
      else return ⟨m, clearing, none⟩
  | draining =>
    if m.wg = 0 then return ⟨m, returned .done, none⟩ else return ⟨m, draining, none⟩
  | called (.subscribe context subscriber query) =>
    if m.running then return ⟨m, subscribing context subscriber query, none⟩
    else return ⟨m, returned (.failed .busNotRunning), none⟩
  | subscribing context subscriber query =>
    match m.subscribe subscriber query with
    | (m, .error err) => return ⟨m, returned (.failed err), none⟩
    | (m, .ok cell) =>
      return ⟨if context.isSome then { m with wg := m.wg + 1 } else m,
        returned (.subscribed cell), watcher context subscriber query cell⟩
  | called (.unsubscribe subscriber query) => do
      match ← m.unsubscribe subscriber query with
      | (m, some err) => return ⟨m, returned (.failed err), none⟩
      | (m, none) => return ⟨m, returned .done, none⟩
  | called (.unsubscribeAll subscriber) => do
      if Enumerates choice.order m.subscriptions then
        return ⟨← m.unsubscribeAll subscriber choice.order, returned .done, none⟩
      else return ⟨m, called (.unsubscribeAll subscriber), none⟩
  | called (.publish event) =>
    if m.running then return ⟨m, publishing event, none⟩
    else return ⟨m, returned (.failed .busNotRunning), none⟩
  | publishing event => do
      if Enumerates choice.order m.subscriptions then
        return ⟨← m.publish event choice.order, returned .done, none⟩
      else return ⟨m, publishing event, none⟩
  | called (.publishWithTimeout context event) =>
    if m.running then return ⟨m, collecting context event, none⟩
    else return ⟨m, returned (.failed .busNotRunning), none⟩
  | collecting context event =>
    if Enumerates choice.order m.subscriptions then
      return ⟨m, sending context event (m.collect event choice.order), none⟩
    else return ⟨m, collecting context event, none⟩
  | sending _ _ [] => return ⟨m, returned .done, none⟩
  | sending context event (cell :: cells) =>
    if m.isCancelled cell then return ⟨m, sending context event cells, none⟩
    else return ⟨m, selecting context event cell cells m.stopCh, none⟩
  | selecting context event cell cells stopCh => do
      match choice.branch with
      | .send =>
        if m.isClosed cell || m.hasRoom cell then
          return ⟨← m.offer event cell, sending context event cells, none⟩
        else return ⟨m, selecting context event cell cells stopCh, none⟩
      | .timeout => return ⟨m, sending context event cells, none⟩
      | .contextDone =>
        if m.isDone context then return ⟨m, returned .contextDone, none⟩
        else return ⟨m, selecting context event cell cells stopCh, none⟩
      | .stopped =>
        if m.isStopped stopCh then return ⟨m, returned .busStopped, none⟩
        else return ⟨m, selecting context event cell cells stopCh, none⟩
  | watching context subscriber query cell =>
    return ⟨m, waiting context subscriber query cell m.stopCh, none⟩
  | waiting context subscriber query cell stopCh => do
      match choice.branch with
      | .contextDone =>
        if context ∈ m.contexts then
          let (m, _) ← m.unsubscribe subscriber query
          return ⟨{ m with wg := m.wg - 1 }, returned .done, none⟩
        else return ⟨m, waiting context subscriber query cell stopCh, none⟩
      | .stopped =>
        if m.isStopped stopCh then return ⟨{ m with wg := m.wg - 1 }, returned .done, none⟩
        else return ⟨m, waiting context subscriber query cell stopCh, none⟩
      | _ => return ⟨m, waiting context subscriber query cell stopCh, none⟩
  | returned outcome => return ⟨m, returned outcome, none⟩

end Goroutine

/-- The process: the memory, its goroutines, and the panic that has ended it. -/
structure Process where
  memory : Memory
  goroutines : List Goroutine
  panic : Option Panic

inductive Action where
  | call (call : Call)
  | advance (index : Nat) (choice : Choice)
  | cancel (context : Nat)
  | receive (cell : Nat)

namespace Process

/-- A new bus that nothing has been called on. -/
def init (config : EventBusConfig) (bufferSize : Int) : Process :=
  ⟨Memory.newBusWithConfig config bufferSize, [], none⟩

/-- The process after a goroutine's step. -/
def resume (p : Process) (index : Nat) : Except Panic Progress → Process
  | .error panic => { p with panic := some panic }
  | .ok progress =>
    { p with
      memory := progress.memory
      goroutines := p.goroutines.set index progress.goroutine ++ progress.spawned.toList }

def step (p : Process) (action : Action) : Process :=
  if p.panic.isSome then p
  else
    match action with
    | .call call => { p with goroutines := p.goroutines ++ [.called call] }
    | .advance index choice =>
      match p.goroutines[index]? with
      | none => p
      | some goroutine => p.resume index (goroutine.advance p.memory choice)
    | .cancel context =>
      { p with memory := { p.memory with contexts := insert context p.memory.contexts } }
    | .receive cell => { p with memory := p.memory.receive cell }

end Process

end Blockberry.Events
