import Blockberry.Lib.FiniteMap
import Blockberry.Lib.Kahn

/-!
# The component container

Components are registered with the names of those they need. `StartAll` computes an order, and
calls `OnStart`, `Validate` and `Start` in it; `StopAll` goes through it from the end. The calls
are recorded with their outcome, which the environment chooses.
-/

namespace Blockberry

open FiniteMap

structure Component where
  dependencies : List String
  lifecycleAware : Bool
  configurable : Bool
  deriving DecidableEq, Repr

structure ComponentEntry where
  component : Component
  dependencies : List String
  deriving DecidableEq, Repr

inductive ContainerError where
  | componentAlreadyRegistered (name : String)
  | circularDependency (involving : List String)
  | containerAlreadyStarted (name : String)
  | dependencyNotFound (name dependency : String)
  | onStartFailed (name err : String)
  | validationFailed (name err : String)
  | failedToStart (name err : String)
  | onStopFailed (name err : String)
  | failedToStop (name err : String)
  deriving DecidableEq, Repr

abbrev Components := Finmap fun _ : String => ComponentEntry

structure Container where
  components : Components
  order : List String
  started : Bool

namespace Container

def new : Container := ⟨∅, [], false⟩

variable (c : Container)

def register (name : String) (component : Component) (deps : List String) :
    Except ContainerError Container :=
  if c.started then .error (.containerAlreadyStarted name)
  else if name ∈ c.components then .error (.componentAlreadyRegistered name)
  else
    .ok { c with components :=
            c.components.insert name ⟨component, deps ++ component.dependencies⟩ }

def count : Nat := c.components.keys.card

/-- The dependencies of a component; none where the name is not registered. -/
def dependencies (c : Container) (name : String) : List String :=
  ((c.components.lookup name).map ComponentEntry.dependencies).getD []

/-! ## The order of the components -/

/-- The graph and the counts that `topologicalSort` builds. -/
structure Edges where
  graph : String → List String
  inDegree : String → Int

/-- An edge from a dependency to a component. -/
def Edges.add (edges : Edges) (name dep : String) : Edges :=
  ⟨Function.update edges.graph dep (edges.graph dep ++ [name]),
    Function.update edges.inDegree name (edges.inDegree name + 1)⟩

def addEdge (name : String) (edges : Edges) (dep : String) : Except ContainerError Edges :=
  if dep ∈ c.components then .ok (edges.add name dep) else .error (.dependencyNotFound name dep)

/-- The loop over the components that builds the graph, in some order of the map. -/
def buildEdges (names : List String) : Except ContainerError Edges :=
  names.foldlM (fun edges name => (c.dependencies name).foldlM (c.addEdge name) edges)
    ⟨fun _ => [], fun _ => 0⟩

/-- The state in which the queue holds the components without dependencies. -/
def Edges.start (edges : Edges) (names : List String) : Kahn.State String :=
  ⟨edges.inDegree, names.filter (edges.inDegree · = 0), []⟩

/-- The map is gone through three times, in any order each time. -/
def topologicalSort (building queueing reporting : List String) :
    Except ContainerError (List String) := do
  let edges ← c.buildEdges building
  let s := Kahn.run edges.graph c.count (edges.start queueing)
  if s.order.length ≠ c.count then
    .error (.circularDependency (reporting.filter (0 < s.degree ·)))
  else .ok s.order

end Container

/-! ## Calls on the components -/

/-- A call on a component, for `Start` with whether it succeeded. -/
inductive ComponentCall where
  | onStart (name : String)
  | validate (name : String)
  | start (name : String) (succeeded : Bool)
  | onStop (name : String)
  | stop (name : String)
  deriving DecidableEq, Repr

structure Outcomes where
  onStart : String → Option String
  validate : String → Option String
  start : String → Option String
  onStop : String → Option String
  stop : String → Option String

namespace Container

variable (c : Container)

def isLifecycleAware (name : String) : Bool :=
  (c.components.lookup name).any (·.component.lifecycleAware)

def isConfigurable (name : String) : Bool :=
  (c.components.lookup name).any (·.component.configurable)

/-- A loop that calls the components of some kind and returns at the first error. -/
def attempt (applies : String → Bool) (call : String → Bool → ComponentCall)
    (outcome : String → Option String) (wrap : String → String → ContainerError) :
    List String → List ComponentCall × Option ContainerError
  | [] => ([], none)
  | name :: names =>
    if applies name then
      match outcome name with
      | some err => ([call name false], some (wrap name err))
      | none =>
        let rest := attempt applies call outcome wrap names
        (call name true :: rest.1, rest.2)
    else attempt applies call outcome wrap names

variable (outcomes : Outcomes)

def callOnStart : List ComponentCall × Option ContainerError :=
  attempt c.isLifecycleAware (fun name _ => .onStart name) outcomes.onStart .onStartFailed c.order

def callValidate : List ComponentCall × Option ContainerError :=
  attempt c.isConfigurable (fun name _ => .validate name) outcomes.validate .validationFailed
    c.order

def callStart : List ComponentCall × Option ContainerError :=
  attempt (fun _ => true) .start outcomes.start .failedToStart c.order

/-- The loops of `StartAll` over the computed order. -/
def launch : Container × List ComponentCall × Option ContainerError :=
  match c.callOnStart outcomes with
  | (prepared, some err) => (c, prepared, some err)
  | (prepared, none) =>
    match c.callValidate outcomes with
    | (validated, some err) => (c, prepared ++ validated, some err)
    | (validated, none) =>
      match c.callStart outcomes with
      | (launched, some err) => (c, prepared ++ validated ++ launched, some err)
      | (launched, none) =>
        ({ c with started := true }, prepared ++ validated ++ launched, none)

def startAll (building queueing reporting : List String) (outcomes : Outcomes) :
    Container × List ComponentCall × Option ContainerError :=
  if c.started then (c, [], none)
  else
    match c.topologicalSort building queueing reporting with
    | .error err => (c, [], some err)
    | .ok order => { c with order := order }.launch outcomes

/-- All calls are made, and the first error is returned. -/
def stopAll : Container × List ComponentCall × Option ContainerError :=
  if c.started then
    let names := c.order.reverse
    let aware := names.filter c.isLifecycleAware
    let errors := (aware.filterMap fun name => (outcomes.onStop name).map (.onStopFailed name)) ++
      names.filterMap fun name => (outcomes.stop name).map (.failedToStop name)
    ({ c with started := false }, aware.map .onStop ++ names.map .stop, errors.head?)
  else (c, [], none)

end Container

/-- Iteration orders of the map in `topologicalSort`. -/
structure IterationOrders (components : Components) where
  building : List String
  queueing : List String
  reporting : List String
  enumeratesBuilding : Enumerates building components
  enumeratesQueueing : Enumerates queueing components
  enumeratesReporting : Enumerates reporting components

end Blockberry
