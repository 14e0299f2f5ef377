import Blockberry.Container.Container

/-!
# Correctness of the order

`topologicalSort` is Kahn's algorithm on the graph of the listed dependencies. A dependency
that is listed several times is an edge for each time.
-/

namespace Blockberry.Container

open FiniteMap List

variable {c : Container} {names : List String} {edges : Edges}

def Complete (c : Container) : Prop :=
  ∀ name ∈ c.components, ∀ dep ∈ c.dependencies name, dep ∈ c.components

/-- Every registered name once, each after all of its dependencies. -/
structure IsStartOrder (c : Container) (order : List String) : Prop where
  nodup : order.Nodup
  mem_iff : ∀ name, name ∈ order ↔ name ∈ c.components
  sorted : Kahn.Sorted c.dependencies order

/-! ## Building the graph -/

theorem Edges.count_graph_add (edges : Edges) (name dep query dependent : String) :
    ((edges.add name dep).graph query).count dependent =
      (edges.graph query).count dependent + if dependent = name ∧ query = dep then 1 else 0 := by
  by_cases isDep : query = dep
  · subst isDep
    by_cases isName : dependent = name
    · subst isName
      simp [add]
    · simp [add, isName, Ne.symm isName]
  · simp [add, isDep]

theorem Edges.inDegree_add (edges : Edges) (name dep dependent : String) :
    (edges.add name dep).inDegree dependent =
      edges.inDegree dependent + if dependent = name then 1 else 0 := by
  by_cases isName : dependent = name
  · subst isName
    simp [add]
  · simp [add, isName]

theorem foldlM_addEdge {deps : List String} (registered : ∀ dep ∈ deps, dep ∈ c.components)
    (name : String) (edges : Edges) :
    ∃ result, deps.foldlM (c.addEdge name) edges = .ok result ∧
      (∀ dep dependent, (result.graph dep).count dependent =
        (edges.graph dep).count dependent + if dependent = name then deps.count dep else 0) ∧
      ∀ dependent, result.inDegree dependent =
        edges.inDegree dependent + if dependent = name then (deps.length : Int) else 0 := by
  induction deps generalizing edges with
  | nil => exact ⟨edges, rfl, by simp, by simp⟩
  | cons first deps ih =>
    obtain ⟨result, isResult, graph, inDegree⟩ :=
      ih (fun dep member => registered dep (mem_cons_of_mem _ member)) (edges.add name first)
    refine ⟨result, ?_, ?_, ?_⟩
    · rw [foldlM_cons, addEdge, if_pos (registered first mem_cons_self)]
      exact isResult
    · intro dep dependent
      rw [graph, Edges.count_graph_add, count_cons]
      by_cases isName : dependent = name
      · by_cases isFirst : dep = first
        · simp only [isName, isFirst, and_self, ↓reduceIte, BEq.rfl]
          omega
        · simp [isName, isFirst, Ne.symm isFirst]
      · simp [isName]
    · intro dependent
      rw [inDegree, Edges.inDegree_add, length_cons]
      split
      next => omega
      next => omega

theorem foldlM_addEdge_error {name : String} {deps : List String}
    (missing : ∃ dep ∈ deps, dep ∉ c.components) (edges : Edges) :
    ∃ dep ∈ deps, deps.foldlM (c.addEdge name) edges = .error (.dependencyNotFound name dep) := by
  induction deps generalizing edges with
  | nil => simp at missing
  | cons first deps ih =>
    rw [foldlM_cons, addEdge]
    by_cases registered : first ∈ c.components
    · have later : ∃ dep ∈ deps, dep ∉ c.components := by
        obtain ⟨dep, member, notRegistered⟩ := missing
        rcases mem_cons.mp member with rfl | isLater
        · exact absurd registered notRegistered
        · exact ⟨dep, isLater, notRegistered⟩
      rw [if_pos registered]
      obtain ⟨dep, member, isError⟩ := ih later _
      exact ⟨dep, mem_cons_of_mem _ member, isError⟩
    · rw [if_neg registered]
      exact ⟨first, mem_cons_self, rfl⟩

/-- What the loop over the components has built. -/
structure Built (c : Container) (names : List String) (edges : Edges) : Prop where
  graph : ∀ dep dependent,
    (edges.graph dep).count dependent = names.count dependent * (c.dependencies dependent).count dep
  inDegree : ∀ dependent,
    edges.inDegree dependent = names.count dependent * (c.dependencies dependent).length

theorem buildEdges_append (names : List String) (last : String) : c.buildEdges (names ++ [last]) =
      c.buildEdges names >>= fun edges => (c.dependencies last).foldlM (c.addEdge last) edges := by
  rw [buildEdges, foldlM_append]
  apply bind_congr
  intro edges
  simp

theorem buildEdges_ok
    (registered : ∀ name ∈ names, ∀ dep ∈ c.dependencies name, dep ∈ c.components) :
    ∃ edges, c.buildEdges names = .ok edges ∧ Built c names edges := by
  induction names using List.reverseRecOn with
  | nil => exact ⟨_, rfl, by simp, by simp⟩
  | append_singleton names last ih =>
    obtain ⟨before, isBefore, built⟩ :=
      ih fun name member => registered name (mem_append_left _ member)
    obtain ⟨edges, isEdges, graph, inDegree⟩ :=
      foldlM_addEdge (registered last (by simp)) last before
    refine ⟨edges, ?_, ?_, ?_⟩
    · rw [buildEdges_append, isBefore]
      exact isEdges
    · intro dep dependent
      rw [graph, built.graph, count_append, count_singleton, Nat.add_mul]
      by_cases isLast : dependent = last
      · simp [isLast]
      · simp [isLast, Ne.symm isLast]
    · intro dependent
      rw [inDegree, built.inDegree, count_append, count_singleton]
      by_cases isLast : dependent = last
      · simp [isLast, Int.add_mul]
      · simp [isLast, Ne.symm isLast]

theorem buildEdges_error
    (missing : ∃ name ∈ names, ∃ dep ∈ c.dependencies name, dep ∉ c.components) :
    ∃ name dep, c.buildEdges names = .error (.dependencyNotFound name dep) := by
  induction names using List.reverseRecOn with
  | nil => simp at missing
  | append_singleton names last ih =>
    rw [buildEdges_append]
    by_cases earlier : ∃ name ∈ names, ∃ dep ∈ c.dependencies name, dep ∉ c.components
    · obtain ⟨name, dep, isError⟩ := ih earlier
      exact ⟨name, dep, by rw [isError]; rfl⟩
    · have registered : ∀ name ∈ names, ∀ dep ∈ c.dependencies name, dep ∈ c.components := by
        intro name member dep listed
        by_contra notRegistered
        exact earlier ⟨name, member, dep, listed, notRegistered⟩
      obtain ⟨edges, isEdges, -⟩ := buildEdges_ok registered
      obtain ⟨name, member, isMissing⟩ := missing
      rcases mem_append.mp member with isEarlier | isLast
      · exact absurd ⟨name, isEarlier, isMissing⟩ earlier
      · rw [mem_singleton.mp isLast] at isMissing
        obtain ⟨dep, -, isError⟩ := foldlM_addEdge_error isMissing edges
        exact ⟨last, dep, by rw [isEdges]; exact isError⟩

theorem built_of_buildEdges (enumerates : Enumerates names c.components)
    (isEdges : c.buildEdges names = .ok edges) : c.Complete ∧ Built c names edges := by
  by_cases complete : c.Complete
  · obtain ⟨other, isOther, built⟩ := buildEdges_ok fun name member =>
      complete name ((enumerates.mem_iff name).mp member)
    cases isOther.symm.trans isEdges
    exact ⟨complete, built⟩
  · simp only [Complete, not_forall] at complete
    obtain ⟨name, member, dep, listed, notRegistered⟩ := complete
    obtain ⟨_, _, isError⟩ := buildEdges_error
      ⟨name, (enumerates.mem_iff name).mpr member, dep, listed, notRegistered⟩
    cases isError.symm.trans isEdges

section Kahn

variable {building queueing : List String}

/-- The graph of the container, as far as the loop has built it. -/
def graph (complete : c.Complete) (enumerates : Enumerates building c.components)
    (built : Built c building edges) : Kahn.Graph String where
  nodes := building
  dependencies := c.dependencies
  dependents := edges.graph
  nodup := enumerates.nodup
  outside name missing := by
    rw [dependencies, Finmap.lookup_eq_none.mpr (mt (enumerates.mem_iff name).mpr missing)]
    rfl
  closed name member dep listed :=
    (enumerates.mem_iff dep).mpr (complete name ((enumerates.mem_iff name).mp member) dep listed)
  dependents_mem name dependent member := by
    have positive := List.count_pos_iff.mpr member
    rw [built.graph] at positive
    exact List.count_pos_iff.mp (Nat.pos_of_mul_pos_right positive)
  count_eq name member dep := by
    rw [built.graph, List.count_eq_one_of_mem enumerates.nodup member, Nat.one_mul]

variable (complete : c.Complete)

include complete

variable (enumerates : Enumerates building c.components)

include enumerates

variable (queued : Enumerates queueing c.components)

include queued

variable (built : Built c building edges)

include built

theorem valid_start : Kahn.Valid (graph complete enumerates built) (edges.start queueing) where
  nodup := queued.nodup.filter _
  mem_iff name := by
    have inNodes : name ∈ queueing ↔ name ∈ building := by
      rw [queued.mem_iff, enumerates.mem_iff]
    simp [Edges.start, graph, mem_filter, inNodes]
  degree_eq name member := by
    have once : building.count name = 1 := count_eq_one_of_mem enumerates.nodup member
    simp [Edges.start, graph, built.inDegree, once]
  sorted before name isPrefix := by
    simp [Edges.start] at isPrefix

theorem queue_run : (Kahn.run edges.graph c.count (edges.start queueing)).queue = [] := by
  have valid := valid_start complete enumerates queued built
  apply valid.queue_run
  have nodes : (graph complete enumerates built).nodes.length = c.count := enumerates.length_eq
  exact nodes.le.trans (Nat.le_add_left _ _)

theorem length_order_iff :
    (Kahn.run edges.graph c.count (edges.start queueing)).order.length = c.count ↔
      Kahn.Acyclic c.dependencies := by
  have valid := (valid_start complete enumerates queued built).run c.count
  have result := valid.length_order_iff_acyclic (queue_run complete enumerates queued built)
  have nodes : (graph complete enumerates built).nodes.length = c.count := enumerates.length_eq
  rwa [nodes] at result

theorem isStartOrder
    (all : (Kahn.run edges.graph c.count (edges.start queueing)).order.length = c.count) :
    c.IsStartOrder (Kahn.run edges.graph c.count (edges.start queueing)).order := by
  have valid := (valid_start complete enumerates queued built).run c.count
  have nodes : (graph complete enumerates built).nodes.length = c.count := enumerates.length_eq
  refine ⟨valid.nodup_order, fun name => ?_, valid.sorted⟩
  rw [← enumerates.mem_iff]
  constructor
  · exact fun member => valid.mem_nodes member
  · exact valid.length_order_iff.mp (all.trans nodes.symm) name

end Kahn

theorem topologicalSort_cases (c : Container) (orders : IterationOrders c.components) :
    (¬c.Complete ∧ ∃ name dep, c.topologicalSort orders.building orders.queueing orders.reporting =
          .error (.dependencyNotFound name dep)) ∨
      (c.Complete ∧ ¬Kahn.Acyclic c.dependencies ∧ ∃ involving,
        c.topologicalSort orders.building orders.queueing orders.reporting =
          .error (.circularDependency involving)) ∨
      (c.Complete ∧ Kahn.Acyclic c.dependencies ∧ ∃ order,
        c.topologicalSort orders.building orders.queueing orders.reporting = .ok order ∧
          c.IsStartOrder order) := by
  by_cases complete : c.Complete
  · have registered : ∀ name ∈ orders.building, ∀ dep ∈ c.dependencies name, dep ∈ c.components :=
      fun name member => complete name ((orders.enumeratesBuilding.mem_iff name).mp member)
    obtain ⟨edges, isEdges, built⟩ := buildEdges_ok registered
    have sorted :=
      length_order_iff complete orders.enumeratesBuilding orders.enumeratesQueueing built
    rw [topologicalSort, isEdges]
    right
    by_cases acyclic : Kahn.Acyclic c.dependencies
    · have all := sorted.mpr acyclic
      right
      refine ⟨complete, acyclic, _, if_neg (not_not.mpr all), ?_⟩
      exact isStartOrder complete orders.enumeratesBuilding orders.enumeratesQueueing built all
    · left
      exact ⟨complete, acyclic, _, if_pos (mt sorted.mp acyclic)⟩
  · left
    refine ⟨complete, ?_⟩
    have missing : ∃ name ∈ orders.building, ∃ dep ∈ c.dependencies name, dep ∉ c.components := by
      simp only [Complete, not_forall] at complete
      obtain ⟨name, member, dep, listed, notRegistered⟩ := complete
      exact ⟨name, (orders.enumeratesBuilding.mem_iff name).mpr member, dep, listed, notRegistered⟩
    obtain ⟨name, dep, isError⟩ := buildEdges_error missing
    refine ⟨name, dep, ?_⟩
    rw [topologicalSort, isError]
    rfl

/-- Whatever the iteration orders, sorting succeeds exactly if every dependency is registered and
there is no cycle. The order then has every name once, after its dependencies. A cycle among
registered components is reported as such, with an empty queue. -/
theorem topologicalSort_correct (c : Container) (orders : IterationOrders c.components) :
    ((∃ order, c.topologicalSort orders.building orders.queueing orders.reporting = .ok order) ↔
      c.Complete ∧ Kahn.Acyclic c.dependencies) ∧
    (∀ order, c.topologicalSort orders.building orders.queueing orders.reporting = .ok order →
      c.IsStartOrder order) ∧
    (c.Complete → ¬Kahn.Acyclic c.dependencies → ∃ involving,
      c.topologicalSort orders.building orders.queueing orders.reporting =
        .error (.circularDependency involving)) ∧
    (∀ edges, c.buildEdges orders.building = .ok edges →
      (Kahn.run edges.graph c.count (edges.start orders.queueing)).queue = []) := by
  have ended : ∀ edges, c.buildEdges orders.building = .ok edges →
      (Kahn.run edges.graph c.count (edges.start orders.queueing)).queue = [] := by
    intro edges isEdges
    obtain ⟨complete, built⟩ := built_of_buildEdges orders.enumeratesBuilding isEdges
    exact queue_run complete orders.enumeratesBuilding orders.enumeratesQueueing built
  rcases topologicalSort_cases c orders with
    ⟨incomplete, name, dep, isError⟩ | ⟨complete, cyclic, involving, isError⟩ |
      ⟨complete, acyclic, order, isOrder, isStart⟩
  · rw [isError]
    refine ⟨?_, ?_, fun complete => absurd complete incomplete, ended⟩
    · simp [incomplete]
    · intro order impossible
      cases impossible
  · rw [isError]
    refine ⟨?_, ?_, fun _ _ => ⟨involving, rfl⟩, ended⟩
    · simp [cyclic]
    · intro order impossible
      cases impossible
  · rw [isOrder]
    refine ⟨?_, ?_, fun _ cyclic => absurd acyclic cyclic, ended⟩
    · simp [complete, acyclic]
    · intro other same
      cases same
      exact isStart

end Blockberry.Container
