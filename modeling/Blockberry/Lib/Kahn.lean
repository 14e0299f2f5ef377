import Mathlib.Data.List.Count
import Mathlib.Data.List.Nodup
import Mathlib.Data.List.Perm.Subperm
import Mathlib.Data.Fintype.Card
import Mathlib.Data.Fintype.EquivFin
import Mathlib.Logic.Function.Basic
import Mathlib.Order.WellFounded

/-!
# Kahn's algorithm

Nodes without open dependencies wait in a queue. When a node is taken from the queue, the
count of every node that depends on it goes down, once for each time that the dependency is
listed, and a node whose count reaches zero joins the queue.
-/

namespace Kahn

open List

variable {α : Type} [DecidableEq α]

structure State (α : Type) where
  degree : α → Int
  queue : List α
  order : List α

/-- One dependency less. -/
def relax (s : State α) (dependent : α) : State α :=
  let degree := Function.update s.degree dependent (s.degree dependent - 1)
  { s with
    degree := degree
    queue := if degree dependent = 0 then s.queue ++ [dependent] else s.queue }

/-- The first of the queue is taken. -/
def visit (dependents : α → List α) (s : State α) (current : α) (queue : List α) : State α :=
  (dependents current).foldl relax ⟨s.degree, queue, s.order ++ [current]⟩

/-- The loop, for a number of rounds. -/
def run (dependents : α → List α) : Nat → State α → State α
  | 0, s => s
  | rounds + 1, s =>
    match s.queue with
    | [] => s
    | current :: queue => run dependents rounds (visit dependents s current queue)

/-! ## Counting down -/

@[simp] theorem degree_relax (s : State α) (dependent node : α) : (relax s dependent).degree node =
      if node = dependent then s.degree dependent - 1 else s.degree node :=
  Function.update_apply _ _ _ _

@[simp] theorem order_foldl_relax (list : List α) (s : State α) :
    (list.foldl relax s).order = s.order := by
  induction list generalizing s with
  | nil => rfl
  | cons first list ih =>
    rw [foldl_cons, ih]
    rfl

theorem degree_foldl_relax (list : List α) (s : State α) (node : α) :
    (list.foldl relax s).degree node = s.degree node - list.count node := by
  induction list generalizing s with
  | nil => simp
  | cons first list ih =>
    rw [foldl_cons, ih]
    by_cases same : first = node
    · subst same
      rw [count_cons_self, degree_relax, if_pos rfl]
      omega
    · rw [count_cons_of_ne same, degree_relax, if_neg (Ne.symm same)]

/-- Those nodes join the queue, once each, whose count reaches zero. -/
theorem queue_foldl_relax (list : List α) (s : State α) :
    ∃ joined, (list.foldl relax s).queue = s.queue ++ joined ∧ joined.Nodup ∧
      ∀ node, node ∈ joined ↔ 0 < s.degree node ∧ s.degree node ≤ list.count node := by
  induction list generalizing s with
  | nil =>
    refine ⟨[], by simp, nodup_nil, fun node => ?_⟩
    simp only [not_mem_nil, count_nil, false_iff]
    omega
  | cons first list ih =>
    obtain ⟨joined, isQueue, nodup, mem_iff⟩ := ih (relax s first)
    by_cases reached : s.degree first = 1
    · refine ⟨first :: joined, ?_, ?_, fun node => ?_⟩
      · rw [foldl_cons, isQueue]
        simp [relax, reached]
      · rw [nodup_cons, mem_iff, degree_relax, if_pos rfl]
        exact ⟨by omega, nodup⟩
      · rw [mem_cons, mem_iff, degree_relax]
        by_cases same : node = first
        · subst same
          simp only [↓reduceIte, true_or, count_cons_self, true_iff]
          omega
        · rw [if_neg same, count_cons_of_ne (Ne.symm same)]
          simp [same]
    · refine ⟨joined, ?_, nodup, fun node => ?_⟩
      · rw [foldl_cons, isQueue]
        simp only [relax, Function.update_self]
        rw [if_neg (by omega)]
      · rw [mem_iff, degree_relax]
        by_cases same : node = first
        · subst same
          rw [if_pos rfl, count_cons_self]
          omega
        · rw [if_neg same, count_cons_of_ne (Ne.symm same)]

/-! ## The invariant -/

structure Graph (α : Type) [DecidableEq α] where
  nodes : List α
  dependencies : α → List α
  dependents : α → List α
  nodup : nodes.Nodup
  outside : ∀ node, node ∉ nodes → dependencies node = []
  closed : ∀ node ∈ nodes, ∀ dependency ∈ dependencies node, dependency ∈ nodes
  dependents_mem : ∀ node, ∀ dependent ∈ dependents node, dependent ∈ nodes
  count_eq : ∀ node ∈ nodes, ∀ dependency,
    (dependents dependency).count node = (dependencies node).count dependency

/-- Every node comes after its dependencies. -/
def Sorted (dependencies : α → List α) (order : List α) : Prop :=
  ∀ before node, before ++ [node] <+: order →
    ∀ dependency ∈ dependencies node, dependency ∈ before

/-- No node depends on itself, directly or through others. -/
def Acyclic (dependencies : α → List α) : Prop :=
  ∀ node, ¬Relation.TransGen (fun node dependency => dependency ∈ dependencies node) node node

structure Valid (graph : Graph α) (s : State α) : Prop where
  nodup : (s.order ++ s.queue).Nodup
  mem_iff : ∀ node, node ∈ s.order ++ s.queue ↔ node ∈ graph.nodes ∧ s.degree node = 0
  degree_eq : ∀ node ∈ graph.nodes,
    s.degree node = (graph.dependencies node).countP (· ∉ s.order)
  sorted : Sorted graph.dependencies s.order

variable {graph : Graph α} {s : State α}

omit [DecidableEq α] in
theorem sorted_append {dependencies : α → List α} {order : List α} {node : α}
    (sorted : Sorted dependencies order)
    (done : ∀ dependency ∈ dependencies node, dependency ∈ order) :
    Sorted dependencies (order ++ [node]) := by
  intro before other isPrefix
  rcases prefix_concat_iff.mp isPrefix with same | shorter
  · obtain ⟨rfl, rfl⟩ := append_singleton_inj.mp same
    exact done
  · exact sorted before other shorter

/-- What is still open after one more node is done. -/
theorem countP_append_singleton {order : List α} {current : α} (notDone : current ∉ order)
    (list : List α) :
    list.countP (· ∉ order) = list.countP (· ∉ order ++ [current]) + list.count current := by
  induction list with
  | nil => rfl
  | cons first list ih =>
    by_cases same : first = current
    · subst same
      rw [count_cons_self, countP_cons_of_pos (by simpa using notDone),
        countP_cons_of_neg (by simp), ih]
      omega
    · rw [count_cons_of_ne same]
      by_cases done : first ∈ order
      · rw [countP_cons_of_neg (by simpa using done), countP_cons_of_neg (by simp [done]),
          ih]
      · rw [countP_cons_of_pos (by simpa using done),
          countP_cons_of_pos (by simp [done, same]), ih]
        omega

variable (valid : Valid graph s)

include valid

theorem Valid.dependencies_done {node : α} (member : node ∈ graph.nodes) :
    s.degree node = 0 ↔ ∀ dependency ∈ graph.dependencies node, dependency ∈ s.order := by
  rw [valid.degree_eq node member, Int.natCast_eq_zero, countP_eq_zero]
  simp

theorem Valid.visit {current : α} {queue : List α} (isQueue : s.queue = current :: queue) :
    Valid graph (Kahn.visit graph.dependents s current queue) := by
  obtain ⟨joined, isJoined, joinedNodup, mem_joined⟩ :=
    queue_foldl_relax (graph.dependents current) ⟨s.degree, queue, s.order ++ [current]⟩
  have isOrder : (Kahn.visit graph.dependents s current queue).order = s.order ++ [current] :=
    order_foldl_relax _ _
  have degree (node : α) : (Kahn.visit graph.dependents s current queue).degree node =
      s.degree node - (graph.dependents current).count node :=
    degree_foldl_relax _ _ node
  have all : (Kahn.visit graph.dependents s current queue).order ++
      (Kahn.visit graph.dependents s current queue).queue = (s.order ++ s.queue) ++ joined := by
    rw [isOrder, Kahn.visit, isJoined, isQueue]
    simp
  have inQueue : current ∈ s.order ++ s.queue := by simp [isQueue]
  have isNode := ((valid.mem_iff current).mp inQueue).1
  have notDone : current ∉ s.order := by
    have distinct := valid.nodup
    rw [isQueue, nodup_append] at distinct
    exact fun member => distinct.2.2 current member current mem_cons_self rfl
  have degree_eq (node : α) (member : node ∈ graph.nodes) :
      (Kahn.visit graph.dependents s current queue).degree node =
        (graph.dependencies node).countP (· ∉ s.order ++ [current]) := by
    have before := countP_append_singleton notDone (graph.dependencies node)
    rw [degree, valid.degree_eq node member, graph.count_eq node member]
    omega
  constructor
  · rw [all, nodup_append]
    refine ⟨valid.nodup, joinedNodup, ?_⟩
    rintro node old other new rfl
    have zero := ((valid.mem_iff node).mp old).2
    have positive := ((mem_joined node).mp new).1
    exact absurd zero (ne_of_gt positive)
  · intro node
    rw [all, mem_append, valid.mem_iff, mem_joined, degree]
    constructor
    · rintro (⟨member, zero⟩ | ⟨positive, reached⟩)
      · have remaining := degree_eq node member
        rw [degree] at remaining
        exact ⟨member, by omega⟩
      · have listed : node ∈ graph.dependents current := by
          rw [← count_pos_iff]
          dsimp only at positive reached
          omega
        have member := graph.dependents_mem current node listed
        have remaining := degree_eq node member
        rw [degree] at remaining
        dsimp only at reached
        exact ⟨member, by omega⟩
    · rintro ⟨member, zero⟩
      by_cases already : s.degree node = 0
      · exact Or.inl ⟨member, already⟩
      · right
        dsimp only
        omega
  · rw [isOrder]
    exact degree_eq
  · rw [isOrder]
    apply sorted_append valid.sorted
    exact (valid.dependencies_done isNode).mp ((valid.mem_iff current).mp inQueue).2

theorem Valid.run (rounds : Nat) : Valid graph (Kahn.run graph.dependents rounds s) := by
  induction rounds generalizing s with
  | zero => exact valid
  | succ rounds ih =>
    rw [Kahn.run]
    split
    next => exact valid
    next current queue isQueue => exact ih (valid.visit isQueue)

theorem Valid.length_le : (s.order ++ s.queue).length ≤ graph.nodes.length := by
  apply List.Subperm.length_le
  apply valid.nodup.subperm
  exact fun node member => ((valid.mem_iff node).mp member).1

/-- As many rounds as there are nodes empty the queue. -/
theorem Valid.queue_run {rounds : Nat} (enough : graph.nodes.length ≤ s.order.length + rounds) :
    (Kahn.run graph.dependents rounds s).queue = [] := by
  induction rounds generalizing s with
  | zero =>
    have bound := valid.length_le
    rw [length_append] at bound
    rw [Kahn.run]
    exact length_eq_zero_iff.mp (by omega)
  | succ rounds ih =>
    rw [Kahn.run]
    split
    next isEmpty => exact isEmpty
    next current queue isQueue =>
      apply ih (valid.visit isQueue)
      rw [Kahn.visit, order_foldl_relax, length_append, length_singleton]
      omega

/-- The nodes are sorted unless one of them is on a cycle or depends on one. -/
theorem Valid.mem_order_of_acyclic (finished : s.queue = [])
    (acyclic : Acyclic graph.dependencies) {node : α} (member : node ∈ graph.nodes) :
    node ∈ s.order := by
  by_contra missing
  let Open := { node : α // node ∈ graph.nodes ∧ node ∉ s.order }
  let Needs (left right : Open) : Prop :=
    Relation.TransGen (fun node dependency => dependency ∈ graph.dependencies node) right.1 left.1
  have finite : Finite Open := by
    apply Finite.of_injective fun node : Open =>
      (⟨node.1, node.2.1⟩ : { node // node ∈ graph.nodes })
    intro left right same
    exact Subtype.ext (Subtype.mk.inj same)
  have : IsTrans Open Needs := ⟨fun _ _ _ first second => second.trans first⟩
  have : Std.Irrefl Needs := ⟨fun node => acyclic node.1⟩
  have wellFounded : WellFounded Needs := Finite.wellFounded_of_trans_of_irrefl Needs
  obtain ⟨least, -, isLeast⟩ := wellFounded.has_min Set.univ ⟨⟨node, member, missing⟩, trivial⟩
  have notZero : s.degree least.1 ≠ 0 := by
    intro zero
    have done := (valid.mem_iff least.1).mpr ⟨least.2.1, zero⟩
    rw [finished, append_nil] at done
    exact least.2.2 done
  rw [Ne, valid.dependencies_done least.2.1] at notZero
  simp only [not_forall] at notZero
  obtain ⟨dependency, listed, notDone⟩ := notZero
  exact isLeast ⟨dependency, graph.closed least.1 least.2.1 dependency listed, notDone⟩ trivial
    (Relation.TransGen.single listed)

omit valid

theorem idxOf_lt_of_sorted {dependencies : α → List α} {order : List α}
    (sorted : Sorted dependencies order) {node dependency : α} (member : node ∈ order)
    (listed : dependency ∈ dependencies node) :
    dependency ∈ order ∧ order.idxOf dependency < order.idxOf node := by
  obtain ⟨before, after, rfl, notBefore⟩ := eq_append_cons_of_mem member
  have isPrefix : before ++ [node] <+: before ++ node :: after := ⟨after, by simp⟩
  have earlier := sorted before node isPrefix dependency listed
  refine ⟨mem_append_left _ earlier, ?_⟩
  rw [idxOf_append_of_mem earlier, idxOf_append_of_notMem notBefore, idxOf_cons_self]
  exact (idxOf_lt_length_of_mem earlier).trans_le (Nat.le_add_right _ _)

/-- A sorted order of all that have dependencies shows that there is no cycle. -/
theorem acyclic_of_sorted {dependencies : α → List α} {order : List α}
    (sorted : Sorted dependencies order) (all : ∀ node, dependencies node ≠ [] → node ∈ order) :
    Acyclic dependencies := by
  have later {node reached : α}
      (needs : Relation.TransGen (fun node dependency => dependency ∈ dependencies node) node
        reached) :
      order.idxOf reached < order.idxOf node := by
    induction needs with
    | single listed => exact (idxOf_lt_of_sorted sorted (all _ (ne_nil_of_mem listed)) listed).2
    | tail _ listed ih =>
      exact (idxOf_lt_of_sorted sorted (all _ (ne_nil_of_mem listed)) listed).2.trans ih
  exact fun node needs => lt_irrefl _ (later needs)

include valid

theorem Valid.nodup_order : s.order.Nodup := (nodup_append.mp valid.nodup).1

theorem Valid.mem_nodes {node : α} (member : node ∈ s.order) : node ∈ graph.nodes :=
  ((valid.mem_iff node).mp (mem_append_left _ member)).1

/-- As many nodes are sorted as there are exactly if all are. -/
theorem Valid.length_order_iff :
    s.order.length = graph.nodes.length ↔ ∀ node ∈ graph.nodes, node ∈ s.order := by
  have sub : s.order.Subperm graph.nodes :=
    valid.nodup_order.subperm fun node member => valid.mem_nodes member
  constructor
  · intro same node member
    exact (sub.perm_of_length_le same.ge).mem_iff.mpr member
  · intro all
    exact Nat.le_antisymm sub.length_le (graph.nodup.subperm all).length_le

/-- All nodes are sorted exactly if there is no cycle. -/
theorem Valid.length_order_iff_acyclic (finished : s.queue = []) :
    s.order.length = graph.nodes.length ↔ Acyclic graph.dependencies := by
  rw [valid.length_order_iff]
  constructor
  · intro all
    apply acyclic_of_sorted valid.sorted
    intro node hasDependencies
    apply all
    by_contra outside
    exact hasDependencies (graph.outside node outside)
  · intro acyclic node member
    exact valid.mem_order_of_acyclic finished acyclic member

end Kahn
