import CfiSlack.View

/-!
# Overlays

The edges of a policy laid over a ground-truth graph. The graph stays as it is; hubs exist only in
an overlay. The types record that the derived edges are new, listed once, and end in blocks or hubs,
and that what is kept for following them in both directions agrees with the list.
-/
namespace CfiSlack

/-- Why an edge cannot be laid over a graph. The sink is looked at before missing blocks, and the
source of an edge before its target. -/
def Graph.overlayFault? (g : Graph) (e : Edge) : Option GraphError :=
  if e.source.isSink || e.target.isSink then some (.sinkEdge e)
  else if !e.source.isHub && !g.contains e.source then some (.danglingEdge e e.source)
  else if !e.target.isHub && !g.contains e.target then some (.danglingEdge e e.target)
  else none

/-- Derived edges in the order in which they were given, with the derived neighbours of every node in
that order, the hubs among their ends, and their number. -/
structure Layer where
  extra : List Edge
  forward : Table Node (List Node) := .gather Edge.source Edge.target extra
  backward : Table Node (List Node) := .gather Edge.target Edge.source extra
  /-- An ascending list. -/
  hubs : List Node := Ascending.ofList ((extra.flatMap Edge.ends).filter Node.isHub)
  extraCount : Nat := extra.length
  forward_eq : ∀ n, forward.group n = (extra.filter fun e => e.source = n).map Edge.target := by
    exact Table.group_gather _ _ _
  backward_eq : ∀ n, backward.group n = (extra.filter fun e => e.target = n).map Edge.source := by
    exact Table.group_gather _ _ _
  mem_hubs : ∀ n, n ∈ hubs ↔ n.isHub = true ∧ ∃ e ∈ extra, n ∈ e.ends := by
    intro n
    rw [Ascending.mem_ofList, List.mem_filter, List.mem_flatMap, and_comm]
  hubs_ascend : hubs.Pairwise (· < ·) := by exact Ascending.pairwise_ofList _
  extraCount_eq : extraCount = extra.length := by rfl

namespace Layer

def empty : Layer where
  extra := []

/-- Note a node if it is a hub. -/
def note (hubs : List Node) (n : Node) : List Node :=
  if n.isHub then Ascending.insert n hubs else hubs

theorem mem_note {hubs : List Node} {m n : Node} :
    m ∈ note hubs n ↔ (m.isHub = true ∧ m = n) ∨ m ∈ hubs := by
  unfold note
  split
  · next h =>
    rw [Ascending.mem_insert]
    refine or_congr ⟨fun heq => ⟨heq ▸ h, heq⟩, And.right⟩ Iff.rfl
  · next h =>
    refine ⟨Or.inr, ?_⟩
    rintro (⟨hm, rfl⟩ | hm)
    · exact absurd hm h
    · exact hm

theorem note_ascends {hubs : List Node} {n : Node} (h : hubs.Pairwise (· < ·)) :
    (note hubs n).Pairwise (· < ·) := by
  unfold note
  split
  · exact Ascending.pairwise_insert h
  · exact h

/-- Add an edge behind the others. -/
def push (l : Layer) (e : Edge) : Layer where
  extra := l.extra ++ [e]
  forward := l.forward.push e.source e.target
  backward := l.backward.push e.target e.source
  hubs := note (note l.hubs e.source) e.target
  extraCount := l.extraCount + 1
  forward_eq n := by
    rw [Table.group_push, l.forward_eq, List.filter_append, List.map_append]
    by_cases h : e.source = n
    · simp [h]
    · simp [h, Ne.symm h]
  backward_eq n := by
    rw [Table.group_push, l.backward_eq, List.filter_append, List.map_append]
    by_cases h : e.target = n
    · simp [h]
    · simp [h, Ne.symm h]
  mem_hubs n := by
    have hends : (∃ d ∈ l.extra ++ [e], n ∈ d.ends) ↔
        (∃ d ∈ l.extra, n ∈ d.ends) ∨ n ∈ e.ends := by
      simp [or_and_right, exists_or]
    rw [mem_note, mem_note, l.mem_hubs, hends, Edge.mem_ends]
    by_cases h : n.isHub = true
    · simp only [h, true_and]
      exact or_left_comm.trans (or_assoc.symm.trans or_comm)
    · simp [h]
  hubs_ascend := note_ascends (note_ascends l.hubs_ascend)
  extraCount_eq := by rw [l.extraCount_eq, List.length_append, List.length_singleton]

end Layer

structure Overlay extends Layer where
  base : Graph
  extra_nodup : extra.Nodup
  extra_fresh : ∀ e ∈ extra, e ∉ base.flows.keys
  extra_sound : ∀ e ∈ extra, base.overlayFault? e = none

namespace Overlay

/-- A graph with nothing laid over it. -/
def bare (base : Graph) : Overlay where
  toLayer := .empty
  base := base
  extra_nodup := List.nodup_nil
  extra_fresh := by simp [Layer.empty]
  extra_sound := by simp [Layer.empty]

/-- Lay one more edge. An edge that the graph has and a repeated edge change nothing. -/
def lay (o : Overlay) (e : Edge) : Except GraphError Overlay :=
  match hfault : o.base.overlayFault? e with
  | some fault => .error fault
  | none =>
    if hknown : (o.base.flow? e).isSome ∨ e ∈ o.extra then .ok o
    else .ok
      { toLayer := o.push e
        base := o.base
        extra_nodup := by
          refine List.nodup_append.2 ⟨o.extra_nodup, by simp, ?_⟩
          rintro d hd _ he rfl
          exact hknown (Or.inr (List.mem_singleton.1 he ▸ hd))
        extra_fresh := by
          intro d hd
          rcases List.mem_append.1 hd with hd | hd
          · exact o.extra_fresh d hd
          · rw [List.mem_singleton.1 hd, Table.mem_keys]
            exact fun hflow => hknown (Or.inl hflow)
        extra_sound := by
          intro d hd
          rcases List.mem_append.1 hd with hd | hd
          · exact o.extra_sound d hd
          · rw [List.mem_singleton.1 hd]
            exact hfault }

/-- Lay edges over a graph, one after the other. The first edge that touches the sink or a missing
block is reported. -/
def ofEdges (base : Graph) (edges : List Edge) : Except GraphError Overlay :=
  edges.foldlM lay (bare base)

/-- Derived successors of a node, in the order in which they were given. -/
def extraSuccessors (o : Overlay) (n : Node) : List Node := o.forward.group n

def extraPredecessors (o : Overlay) (n : Node) : List Node := o.backward.group n

/-- Hubs are known to the overlay alone. -/
def contains (o : Overlay) (n : Node) : Bool :=
  o.base.contains n || (n.isHub && Ascending.bisect n o.hubs)

def nodeCount (o : Overlay) : Nat := o.base.nodeCount + o.hubs.length

def nodes (o : Overlay) : List Node := o.base.nodes ++ o.hubs

def successors (o : Overlay) (n : Node) : List Node := o.base.successors n ++ o.extraSuccessors n

def predecessors (o : Overlay) (n : Node) : List Node :=
  o.base.predecessors n ++ o.extraPredecessors n

def outDegree (o : Overlay) (n : Node) : Nat := o.base.outDegree n + (o.extraSuccessors n).length

def inDegree (o : Overlay) (n : Node) : Nat := o.base.inDegree n + (o.extraPredecessors n).length

theorem mem_extraSuccessors {o : Overlay} {m n : Node} :
    n ∈ o.extraSuccessors m ↔ (⟨m, n⟩ : Edge) ∈ o.extra := by
  rw [extraSuccessors, o.forward_eq, Edge.mem_targets]

theorem mem_extraPredecessors {o : Overlay} {m n : Node} :
    m ∈ o.extraPredecessors n ↔ (⟨m, n⟩ : Edge) ∈ o.extra := by
  rw [extraPredecessors, o.backward_eq, Edge.mem_origins]

theorem mem_successors {o : Overlay} {m n : Node} :
    n ∈ o.successors m ↔ (⟨m, n⟩ : Edge) ∈ o.base.flows.keys ∨ (⟨m, n⟩ : Edge) ∈ o.extra := by
  rw [successors, List.mem_append, Graph.mem_successors, mem_extraSuccessors]

theorem mem_predecessors {o : Overlay} {m n : Node} :
    m ∈ o.predecessors n ↔ (⟨m, n⟩ : Edge) ∈ o.base.flows.keys ∨ (⟨m, n⟩ : Edge) ∈ o.extra := by
  rw [predecessors, List.mem_append, Graph.mem_predecessors, mem_extraPredecessors]

/-- A derived edge is none of the graph, so no neighbour is listed a second time. -/
theorem nodup_successors (o : Overlay) (n : Node) : (o.successors n).Nodup := by
  refine List.nodup_append.2 ⟨o.base.nodup_successors n, ?_, ?_⟩
  · rw [extraSuccessors, o.forward_eq]
    exact Edge.nodup_targets o.extra_nodup n
  · rintro m hbase _ hextra rfl
    exact o.extra_fresh _ (mem_extraSuccessors.1 hextra) (Graph.mem_successors.1 hbase)

theorem nodup_predecessors (o : Overlay) (n : Node) : (o.predecessors n).Nodup := by
  refine List.nodup_append.2 ⟨o.base.nodup_predecessors n, ?_, ?_⟩
  · rw [extraPredecessors, o.backward_eq]
    exact Edge.nodup_origins o.extra_nodup n
  · rintro m hbase _ hextra rfl
    exact o.extra_fresh _ (mem_extraPredecessors.1 hextra) (Graph.mem_predecessors.1 hbase)

theorem nodup_nodes (o : Overlay) : o.nodes.Nodup := by
  refine List.nodup_append.2 ⟨o.base.nodup_nodes, Ascending.nodup_of_pairwise o.hubs_ascend, ?_⟩
  rintro n hbase _ hhub rfl
  have hnot := Graph.isHub_eq_false_of_mem_nodes hbase
  rw [((o.mem_hubs n).1 hhub).1] at hnot
  cases hnot

theorem contains_iff {o : Overlay} {n : Node} : o.contains n = true ↔ n ∈ o.nodes := by
  have hhubs : (n.isHub && Ascending.bisect n o.hubs) = true ↔ n ∈ o.hubs := by
    rw [Bool.and_eq_true, Ascending.bisect_iff o.hubs_ascend]
    exact and_iff_right_of_imp fun h => ((o.mem_hubs n).1 h).1
  rw [contains, Bool.or_eq_true, Graph.contains_iff, hhubs, nodes, List.mem_append]

theorem nodeCount_eq (o : Overlay) : o.nodeCount = o.nodes.length := by
  rw [nodeCount, nodes, List.length_append, Graph.nodeCount_eq]

theorem outDegree_eq (o : Overlay) (n : Node) : o.outDegree n = (o.successors n).length := by
  rw [outDegree, successors, List.length_append, Graph.outDegree_eq]

theorem inDegree_eq (o : Overlay) (n : Node) : o.inDegree n = (o.predecessors n).length := by
  rw [inDegree, predecessors, List.length_append, Graph.inDegree]

theorem mem_nodes_of_extra {o : Overlay} {e : Edge} (he : e ∈ o.extra) :
    e.source ∈ o.nodes ∧ e.target ∈ o.nodes := by
  have hsound := o.extra_sound e he
  unfold Graph.overlayFault? at hsound
  split at hsound
  · simp at hsound
  · split at hsound
    · simp at hsound
    · split at hsound
      · simp at hsound
      · next hs ht =>
        have place {n : Node} (hn : n ∈ e.ends)
            (h : ¬(!n.isHub && !o.base.contains n) = true) : n ∈ o.nodes := by
          cases hhub : n.isHub with
          | true => exact List.mem_append.2 (Or.inr ((o.mem_hubs n).2 ⟨hhub, e, he, hn⟩))
          | false =>
            refine List.mem_append.2 (Or.inl (Graph.contains_iff.1 ?_))
            simpa [hhub] using h
        exact ⟨place (by simp [Edge.ends]) hs, place (by simp [Edge.ends]) ht⟩

/-- An overlay as a view. -/
def view (o : Overlay) (order : Enumeration) : View where
  nodes := order.list o.nodes
  contains := o.contains
  nodeCount := o.nodeCount
  succ n := order.list (o.successors n)
  pred n := order.list (o.predecessors n)
  outDegree := o.outDegree
  inDegree := o.inDegree
  instrs := o.base.instrs
  kind? a b := (o.base.flow? ⟨a, b⟩).map Flow.kind
  nodes_nodup := order.nodup_list _
  succ_nodup _ := order.nodup_list _
  pred_nodup _ := order.nodup_list _
  mem_pred m n := by
    rw [Enumeration.mem_list, Enumeration.mem_list, mem_predecessors, mem_successors]
  mem_nodes m n h := by
    rw [Enumeration.mem_list] at h
    simp only [Enumeration.mem_list]
    rcases mem_successors.1 h with he | he
    · have hbase := (o.base.view .ascending).mem_nodes m n
      simp only [Graph.view, Enumeration.mem_list] at hbase
      have hsucc : n ∈ o.base.successors m := Graph.mem_successors.2 he
      exact ⟨List.mem_append.2 (Or.inl (hbase hsucc).1), List.mem_append.2 (Or.inl (hbase hsucc).2)⟩
    · exact mem_nodes_of_extra he
  contains_iff _ := contains_iff.trans Enumeration.mem_list.symm
  nodeCount_eq := by rw [o.nodeCount_eq, (order.perm_list o.nodup_nodes).length_eq]
  outDegree_eq n := by rw [o.outDegree_eq, (order.perm_list (o.nodup_successors n)).length_eq]
  inDegree_eq n := by rw [o.inDegree_eq, (order.perm_list (o.nodup_predecessors n)).length_eq]

end Overlay
end CfiSlack
