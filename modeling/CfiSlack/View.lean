import CfiSlack.Graph

/-!
# Views

A view is a finite directed graph as the walks see it: nodes, and for every node its neighbours in
the order in which they are enumerated. Neighbours are listed once, the two directions agree, and
no edge leaves the view. Numbers and membership are answered without going through a list, and agree
with the lists.
-/
namespace CfiSlack

structure View where
  nodes : List Node
  contains : Node → Bool
  nodeCount : Nat
  succ : Node → List Node
  pred : Node → List Node
  outDegree : Node → Nat
  inDegree : Node → Nat
  /-- Instructions of a node. -/
  instrs : Node → UInt64
  /-- Kind of an observed edge; edges of a policy have none. -/
  kind? : Node → Node → Option Transfer
  nodes_nodup : nodes.Nodup
  succ_nodup : ∀ n, (succ n).Nodup
  pred_nodup : ∀ n, (pred n).Nodup
  mem_pred : ∀ m n, m ∈ pred n ↔ n ∈ succ m
  mem_nodes : ∀ m n, n ∈ succ m → m ∈ nodes ∧ n ∈ nodes
  contains_iff : ∀ n, contains n = true ↔ n ∈ nodes
  nodeCount_eq : nodeCount = nodes.length
  outDegree_eq : ∀ n, outDegree n = (succ n).length
  inDegree_eq : ∀ n, inDegree n = (pred n).length

/-- The order in which a view lists nodes. -/
inductive Enumeration where
  | ascending
  | descending
  deriving DecidableEq, Repr

namespace Enumeration

def list : Enumeration → List Node → List Node
  | .ascending, l => Ascending.ofList l
  | .descending, l => (Ascending.ofList l).reverse

@[simp]
theorem mem_list {o : Enumeration} {l : List Node} {n : Node} : n ∈ o.list l ↔ n ∈ l := by
  cases o <;> simp [list]

theorem nodup_list (o : Enumeration) (l : List Node) : (o.list l).Nodup := by
  cases o with
  | ascending => exact Ascending.nodup_ofList l
  | descending => exact List.pairwise_reverse.2 ((Ascending.nodup_ofList l).imp fun h => Ne.symm h)

theorem perm_list (o : Enumeration) {l : List Node} (h : l.Nodup) : (o.list l).Perm l :=
  (List.perm_ext_iff_of_nodup (o.nodup_list l) h).2 fun _ => mem_list

end Enumeration

/-- Marking an element of a list leaves fewer of them unmarked. -/
theorem countP_notMem_cons_lt {α : Type} [DecidableEq α] {l marked : List α} {a : α} (ha : a ∈ l)
    (h : a ∉ marked) :
    l.countP (fun x => !(a :: marked).contains x) < l.countP fun x => !marked.contains x := by
  induction l with
  | nil => simp at ha
  | cons b l ih =>
    have hmono : l.countP (fun x => !(a :: marked).contains x)
        ≤ l.countP fun x => !marked.contains x :=
      List.countP_mono_left fun x _ hx => by simp at hx ⊢; exact hx.2
    by_cases hba : b = a
    · subst hba
      rw [List.countP_cons_of_neg (by simp), List.countP_cons_of_pos (by simpa using h)]
      omega
    · have hl : a ∈ l := by
        rcases List.mem_cons.1 ha with rfl | hl
        · exact absurd rfl hba
        · exact hl
      have hrec := ih hl
      rw [List.countP_cons, List.countP_cons]
      have hsame : (!(a :: marked).contains b) = !marked.contains b := by simp [hba]
      rw [hsame]
      omega

namespace View

theorem mem_nodes_of_mem_pred {v : View} {m n : Node} (h : m ∈ v.pred n) : m ∈ v.nodes :=
  (v.mem_nodes m n ((v.mem_pred m n).1 h)).1

theorem mem_nodes_of_mem_succ {v : View} {m n : Node} (h : n ∈ v.succ m) : n ∈ v.nodes :=
  (v.mem_nodes m n h).2

/-- Nodes of the view that are not yet in `visited`. -/
def unvisited (v : View) (visited : List Node) : Nat :=
  v.nodes.countP fun n => !visited.contains n

theorem unvisited_cons_lt {v : View} {visited : List Node} {n : Node} (hn : n ∈ v.nodes)
    (h : n ∉ visited) : v.unvisited (n :: visited) < v.unvisited visited :=
  countP_notMem_cons_lt hn h

end View

/-- A graph as a view. -/
def Graph.view (g : Graph) (o : Enumeration) : View where
  nodes := o.list g.nodes
  contains := g.contains
  nodeCount := g.nodeCount
  succ n := o.list (g.successors n)
  pred n := o.list (g.predecessors n)
  outDegree := g.outDegree
  inDegree := g.inDegree
  instrs := g.instrs
  kind? a b := (g.flow? ⟨a, b⟩).map Flow.kind
  nodes_nodup := o.nodup_list _
  succ_nodup _ := o.nodup_list _
  pred_nodup _ := o.nodup_list _
  mem_pred m n := by
    rw [Enumeration.mem_list, Enumeration.mem_list, Graph.mem_predecessors, Graph.mem_successors]
  mem_nodes m n h := by
    have he := Graph.mem_successors.1 (Enumeration.mem_list.1 h)
    simp only [Enumeration.mem_list, Graph.nodes, List.mem_append, List.mem_map]
    constructor
    · obtain ⟨a, ha, hmem⟩ := g.source_mem _ he
      exact Or.inl ⟨a, hmem, ha.symm⟩
    · rcases g.target_mem _ he with ⟨a, ha, hmem⟩ | ⟨ht, hs⟩
      · exact Or.inl ⟨a, hmem, ha.symm⟩
      · have ht : n = .sink := ht
        exact Or.inr (by simp [ht, hs])
  contains_iff _ := Graph.contains_iff.trans Enumeration.mem_list.symm
  nodeCount_eq := by rw [g.nodeCount_eq, (o.perm_list g.nodup_nodes).length_eq]
  outDegree_eq n := by rw [g.outDegree_eq, (o.perm_list (g.nodup_successors n)).length_eq]
  inDegree_eq n := by rw [Graph.inDegree, (o.perm_list (g.nodup_predecessors n)).length_eq]

namespace Graph

variable {g : Graph} {o : Enumeration} {m n : Node}

@[simp]
theorem mem_nodes_view : n ∈ (g.view o).nodes ↔ n ∈ g.nodes := Enumeration.mem_list

@[simp]
theorem mem_succ_view : n ∈ (g.view o).succ m ↔ n ∈ g.successors m := Enumeration.mem_list

@[simp]
theorem mem_pred_view : m ∈ (g.view o).pred n ↔ m ∈ g.predecessors n := Enumeration.mem_list

end Graph

end CfiSlack
