import CfiSlack.View

/-!
# Shortest distances to a goal

Every node of a view gets the weight of its lightest walk to the goal. The weight of an edge is
that of the node it enters; entering the sink or a hub is free. The search goes backward from the
goal, nearest node first: a node that is found nearer than before waits again, and its older place
in the queue is passed over when its turn comes.
-/
namespace CfiSlack

inductive Weighting where
  /-- Each block counts one. -/
  | block
  /-- A block counts its instructions. -/
  | instr
  deriving DecidableEq, Repr

namespace Weighting

def text : Weighting → String
  | .block => "block"
  | .instr => "instr"

def weight (w : Weighting) (v : View) (n : Node) : UInt64 :=
  if n.isSink || n.isHub then 0
  else
    match w with
    | .block => 1
    | .instr => v.instrs n

end Weighting

/-- The nodes from which the goal was reached, with their distances; others are infinitely far. -/
structure DistanceMap where
  known : Table Node UInt64

namespace DistanceMap

def empty : DistanceMap := ⟨.empty⟩

def get (m : DistanceMap) (n : Node) : Distance :=
  match m.known.find? n with
  | some d => .finite d
  | none => .infinite

def set (m : DistanceMap) (n : Node) (d : UInt64) : DistanceMap := ⟨m.known.insert n d⟩

theorem get_set (m : DistanceMap) (n k : Node) (d : UInt64) :
    (m.set n d).get k = if k = n then .finite d else m.get k := by
  simp only [get, set, Table.find?_insert]
  by_cases h : k = n <;> simp [h]

/-- What is left to gain: the ranks of the distances of all nodes together. -/
def slack (v : View) (m : DistanceMap) : Nat :=
  (v.nodes.map fun n => (m.get n).rank).foldr (· + ·) 0

theorem slack_set_lt {v : View} {m : DistanceMap} {n : Node} {d : UInt64} (hn : n ∈ v.nodes)
    (h : .finite d < m.get n) : slack v (m.set n d) < slack v m := by
  have hle (k : Node) : ((m.set n d).get k).rank ≤ (m.get k).rank := by
    rw [get_set]
    split
    · next hk => exact Nat.le_of_lt (hk ▸ h)
    · exact Nat.le_refl _
  have hlt : ((m.set n d).get n).rank < (m.get n).rank := by
    rw [get_set, if_pos rfl]
    exact h
  unfold slack
  revert hn
  induction v.nodes with
  | nil => simp
  | cons k l ih =>
    intro hn
    have hrest : (l.map fun n' => ((m.set n d).get n').rank).foldr (· + ·) 0
        ≤ (l.map fun n' => (m.get n').rank).foldr (· + ·) 0 := by
      clear ih hn
      induction l with
      | nil => simp
      | cons j l ih => exact Nat.add_le_add (hle j) ih
    simp only [List.map_cons, List.foldr_cons]
    rcases List.mem_cons.1 hn with rfl | hl
    · exact Nat.add_lt_add_of_lt_of_le hlt hrest
    · exact Nat.add_lt_add_of_le_of_lt (hle k) (ih hl)

end DistanceMap

/-- A node that was found at a distance and waits for its predecessors to be looked at. -/
structure Arrival where
  distance : UInt64
  node : Node
  deriving DecidableEq, Repr

namespace Arrival

/-- Nearer arrivals come first, those at one distance in the order of their nodes. -/
def before (a b : Arrival) : Bool :=
  a.distance < b.distance || (a.distance == b.distance && decide (a.node < b.node))

def enqueue (a : Arrival) : List Arrival → List Arrival
  | [] => [a]
  | b :: queue => if b.before a then b :: enqueue a queue else a :: b :: queue

end Arrival

/-- A search under way: the distances found so far, and the arrivals that wait. -/
structure Frontier where
  found : DistanceMap
  queue : List Arrival

namespace Frontier

/-- Offer a node a distance. It is taken if it is smaller than the one known; the node then
waits. -/
def offer (d : UInt64) (f : Frontier) (n : Node) : Frontier :=
  if .finite d < f.found.get n then ⟨f.found.set n d, Arrival.enqueue ⟨d, n⟩ f.queue⟩ else f

def offerAll (d : UInt64) (f : Frontier) (ns : List Node) : Frontier := ns.foldl (offer d) f

theorem offer_eq_or_slack_lt (v : View) (d : UInt64) (f : Frontier) {n : Node} (hn : n ∈ v.nodes) :
    f.offer d n = f ∨ (f.offer d n).found.slack v < f.found.slack v := by
  unfold offer
  split
  · next h => exact Or.inr (DistanceMap.slack_set_lt hn h)
  · exact Or.inl rfl

theorem offerAll_eq_or_slack_lt (v : View) (d : UInt64) (f : Frontier) {ns : List Node}
    (hns : ∀ n ∈ ns, n ∈ v.nodes) :
    f.offerAll d ns = f ∨ (f.offerAll d ns).found.slack v < f.found.slack v := by
  induction ns generalizing f with
  | nil => exact Or.inl rfl
  | cons n ns ih =>
    have hstep := f.offer_eq_or_slack_lt v d (hns n List.mem_cons_self)
    have hrest := ih (f.offer d n) fun k hk => hns k (List.mem_cons_of_mem n hk)
    change (f.offer d n).offerAll d ns = f ∨ ((f.offer d n).offerAll d ns).found.slack v < _
    rcases hstep with hstep | hstep
    · rwa [hstep] at hrest ⊢
    · rcases hrest with hrest | hrest
      · exact Or.inr (by rw [hrest]; exact hstep)
      · exact Or.inr (Nat.lt_trans hrest hstep)

end Frontier

namespace DistanceMap

/-- The distance that an arrival passes on to the predecessors of its node. -/
def passedOn (v : View) (w : Weighting) (a : Arrival) : UInt64 :=
  Distance.capped (a.distance.toNat + (w.weight v a.node).toNat)

/-- Look at the nearest arrival until none is left. An arrival is out of date if its node was found
nearer in the meantime. -/
def sweep (v : View) (w : Weighting) (m : DistanceMap) : List Arrival → DistanceMap
  | [] => m
  | a :: queue =>
    if m.get a.node < .finite a.distance then sweep v w m queue
    else
      let next := Frontier.offerAll (passedOn v w a) ⟨m, queue⟩ (v.pred a.node)
      sweep v w next.found next.queue
termination_by queue => (m.slack v, queue.length)
decreasing_by
  · exact Prod.Lex.right _ (by simp)
  · rcases Frontier.offerAll_eq_or_slack_lt v (passedOn v w a) ⟨m, queue⟩
      (fun _ h => View.mem_nodes_of_mem_pred h) with h | h
    · rw [h]
      exact Prod.Lex.right _ (by simp)
    · exact Prod.Lex.left _ _ h

def toGoal (v : View) (w : Weighting) (goal : Node) : DistanceMap :=
  sweep v w (empty.set goal 0) [⟨0, goal⟩]

def compute (v : View) (w : Weighting) (goal : Node) : Except GraphError DistanceMap :=
  if v.contains goal then .ok (toGoal v w goal) else .error (.missingNode goal)

structure Bin where
  distance : Distance
  entries : List Address
  deriving DecidableEq, Repr

/-- Entries by distance, nearest bin first, each bin ascending. -/
def bins (m : DistanceMap) (entries : List Address) : List Bin :=
  (Ascending.ofList (entries.map fun a => m.get (.block a))).map fun d =>
    ⟨d, (Ascending.ofList entries).filter fun a => m.get (.block a) = d⟩

def binsFrom (m : DistanceMap) (entries : List Address) (low : Distance) : List Bin :=
  (m.bins entries).filter fun bin => low ≤ bin.distance

/-- Entries at distance `low` or farther, nearest first. -/
def entriesFrom (m : DistanceMap) (entries : List Address) (low : Distance) : List Address :=
  (m.binsFrom entries low).flatMap Bin.entries

end DistanceMap
end CfiSlack
