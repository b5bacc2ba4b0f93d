import CfiSlack.DistanceMap
import CfiSlack.Route
import Mathlib.Data.List.Basic
import Mathlib.Order.Bounds.Basic
import Mathlib.Tactic

/-!
# Walks

Reference semantics of reachability and distance. A walk to a goal is a route that follows the edges
of a view; it may pass through a node more than once. Its weight is a natural number, so unlike the
distances of the search it has no largest value.
-/
namespace CfiSlack

namespace View

/-- The nodes of a walk to a goal, farthest first and the goal last. -/
inductive Walk (v : View) (goal : Node) : Route → Prop
  | here : Walk v goal [goal]
  | step {n m : Node} {r : Route} (edge : m ∈ v.succ n) (rest : Walk v goal (m :: r)) :
      Walk v goal (n :: m :: r)

variable {v u : View} {goal : Node}

theorem Walk.tail {n m : Node} {r : Route} (h : v.Walk goal (n :: m :: r)) :
    m ∈ v.succ n ∧ v.Walk goal (m :: r) := by
  cases h with
  | step edge rest => exact ⟨edge, rest⟩

theorem Walk.suffix {r s : Route} (h : v.Walk goal r) (hs : s <:+ r) (hne : s ≠ []) :
    v.Walk goal s := by
  induction h with
  | here =>
    rcases List.suffix_cons_iff.mp hs with rfl | hs
    · exact Walk.here
    · exact absurd (List.suffix_nil.mp hs) hne
  | step edge rest ih =>
    rcases List.suffix_cons_iff.mp hs with rfl | hs
    · exact Walk.step edge rest
    · exact ih hs

/-- Every node of a walk but the goal has an edge out of it, so it belongs to the view. -/
theorem Walk.mem_nodes {r : Route} (h : v.Walk goal r) : ∀ n ∈ r, n = goal ∨ n ∈ v.nodes := by
  induction h with
  | here => simp
  | step edge _ ih =>
    intro k hk
    rcases List.mem_cons.mp hk with rfl | hk
    · exact Or.inr (v.mem_nodes _ _ edge).1
    · exact ih k hk

/-- A walk without repetition is at most one node longer than the view. -/
theorem Walk.length_le {r : Route} (h : v.Walk goal r) (hnodup : r.Nodup) :
    r.length ≤ v.nodeCount + 1 := by
  have hsub : r ⊆ goal :: v.nodes := by
    intro n hn
    rcases h.mem_nodes n hn with rfl | hn
    · exact List.mem_cons_self
    · exact List.mem_cons_of_mem _ hn
  simpa [v.nodeCount_eq] using (hnodup.subperm hsub).length_le

theorem Walk.mono (hsucc : ∀ m n, n ∈ v.succ m → n ∈ u.succ m) {r : Route} (h : v.Walk goal r) :
    u.Walk goal r := by
  induction h with
  | here => exact Walk.here
  | step edge _ ih => exact Walk.step (hsucc _ _ edge) ih

end View

namespace Weighting

/-- Weight of a route: that of all nodes that it enters. -/
def total (w : Weighting) (v : View) (r : Route) : ℕ :=
  (r.tail.map fun n => (w.weight v n).toNat).sum

variable {w : Weighting} {v : View}

@[simp]
theorem total_cons_cons (n m : Node) (r : Route) :
    w.total v (n :: m :: r) = (w.weight v m).toNat + w.total v (m :: r) := by
  simp [total]

/-- The weights of all walks from a node to a goal. -/
def walkWeights (w : Weighting) (v : View) (goal n : Node) : Set ℕ :=
  {d | ∃ r, v.Walk goal (n :: r) ∧ w.total v (n :: r) = d}

theorem exists_isLeast_walkWeights {goal n : Node} (h : (w.walkWeights v goal n).Nonempty) :
    ∃ D, IsLeast (w.walkWeights v goal n) D := by
  classical
  refine ⟨Nat.find h, Nat.find_spec h, ?_⟩
  intro d hd
  exact Nat.find_min' h hd

end Weighting
end CfiSlack
