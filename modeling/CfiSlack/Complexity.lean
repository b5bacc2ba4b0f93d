import CfiSlack.Reach

/-!
# Cyclomatic complexity

The complexity `E - N + 2` of the part of a view between a call site and the sink. A hub counts as
the full mesh between its callers and its members: its own edges and the hub itself are taken out
and one edge for each pair is put in.
-/
namespace CfiSlack

namespace View

def outDegreeIn (v : View) (nodes : List Node) (n : Node) : Nat :=
  (v.succ n).countP nodes.contains

def inDegreeIn (v : View) (nodes : List Node) (n : Node) : Nat :=
  (v.pred n).countP nodes.contains

/-- What a hub adds beyond its own edges and itself. -/
def meshSurplus (v : View) (nodes : List Node) (n : Node) : Int :=
  if n.isHub then
    let out : Int := v.outDegreeIn nodes n
    let inc : Int := v.inDegreeIn nodes n
    out * inc + 1 - out - inc
  else 0

def complexity (v : View) (nodes : List Node) : Int :=
  (nodes.map fun n => (v.outDegreeIn nodes n : Int)).foldr (· + ·) 0 - nodes.length + 2
    + (nodes.map (v.meshSurplus nodes)).foldr (· + ·) 0

end View

/-- The part of a view that can reach a goal, for cutting out subgraphs. -/
structure Corridor where
  view : View
  ancestors : List Node
  /-- Largest subgraph that is explored. -/
  cap : Nat

namespace Corridor

/-- Most nodes explored for a call site unless told otherwise. -/
def defaultCap : Nat := 25000

def ofGoal (v : View) (goal : Node) (cap : Nat) : Corridor := ⟨v, v.ancestors goal, cap⟩

/-- Descendants of `n` that are ancestors of the goal, up to the cap. -/
def subgraph (c : Corridor) (n : Node) : List Node :=
  c.view.descendantsWhere c.ancestors.contains n (some c.cap)

def wholeComplexity (c : Corridor) : Int := c.view.complexity c.ancestors

end Corridor
end CfiSlack
