import CfiSlack.Reach
import CfiSlack.Search

/-!
# Avoiding blocks

Which ancestors of the sink are left when every route from certain blocks to the sink is forbidden.
-/
namespace CfiSlack

structure PathsReport where
  /-- Number of forbidden routes. -/
  forbidden : Nat
  ancestors : Nat
  /-- Ancestors when nothing is forbidden. -/
  naiveAncestors : Nat
  /-- Ancestors that are lost, ascending. -/
  excluded : List Node
  deriving DecidableEq, Repr

/-- Accept the routes that start at a block to avoid. -/
def avoidance (avoid : List Address) (r : Route) : Verdict :=
  match r.head? with
  | some (.block a) => if avoid.contains a then .accept else .extend
  | _ => .extend

namespace View

/-- The routes from blocks to avoid, of at most `depth` edges. -/
def routesFrom (v : View) (avoid : List Address) (depth : Option Nat) : ForbiddenRoutes :=
  v.search .sink (avoidance avoid) depth

def pathsReport (v : View) (avoid : List Address) (depth : Option Nat) : PathsReport :=
  let forbidden := v.routesFrom avoid depth
  let pruned := v.ancestorsExcluding .sink forbidden
  let naive := v.ancestors .sink
  { forbidden := forbidden.size
    ancestors := pruned.length
    naiveAncestors := naive.length
    excluded := Ascending.ofList (naive.filter fun n => !pruned.contains n) }

end View
end CfiSlack
