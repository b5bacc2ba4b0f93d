import CfiSlack.Overlay

/-!
# Permitted targets

What a view leaves open at a call site: the members of the policy hubs that it leads to and its other
successors, save the next block after a fall-through; or everything, through the hub for that.
-/
namespace CfiSlack

inductive Permitted where
  | everything
  /-- An ascending list. -/
  | only (targets : List Node)
  deriving DecidableEq, Repr

namespace Permitted

def count (total : Nat) : Permitted → Nat
  | .everything => total
  | .only targets => targets.length

end Permitted

namespace View

/-- Successors other than the next block after a fall-through. -/
def callees (v : View) (n : Node) : List Node :=
  (v.succ n).filter fun m => v.kind? n m ≠ some .follow

/-- What one successor of a site permits: a policy hub its members, a fall-through nothing. -/
def permittedVia (v : View) (site : Node) : Node → List Node
  | .hub label => v.succ (.hub label)
  | n => if v.kind? site n = some .follow then [] else [n]

def permitted (v : View) (site : Node) : Permitted :=
  if .anywhere ∈ v.succ site then .everything
  else .only (Ascending.ofList ((v.succ site).flatMap (v.permittedVia site)))

end View

end CfiSlack
