import CfiSlack.Complexity
import CfiSlack.DistanceMap
import CfiSlack.Logarithm

/-!
# Metrics of call sites

For a call site of a view: its distance to the sink in blocks and in instructions, the complexity of
what lies between, and the distances in relation to the complexity.
-/
namespace CfiSlack

inductive MetricError where
  | graph (e : GraphError)
  | unknownSite (site : Address)
  deriving DecidableEq, Repr

def MetricError.message : MetricError → String
  | .graph e => "Graph error: " ++ e.message
  | .unknownSite site => "Call site " ++ site.text ++ " not in graph"

structure SiteMetric where
  site : Address
  blockDistance : Distance
  instrDistance : Distance
  /-- Complexity of the site's subgraph, if the sink is in reach. -/
  complexity : Option Int
  blockRatio : Float
  blockLogRatio : Float
  instrRatio : Float
  instrLogRatio : Float

namespace SiteMetric

/-- A distance over a scaled complexity; infinite unless both are known. -/
def ratio (d : Distance) (complexity : Option Int) (scale : Float → Float) : Float :=
  match d, complexity with
  | .finite d, some m => d.toFloat / scale (Float.ofInt m)
  | _, _ => Distance.infinite.toFloat

def ofParts (site : Address) (block instr : Distance) (complexity : Option Int) : SiteMetric where
  site := site
  blockDistance := block
  instrDistance := instr
  complexity := complexity
  blockRatio := ratio block complexity id
  blockLogRatio := ratio block complexity Logarithm.onePlus
  instrRatio := ratio instr complexity id
  instrLogRatio := ratio instr complexity Logarithm.onePlus

end SiteMetric

/-- What the metrics of all sites of a view share. -/
structure Evaluator where
  corridor : Corridor
  block : DistanceMap
  instr : DistanceMap

namespace Evaluator

def view (ev : Evaluator) : View := ev.corridor.view

def ofView (v : View) (goal : Node) (cap : Nat) : Except MetricError Evaluator := do
  let block ← (DistanceMap.compute v .block goal).mapError .graph
  let instr ← (DistanceMap.compute v .instr goal).mapError .graph
  return ⟨.ofGoal v goal cap, block, instr⟩

/-- A site that may go anywhere gets the complexity of all that reaches the sink, any other site in
reach of the sink that of its own subgraph. -/
def complexityOf (ev : Evaluator) (site : Address) : Option Int :=
  if .anywhere ∈ ev.view.succ (.block site) then some ev.corridor.wholeComplexity
  else if (ev.block.get (.block site)).isFinite then
    some (ev.view.complexity (ev.corridor.subgraph (.block site)))
  else none

def measure (ev : Evaluator) (site : Address) : Except MetricError SiteMetric :=
  if ev.view.contains (.block site) then
    .ok (.ofParts site (ev.block.get (.block site)) (ev.instr.get (.block site))
      (ev.complexityOf site))
  else .error (.unknownSite site)

/-- Metrics of sites, ordered by site; the first unknown site is reported. -/
def measureAll (ev : Evaluator) (sites : List Address) : Except MetricError (List SiteMetric) := do
  let metrics ← sites.mapM ev.measure
  return metrics.mergeSort fun a b => a.site ≤ b.site

end Evaluator

/-- Call sites that keep one worker busy. -/
def sitesPerWorker : Nat := 20

/-- How many workers share the call sites. -/
def workerCount (cores sites maxWorkers : Nat) : Nat :=
  max 1 (min (min cores maxWorkers) (sites / sitesPerWorker))

end CfiSlack
