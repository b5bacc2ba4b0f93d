import CfiSlack.Policy
import CfiSlack.Signature

/-!
# What policies are computed from

A graph with its sink, the entries of its functions, and tables of type information that may be
missing.
-/
namespace CfiSlack

structure PolicyInputs where
  graph : Graph
  hasSink : graph.hasSink = true
  /-- Function entries that are blocks of the graph, ascending. -/
  functions : List Address
  functions_mem : ∀ a ∈ functions, a ∈ graph.blocks.keys
  signatures : Option SignatureTable := none
  siteSignatures : Option SiteSignatures := none

namespace PolicyInputs

/-- Declared functions that are not in the graph are dropped. -/
def ofGraph (g : Graph) (declared : List Address) : Except GraphError PolicyInputs :=
  if h : g.hasSink = true then
    .ok
      { graph := g
        hasSink := h
        functions := (Ascending.ofList declared).filter g.hasBlock
        functions_mem := fun _ ha => Graph.hasBlock_iff.1 (List.mem_filter.1 ha).2 }
  else .error (.sinkMissing "computing policy inputs")

def view (i : PolicyInputs) : View := i.graph.view .ascending

def distances (i : PolicyInputs) (w : Weighting) : DistanceMap :=
  .toGoal i.view w .sink

def sites (i : PolicyInputs) : List Address := i.graph.callSites

/-- Parameter types that the compiler saw at a site. -/
def compilerTypes (i : PolicyInputs) (site : Address) : Option (List String) := do
  let b ← i.graph.block? site
  let table ← i.siteSignatures
  table.find? ⟨b.binary, site⟩

/-- Observed targets of a site other than fall-through. -/
def transferTargets (i : PolicyInputs) (site : Address) : List Node :=
  Ascending.ofList
    (((i.graph.outFlows (.block site)).filter fun row => row.2.kind ≠ .follow).map
      fun row => row.1.target)

def calleeNodes (i : PolicyInputs) (site : Address) : List Node :=
  Ascending.ofList
    (((i.graph.outFlows (.block site)).filter fun row => row.2.kind = .callIndirect).map
      fun row => row.1.target)

/-- Blocks called at a site; all of them have to be function entries. -/
def callees (i : PolicyInputs) (site : Address) : Except PolicyError (List Address) :=
  ((i.calleeNodes site).filterMap Node.addr?).mapM fun callee =>
    if i.functions.contains callee then .ok callee else .error (.calleeNotFunction site callee)

def hasTable (i : PolicyInputs) : TypeTable → Bool
  | .functions => i.signatures.isSome
  | .callSites => i.siteSignatures.isSome

/-- The first table that a policy needs and that was not given. -/
def missingTable? (i : PolicyInputs) (p : Policy) : Option TypeTable :=
  p.tables.find? fun t => !i.hasTable t

end PolicyInputs
end CfiSlack
