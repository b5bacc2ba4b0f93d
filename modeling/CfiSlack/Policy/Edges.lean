import CfiSlack.Policy.Anomaly
import CfiSlack.Policy.Inputs
import CfiSlack.Signature.Index

/-!
# Edges of the policies

What each policy permits at the indirect call sites of a graph, with repetitions and with the
observed edges still among them. `addedEdges` takes out the observed ones.
-/
namespace CfiSlack

namespace PolicyInputs

/-- Distance of the nearest observed target of a site. -/
def nearestTarget (i : PolicyInputs) (m : DistanceMap) (site : Address) : Distance :=
  .least ((i.transferTargets site).map m.get)

def numericEdges (i : PolicyInputs) (w : Weighting) : List Edge :=
  let m := i.distances w
  i.sites.flatMap fun site =>
    (m.entriesFrom i.functions (i.nearestTarget m site)).map fun entry =>
      ⟨.block site, .block entry⟩

def distanceHub (d : Distance) : Node := .hub (.distance d)

def numericHubEdges (i : PolicyInputs) (w : Weighting) : List Edge :=
  let m := i.distances w
  let toHubs := i.sites.flatMap fun site =>
    (m.binsFrom i.functions (i.nearestTarget m site)).map fun bin =>
      ⟨.block site, distanceHub bin.distance⟩
  let toEntries := (m.bins i.functions).flatMap fun bin =>
    bin.entries.map fun entry => ⟨distanceHub bin.distance, .block entry⟩
  toHubs ++ toEntries

def anyFunctionEdges (i : PolicyInputs) : List Edge :=
  i.sites.map (fun site => ⟨.block site, .hub .functions⟩) ++
    i.functions.map fun entry => ⟨.hub .functions, .block entry⟩

def unrestrictedEdges (i : PolicyInputs) : List Edge :=
  i.sites.map (fun site => ⟨.block site, .anywhere⟩) ++
    (i.view.nodes.filter fun n => !n.isSink).map fun n => ⟨.anywhere, n⟩

structure SiteFinding (α : Type) where
  permitted : α
  /-- The observed callees disagree with the compiler. -/
  anomalous : Bool

def disagrees {α : Type} [DecidableEq α] (observed : List α) (known : Option α) : Bool :=
  known.any fun k => !observed.isEmpty && (observed.length > 1 || !observed.contains k)

/-- Functions that fit the signature seen by the compiler or that of an observed callee. -/
def typeFinding (i : PolicyInputs) (index : TypeIndex) (site : Address) :
    Except PolicyError (SiteFinding (List Edge)) := do
  let compiler := (i.compilerTypes site).map Signature.params
  let callees ← i.callees site
  let signatures ← callees.mapM fun callee =>
    match index.signatureOf callee with
    | some signature => .ok signature
    | none => .error (.calleeNotFunction site callee)
  let observed := signatures.eraseDups
  let targets := (observed ++ compiler.toList).flatMap index.matching
  return {
    permitted := (Ascending.ofList targets).map fun t => ⟨.block site, .block t⟩
    anomalous := disagrees observed compiler }

/-- Parameter counts that were seen at a site and that some function has. The unknown count is among
those seen, and no function has it. -/
def arityFinding (i : PolicyInputs) (index : ArityIndex) (site : Address) :
    Except PolicyError (SiteFinding (List (Address × Option Nat))) := do
  let compiler := (i.compilerTypes site).map List.length
  let callees ← i.callees site
  let observed := (callees.map index.arityOf).eraseDups
  let counts := (compiler :: observed).eraseDups.filter fun count =>
    !(index.functionsWith count).isEmpty
  return {
    permitted := counts.map fun count => (site, count)
    anomalous := disagrees observed (compiler.map some) }

/-- Gather the findings of all sites. Anomalies of the sites before a failing one are kept, and the
sites count as checked once all of them are through. -/
def survey {α : Type} (kind : Mismatch)
    (find : Address → Except PolicyError (SiteFinding (List α))) :
    List Address → Nat → Anomalies → Except PolicyError (List α) × Anomalies
  | [], checked, an => (.ok [], an.addChecked kind checked)
  | site :: sites, checked, an =>
    match find site with
    | .error e => (.error e, an)
    | .ok finding =>
      let an := if finding.anomalous then an.record ⟨site, kind⟩ else an
      let (rest, an) := survey kind find sites (checked + 1) an
      (rest.map (finding.permitted ++ ·), an)

/-- The hub of a count; the unknown one is labelled -1. -/
def arityHub (count : Option Nat) : Node := .hub (.argCount (count.elim (-1) Int64.ofNat))

/-- Edges to the hubs of the fitting counts and from those to their functions. -/
def arityEdges (index : ArityIndex) (permitted : List (Address × Option Nat)) : List Edge :=
  permitted.map (fun (site, count) => ⟨.block site, arityHub count⟩) ++
    (permitted.map Prod.snd).eraseDups.flatMap fun count =>
      (index.functionsWith count).map fun f => ⟨arityHub count, .block f⟩

/-- Why an edge cannot be handed out. Observed edges are never at fault. -/
def edgeFault? (i : PolicyInputs) (p : Policy) (e : Edge) : Option PolicyError :=
  if (i.graph.flow? e).isSome then none
  else if e.source.isSink || e.target.isSink then some (.sinkEdge p e)
  else
    ([e.source, e.target].find? fun n => !n.isHub && !i.graph.contains n).map (.unknownNode p)

def addedEdges (i : PolicyInputs) (p : Policy) (raw : List Edge) : Except PolicyError (List Edge) :=
  match raw.findSome? (i.edgeFault? p) with
  | some fault => .error fault
  | none => .ok (Ascending.ofList (raw.filter fun e => (i.graph.flow? e).isNone))

end PolicyInputs
end CfiSlack
