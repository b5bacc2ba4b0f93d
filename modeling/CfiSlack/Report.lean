import CfiSlack.Avoidance
import CfiSlack.Decimal.Layout
import CfiSlack.Json.Value
import CfiSlack.Precision
import CfiSlack.SiteMetric

/-!
# Reports

The documents that an evaluation writes.
-/
namespace CfiSlack

open Json (Value)

/-- Who saw the outgoing edges of a site, and of which kinds they are. Ascending lists. -/
structure EdgeSummary where
  seenBy : List String
  kinds : List String
  deriving DecidableEq, Repr

namespace EdgeSummary

/-- Stands for an edge that only a policy has. -/
def policyTag : String := "oa"

/-- Summary of the edges that leave a site in an overlay. -/
def ofSite (o : Overlay) (site : Address) : EdgeSummary :=
  let flows := (o.successors (.block site)).map fun n =>
    match o.base.flow? ⟨.block site, n⟩ with
    | some f => (f.seenBy, f.kind.text)
    | none => ([policyTag], policyTag)
  ⟨Ascending.ofList (flows.flatMap Prod.fst), Ascending.ofList (flows.map Prod.snd)⟩

end EdgeSummary

/-- What is reported about a call site. -/
structure SiteReport where
  metric : SiteMetric
  binary : String
  edges : EdgeSummary

namespace Report

/-- Numbers that are not finite are written by name. -/
def measured (x : Float) : Value :=
  match Decimal.chars? x with
  | some digits => .number digits
  | none => .text (Decimal.text x)

/-- Numbers that are not finite are left out. -/
def rated (x : Float) : Value := .ofOption .number (Decimal.chars? x)

def distance : Distance → Value
  | .finite d => .ofNat d.toNat
  | .infinite => .text "Infinity"

def site (r : SiteReport) : Value :=
  let m := r.metric
  .object [
    ("addr", .text m.site.text),
    ("binary", .text r.binary),
    ("metrics", .object [
      ("blockdist", distance m.blockDistance),
      ("instrdist", distance m.instrDistance),
      ("mccabe", .ofOption .ofInt m.complexity),
      ("blockdist_div_mccabe", measured m.blockRatio),
      ("blockdist_div_log_mccabe", measured m.blockLogRatio),
      ("instrdist_div_mccabe", measured m.instrRatio),
      ("instrdist_div_log_mccabe", measured m.instrLogRatio)]),
    ("out_edge_props", .object [
      ("hows", .ofStrings r.edges.seenBy),
      ("types", .ofStrings r.edges.kinds)])]

/-- Call sites by address, in the given order. -/
def metrics (sites : List SiteReport) : String :=
  (Value.object (sites.map fun r => (r.metric.site.text, site r))).document

def population (p : Precision) : Value := .object [
  ("fAIR", .ofOption rated p.meanReduction),
  ("fAIA", .ofOption rated p.meanTargets),
  ("iCTR", .ofOption (fun n => .ofNat n.toNat) p.totalTargets),
  ("QS", .ofOption rated p.quotient)]

def precision (r : Precision.Report) : String :=
  (Value.object [
    ("all_blocks", population r.all),
    ("loe_blocks", population r.observed),
    ("indy_size", .ofNat r.all.sites),
    ("loeindy_size", .ofNat r.observed.sites)]).document

def paths (r : PathsReport) : String :=
  (Value.object [
    ("forbidden_paths", .ofNat r.forbidden),
    ("ancestors", .ofNat r.ancestors),
    ("naive_ancestors", .ofNat r.naiveAncestors),
    ("excluded", .ofStrings (r.excluded.map Node.text))]).document

end Report
end CfiSlack
