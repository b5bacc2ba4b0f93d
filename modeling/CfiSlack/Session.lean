import CfiSlack.Avoidance
import CfiSlack.Loading
import CfiSlack.Log
import CfiSlack.Policy.Resolver
import CfiSlack.Report
import CfiSlack.Settings

/-!
# Sessions

A loaded program with its sink, the tables of type information that were given, and the settings.
A session generates the edges of policies, and measures what a list of edges leaves open.
-/
namespace CfiSlack

structure Session where
  graph : Graph
  functions : Table Address String
  signatures : Option SignatureTable := none
  siteSignatures : Option SiteSignatures := none
  settings : Settings := { }

namespace Session

def ofProgram (p : Program) (settings : Settings) : Except Failure Session := do
  let graph ← p.graph.attachSink.changed.mapError .graph
  return { graph := graph, functions := p.functions, settings := settings }

def warnings (s : Session) : List LogEntry :=
  if s.graph.gates.isEmpty then [.warn "no syscall blocks: every distance is infinite"] else []

/-- Size of the program that numbers of targets relate to. -/
def totalSize (s : Session) : Nat := s.settings.totalSize.getD s.graph.blockCount

def policyInputs (s : Session) : Except PolicyError PolicyInputs := do
  let inputs ← (PolicyInputs.ofGraph s.graph s.functions.keys).mapError .graph
  return { inputs with signatures := s.signatures, siteSignatures := s.siteSignatures }

/-! ## Generating edges -/

/-- The requested policies, each once, in the order of reports. -/
def requested (policies : List Policy) : List Policy := Ascending.ofList policies

/-- Policies that were resolved, and those that lack a table. -/
structure Resolution where
  ready : List Policy
  failed : List (Policy × PolicyError)

def anomalyEntry (a : Anomaly) : LogEntry :=
  ((LogEntry.warn "data anomaly").field "site" a.site.text).field "kind" a.kind.text

def anomalyEntries (before after : Anomalies) : List LogEntry :=
  (after.seen.drop before.seen.length).map anomalyEntry

/-- What became of some requests: the log, the resolver after them, and their result. -/
structure Pass (α : Type) where
  log : List LogEntry
  resolver : Resolver
  result : Except PolicyError α

/-- Resolve policies one after the other. A policy that lacks a table is passed over; any other
failure ends the run. -/
def resolveAll (r : Resolver) : List Policy → Pass Resolution
  | [] => ⟨[], r, .ok ⟨[], []⟩⟩
  | p :: ps =>
    let (edges, next) := r.edges p
    let found := anomalyEntries r.anomalies next.anomalies
    match edges with
    | .ok _ =>
      let pass := resolveAll next ps
      { pass with
        log := found ++ pass.log
        result := pass.result.map fun res => { res with ready := p :: res.ready } }
    | .error (.missingTable q table) =>
      let pass := resolveAll next ps
      { pass with
        log := found ++ (LogEntry.error "policy skipped").field "policy" p.name :: pass.log
        result := pass.result.map fun res =>
          { res with failed := (p, .missingTable q table) :: res.failed } }
    | .error e => ⟨found, next, .error e⟩

/-- Take the edges of policies out of a resolver, up to the first failure. -/
def takeAll (r : Resolver) : List Policy → Pass (List (Policy × List Edge))
  | [] => ⟨[], r, .ok []⟩
  | p :: ps =>
    let (edges, next) := r.take p
    let found := anomalyEntries r.anomalies next.anomalies
    match edges with
    | .ok edges =>
      let pass := takeAll next ps
      { pass with log := found ++ pass.log, result := pass.result.map ((p, edges) :: ·) }
    | .error e => ⟨found, next, .error e⟩

structure Written where
  policy : Policy
  path : String
  edges : Nat
  deriving DecidableEq, Repr

structure GenerateReport where
  written : List Written
  failed : List (Policy × PolicyError)

/-- What a run did: its log, the files after it, and its result. -/
structure Run (α : Type) where
  log : List LogEntry
  files : FileTree
  result : Except Failure α

def edgeFile (directory : String) (p : Policy) : String := Path.child directory (p.name ++ ".csv")

/-- Write edge files. All of them are tried, and the first failure is reported. -/
def writeAll (directory : String) (t : FileTree) : List (Policy × List Edge) → Run (List Written)
  | [] => ⟨[], t, .ok []⟩
  | (p, edges) :: rest =>
    let path := edgeFile directory p
    match saveEdges t path edges with
    | .ok (t, count) =>
      let run := writeAll directory t rest
      { run with result := run.result.map (⟨p, path, count⟩ :: ·) }
    | .error e =>
      let run := writeAll directory t rest
      { run with
        log := (LogEntry.error "writing edges failed").field "policy" p.name :: run.log
        result := .error e }

/-- Generate policies into one file each. Nothing is written before all of them are resolved. -/
def generate (s : Session) (t : FileTree) (policies : List Policy) (directory : String) :
    Run GenerateReport :=
  match s.policyInputs with
  | .error e => ⟨[], t, .error (.policy e)⟩
  | .ok inputs =>
    let resolving := resolveAll (.ofInputs inputs) (requested policies)
    match resolving.result with
    | .error e => ⟨resolving.log, t, .error (.policy e)⟩
    | .ok res =>
      let taking := takeAll resolving.resolver res.ready
      let log := resolving.log ++ taking.log
      match taking.result with
      | .error e => ⟨log, t, .error (.policy e)⟩
      | .ok resolved =>
        match t.makeDirectories directory with
        | (t, some e) => ⟨log, t, .error (.file e)⟩
        | (t, none) =>
          let run := writeAll directory t resolved
          ⟨log ++ run.log, run.files, run.result.map fun written => ⟨written, res.failed⟩⟩

/-! ## Measuring -/

def overlay (s : Session) (edges : List Edge) : Except Failure Overlay :=
  (Overlay.ofEdges s.graph edges).mapError .graph

def metrics (s : Session) (o : Overlay) : Except Failure (List SiteReport) := do
  let ev ← (Evaluator.ofView (o.view .ascending) .sink s.settings.nodeCap).mapError .metric
  let metrics ← (ev.measureAll s.graph.callSites).mapError .metric
  return metrics.map fun m =>
    { metric := m
      binary := ((s.graph.block? m.site).map Block.binary).getD ""
      edges := .ofSite o m.site }

def precision (s : Session) (o : Overlay) : Precision.Report :=
  Precision.report (o.view .ascending) s.graph s.settings.mainBinary s.totalSize

/-- Ancestors of the sink when the routes from some blocks are forbidden. -/
def paths (s : Session) (avoid : List Address) (depth : Option Nat) : PathsReport :=
  (s.graph.view .ascending).pathsReport avoid depth

end Session
end CfiSlack
