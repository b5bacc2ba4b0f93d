import CfiSlack.Command
import CfiSlack.Session

/-!
# Execution of commands

A command reads and writes a file tree, logs what goes wrong, and tells the terminal what it did.
-/
namespace CfiSlack

/-- A line for the terminal. -/
inductive Note where
  | done (text : String)
  | caution (text : String)
  | failed (text : String)
  deriving DecidableEq, Repr

def Note.text : Note → String
  | .done s => "✓ " ++ s
  | .caution s => "! " ++ s
  | .failed s => "✗ " ++ s

/-- What a command did. -/
structure Execution where
  succeeded : Bool
  notes : List Note
  log : List LogEntry
  files : FileTree

namespace Execution

def exitCode (e : Execution) : Nat := if e.succeeded then 0 else 1

/-- The lines for the terminal. -/
def terminal (e : Execution) : String := String.join (e.notes.map fun n => n.text ++ "\n")

/-- An end without results. -/
def stopped (t : FileTree) (log : List LogEntry) : Execution := ⟨false, [], log, t⟩

/-- An end with one line and one report. -/
def reported (log : List LogEntry) (files : FileTree) (note : String) : Execution :=
  ⟨true, [.done note], log, files⟩

/-- Put entries before those of an execution. -/
def after (log : List LogEntry) (e : Execution) : Execution := { e with log := log ++ e.log }

end Execution

namespace Command

def openSession (t : FileTree) (program : String) (settings : Settings) :
    Except LogEntry Session :=
  (do Session.ofProgram (← loadProgram t program) settings).mapError fun (_ : Failure) =>
    (LogEntry.error "failed to load CFG").field "cfg" program

/-- Carry on with the session of a program, if it can be loaded. -/
def withSession (t : FileTree) (program : String) (settings : Settings)
    (f : Session → Execution) : Execution :=
  match openSession t program settings with
  | .error e => .stopped t [e]
  | .ok s => (f s).after s.warnings

def save (t : FileTree) (path text : String) : Except Failure FileTree :=
  (t.writeFile path text).mapError .file

/-! ## Generating edges -/

def attachTypes (t : FileTree) (s : Session) : Option String → Except LogEntry Session
  | none => .ok s
  | some path =>
    match loadSignatures t path with
    | .ok table => .ok { s with signatures := some table }
    | .error _ => .error ((LogEntry.error "failed to load DWARF types").field "path" path)

def attachDump (t : FileTree) (s : Session) : Option (String × String) → Except LogEntry Session
  | none => .ok s
  | some (dumpPath, locationsPath) =>
    let joined : Except Failure SiteSignatures := do
      let dump ← loadDump t dumpPath
      let locations ← loadLocations t locationsPath
      return dump.siteSignatures locations
    match joined with
    | .ok table => .ok { s with siteSignatures := some table }
    | .error _ => .error (.error "failed to load call-site signatures")

def attachTables (t : FileTree) (s : Session) (tables : TableFiles) : Except LogEntry Session := do
  attachDump t (← attachTypes t s tables.types) tables.dump

def generateReport (report : Session.GenerateReport) (log : List LogEntry) (files : FileTree) :
    Execution :=
  let written := report.written.map fun w =>
    Note.done (w.policy.name ++ ": " ++ toString w.edges ++ " edges -> " ++ w.path)
  let failed := report.failed.map fun (p, e) => Note.caution (p.name ++ ": " ++ e.message)
  let complaint := (LogEntry.error "some policies were not generated").field "failed"
    (toString report.failed.length)
  { succeeded := report.failed.isEmpty
    notes := written ++ failed
    log := if report.failed.isEmpty then log else log ++ [complaint]
    files := files }

def runGenerate (t : FileTree) (settings : Settings) (program output : String)
    (policies : List Policy) (tables : TableFiles) : Execution :=
  withSession t program settings fun s =>
    match attachTables t s tables with
    | .error e => .stopped t [e]
    | .ok s =>
      let run := s.generate t policies output
      match run.result with
      | .ok report => generateReport report run.log run.files
      | .error e => ⟨false, [.failed e.message], run.log ++ [.error "generation failed"], run.files⟩

/-! ## Measuring -/

def runMetrics (t : FileTree) (settings : Settings) (program edges output : String) : Execution :=
  withSession t program settings fun s =>
    let result : Except Failure (Nat × FileTree) := do
      let view ← s.overlay (← loadEdges t edges)
      let sites ← s.metrics view
      return (sites.length, ← save t output (Report.metrics sites))
    match result with
    | .ok (sites, files) => .reported [] files (toString sites ++ " call sites -> " ++ output)
    | .error _ => .stopped t [.error "metric computation failed"]

def loadMap (t : FileTree) : Option String → Except LogEntry (Option ProcessMap)
  | none => .ok none
  | some path =>
    match loadProcessMap t path with
    | .ok m => .ok (some m)
    | .error _ => .error (.error "failed to load process map")

def runAggregate (t : FileTree) (settings : Settings) (program edges output : String)
    (map mainBinary : Option String) (totalSize : Option Nat) : Execution :=
  match loadMap t map with
  | .error e => .stopped t [e]
  | .ok process =>
    let settings := { settings with
      mainBinary := mainBinary.or (process.map ProcessMap.mainBinary)
      totalSize := totalSize.or (process.bind ProcessMap.totalSize) }
    let caution := if settings.mainBinary.isSome then []
      else [LogEntry.warn "no main binary given: every call site is counted"]
    (withSession t program settings fun s =>
      let result : Except Failure (Precision.Report × FileTree) := do
        let report := s.precision (← s.overlay (← loadEdges t edges))
        return (report, ← save t output (Report.precision report))
      match result with
      | .ok (report, files) => .reported [] files
          (toString report.all.sites ++ " call sites (" ++ toString report.observed.sites ++
            " observed) -> " ++ output)
      | .error _ => .stopped t [.error "aggregation failed"]).after caution

def readBlock (s : String) : Except LogEntry Address :=
  match (Node.read s).toOption.bind Node.addr? with
  | some a => .ok a
  | none => .error ((LogEntry.error "not a block address").field "node" s)

def runPaths (t : FileTree) (settings : Settings) (program : String) (avoid : List String)
    (depth : Option Nat) (output : String) : Execution :=
  match avoid.mapM readBlock with
  | .error e => .stopped t [e]
  | .ok blocks =>
    withSession t program settings fun s =>
      let report := s.paths blocks depth
      match save t output (Report.paths report) with
      | .ok files => .reported [] files
          (toString report.ancestors ++ " of " ++ toString report.naiveAncestors ++
            " ancestors remain (" ++ toString report.forbidden ++ " forbidden paths) -> " ++ output)
      | .error _ => .stopped t [.error "failed to write report"]

/-- Carry out a command with the settings of the environment. -/
def run (t : FileTree) (settings : Settings) : Command → Execution
  | .generate program output policies tables =>
    runGenerate t settings program output policies tables
  | .metrics program edges output maxWorkers nodeCap =>
    runMetrics t { settings with
      maxWorkers := maxWorkers.or settings.maxWorkers
      nodeCap := nodeCap.getD settings.nodeCap } program edges output
  | .aggregate program edges output map mainBinary totalSize =>
    runAggregate t settings program edges output map mainBinary totalSize
  | .paths program avoid depth output => runPaths t settings program avoid depth output

end Command
end CfiSlack
