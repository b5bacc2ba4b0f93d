import CfiSlack.Document.Tables
import CfiSlack.EdgeList
import CfiSlack.Files.Tree
import CfiSlack.Policy
import CfiSlack.SiteMetric

/-!
# Failures of an evaluation
-/
namespace CfiSlack

inductive Failure where
  | file (e : FileFault)
  | json (e : Json.Fault)
  | program (e : ProgramError)
  | graph (e : GraphError)
  | policy (e : PolicyError)
  | metric (e : MetricError)
  | edgeList (path : String) (e : EdgeList.BadLine)
  | callRecord (e : BadCallRecord)
  deriving DecidableEq, Repr

def Json.Fault.message : Json.Fault → String
  | .ended => "unexpected end of document"
  | .malformed => "malformed document"
  | .mismatch => "unexpected value in document"
  | .unreadable => "document cannot be read"

def Failure.message : Failure → String
  | .file e => "IO error: " ++ e.message
  | .json e => "JSON error: " ++ e.message
  | .program e => e.message
  | .graph e => "Graph error: " ++ e.message
  | .policy e => "Policy error: " ++ e.message
  | .metric e => "Evaluation error: " ++ e.message
  | .edgeList path e => e.message path
  | .callRecord e => e.message

end CfiSlack
