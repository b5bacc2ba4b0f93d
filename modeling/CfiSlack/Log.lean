/-!
# Log entries
-/
namespace CfiSlack

inductive LogLevel where
  | warn
  | error
  deriving DecidableEq, Repr

def LogLevel.text : LogLevel → String
  | .warn => "WARN"
  | .error => "ERROR"

structure LogEntry where
  level : LogLevel
  message : String
  fields : List (String × String) := []
  deriving DecidableEq, Repr

namespace LogEntry

def warn (message : String) : LogEntry := { level := .warn, message := message }

def error (message : String) : LogEntry := { level := .error, message := message }

/-- Add a field behind the others. -/
def field (e : LogEntry) (name value : String) : LogEntry :=
  { e with fields := e.fields ++ [(name, value)] }

def text (e : LogEntry) : String :=
  let fields := e.fields.map fun (name, value) => name ++ "=" ++ value
  " ".intercalate (e.level.text :: e.message :: fields)

end LogEntry
end CfiSlack
