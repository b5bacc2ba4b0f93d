/-!
# Faults of usage
-/
namespace CfiSlack

/-- Why a command line is not carried out. -/
inductive UsageFault where
  | helpAsked
  | versionAsked
  /-- No word at all was given. -/
  | nothingGiven
  | commandMissing
  | unknownCommand
  | unknownArgument
  /-- A value is missing, is empty, or is none of those allowed. -/
  | badValue
  /-- A value is no number of its range. -/
  | badNumber
  /-- A flag was given a value. -/
  | valueOfFlag
  /-- Options exclude each other, or one that may stand once stands twice. -/
  | conflict
  | requiredMissing
  deriving DecidableEq, Repr

namespace UsageFault

/-- Questions for help or version are answered; other faults fail. -/
def exitCode : UsageFault → Nat
  | .helpAsked => 0
  | .versionAsked => 0
  | _ => 2

def message : UsageFault → String
  | .helpAsked => "usage: generate | metrics | aggregate | paths | help, each with --help"
  | .versionAsked => "cfi-slack"
  | .nothingGiven => "usage: generate | metrics | aggregate | paths | help, each with --help"
  | .commandMissing => "error: a command is required"
  | .unknownCommand => "error: unknown command"
  | .unknownArgument => "error: unexpected argument"
  | .badValue => "error: a value is missing or not allowed"
  | .badNumber => "error: a value is not a number"
  | .valueOfFlag => "error: a flag takes no value"
  | .conflict => "error: arguments exclude each other"
  | .requiredMissing => "error: a required argument is missing"

end UsageFault
end CfiSlack
