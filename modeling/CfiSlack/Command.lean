import CfiSlack.Command.Arguments

/-!
# Commands

The four things that an evaluation can be asked for on the command line, and their command lines.
-/
namespace CfiSlack

/-- Tables for the policies that compare types. -/
structure TableFiles where
  /-- Types of functions. -/
  types : Option String
  /-- A call dump, with the locations of call sites that tie it to addresses. -/
  dump : Option (String × String)
  deriving DecidableEq, Repr

inductive Command where
  /-- Write the edges of policies into a directory. -/
  | generate (program output : String) (policies : List Policy) (tables : TableFiles)
  /-- Measure the call sites of one policy. -/
  | metrics (program edges output : String) (maxWorkers nodeCap : Option Nat)
  /-- Sum up the precision of one policy. -/
  | aggregate (program edges output : String) (map mainBinary : Option String)
      (totalSize : Option Nat)
  /-- Find the ancestors of the sink that remain when the routes from some blocks are forbidden. -/
  | paths (program : String) (avoid : List String) (depth : Option Nat) (output : String)
  deriving DecidableEq, Repr

/-- A command with the flags that stand for all commands. -/
structure Invocation where
  command : Command
  verbose : Bool
  silent : Bool
  deriving DecidableEq, Repr

inductive CommandName where
  | generate
  | metrics
  | aggregate
  | paths
  deriving DecidableEq, Repr

namespace CommandName

def all : List CommandName := [.generate, .metrics, .aggregate, .paths]

def text : CommandName → String
  | .generate => "generate"
  | .metrics => "metrics"
  | .aggregate => "aggregate"
  | .paths => "paths"

def read? (s : String) : Option CommandName := all.find? fun c => c.text = s

end CommandName

namespace Command

/-! ## Grammars -/

def flag (long : String) (short : Char) : Switch := ⟨long, some short, .flag⟩

def single (long : String) (kind : ValueKind) : Switch := ⟨long, none, .value kind false⟩

/-- The output, which every command has. -/
def outputSwitch : Switch := ⟨"output", some 'o', .value .path false⟩

/-- Switches that may stand before the command and after it. -/
def sharedSwitches : List Switch :=
  [flag "verbose" 'v', flag "silent" 's', ⟨"help", some 'h', .help⟩]

def outerGrammar : Grammar := ⟨sharedSwitches ++ [⟨"version", some 'V', .version⟩], []⟩

def file (name : String) : Slot := ⟨name, .path, false⟩

def grammar : CommandName → Grammar
  | .generate => {
      switches := sharedSwitches ++ [outputSwitch, ⟨"policy", some 'p', .value .policy true⟩,
        single "dwarf-types" .path, single "fn-calls" .path, single "symbol-map" .path]
      operands := [file "program"] }
  | .metrics => {
      switches := sharedSwitches ++ [outputSwitch, ⟨"max-workers", some 'j', .value .count false⟩,
        single "node-cap" .count]
      operands := [file "program", file "edges"] }
  | .aggregate => {
      switches := sharedSwitches ++ [outputSwitch, single "map" .path, single "main-binary" .text,
        single "total-size" .count]
      operands := [file "program", file "edges"] }
  | .paths => {
      switches := sharedSwitches ++ [outputSwitch, ⟨"avoid", none, .value .text true⟩,
        single "depth" .count]
      operands := [file "program"] }

/-! ## From arguments to commands -/

/-- A dump and its locations are given together. -/
def dumpFiles (r : Reading) : Except UsageFault (Option (String × String)) :=
  match r.text? "fn-calls", r.text? "symbol-map" with
  | some dump, some locations => .ok (some (dump, locations))
  | none, none => .ok none
  | _, _ => .error .requiredMissing

/-- All policies are meant when none is named. -/
def chosenPolicies (r : Reading) : List Policy :=
  match r.policies "policy" with
  | [] => Policy.all
  | ps => ps

def ofReading (r : Reading) : CommandName → Except UsageFault Command
  | .generate => do
    return .generate (← r.required "program") ((r.text? "output").getD "edges") (chosenPolicies r)
      ⟨r.text? "dwarf-types", ← dumpFiles r⟩
  | .metrics => do
    return .metrics (← r.required "program") (← r.required "edges")
      ((r.text? "output").getD "metrics.json") (r.count? "max-workers") (r.count? "node-cap")
  | .aggregate => do
    return .aggregate (← r.required "program") (← r.required "edges")
      ((r.text? "output").getD "aggregate.json") (r.text? "map") (r.text? "main-binary")
      (r.count? "total-size")
  | .paths => do
    let program ← r.required "program"
    let _ ← r.required "avoid"
    return .paths program (r.texts "avoid") (r.count? "depth")
      ((r.text? "output").getD "paths.json")

/-- Words cannot ask for more and for less output. -/
def checkFlags (r : Reading) : Except UsageFault Unit :=
  if r.has "verbose" && r.has "silent" then .error .conflict else .ok ()

end Command

namespace Invocation

/-- The word that asks for help on a command. -/
def helpWord : String := "help"

def isCommandWord (s : String) : Bool := s = helpWord || (CommandName.read? s).isSome

/-- The fault that answers a question for help. -/
def help : List String → UsageFault
  | [] => .helpAsked
  | [topic] => if isCommandWord topic then .helpAsked else .unknownCommand
  | _ => .unknownCommand

/-- Read the words of a command, after what stood before it. -/
def ofCommand (outer : Reading) (name : CommandName) (words : List String) :
    Except UsageFault Invocation := do
  let inner ← Reading.ofWords (Command.grammar name) words
  Command.checkFlags inner
  let command ← Command.ofReading inner name
  Command.checkFlags outer
  return {
    command := command
    verbose := outer.has "verbose" || inner.has "verbose"
    silent := outer.has "silent" || inner.has "silent" }

/-- Read words up to the command, and then its own. -/
def continueWith (outer : Reading) : List String → Except UsageFault Invocation
  | [] => .error (if outer.given.isEmpty then .nothingGiven else .commandMissing)
  | word :: words =>
    if outer.escaped then .error (if isCommandWord word then .unknownArgument else .unknownCommand)
    else if word = helpWord then .error (help words)
    else
      match CommandName.read? word with
      | some name => ofCommand outer name words
      | none =>
        if Word.ofChars word.toList = .plain then .error .unknownCommand
        else do continueWith (← outer.word Command.outerGrammar word) words

/-- Read a command line, without the name of the program. -/
def parse (words : List String) : Except UsageFault Invocation :=
  continueWith (.start Command.outerGrammar) words

end Invocation
end CfiSlack
