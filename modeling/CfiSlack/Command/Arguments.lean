import CfiSlack.Command.Usage
import CfiSlack.Policy
import CfiSlack.Text.Cut
import CfiSlack.Text.Numeral

/-!
# Arguments

The switches and operands that a command takes, and the reading of words against them. A value is
looked at only when the next argument begins or the words end, so of two faults the one that is
found first while reading from the left is reported.
-/
namespace CfiSlack

/-- What a value has to be. -/
inductive ValueKind where
  | path
  | count
  | policy
  | text
  deriving DecidableEq, Repr

inductive ArgumentValue where
  | text (s : String)
  | count (n : UInt64)
  | policy (p : Policy)
  deriving DecidableEq, Repr

def ValueKind.read (s : String) : ValueKind → Except UsageFault ArgumentValue
  | .path => if s.isEmpty then .error .badValue else .ok (.text s)
  | .count =>
    match Numeral.word 10 s.toList with
    | .ok n => .ok (.count n)
    | .error _ => .error .badNumber
  | .policy =>
    match Policy.read s with
    | .ok p => .ok (.policy p)
    | .error _ => .error .badValue
  | .text => .ok (.text s)

/-- A place for values. -/
structure Slot where
  name : String
  kind : ValueKind
  /-- Takes values with commas between them, and may be given again. -/
  many : Bool
  deriving DecidableEq, Repr

inductive SwitchRole where
  | flag
  | value (kind : ValueKind) (many : Bool)
  | help
  | version
  deriving DecidableEq, Repr

structure Switch where
  long : String
  short : Option Char
  role : SwitchRole
  deriving DecidableEq, Repr

/-- What a command takes. -/
structure Grammar where
  switches : List Switch
  operands : List Slot
  deriving DecidableEq, Repr

/-- The forms of a word. -/
inductive Word where
  /-- All words that follow are operands. -/
  | escape
  | long (name : String) (value : Option String)
  | short (letters : List Char)
  | plain
  deriving DecidableEq, Repr

def Word.ofChars : List Char → Word
  | ['-', '-'] => .escape
  | '-' :: '-' :: cs =>
    .long (String.ofList (cs.takeWhile (· ≠ '=')))
      (match cs.dropWhile (· ≠ '=') with
        | [] => none
        | _ :: value => some (String.ofList value))
  | '-' :: c :: cs => .short (c :: cs)
  | _ => .plain

/-- The argument that a reading is at. -/
inductive Pending where
  | nothing
  | awaiting (slot : Slot)
  | holding (slot : Slot) (value : String)
  deriving DecidableEq, Repr

/-- What was read so far. -/
structure Reading where
  /-- Arguments by name, in the order in which they were found good. -/
  given : List (String × List ArgumentValue)
  pending : Pending
  /-- Operands that have no value yet. -/
  operands : List Slot
  escaped : Bool
  deriving DecidableEq, Repr

namespace Reading

def start (g : Grammar) : Reading := ⟨[], .nothing, g.operands, false⟩

def has (r : Reading) (name : String) : Bool := r.given.any fun (n, _) => n = name

/-- Take a value for a slot. -/
def accept (r : Reading) (slot : Slot) (value : String) : Except UsageFault Reading := do
  if r.has slot.name && !slot.many then throw .conflict
  let parts := if slot.many then (Text.cut ',' value.toList).map String.ofList else [value]
  let values ← parts.mapM fun s => slot.kind.read s
  return { r with given := r.given ++ [(slot.name, values)] }

/-- Finish the argument that the reading is at. -/
def settle (r : Reading) : Except UsageFault Reading :=
  match r.pending with
  | .nothing => .ok r
  | .awaiting _ => .error .badValue
  | .holding slot value => { r with pending := .nothing }.accept slot value

/-- A switch without a value. -/
def plainSwitch (r : Reading) (s : Switch) : Except UsageFault Reading := do
  let r ← r.settle
  match s.role with
  | .value kind many => return { r with pending := .awaiting ⟨s.long, kind, many⟩ }
  | .help => throw .helpAsked
  | .version => throw .versionAsked
  | .flag =>
    if r.has s.long then throw .conflict
    return { r with given := r.given ++ [(s.long, [])] }

/-- A switch with a value in the same word. -/
def valuedSwitch (r : Reading) (s : Switch) (value : String) : Except UsageFault Reading :=
  match s.role with
  | .value kind many => do (← r.settle).accept ⟨s.long, kind, many⟩ value
  | _ => .error .valueOfFlag

def longSwitch (g : Grammar) (r : Reading) (name : String) (value : Option String) :
    Except UsageFault Reading :=
  match g.switches.find? fun s => s.long = name, value with
  | none, _ => .error .unknownArgument
  | some s, none => r.plainSwitch s
  | some s, some v => r.valuedSwitch s v

/-- Letters of one word. The first that takes a value takes the rest of the word, with or without an
equals sign before it. -/
def letters (g : Grammar) (r : Reading) : List Char → Except UsageFault Reading
  | [] => .ok r
  | c :: cs =>
    match g.switches.find? fun s => s.short = some c with
    | none => .error .unknownArgument
    | some s =>
      match s.role, cs with
      | .value _ _, [] => r.plainSwitch s
      | .value _ _, '=' :: value => r.valuedSwitch s (String.ofList value)
      | .value _ _, value => r.valuedSwitch s (String.ofList value)
      | _, cs => do letters g (← r.plainSwitch s) cs

/-- A word that stands for itself. -/
def operand (r : Reading) (word : String) : Except UsageFault Reading :=
  match r.operands with
  | [] => .error .unknownArgument
  | slot :: rest => do
    let r ← r.settle
    return { r with operands := rest, pending := .holding slot word }

def word (g : Grammar) (r : Reading) (s : String) : Except UsageFault Reading :=
  if r.escaped then r.operand s
  else
    match Word.ofChars s.toList with
    | .escape => .ok { r with escaped := true }
    | .long name value => r.longSwitch g name value
    | .short cs => r.letters g cs
    | .plain =>
      match r.pending with
      | .awaiting slot => .ok { r with pending := .holding slot s }
      | _ => r.operand s

/-- Read all words of a command. -/
def ofWords (g : Grammar) (words : List String) : Except UsageFault Reading := do
  (← words.foldlM (word g) (start g)).settle

/-! ## Values -/

/-- All values that were given under a name. -/
def values (r : Reading) (name : String) : List ArgumentValue :=
  (r.given.filter fun (n, _) => n = name).flatMap Prod.snd

def texts (r : Reading) (name : String) : List String :=
  (r.values name).filterMap fun
    | .text s => some s
    | _ => none

def policies (r : Reading) (name : String) : List Policy :=
  (r.values name).filterMap fun
    | .policy p => some p
    | _ => none

def text? (r : Reading) (name : String) : Option String := (r.texts name).head?

def count? (r : Reading) (name : String) : Option Nat :=
  ((r.values name).filterMap fun
    | .count n => some n.toNat
    | _ => none).head?

/-- A text that has to be given. -/
def required (r : Reading) (name : String) : Except UsageFault String :=
  match r.text? name with
  | some s => .ok s
  | none => .error .requiredMissing

end Reading
end CfiSlack
