import CfiSlack.Signature
import CfiSlack.Text.Cut

/-!
# Call records

A record of a compiler about one indirect call, such as

    src/core/module.c:41:12 'init' >int Pointer(void) long< "call i32 %5(...)"

It gives the place of the call, the calling function, the types of the call with the return type
first, and the instruction. `file:0` is a call without a place; an inlined call has a note
`@[ ... ]` before the function. Where quotes and brackets allow several readings, the longest note
and the longest list of types that leave a well-formed rest are taken.
-/
namespace CfiSlack

structure Place where
  line : UInt32
  column : UInt32
  deriving DecidableEq, Repr

structure CallRecord where
  file : String
  /-- Unknown where the compiler had no line information. -/
  place : Option Place
  function : String
  /-- Return type first, then the parameters. -/
  types : List String
  deriving DecidableEq, Repr

namespace CallRecord

def params (r : CallRecord) : List String := r.types.tail

/-- A text from which a fixed beginning is taken off. -/
def after? (start : List Char) (cs : List Char) : Option (List Char) :=
  if start.isPrefixOf cs then some (cs.drop start.length) else none

/-- Cut at the first `stop`; what stands before it must not be empty. -/
def upTo? (stop : Char) (cs : List Char) : Option (List Char × List Char) :=
  match cs.takeWhile (· ≠ stop), cs.dropWhile (· ≠ stop) with
  | [], _ => none
  | _, [] => none
  | before, _ :: rest => some (before, rest)

/-- The instruction closes with a quote at the end of the record and stays on one line. -/
def isInstruction (cs : List Char) : Bool :=
  cs.length ≥ 2 && cs.getLast? == some '"' && !cs.contains '\n'

/-- The rest of a list of types, before the last mark that opens an instruction. -/
def typesFrom? : List Char → Option (List Char)
  | [] => none
  | c :: cs =>
    match if c = '\'' then none else typesFrom? cs with
    | some types => some (c :: types)
    | none => if (after? "< \"".toList (c :: cs)).any isInstruction then some [] else none

def types? : List Char → Option (List Char)
  | [] => none
  | c :: cs => if c = '\'' then none else (typesFrom? cs).map (c :: ·)

def call? (cs : List Char) : Option (List Char × List Char) := do
  let cs ← after? " '".toList cs
  let (function, cs) ← upTo? '\'' cs
  let cs ← after? " >".toList cs
  let types ← types? cs
  return (function, types)

/-- The call behind the last bracket that closes a note. -/
def pastNote? : List Char → Option (List Char × List Char)
  | [] => none
  | c :: cs =>
    match if c = '\n' then none else pastNote? cs with
    | some call => some call
    | none => (after? " ]".toList (c :: cs)).bind fun rest => call? (rest.dropWhile (· = ']'))

def annotated? (cs : List Char) : Option (List Char × List Char) :=
  match after? " @[".toList cs with
  | none => call? cs
  | some [] => none
  | some (c :: rest) => if c = '\n' then none else pastNote? rest

def number? (digits : List Char) : Option UInt32 :=
  if digits.isEmpty then none
  else (Numeral.digits 10 UInt32.size 0 digits).toOption.map UInt32.ofNat

/-- `line:column`, and what follows. -/
def place? (cs : List Char) : Option (Place × List Char) := do
  let (line, cs) ← upTo? ':' cs
  let column := cs.takeWhile (Char.isDigit ·)
  return (⟨← number? line, ← number? column⟩, cs.dropWhile (Char.isDigit ·))

/-- The compiler's spelling of `long` is brought to that of the type tables. -/
def typeName (t : String) : String :=
  if t = "long" then "long int"
  else if t = "Pointer(long)" then "Pointer(long int)"
  else t

def ofParts (file : List Char) (place : Option Place) (call : List Char × List Char) :
    CallRecord where
  file := String.ofList file
  place := place
  function := String.ofList call.1
  types := (Text.cut ' ' call.2).map fun t => typeName (String.ofList t)

def ofChars? (cs : List Char) : Option CallRecord := do
  let (file, cs) ← upTo? ':' cs
  match (after? ['0'] cs).bind annotated? with
  | some call => return ofParts file none call
  | none =>
    let (place, cs) ← place? cs
    return ofParts file (some place) (← annotated? cs)

end CallRecord

structure BadCallRecord where
  text : String
  deriving DecidableEq, Repr

def BadCallRecord.message (e : BadCallRecord) : String := "Malformed call-site record: " ++ e.text

def CallRecord.parse (cs : List Char) : Except BadCallRecord CallRecord :=
  match CallRecord.ofChars? cs with
  | some r => .ok r
  | none => .error ⟨String.ofList cs⟩

end CfiSlack
