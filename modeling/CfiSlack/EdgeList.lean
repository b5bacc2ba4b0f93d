import CfiSlack.Edge
import CfiSlack.Text.Blank
import CfiSlack.Text.Lines

/-!
# Edge lists

One edge on a line, `source,target`. Written lists are sorted; when a list is read, blanks around
the parts and empty lines are passed over.
-/
namespace CfiSlack.EdgeList

/-- A line that is no edge, without its blank ends. -/
structure BadLine where
  number : Nat
  content : String
  deriving DecidableEq, Repr

def BadLine.message (path : String) (e : BadLine) : String :=
  path ++ ":" ++ toString e.number ++ ": malformed edge '" ++ e.content ++ "'"

/-- Two nodes divided by the first comma. -/
def edge? (cs : List Char) : Option Edge :=
  match cs.dropWhile (· ≠ ',') with
  | [] => none
  | _ :: rest => do
    let source ← Node.ofChars? (Text.trim (cs.takeWhile (· ≠ ',')))
    let target ← Node.ofChars? (Text.trim rest)
    return ⟨source, target⟩

/-- Read lines of which the first has the number `number`. -/
def parseLines : Nat → List (List Char) → Except BadLine (List Edge)
  | _, [] => .ok []
  | number, line :: lines =>
    let content := Text.trim line
    if content.isEmpty then parseLines (number + 1) lines
    else
      match edge? content with
      | none => .error ⟨number, String.ofList content⟩
      | some e => (parseLines (number + 1) lines).map (e :: ·)

def parse (cs : List Char) : Except BadLine (List Edge) := parseLines 1 (Text.lines cs)

/-- Edges in ascending order; repeated edges stay. -/
def sorted (edges : List Edge) : List Edge := edges.mergeSort (· ≤ ·)

def chars (edges : List Edge) : List Char := (sorted edges).flatMap fun e => e.chars ++ ['\n']

def text (edges : List Edge) : String := String.ofList (chars edges)

end CfiSlack.EdgeList
