import CfiSlack.Text.Numeral

/-!
# Writing JSON

Documents are written over several lines, indented by two blanks for each level. Only quotes,
backslashes and control characters are escaped in strings.
-/
namespace CfiSlack.Json

inductive Value where
  | null
  /-- A number by its digits. -/
  | number (digits : List Char)
  | text (s : String)
  | array (items : List Value)
  | object (members : List (String × Value))

namespace Value

def ofNat (n : Nat) : Value := .number (Numeral.decimal n)

def ofInt (n : Int) : Value :=
  .number (if n < 0 then '-' :: Numeral.decimal n.natAbs else Numeral.decimal n.toNat)

def ofStrings (l : List String) : Value := .array (l.map .text)

/-- A value that may be missing. -/
def ofOption {α : Type} (f : α → Value) : Option α → Value
  | none => .null
  | some a => f a

def escape (c : Char) : List Char :=
  if c = '"' then ['\\', '"']
  else if c = '\\' then ['\\', '\\']
  else if c = '\x08' then ['\\', 'b']
  else if c = '\x0c' then ['\\', 'f']
  else if c = '\n' then ['\\', 'n']
  else if c = '\r' then ['\\', 'r']
  else if c = '\t' then ['\\', 't']
  else if c.toNat < 0x20 then "\\u".toList ++ Numeral.padded 4 (Numeral.hexadecimal c.toNat)
  else [c]

def quoted (s : String) : List Char := '"' :: (s.toList.flatMap escape ++ ['"'])

/-- A new line at a level of indentation. -/
def newline (level : Nat) : List Char := '\n' :: List.replicate (2 * level) ' '

/-- Lines between two brackets, divided by commas. -/
def block (opening closing : Char) (level : Nat) : List (List Char) → List Char
  | [] => [opening, closing]
  | first :: others =>
    opening :: (newline (level + 1) ++ first ++
      others.flatMap (fun line => ',' :: (newline (level + 1) ++ line)) ++
      newline level ++ [closing])

mutual

/-- Text of a value that stands at a level of indentation. -/
def chars (level : Nat) : Value → List Char
  | .null => "null".toList
  | .number digits => digits
  | .text s => quoted s
  | .array items => block '[' ']' level (itemChars (level + 1) items)
  | .object members => block '\x7b' '\x7d' level (memberChars (level + 1) members)

def itemChars (level : Nat) : List Value → List (List Char)
  | [] => []
  | v :: vs => chars level v :: itemChars level vs

def memberChars (level : Nat) : List (String × Value) → List (List Char)
  | [] => []
  | (key, v) :: members =>
    (quoted key ++ ':' :: ' ' :: chars level v) :: memberChars level members

end

/-- A whole document, with a line end. -/
def document (v : Value) : String := String.ofList (v.chars 0 ++ ['\n'])

end Value
end CfiSlack.Json
