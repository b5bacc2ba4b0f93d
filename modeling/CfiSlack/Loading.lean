import CfiSlack.Failure

/-!
# Loading

The inputs of an evaluation, read from a file tree. Edge lists are written to one, too.
-/
namespace CfiSlack

/-- Documents are read byte by byte. -/
def documentRoom : Nat := 1

/-- Lines are cut from what a reader with this room gets. -/
def lineRoom : Nat := 8192

def loadJson {α : Type} (d : Json.Decoder α) (t : FileTree) (path : String) :
    Except Failure α := do
  let content ← (t.openFile documentRoom path).mapError .file
  (Json.decode d ⟨content.bytes, content.fault.isNone⟩).mapError .json

def parseProgram (text : String) : Except Failure Program := do
  let document ← (Json.decode ProgramDocument.decoder (.ofString text)).mapError .json
  document.program.mapError .program

def loadProgram (t : FileTree) (path : String) : Except Failure Program := do
  let document ← loadJson ProgramDocument.decoder t path
  document.program.mapError .program

def loadSignatures (t : FileTree) (path : String) : Except Failure SignatureTable := do
  return FunctionTypes.table (← loadJson FunctionTypes.decoder t path)

def loadProcessMap (t : FileTree) (path : String) : Except Failure ProcessMap :=
  loadJson ProcessMap.decoder t path

def loadLocations (t : FileTree) (path : String) : Except Failure (List SiteLocation) :=
  loadJson SiteLocation.decoder t path

/-- Files with this extension hold call records. -/
def dumpExtension : String := "txt"

/-- The files of a call dump: the path itself, or the text files of a directory. -/
def dumpFiles (t : FileTree) (path : String) : List String :=
  if t.isDirectory path then
    ((t.names path).filter fun name => Path.nameExtension? name = some dumpExtension).map
      (Path.child path)
  else [path]

def loadRecords (t : FileTree) (path : String) : Except Failure (List CallRecord) := do
  let text ← (t.readText path).mapError .file
  (CallDump.parse text.toList).mapError .callRecord

def loadDump (t : FileTree) (path : String) : Except Failure CallDump := do
  let records ← (dumpFiles t path).mapM (loadRecords t)
  return records.foldl CallDump.extend Table.empty

/-- Cut bytes at line feeds; `line` holds the bytes since the last cut and `lines` the lines before,
latest first. The second part is a last line without a line feed. -/
def byteLinesFrom (lines : List (List UInt8)) (line : List UInt8) :
    List UInt8 → List (List UInt8) × List UInt8
  | [] => (lines.reverse, line.reverse)
  | b :: bytes =>
    if b = 0x0a then byteLinesFrom (line.reverse :: lines) [] bytes
    else byteLinesFrom lines (b :: line) bytes

/-- The lines up to the first that is no text, and whether there is one; `texts` holds those before,
latest first. -/
def textLinesFrom (texts : List (List Char)) : List (List UInt8) → List (List Char) × Bool
  | [] => (texts.reverse, false)
  | line :: lines =>
    match Text.ofBytes? line with
    | none => (texts.reverse, true)
    | some s => textLinesFrom (s.toList :: texts) lines

/-- The edges of a file. The lines before the place where reading fails are looked at first. -/
def loadEdges (t : FileTree) (path : String) : Except Failure (List Edge) := do
  let content ← (t.openFile lineRoom path).mapError .file
  let (complete, last) := byteLinesFrom [] [] content.bytes
  let lines := if content.fault.isNone && !last.isEmpty then complete ++ [last] else complete
  let (texts, bad) := textLinesFrom [] lines
  let edges ← (EdgeList.parseLines 1 texts).mapError (.edgeList path)
  if bad then throw (.file .notText)
  match content.fault with
  | some e => throw (.file e)
  | none => return edges

def saveEdges (t : FileTree) (path : String) (edges : List Edge) :
    Except Failure (FileTree × Nat) := do
  let t ← (t.writeFile path (EdgeList.text edges)).mapError .file
  return (t, (EdgeList.sorted edges).length)

end CfiSlack
