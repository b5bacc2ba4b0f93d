import CfiSlack.Files.Unpacking
import CfiSlack.Files.Path
import CfiSlack.Table
import CfiSlack.Ascending
import CfiSlack.Text.Utf8

/-!
# File trees

The files of a machine, as a value. Reading and writing follow a path part by part, from the working
directory or from the top: every part but the last has to lead into a directory.
-/
namespace CfiSlack

inductive FileFault where
  | notFound
  | notADirectory
  | isADirectory
  | alreadyExists
  | nameTooLong
  /-- A path holds a character that no path can hold. -/
  | badName
  | notText
  | cutOff
  | corrupt
  deriving DecidableEq, Repr

def FileFault.message : FileFault → String
  | .notFound => "No such file or directory (os error 2)"
  | .notADirectory => "Not a directory (os error 20)"
  | .isADirectory => "Is a directory (os error 21)"
  | .alreadyExists => "File exists (os error 17)"
  | .nameTooLong => "File name too long (os error 36)"
  | .badName => "file name contained an unexpected NUL byte"
  | .notText => "stream did not contain valid UTF-8"
  | .cutOff => "incomplete frame"
  | .corrupt => "Unknown frame descriptor"

/-- Names from the top down. -/
abbrev Location := List String

structure FileTree where
  files : Table Location (List UInt8)
  /-- Directories that were made, besides those that hold files. -/
  directories : List Location
  home : Location

namespace FileTree

def empty (home : Location) : FileTree := ⟨.empty, [], home⟩

def put (t : FileTree) (l : Location) (bytes : List UInt8) : FileTree :=
  { t with files := t.files.insert l bytes }

def putHome (t : FileTree) (l : Location) (bytes : List UInt8) : FileTree :=
  t.put (t.home ++ l) bytes

inductive Entry where
  | file (bytes : List UInt8)
  | directory
  | missing

def locations (t : FileTree) : List Location := t.home :: t.directories ++ t.files.keys

def entry (t : FileTree) (l : Location) : Entry :=
  match t.files.find? l with
  | some bytes => .file bytes
  | none =>
    if t.locations.any (fun k => l.isPrefixOf k) then .directory else .missing

def maxPart : Nat := 255

def maxPath : Nat := 4096

/-- Follow parts of a path from a location. A part is only looked at in a directory that is
there. -/
def follow (t : FileTree) : Location → List String → Except FileFault Location
  | l, [] => .ok l
  | l, part :: parts =>
    match t.entry l with
    | .file _ => .error .notADirectory
    | .missing => .error .notFound
    | .directory =>
      if part = "." then t.follow l parts
      else if part = ".." then t.follow l.dropLast parts
      else if part.utf8ByteSize > maxPart then .error .nameTooLong
      else t.follow (l ++ [part]) parts

/-- Where a path leads; an empty path leads nowhere. -/
def locate (t : FileTree) (path : String) : Except FileFault Location :=
  if path.toList.contains '\x00' then .error .badName
  else if path.isEmpty then .error .notFound
  else if path.utf8ByteSize ≥ maxPath then .error .nameTooLong
  else t.follow (if Path.isAbsolute path then [] else t.home) (Path.parts path)

def find (t : FileTree) (path : String) : Except FileFault Entry := do
  let l ← t.locate path
  match t.entry l with
  | .missing => throw .notFound
  | .directory => return .directory
  | .file bytes => if Path.endsInSlash path then throw .notADirectory else return .file bytes

def isDirectory (t : FileTree) (path : String) : Bool :=
  match t.find path with
  | .ok .directory => true
  | _ => false

structure Content where
  bytes : List UInt8
  fault : Option FileFault

def packedExtension : String := "zst"

/-- Open a file for a reader that takes up to `room` bytes at a time; a directory opens, and fails
when it is read. -/
def openFile (t : FileTree) (room : Nat) (path : String) : Except FileFault Content := do
  match ← t.find path with
  | .missing => throw .notFound
  | .directory => return ⟨[], some .isADirectory⟩
  | .file bytes =>
    if Path.extension? path = some packedExtension then
      let unpacked := Frame.unpack room bytes
      return ⟨unpacked.bytes, unpacked.fault.map fun
        | .cutOff => .cutOff
        | .corrupt => .corrupt⟩
    else return ⟨bytes, none⟩

def readText (t : FileTree) (path : String) : Except FileFault String := do
  match ← t.find path with
  | .missing => throw .notFound
  | .directory => throw .isADirectory
  | .file bytes =>
    match Text.ofBytes? bytes with
    | some s => return s
    | none => throw .notText

def names (t : FileTree) (path : String) : List String :=
  match t.locate path with
  | .error _ => []
  | .ok l =>
    Ascending.ofList (t.locations.filterMap fun k =>
      if l.isPrefixOf k then (k.drop l.length).head? else none)

/-- Write a file, which may be there already, into a directory that is there. -/
def writeFile (t : FileTree) (path : String) (text : String) : Except FileFault FileTree := do
  let l ← t.locate path
  if Path.endsInSlash path then throw .isADirectory
  match t.entry l with
  | .directory => throw .isADirectory
  | _ => return t.put l (Text.toBytes text)

def makeDirectory (t : FileTree) (path : String) : Except FileFault FileTree := do
  let l ← t.locate path
  match t.entry l with
  | .missing => return { t with directories := l :: t.directories }
  | _ => throw .alreadyExists

def ensureDirectory (t : FileTree) (path : String) : Except FileFault FileTree :=
  match t.makeDirectory path with
  | .ok t => .ok t
  | .error e => if t.isDirectory path then .ok t else .error e

/-- Make the directories of some names, each within the one before, up to the first fault. -/
def ensureChain (t : FileTree) : List String → List String → FileTree × Option FileFault
  | _, [] => (t, none)
  | made, name :: names =>
    match t.ensureDirectory ("/".intercalate (made ++ [name])) with
    | .error e => (t, some e)
    | .ok t => t.ensureChain (made ++ [name]) names

/-- Make a directory and, if they are missing, those that it lies in. Those made before a fault
stay. -/
def makeDirectories (t : FileTree) (path : String) : FileTree × Option FileFault :=
  let make (t : FileTree) : FileTree × Option FileFault :=
    match t.ensureDirectory path with
    | .ok t => (t, none)
    | .error e => (t, some e)
  if path.isEmpty then (t, none)
  else
    match make t, Path.parentParts? path with
    | (t, some .notFound), some parents =>
      match t.ensureChain (if Path.isAbsolute path then [""] else []) parents with
      | (t, none) => make t
      | failed => failed
    | result, _ => result

/-- Files that are new or differ from those of an older tree. -/
def changedSince (t older : FileTree) : List (Location × List UInt8) :=
  t.files.rows.filter fun (l, bytes) => older.files.find? l ≠ some bytes

/-- Where a location lies below the working directory, if it does. -/
def fromHome? (t : FileTree) (l : Location) : Option Location :=
  if t.home.isPrefixOf l then some (l.drop t.home.length) else none

end FileTree
end CfiSlack
