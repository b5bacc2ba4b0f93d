import CfiSlack.CallDump
import CfiSlack.Document.Program
import CfiSlack.Files.Path

/-!
# Auxiliary documents

Function types, the layout of a process, and the places of call sites in the sources.
-/
namespace CfiSlack

open Json (Decoder)
open Json.Decoder (Member)

namespace FunctionTypes

structure Draft where
  addr : Option Address := none
  types : Option (List String) := none

def fields : List (Member Draft) := [
  .of "addr" false Draft.addr (fun d a => { d with addr := some a }) Decoder.address,
  .of "return_parameter_types" false Draft.types (fun d l => { d with types := some l })
    (.array .text)]

/-- Types of functions with the return type first. -/
def decoder : Decoder (List (Address × List String)) :=
  .array (.record fields { } fun d => do return (← d.addr, ← d.types))

/-- The table of parameter types. -/
def table (rows : List (Address × List String)) : SignatureTable :=
  rows.foldl (fun t (f, types) => SignatureTable.insertReturning t f types) Table.empty

end FunctionTypes

/-- What is known of a traced process. -/
structure ProcessMap where
  /-- Path of the main binary. -/
  path : String
  /-- Bytes of executable code. -/
  totalSize : Option Nat
  deriving DecidableEq, Repr

namespace ProcessMap

/-- The name under which blocks know the main binary. -/
def mainBinary (m : ProcessMap) : String := (Path.fileName? m.path).getD m.path

structure BinaryDraft where
  path : Option String := none

def binaryFields : List (Member BinaryDraft) := [
  .of "bpath" false BinaryDraft.path (fun d s => { d with path := some s }) Decoder.text]

structure Draft where
  path : Option String := none
  totalSize : Option (Option UInt64) := none

def fields : List (Member Draft) := [
  .of "main" false Draft.path (fun d s => { d with path := some s })
    (.record binaryFields { } BinaryDraft.path),
  .of "total_exec_size" true Draft.totalSize (fun d n => { d with totalSize := some n })
    (.optional .word)]

def decoder : Decoder ProcessMap := .record fields { } fun d => do
  return ⟨← d.path, d.totalSize.join.map UInt64.toNat⟩

end ProcessMap

namespace SiteLocation

structure Draft where
  binary : Option String := none
  addr : Option Address := none
  file : Option String := none
  line : Option UInt32 := none
  column : Option UInt32 := none

/-- A number of a place. -/
def number : Decoder UInt32 :=
  .mapping (fun n => if n.toNat < UInt32.size then some n.toUInt32 else none) .word

def fields : List (Member Draft) := [
  .of "binary" false Draft.binary (fun d s => { d with binary := some s }) Decoder.text,
  .of "addr" false Draft.addr (fun d a => { d with addr := some a }) Decoder.address,
  .of "file" false Draft.file (fun d s => { d with file := some s }) Decoder.text,
  .of "line" false Draft.line (fun d n => { d with line := some n }) number,
  .of "column" false Draft.column (fun d n => { d with column := some n }) number]

def decoder : Decoder (List SiteLocation) := .array (.record fields { } fun d => do
  return ⟨⟨← d.binary, ← d.addr⟩, ⟨← d.file, ⟨← d.line, ← d.column⟩⟩⟩)

end SiteLocation
end CfiSlack
