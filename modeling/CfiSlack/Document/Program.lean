import CfiSlack.Graph
import CfiSlack.HexAddress
import CfiSlack.Json.Decoder

/-!
# Program documents

A program document lists the blocks of a program with their outgoing edges, and its functions. The
blocks are taken in the order of their keys.
-/
namespace CfiSlack

namespace Json.Decoder

/-- An address in hexadecimal; any other string has the wrong shape. -/
def address : Decoder Address := mapping (fun s => (Address.read s).toOption) text

end Json.Decoder

open Json (Decoder)
open Json.Decoder (Member)

structure EdgeEntry where
  target : Address
  kind : String
  seenBy : List String

namespace EdgeEntry

structure Draft where
  target : Option Address := none
  kind : Option String := none
  seenBy : Option (List String) := none

def fields : List (Member Draft) := [
  .of "to" false Draft.target (fun d a => { d with target := some a }) Decoder.address,
  .of "type" false Draft.kind (fun d s => { d with kind := some s }) Decoder.text,
  .of "how" true Draft.seenBy (fun d l => { d with seenBy := some l }) (.array .text)]

def ofDraft? (d : Draft) : Option EdgeEntry := do
  return ⟨← d.target, ← d.kind, d.seenBy.getD []⟩

def decoder : Decoder EdgeEntry := .record fields { } ofDraft?

end EdgeEntry

structure BlockEntry where
  addr : Address
  size : UInt64
  instrSizes : List UInt64
  estimated : Bool
  functions : List Address
  foundBy : List String
  terminator : Option String
  binary : Option String
  inPlt : Option Bool
  edges : List EdgeEntry

namespace BlockEntry

structure Draft where
  addr : Option Address := none
  size : Option UInt64 := none
  instrSizes : Option (List UInt64) := none
  estimated : Option Bool := none
  functions : Option (List Address) := none
  foundBy : Option (List String) := none
  terminator : Option (Option String) := none
  binary : Option (Option String) := none
  inPlt : Option (Option Bool) := none
  edges : Option (List EdgeEntry) := none

def fields : List (Member Draft) := [
  .of "addr" false Draft.addr (fun d a => { d with addr := some a }) Decoder.address,
  .of "size" false Draft.size (fun d n => { d with size := some n }) Decoder.word,
  .of "instr_sizes" true Draft.instrSizes (fun d l => { d with instrSizes := some l })
    (.array .word),
  .of "fake_instr_sizes" true Draft.estimated (fun d b => { d with estimated := some b })
    Decoder.bool,
  .of "fn_addrs" true Draft.functions (fun d l => { d with functions := some l })
    (.array .address),
  .of "found_by" true Draft.foundBy (fun d l => { d with foundBy := some l }) (.array .text),
  .of "end_insn_indir" false Draft.terminator (fun d t => { d with terminator := some t })
    (.optional .text),
  .of "binary_basename" true Draft.binary (fun d b => { d with binary := some b })
    (.optional .text),
  .of "in_plt" false Draft.inPlt (fun d b => { d with inPlt := some b }) (.optional .bool),
  .of "out_edges" true Draft.edges (fun d l => { d with edges := some l })
    (.array EdgeEntry.decoder)]

def ofDraft? (d : Draft) : Option BlockEntry := do
  return {
    addr := ← d.addr
    size := ← d.size
    instrSizes := d.instrSizes.getD []
    estimated := d.estimated.getD false
    functions := d.functions.getD []
    foundBy := d.foundBy.getD []
    terminator := d.terminator.join
    binary := d.binary.join
    inPlt := d.inPlt.join
    edges := d.edges.getD [] }

def decoder : Decoder BlockEntry := .record fields { } ofDraft?

end BlockEntry

structure ProgramDocument where
  /-- Blocks by key; a repeated key keeps the last block. -/
  blocks : Table String BlockEntry
  /-- Names of functions by entry. -/
  functions : Table Address String

namespace ProgramDocument

structure Draft where
  blocks : Option (Table String BlockEntry) := none
  functions : Option (Table Address String) := none

def fields : List (Member Draft) := [
  .of "blocks" false Draft.blocks (fun d t => { d with blocks := some t })
    (.mapping (fun rows => some (Table.ofRows rows)) (.rows some BlockEntry.decoder)),
  .of "functions" true Draft.functions (fun d t => { d with functions := some t })
    (.mapping (fun rows => some (Table.ofRows rows))
      (.rows (fun key => (Address.read key).toOption) .text))]

def ofDraft? (d : Draft) : Option ProgramDocument := do
  return ⟨← d.blocks, d.functions.getD .empty⟩

def decoder : Decoder ProgramDocument := .record fields { } ofDraft?

end ProgramDocument

/-- A program: its graph, without the sink, and the names of its functions. -/
structure Program where
  graph : Graph
  functions : Table Address String

inductive ProgramError where
  | identifier (e : BadIdentifier)
  | addressMismatch (key : String) (addr : Address)
  | graph (e : GraphError)
  deriving DecidableEq, Repr

def ProgramError.message : ProgramError → String
  | .identifier e => "Invalid identifier: " ++ e.message
  | .addressMismatch key addr => "Block keyed " ++ key ++ " declares address " ++ addr.text
  | .graph e => "Graph error: " ++ e.message

namespace BlockEntry

def block (b : BlockEntry) : Except BadIdentifier Block := do
  let plain : Block :=
    if b.estimated then .ofSize b.size
    else { size := b.size, instrs := UInt64.ofNat b.instrSizes.length }
  let terminator ← b.terminator.mapM Transfer.read
  return { plain.withFunctions b.functions with
    foundBy := b.foundBy
    terminator := terminator
    binary := b.binary.getD ""
    inPlt := b.inPlt }

def edgeDeclarations (b : BlockEntry) : Except BadIdentifier (List Declaration) :=
  b.edges.mapM fun e => do
    return .edge b.addr e.target { kind := ← Transfer.read e.kind, seenBy := e.seenBy }

/-- The statements of a block under its key, which has to name its address. -/
def declarations (key : String) (b : BlockEntry) : Except ProgramError (List Declaration) := do
  let n ← (Node.read key).mapError .identifier
  if n ≠ .block b.addr then throw (.addressMismatch key b.addr)
  let block ← b.block.mapError .identifier
  let edges ← b.edgeDeclarations.mapError .identifier
  return .block b.addr block :: edges

end BlockEntry

namespace ProgramDocument

/-- The statements of all blocks, in the order of the keys. -/
def declarations (d : ProgramDocument) : Except ProgramError (List Declaration) := do
  let rows := (Ascending.ofList d.blocks.keys).filterMap fun key =>
    (d.blocks.find? key).map fun b => (key, b)
  let listings ← rows.mapM fun (key, b) => b.declarations key
  return listings.flatten

def program (d : ProgramDocument) : Except ProgramError Program := do
  let listing ← d.declarations
  let graph ← (Graph.build listing).mapError .graph
  return ⟨graph, d.functions⟩

end ProgramDocument

/-- Functions of a program with their names, ascending by entry. -/
def Program.functionRows (p : Program) : List (Address × String) :=
  (Ascending.ofList p.functions.keys).filterMap fun a =>
    (p.functions.find? a).map fun name => (a, name)

end CfiSlack
