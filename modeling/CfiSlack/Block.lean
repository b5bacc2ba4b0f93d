import CfiSlack.Transfer

/-!
# Basic blocks
-/
namespace CfiSlack

structure Block where
  /-- Size in bytes. -/
  size : UInt64
  /-- Number of instructions. -/
  instrs : UInt64
  /-- The number of instructions was guessed from the size. -/
  estimated : Bool := false
  /-- Entries of the functions that hold the block, ascending. -/
  functions : List Address := []
  /-- Program or library that the block belongs to. -/
  binary : String := ""
  /-- Whether the block lies in a linkage stub, if known. -/
  inPlt : Option Bool := none
  /-- Kind of the last instruction, if it was decoded. -/
  terminator : Option Transfer := none
  /-- The tools that found the block. -/
  foundBy : List String := []
  deriving DecidableEq, Repr

namespace Block

/-- Bytes taken for an instruction where none could be decoded. -/
def bytesPerInstr : UInt64 := 5

/-- A block whose instructions could not be decoded. -/
def ofSize (size : UInt64) : Block :=
  { size := size, instrs := size / bytesPerInstr, estimated := true }

def withFunctions (b : Block) (functions : List Address) : Block :=
  { b with functions := Ascending.ofList functions }

def isPlt (b : Block) : Bool := b.inPlt.getD false

def endsWith (b : Block) (t : Transfer) : Bool := b.terminator == some t

end Block
end CfiSlack
