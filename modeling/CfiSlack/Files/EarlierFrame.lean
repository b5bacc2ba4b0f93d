import CfiSlack.Files.Frame

/-!
# Frames of earlier versions

Four earlier versions of the format are told apart by the first byte of a frame. Three bytes come
before every block, and a frame ends with an empty block or a mark of its own. Of the blocks, those
are read whose bytes are stored as they are.
-/
namespace CfiSlack.Frame.Earlier

inductive Version where
  | four
  | five
  | six
  | seven
  deriving DecidableEq, Repr

def Version.ofByte? (b : UInt8) : Option Version :=
  match b.toNat with
  | 0x24 => some .four
  | 0x25 => some .five
  | 0x26 => some .six
  | 0x27 => some .seven
  | _ => none

/-- The version of a frame that starts with these bytes. The descriptor has to be among them. -/
def version? (bytes : List UInt8) : Option Version :=
  match bytes with
  | b :: rest => if rest.take 3 = magic.drop 1 && reaches rest 4 then Version.ofByte? b else none
  | [] => none

/-! ## Headers -/

structure Header where
  /-- Largest block that may come in several chunks. -/
  limit : Nat
  memory : Nat
  isChecked : Bool

namespace Header

def ofWindow (window : Nat) (isChecked : Bool) : Header :=
  let limit := min window Frame.Header.maxBlock
  ⟨limit, window + limit + 16, isChecked⟩

def width (v : Version) (d : Descriptor) : Nat :=
  match v with
  | .four => 0
  | .five => 0
  | .six => if d.bits / 64 = 3 then 8 else d.bits / 64
  | .seven => d.width

def maxWindow : Nat := Nat.pow 2 27

def ofFields? (v : Version) (d : Descriptor) (fields : List UInt8) : Option Header :=
  match v with
  | .six =>
    if d.isSingle then none else some (ofWindow (Nat.pow 2 (12 + d.bits % 16)) false)
  | .seven =>
    (Frame.Header.ofFields? d fields).bind fun h =>
      let window := h.window % UInt32.size
      if window > maxWindow then none else some (ofWindow (max window 1024) h.isChecked)
  | _ =>
    if d.bits / 16 ≠ 0 then none
    else some ⟨Frame.Header.maxBlock, Nat.pow 2 (11 + d.bits % 16), false⟩

end Header

def header (v : Version) (bytes : List UInt8) : Except Fault (Header × Nat) :=
  match bytes.drop 4 with
  | [] => .error .cutOff
  | b :: rest =>
    let d : Descriptor := ⟨b.toNat⟩
    let width := Header.width v d
    if !reaches rest width then .error .cutOff
    else
      match Header.ofFields? v d (rest.take width) with
      | none => .error .corrupt
      | some h => .ok (h, 5 + width)

/-! ## Blocks -/

/-- What the three bytes before a block say. -/
inductive Mark where
  /-- The frame ends; a checked frame is closed by a part of the hash of its content. -/
  | ended (check : Option Nat)
  /-- So many bytes follow; they are content if they are stored as they are. -/
  | block (isStored : Bool) (size : Nat)

def Mark.ofBytes (a b c : UInt8) : Mark :=
  let n := littleEndian [c, b, a]
  let size := n % Nat.pow 2 19
  match a.toNat / 64 with
  | 3 => .ended (some (n % Nat.pow 2 22))
  | 2 => .block false 1
  | kind => if size = 0 then .ended none else .block (kind == 1) size

def check (content : List UInt8) : Nat :=
  (ContentHash.hash content).toNat / Nat.pow 2 11 % Nat.pow 2 22

/-! ## Unpacking -/

/-- Memory for frames of one version. It grows as they need it. -/
structure Memory where
  version : Version
  input : Nat
  output : Nat

/-- Make ready for a frame; memory for another version is of no use. -/
def Memory.prepare (kept : Option Memory) (v : Version) (h : Header) : Memory :=
  match kept.filter fun m => m.version = v with
  | none => ⟨v, h.limit, h.memory⟩
  | some m => ⟨v, max m.input h.limit, max m.output h.memory⟩

structure Progress where
  header : Header
  memory : Memory
  /-- Where in memory the next block is unpacked. -/
  start : Nat
  blocks : List (List UInt8)

namespace Progress

def hasRoom (p : Progress) (size : Nat) : Bool := p.start + size ≤ p.memory.output

def add (p : Progress) (block : List UInt8) : Progress :=
  let start := p.start + block.length
  { p with
    -- memory is filled from the start again once a largest block has no room
    start := if start + p.header.limit > p.memory.output then 0 else start
    blocks := block :: p.blocks }

def mayEnd (p : Progress) (closing : Option Nat) : Bool :=
  !p.header.isChecked || closing.all (· == check p.blocks.reverse.flatten)

end Progress
end CfiSlack.Frame.Earlier
