import CfiSlack.Files.ContentHash

/-!
# Compressed frames

The part of the Zstandard format that stores bytes as they are or as runs of one byte. A file is a
row of frames. A frame is a header, blocks of which one is marked as the last, and perhaps a
checksum; skippable frames hold data that nobody reads. Blocks that are coded in other ways and
dictionaries are refused.
-/
namespace CfiSlack.Frame

inductive Fault where
  | cutOff
  /-- The bytes are no frame of this kind. -/
  | corrupt
  deriving DecidableEq, Repr

def littleEndian (bytes : List UInt8) : Nat := bytes.foldr (fun b n => b.toNat + 256 * n) 0

/-- Whether there are at least `n` bytes. -/
def reaches (bytes : List UInt8) (n : Nat) : Bool := (bytes.take n).length == n

/-! ## Headers -/

def magic : List UInt8 := [0x28, 0xb5, 0x2f, 0xfd]

/-- Whether bytes, at most four, may be the start of a frame. -/
def startsFrame (bytes : List UInt8) : Bool := bytes == magic.take bytes.length

def startsSkippable : List UInt8 → Bool
  | [] => true
  | b :: bytes => b / 16 == 5 && bytes == [0x2a, 0x4d, 0x18].take bytes.length

/-- The first byte of a frame header, which says what other fields there are. -/
structure Descriptor where
  bits : Nat

namespace Descriptor

/-- The content is one piece, and its size takes the place of a window. -/
def isSingle (d : Descriptor) : Bool := d.bits / 32 % 2 == 1

def isChecked (d : Descriptor) : Bool := d.bits / 4 % 2 == 1

def isReserved (d : Descriptor) : Bool := d.bits / 8 % 2 == 1

def windowWidth (d : Descriptor) : Nat := if d.isSingle then 0 else 1

def dictionaryWidth (d : Descriptor) : Nat :=
  match d.bits % 4 with
  | 3 => 4
  | n => n

def sizeWidth (d : Descriptor) : Nat :=
  match d.bits / 64 with
  | 0 => if d.isSingle then 1 else 0
  | 1 => 2
  | 2 => 4
  | _ => 8

def width (d : Descriptor) : Nat := d.windowWidth + d.dictionaryWidth + d.sizeWidth

end Descriptor

structure Header where
  /-- How much of the content an unpacker has to keep. -/
  window : Nat
  size : Option Nat
  isChecked : Bool

namespace Header

/-- No block of any frame is larger than this. -/
def maxBlock : Nat := 128 * 1024

def limit (h : Header) : Nat := min h.window maxBlock

/-- Whether content of `written` bytes is what the header announces. -/
def isComplete (h : Header) (written : Nat) : Bool := h.size.all (written == ·)

end Header

def maxWindowLog : Nat := 31

def windowLog (b : UInt8) : Nat := 10 + b.toNat / 8

def windowSize (b : UInt8) : Nat :=
  let base := Nat.pow 2 (windowLog b)
  base + base / 8 * (b.toNat % 8)

/-- A content size; two bytes count from 256. -/
def announcedSize (field : List UInt8) : Option Nat :=
  match field.length with
  | 0 => none
  | 2 => some (littleEndian field + 256)
  | _ => some (littleEndian field)

def Header.ofFields? (d : Descriptor) (fields : List UInt8) : Option Header :=
  let b := fields.headD 0
  let dictionary := (fields.drop d.windowWidth).take d.dictionaryWidth
  let size := announcedSize (fields.drop (d.windowWidth + d.dictionaryWidth))
  if d.isReserved || littleEndian dictionary ≠ 0 then none
  else if d.isSingle then some ⟨size.getD 0, size, d.isChecked⟩
  else if windowLog b > maxWindowLog then none
  else some ⟨windowSize b, size, d.isChecked⟩

inductive Opening where
  /-- A header of `width` bytes. -/
  | frame (header : Header) (width : Nat)
  /-- A skippable frame with `size` bytes of data behind the first eight bytes. -/
  | skippable (size : Nat)

def opening (bytes : List UInt8) : Except Fault Opening :=
  if startsFrame (bytes.take 4) then
    match bytes.drop 4 with
    | [] => .error .cutOff
    | b :: rest =>
      let d : Descriptor := ⟨b.toNat⟩
      if !reaches rest d.width then .error .cutOff
      else
        match Header.ofFields? d (rest.take d.width) with
        | none => .error .corrupt
        | some header => .ok (.frame header (5 + d.width))
  else if startsSkippable (bytes.take 4) then
    if !reaches bytes 8 then .error .cutOff
    else .ok (.skippable (littleEndian ((bytes.drop 4).take 4)))
  else .error .corrupt

/-! ## Blocks -/

inductive BlockKind where
  | stored
  | repeated
  /-- A block that is coded in a way not known here. -/
  | coded
  | reserved
  deriving DecidableEq, Repr

structure BlockHeader where
  isLast : Bool
  kind : BlockKind
  size : Nat

namespace BlockHeader

def ofBytes (a b c : UInt8) : BlockHeader :=
  let n := littleEndian [a, b, c]
  let kind := match n / 2 % 4 with
    | 0 => BlockKind.stored
    | 1 => .repeated
    | 2 => .coded
    | _ => .reserved
  ⟨n % 2 == 1, kind, n / 8⟩

/-- Bytes of the block in the file, behind its header. -/
def packedSize (b : BlockHeader) : Nat := if b.kind = .repeated then 1 else b.size

def content? (b : BlockHeader) (packed : List UInt8) : Option (List UInt8) :=
  match b.kind with
  | .stored => some packed
  | .repeated => packed.head?.map (List.replicate b.size)
  | .coded => none
  | .reserved => none

end BlockHeader

/-! ## Frames at hand -/

/-- The blocks of a frame, up to the last, and what follows them; nothing unless all are there. -/
def blocks? : List UInt8 → Option (List (BlockHeader × List UInt8) × List UInt8)
  | a :: b :: c :: rest =>
    let block := BlockHeader.ofBytes a b c
    let packed := rest.take block.packedSize
    let rest := rest.drop block.packedSize
    if block.kind = .reserved || packed.length < block.packedSize then none
    else if block.isLast then some ([(block, packed)], rest)
    else (blocks? rest).map fun (blocks, rest) => ((block, packed) :: blocks, rest)
  | _ => none
termination_by bytes => bytes.length
decreasing_by
  simp only [List.length_drop, List.length_cons]
  omega

/-- A frame of which all bytes are at hand. -/
structure Whole where
  size : Nat
  /-- The content, if it can be unpacked and is what the header and the checksum say. -/
  content : Option (List UInt8)

/-- Take a frame from the bytes behind its header, if they hold all of it. -/
def whole? (header : Header) (bytes : List UInt8) : Option Whole := do
  let (blocks, rest) ← blocks? bytes
  let size := (blocks.map fun (_, packed) => 3 + packed.length).foldr (· + ·) 0
  let contents : Option (List (List UInt8)) := blocks.mapM fun (block, packed) =>
    BlockHeader.content? block packed
  let content := (contents.map List.flatten).filter fun c => header.isComplete c.length
  if !header.isChecked then return ⟨size, content⟩
  else if !reaches rest 4 then none
  else return ⟨size + 4, content.filter fun c => rest.take 4 == ContentHash.checksum c⟩

end CfiSlack.Frame
