import CfiSlack.Files.EarlierFrame

/-!
# Unpacking

What a reader gets of a packed file. The reader has room for so many bytes at a time, and the file
comes in chunks. A frame that lies in one chunk and whose announced content has room is unpacked at
once. Others are unpacked in runs: a run goes on while what it unpacks fits into the room; it ends
with a block that does not, which is then handed over whole, or where a chunk or a frame ends. Where
the file is found corrupt, the reader gets nothing of what the same run has unpacked.
-/
namespace CfiSlack.Frame

/-- Bytes of a file that are read at once. -/
def chunk : Nat := 8192

/-- How many of `size` bytes up to a position lie in the chunk of the last of them. -/
def lastPart (position size : Nat) : Nat := min size ((position - 1) % chunk + 1)

/-- How many of `size` bytes from a position lie in chunks that they fill to the end. -/
def fullParts (position size : Nat) : Nat :=
  position + size - (position + size) % chunk - position

def restOfChunk (position : Nat) (bytes : List UInt8) : List UInt8 :=
  bytes.take (chunk - position % chunk)

/-! ## Steps -/

/-- What a reader of a file passes, piece by piece. -/
inductive Step where
  /-- Bytes that give no content, such as a header. -/
  | passed (size : Nat)
  /-- A block, or a part of it, whose bytes are stored as they are. -/
  | stored (bytes : List UInt8)
  /-- A stored block that is unpacked only when all of it is there. -/
  | gathered (bytes : List UInt8)
  | repeated (count : Nat) (b : UInt8)
  | whole (size : Nat) (content : List UInt8)
  | ended
  deriving DecidableEq, Repr

namespace Step

def content : Step → List UInt8
  | .stored bytes => bytes
  | .gathered bytes => bytes
  | .repeated count b => List.replicate count b
  | .whole _ content => content
  | .passed _ => []
  | .ended => []

def size : Step → Nat
  | .passed size => size
  | .stored bytes => bytes.length
  | .gathered bytes => bytes.length
  | .repeated _ _ => 1
  | .whole size _ => size
  | .ended => 0

end Step

/-! ## The unpacker -/

structure Buffers where
  input : Nat
  output : Nat
  /-- Frames in a row that would have done with much less. -/
  oversized : Nat
  earlier : Option Earlier.Memory

namespace Buffers

def empty : Buffers := ⟨0, 0, 0, none⟩

def oversizedFactor : Nat := 3

/-- Oversized memory is given back after so many frames. -/
def maxOversized : Nat := 128

/-- Make ready for a frame that needs this much; new memory is taken if there is too little, or for
long too much. -/
def prepare (b : Buffers) (input output : Nat) : Buffers :=
  let oversized :=
    if b.input + b.output ≥ (input + output) * oversizedFactor then b.oversized + 1 else 0
  if b.input < input || b.output < output || oversized ≥ maxOversized then
    { b with input := input, output := output, oversized := oversized }
  else { b with oversized := oversized }

def prepareFor (b : Buffers) (window limit : Nat) (size : Option Nat) : Buffers :=
  let ring := max window 1024 + 2 * limit + 64
  b.prepare (max limit 4) ((size.map (min ring)).getD ring)

end Buffers

structure Progress where
  header : Header
  buffers : Buffers
  written : Nat
  /-- The blocks so far, latest first. -/
  steps : List Step

namespace Progress

/-- Whether memory has room for content of this size. -/
def hasRoom (p : Progress) (written : Nat) : Bool :=
  -- content of an announced size that memory can hold is kept there as a whole
  p.header.size.all fun size => p.buffers.output < size || written ≤ p.buffers.output

def add (p : Progress) (step : Step) (size : Nat) : Progress :=
  { p with written := p.written + size, steps := step :: p.steps }

def content (p : Progress) : List UInt8 := p.steps.reverse.flatMap Step.content

end Progress

/-- Largest window that is accepted where a frame is not unpacked at once. -/
def maxWindow : Nat := Nat.pow 2 27 + 1

inductive Stage where
  | start
  | between (buffers : Buffers)
  | within (p : Progress)
  | withinEarlier (buffers : Buffers) (p : Earlier.Progress)

/-- One move of an unpacker that has `n` bytes before it: what it passes, and where it then
stands. -/
structure Move (n : Nat) where
  steps : List Step
  next : Except Fault (Stage × { rest : List UInt8 // rest.length < n })

def Move.fail {n : Nat} (steps : List Step) (f : Fault) : Move n := ⟨steps, .error f⟩

def afterBlock {n : Nat} (p : Progress) (isLast : Bool) (steps : List Step) (rest : List UInt8)
    (h : rest.length < n) : Move n :=
  if !isLast then ⟨steps, .ok (.within p, ⟨rest, h⟩)⟩
  else if !p.header.isChecked then ⟨steps ++ [.ended], .ok (.between p.buffers, ⟨rest, h⟩)⟩
  else if !reaches rest 4 then .fail steps .cutOff
  else if rest.take 4 ≠ ContentHash.checksum p.content then .fail (steps ++ [.passed 4]) .corrupt
  else
    ⟨steps ++ [.passed 4, .ended], .ok (.between p.buffers, ⟨rest.drop 4, by
      simp only [List.length_drop]
      omega⟩)⟩

/-- Unpack a stored block whose header ends at `position`, part by part as its chunks come. -/
def readStored {n : Nat} (p : Progress) (position : Nat) (block : BlockHeader) (rest : List UInt8)
    (h : rest.length < n) : Move n :=
  let content := rest.take block.size
  let size := content.length
  if !p.hasRoom (p.written + size) then
    let fitting := fullParts position (p.buffers.output - p.written)
    .fail [.passed 3, .stored (content.take fitting), .passed 1] .corrupt
  else if size < block.size then .fail [.passed 3, .stored content] .cutOff
  else if block.isLast && !p.header.isComplete (p.written + size) then
    let last := lastPart (position + size) size
    .fail [.passed 3, .stored (content.take (size - last)), .passed last] .corrupt
  else
    afterBlock (p.add (.stored content) size) block.isLast [.passed 3, .stored content]
      (rest.drop block.size) (by
        simp only [List.length_drop]
        omega)

def readRepeated {n : Nat} (p : Progress) (block : BlockHeader) :
    (rest : List UInt8) → rest.length < n → Move n
  | [], _ => .fail [.passed 3] .cutOff
  | v :: rest, h =>
    -- the size is checked only now that the byte is there
    let written := p.written + block.size
    if block.size > p.header.limit || !p.hasRoom written ||
        block.isLast && !p.header.isComplete written then
      .fail [.passed 4] .corrupt
    else
      afterBlock (p.add (.repeated block.size v) block.size) block.isLast
        [.passed 3, .repeated block.size v] rest (Nat.lt_of_succ_lt h)

def readBlock (p : Progress) (position : Nat) : (bytes : List UInt8) → Move bytes.length
  | a :: b :: c :: rest =>
    let block := BlockHeader.ofBytes a b c
    have h : rest.length < (a :: b :: c :: rest).length := by
      simp only [List.length_cons]
      omega
    if block.kind = .reserved || block.packedSize > p.header.limit then
      .fail [.passed 3] .corrupt
    -- an empty block may end a frame whatever its header announces
    else if block.packedSize = 0 then afterBlock p block.isLast [.passed 3] rest h
    else
      match block.kind with
      | .repeated => readRepeated p block rest h
      | .stored => readStored p (position + 3) block rest h
      | _ =>
        if !reaches rest block.size then .fail [.passed 3] .cutOff
        else .fail [.passed (3 + block.size)] .corrupt
  | _ => .fail [] .cutOff

def readEarlierBlock (buffers : Buffers) (p : Earlier.Progress) (position : Nat) :
    (bytes : List UInt8) → Move bytes.length
  | a :: b :: c :: rest =>
    have h : rest.length < (a :: b :: c :: rest).length := by
      simp only [List.length_cons]
      omega
    match Earlier.Mark.ofBytes a b c with
    | .ended closing =>
      if !p.mayEnd closing then .fail [.passed 3] .corrupt
      else ⟨[.passed 3, .ended], .ok (.between buffers, ⟨rest, h⟩)⟩
    | .block isStored size =>
      if rest.isEmpty then .fail [.passed 3] .cutOff
      else if size > p.memory.input && !reaches (restOfChunk (position + 3) rest) size then
        .fail [.passed 4] .corrupt
      else if !reaches rest size then .fail [.passed 3] .cutOff
      else if !isStored || !p.hasRoom size then .fail [.passed (3 + size)] .corrupt
      else
        let content := rest.take size
        ⟨[.passed 3, .gathered content],
          .ok (.withinEarlier buffers (p.add content), ⟨rest.drop size, by
            simp only [List.length_drop]
            omega⟩)⟩
  | _ => .fail [] .cutOff

def enterEarlier {n : Nat} (buffers : Buffers) (v : Earlier.Version) (header : Earlier.Header)
    (width : Nat) (rest : List UInt8) (h : rest.length < n) : Move n :=
  let memory := Earlier.Memory.prepare buffers.earlier v header
  let stage := Stage.withinEarlier { buffers with earlier := some memory } ⟨header, memory, 0, []⟩
  ⟨[.passed width], .ok (stage, ⟨rest, h⟩)⟩

/-- A frame at a position that is unpacked at once: all of it lies in one chunk, and there is room
for the content that it announces. -/
def atOnce? (room position : Nat) (header : Header) (width : Nat) (bytes : List UInt8) :
    Option Whole :=
  if header.size.any (· ≤ room) then
    whole? header ((restOfChunk position bytes).drop width)
  else none

def enter {n : Nat} (buffers : Buffers) (header : Header) (width : Nat) (rest : List UInt8)
    (h : rest.length < n) : Move n :=
  if header.window > maxWindow then .fail [.passed width] .corrupt
  else
    let buffers := buffers.prepareFor header.window header.limit header.size
    ⟨[.passed width], .ok (.within ⟨header, buffers, 0, []⟩, ⟨rest, h⟩)⟩

def readFrame (room : Nat) (buffers : Buffers) (position : Nat) :
    (bytes : List UInt8) → Move bytes.length
  | [] => .fail [] .cutOff
  | b :: bytes =>
    have shorter (n : Nat) : (bytes.drop n).length < (b :: bytes).length := by
      simp only [List.length_drop, List.length_cons]
      omega
    match Earlier.version? (restOfChunk position ((b :: bytes).take 5)) with
    | some v =>
      match Earlier.header v (b :: bytes) with
      | .error f => .fail [] f
      | .ok (header, width) =>
        enterEarlier buffers v header width (bytes.drop (width - 1)) (shorter _)
    | none =>
      match opening (b :: bytes) with
      | .error f => .fail [] f
      | .ok (.skippable size) =>
        if !reaches bytes (7 + size) then .fail [] .cutOff
        else
          let buffers := buffers.prepareFor 0 0 (some size)
          ⟨[.passed (8 + size), .ended],
            .ok (.between buffers, ⟨bytes.drop (7 + size), shorter _⟩)⟩
      | .ok (.frame header width) =>
        match atOnce? room position header width (b :: bytes) with
        | none => enter buffers header width (bytes.drop (width - 1)) (shorter _)
        | some ⟨_, none⟩ => .fail [] .corrupt
        | some ⟨size, some content⟩ =>
          ⟨[.whole (width + size) content, .ended],
            .ok (.between buffers, ⟨bytes.drop (width - 1 + size), shorter _⟩)⟩

structure Passage where
  steps : List Step
  fault : Option Fault

/-- Go on from a position; `passed` holds the steps before, latest first. -/
def passageFrom (room : Nat) (stage : Stage) (position : Nat) (passed : List Step)
    (bytes : List UInt8) : Passage :=
  let move : Option (Move bytes.length) := match stage with
    | .start => some (readFrame room .empty position bytes)
    | .between buffers =>
      if bytes.isEmpty then none else some (readFrame room buffers position bytes)
    | .within p => some (readBlock p position bytes)
    | .withinEarlier buffers p => some (readEarlierBlock buffers p position bytes)
  match move with
  | none => ⟨passed.reverse, none⟩
  | some ⟨steps, .error f⟩ => ⟨(steps.reverse ++ passed).reverse, some f⟩
  | some ⟨steps, .ok (stage, ⟨rest, _⟩)⟩ =>
    passageFrom room stage ((steps.map Step.size).foldl (· + ·) position)
      (steps.reverse ++ passed) rest
termination_by bytes.length

/-- The passage through a whole file, which holds at least one frame. -/
def passage (room : Nat) (bytes : List UInt8) : Passage := passageFrom room .start 0 [] bytes

/-! ## Runs -/

structure Run where
  position : Nat
  /-- Bytes of content since the run began. -/
  unpacked : Nat

namespace Run

/-- Pass bytes of the file; a new run begins if they reach into another chunk. -/
def pass (r : Run) (size : Nat) : Run :=
  { position := r.position + size
    unpacked :=
      if (r.position - 1) / chunk < (r.position + size - 1) / chunk then 0 else r.unpacked }

/-- Unpack some bytes; a new run begins if they do not fit. -/
def unpack (room : Nat) (r : Run) (size : Nat) : Run :=
  { r with unpacked := if r.unpacked + size ≤ room then r.unpacked + size else 0 }

def step (room : Nat) (r : Run) : Step → Run
  | .passed size => r.pass size
  | .stored bytes =>
    (r.pass bytes.length).unpack room (lastPart (r.position + bytes.length) bytes.length)
  | .gathered bytes => (r.pass bytes.length).unpack room bytes.length
  | .repeated count _ => (r.pass 1).unpack room count
  | .whole size _ => ⟨r.position + size, 0⟩
  | .ended => { r with unpacked := 0 }

end Run

structure Unpacked where
  bytes : List UInt8
  fault : Option Fault
  deriving DecidableEq, Repr

/-- What a reader with this room gets of a file. -/
def unpack (room : Nat) (bytes : List UInt8) : Unpacked :=
  let p := passage room bytes
  let content := p.steps.flatMap Step.content
  if p.fault = some .corrupt then
    let run := p.steps.foldl (Run.step room) ⟨0, 0⟩
    ⟨content.take (content.length - run.unpacked), p.fault⟩
  else ⟨content, p.fault⟩

end CfiSlack.Frame
