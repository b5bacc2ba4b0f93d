/-!
# Content hash

The 64-bit hash by which a frame checks its content. The content is taken in stripes of four words,
each of which feeds a lane of its own; what is left over is taken by words, half words and bytes.
-/
namespace CfiSlack.ContentHash

def prime1 : UInt64 := 0x9e3779b185ebca87

def prime2 : UInt64 := 0xc2b2ae3d27d4eb4f

def prime3 : UInt64 := 0x165667b19e3779f9

def prime4 : UInt64 := 0x85ebca77c2b2ae63

def prime5 : UInt64 := 0x27d4eb2f165667c5

def rotate (x : UInt64) (n : UInt64) : UInt64 := (x <<< n) ||| (x >>> (64 - n))

/-- A word whose lowest byte comes first. -/
def word (bytes : List UInt8) : UInt64 := bytes.foldr (fun b n => b.toUInt64 + 256 * n) 0

/-- Take one word into a lane. -/
def round (lane input : UInt64) : UInt64 := rotate (lane + input * prime2) 31 * prime1

/-- The four lanes of a stripe. -/
structure Lanes where
  a : UInt64
  b : UInt64
  c : UInt64
  d : UInt64

namespace Lanes

def start : Lanes := ⟨prime1 + prime2, prime2, 0, 0 - prime1⟩

/-- Take a stripe of 32 bytes. -/
def take (l : Lanes) (stripe : List UInt8) : Lanes where
  a := round l.a (word (stripe.take 8))
  b := round l.b (word ((stripe.drop 8).take 8))
  c := round l.c (word ((stripe.drop 16).take 8))
  d := round l.d (word ((stripe.drop 24).take 8))

def merge (h lane : UInt64) : UInt64 := (h ^^^ round 0 lane) * prime1 + prime4

/-- The lanes as one word. -/
def join (l : Lanes) : UInt64 :=
  let h := rotate l.a 1 + rotate l.b 7 + rotate l.c 12 + rotate l.d 18
  merge (merge (merge (merge h l.a) l.b) l.c) l.d

end Lanes

/-- Take all whole stripes; gives the lanes and what is left over. -/
def stripes (l : Lanes) (bytes : List UInt8) : Lanes × List UInt8 :=
  if (bytes.take 32).length = 32 then stripes (l.take (bytes.take 32)) (bytes.drop 32)
  else (l, bytes)
termination_by bytes.length
decreasing_by
  rename_i h
  simp only [List.length_take] at h
  simp only [List.length_drop]
  omega

def takeByte (h : UInt64) (b : UInt8) : UInt64 :=
  rotate (h ^^^ (b.toUInt64 * prime5)) 11 * prime1

def takeHalf (h : UInt64) (bytes : List UInt8) : UInt64 :=
  rotate (h ^^^ (word bytes * prime1)) 23 * prime2 + prime3

def takeWord (h : UInt64) (bytes : List UInt8) : UInt64 :=
  rotate (h ^^^ round 0 (word bytes)) 27 * prime1 + prime4

/-- Take what is left over, fewer than 32 bytes. -/
def takeRest (h : UInt64) : List UInt8 → UInt64
  | a :: b :: c :: d :: e :: f :: g :: i :: rest =>
    takeRest (takeWord h [a, b, c, d, e, f, g, i]) rest
  | a :: b :: c :: d :: rest => rest.foldl takeByte (takeHalf h [a, b, c, d])
  | rest => rest.foldl takeByte h

/-- Spread every bit over the whole word. -/
def scatter (h : UInt64) : UInt64 :=
  let h := (h ^^^ (h >>> 33)) * prime2
  let h := (h ^^^ (h >>> 29)) * prime3
  h ^^^ (h >>> 32)

def hash (bytes : List UInt8) : UInt64 :=
  let (lanes, rest) := stripes .start bytes
  let h := if bytes.length < 32 then prime5 else lanes.join
  scatter (takeRest (h + UInt64.ofNat bytes.length) rest)

/-- The lower half of the hash, lowest byte first. -/
def checksum (bytes : List UInt8) : List UInt8 :=
  let h := hash bytes
  [h.toUInt8, (h >>> 8).toUInt8, (h >>> 16).toUInt8, (h >>> 24).toUInt8]

end CfiSlack.ContentHash
