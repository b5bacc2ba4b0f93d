import CfiSlack.Decimal.Shortest
import CfiSlack.Text.Numeral

/-!
# Number texts

How floating-point numbers stand in reports: the shortest digits that read back, positional and
always with a fraction for decimal exponents from -5 to 15, otherwise with an exponent whose sign is
always written.
-/
namespace CfiSlack.Decimal

/-- Significant digits without trailing zeros, and the decimal exponent of the first one. -/
def scientific (d : Decimal) : List Char × Int :=
  let written := Numeral.decimal d.digits
  let kept := (written.reverse.dropWhile (· == '0')).reverse
  (if kept.isEmpty then ['0'] else kept, d.scale + written.length - 1)

structure Layout where
  /-- Smallest and largest exponent that is written positionally. -/
  low : Int
  high : Int

def Layout.report : Layout := ⟨-5, 15⟩

def positional (digits : List Char) (e : Int) : List Char :=
  if e < 0 then '0' :: '.' :: (List.replicate (-e - 1).toNat '0' ++ digits)
  else
    let whole := digits.take (e.toNat + 1)
    let fraction := digits.drop (e.toNat + 1)
    whole ++ List.replicate (e.toNat + 1 - whole.length) '0' ++ '.' ::
      if fraction.isEmpty then ['0'] else fraction

def exponential (digits : List Char) (e : Int) : List Char :=
  let fraction := digits.drop 1
  digits.take 1 ++ (if fraction.isEmpty then [] else '.' :: fraction) ++
    'e' :: (if e < 0 then '-' else '+') :: Numeral.decimal e.natAbs

def Layout.chars (l : Layout) (d : Decimal) : List Char :=
  let (digits, e) := d.scientific
  if l.low ≤ e ∧ e ≤ l.high then positional digits e else exponential digits e

/-- Whether the sign bit is set. -/
def isNegative (x : Float) : Bool := Nat.pow 2 63 ≤ x.toBits.toNat

/-- Text of a finite number. -/
def chars? (x : Float) : Option (List Char) :=
  if x.isFinite then
    some ((if isNegative x then ['-'] else []) ++ Layout.report.chars (shortest (.ofBits x.toBits)))
  else none

/-- Text of any number; the names of the special values are words. -/
def chars (x : Float) : List Char :=
  match chars? x with
  | some cs => cs
  | none =>
    if x.isNaN then "NaN".toList
    else if isNegative x then "-Infinity".toList
    else "Infinity".toList

def text (x : Float) : String := String.ofList (chars x)

end CfiSlack.Decimal
