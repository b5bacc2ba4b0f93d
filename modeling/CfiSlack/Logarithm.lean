/-!
# The logarithm of one plus a number

`1 + x` is brought into the form `2 ^ k * (1 + f)` with `1 + f` between the square roots of a half and of
two, and what the sum lost by rounding is made good at the end. With `s = f / (2 + f)` the logarithm of
`1 + f` is that of `(1 + s) / (1 - s)`, a series in the odd powers of `s`.
-/
namespace CfiSlack.Logarithm

/-- The parts of `1 + x`. -/
structure Reduced where
  exponent : Float
  fraction : Float
  /-- What rounding took from the sum, relative to the sum. -/
  lost : Float

/-- The square root of two, cut off after twenty binary places. -/
def rootTwo : Float := 1 + 434334 / 1048576

def reduce (x : Float) : Reduced :=
  if rootTwo / 2 < 1 + x && 1 + x < rootTwo then ⟨0, x, 0⟩
  else
    let sum := 1 + x
    let (mantissa, e) := sum.frExp
    let lost := (if e > 1 then 1 - (sum - x) else x - (sum - 1)) / sum
    if 2 * mantissa < rootTwo then ⟨.ofInt (e - 1), 2 * mantissa - 1, lost⟩
    else ⟨.ofInt e, mantissa - 1, lost⟩

/-- What the series in `s` has beyond its first term, divided by `s`, for the square of `s`. -/
def series (z : Float) : Float :=
  let z2 := z * z
  let z4 := z2 * z2
  let z6 := z4 * z2
  z * 6.666666666666735130e-01
    + z2 * (3.999999999940941908e-01 + z * 2.857142874366239149e-01)
    + z4 * (2.222219843214978396e-01 + z * 1.818357216161805012e-01)
    + z6 * (1.531383769920937332e-01 + z * 1.479819860511658591e-01)

/-- The logarithm of two, in a part whose small multiples are exact and a rest. -/
def twoHigh : Float := 6.93147180369123816490e-01

def twoLow : Float := 1.90821492927058770002e-10

def onePlus (x : Float) : Float :=
  if x ≤ -1 || !x.isFinite then Float.log (1 + x)
  else
    let r := reduce x
    let f := r.fraction
    let half := 0.5 * f * f
    let low := r.exponent * twoLow + r.lost
    let tail :=
      -- two terms are enough next to a power of two
      if -3 / 2097152 ≤ f && f < 1 / 1048576 then half * (1 - 0.66666666666666666 * f) - low
      else
        let s := f / (2 + f)
        half - (s * (half + series (s * s)) + low)
    r.exponent * twoHigh - (tail - f)

end CfiSlack.Logarithm
