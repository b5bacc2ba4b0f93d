/-!
# Shortest decimals

The decimal with the fewest digits among those that round to a given binary floating-point number,
and the nearest of these. All arithmetic is on natural numbers.
-/
namespace CfiSlack

/-- The number `digits * 10 ^ scale`. -/
structure Decimal where
  digits : Nat
  scale : Int
  deriving DecidableEq, Repr

/-- The number `mantissa * 2 ^ exponent`. -/
structure Binary where
  mantissa : Nat
  exponent : Int
  deriving DecidableEq, Repr

namespace Binary

def ofBits (bits : UInt64) : Binary :=
  let biased : Nat := (bits.toNat / Nat.pow 2 52) % Nat.pow 2 11
  let fraction : Nat := bits.toNat % Nat.pow 2 52
  if biased = 0 then ⟨fraction, -1074⟩ else ⟨Nat.pow 2 52 + fraction, biased - 1075⟩

/-- Scaled by `4 / 2 ^ exponent`, the numbers that round to `b` lie between these two. The gap below
a power of two is half as wide, except at the smallest exponent. -/
def bounds (b : Binary) : Nat × Nat :=
  let m := b.mantissa
  (if m = Nat.pow 2 52 ∧ b.exponent ≠ -1074 then 4 * m - 1 else 4 * m - 2, 4 * m + 2)

end Binary

/-- The value `num / den`, and the ends of the interval that rounds to it. -/
structure Rounding where
  low : Nat
  value : Nat
  high : Nat
  den : Nat
  /-- The ends belong to the interval. -/
  closed : Bool

namespace Rounding

def ofBinary (b : Binary) : Rounding :=
  let up := Nat.pow 2 (b.exponent - 2).toNat
  { low := b.bounds.1 * up
    value := 4 * b.mantissa * up
    high := b.bounds.2 * up
    den := Nat.pow 2 (2 - b.exponent).toNat
    closed := b.mantissa % 2 == 0 }

def admits (r : Rounding) (d : Decimal) : Bool :=
  let x := d.digits * Nat.pow 10 d.scale.toNat * r.den
  let down := Nat.pow 10 (-d.scale).toNat
  if r.closed then r.low * down ≤ x && x ≤ r.high * down
  else r.low * down < x && x < r.high * down

/-- The decimal exponent of the value: it lies from `10 ^ e` to below `10 ^ (e + 1)`. -/
def magnitude (r : Rounding) : Int :=
  let e : Int := (Nat.toDigits 10 r.value).length - (Nat.toDigits 10 r.den).length
  if r.den * Nat.pow 10 e.toNat ≤ r.value * Nat.pow 10 (-e).toNat then e else e - 1

/-- The best decimal on the grid of `10 ^ scale` that rounds to the value. Of the two neighbours the
nearer is taken, and of two equally near ones the even. -/
def onGrid? (r : Rounding) (scale : Int) : Option Decimal :=
  let num := r.value * Nat.pow 10 (-scale).toNat
  let unit := r.den * Nat.pow 10 scale.toNat
  let below := num / unit
  let rest := num % unit
  let near : Decimal := ⟨below, scale⟩
  let far : Decimal := ⟨below + 1, scale⟩
  let upFirst := unit < 2 * rest || (unit == 2 * rest && below % 2 == 1)
  (if upFirst then [far, near] else [near, far]).find? r.admits

end Rounding

def Decimal.maxDigits : Nat := 17

def Decimal.shortest (b : Binary) : Decimal :=
  if b.mantissa = 0 then ⟨0, 0⟩
  else
    let r := Rounding.ofBinary b
    let found := (List.range Decimal.maxDigits).findSome? fun (n : Nat) =>
      r.onGrid? (r.magnitude - n)
    found.getD ⟨0, 0⟩

end CfiSlack
