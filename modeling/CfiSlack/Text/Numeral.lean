/-!
# Numerals

Reading and writing of whole numbers. A numeral may carry one sign; it is read digit by digit, and
the first character that is no digit or makes the number too large decides the fault.
-/
namespace CfiSlack.Numeral

inductive Fault where
  | empty
  | invalidDigit
  | tooLarge
  deriving DecidableEq, Repr

def Fault.message : Fault → String
  | .empty => "cannot parse integer from empty string"
  | .invalidDigit => "invalid digit found in string"
  | .tooLarge => "number too large to fit in target type"

/-- Value of a digit of `base`, letters in either case. -/
def digit? (base : Nat) (c : Char) : Option Nat :=
  let value :=
    if '0' ≤ c ∧ c ≤ '9' then some (c.toNat - '0'.toNat)
    else if 'a' ≤ c ∧ c ≤ 'f' then some (c.toNat - 'a'.toNat + 10)
    else if 'A' ≤ c ∧ c ≤ 'F' then some (c.toNat - 'A'.toNat + 10)
    else none
  value.filter (· < base)

/-- Continue the number `acc` with more digits, staying below `limit`. -/
def digits (base limit : Nat) : Nat → List Char → Except Fault Nat
  | acc, [] => .ok acc
  | acc, c :: cs =>
    match digit? base c with
    | none => .error .invalidDigit
    | some d =>
      if acc * base + d < limit then digits base limit (acc * base + d) cs else .error .tooLarge

/-- A number below `limit`, with or without a plus sign. -/
def natural (base limit : Nat) : List Char → Except Fault Nat
  | [] => .error .empty
  | ['+'] => .error .invalidDigit
  | '+' :: cs => digits base limit 0 cs
  | cs => digits base limit 0 cs

/-- A number from `-limit` to `limit - 1`, with or without a sign. -/
def integer (base limit : Nat) : List Char → Except Fault Int
  | '-' :: c :: cs => (digits base (limit + 1) 0 (c :: cs)).map fun n : Nat => -(n : Int)
  | cs => (natural base limit cs).map fun n : Nat => (n : Int)

/-- Addresses, sizes and distances are 64-bit words. -/
def word (base : Nat) (cs : List Char) : Except Fault UInt64 :=
  (natural base UInt64.size cs).map UInt64.ofNat

def word? (base : Nat) (cs : List Char) : Option UInt64 := (word base cs).toOption

def padded (width : Nat) (cs : List Char) : List Char :=
  List.replicate (width - cs.length) '0' ++ cs

def decimal (n : Nat) : List Char := Nat.toDigits 10 n

def hexadecimal (n : Nat) : List Char := Nat.toDigits 16 n

end CfiSlack.Numeral
