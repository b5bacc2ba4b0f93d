import CfiSlack.Text.Utf8

/-!
# JSON tokens

The bytes of a document as a list of tokens, up to the first place where no token can be read. A
string or a number carries what it is worth: a reader that needs the value meets its faults, one
that skips it does not.
-/
namespace CfiSlack.Json

inductive Fault where
  | ended
  | malformed
  /-- A value has another shape than the one asked for. -/
  | mismatch
  | unreadable
  deriving DecidableEq, Repr

/-- A number, as far as documents use them. -/
inductive Number where
  | word (n : UInt64)
  /-- A number that is negative, too large for a word, or has a fraction or an exponent. -/
  | other
  deriving DecidableEq, Repr

/-- The kind of token in which a text breaks off. -/
inductive Lexeme where
  | string
  | other
  deriving DecidableEq, Repr

inductive Token where
  | openObject
  | closeObject
  | openArray
  | closeArray
  | colon
  | comma
  | null
  | bool (b : Bool)
  | number (value : Except Fault Number)
  | string (value : Except Fault String)
  /-- No token: the fault for a reader that needs it, and for one that skips it. -/
  | broken (lexeme : Lexeme) (used skipped : Fault)
  | finish (fault : Fault)

/-- The bytes of a document, and whether they can be read to their end. -/
structure Source where
  bytes : List UInt8
  readable : Bool

namespace Source

def atEnd (s : Source) : Fault := if s.readable then .ended else .unreadable

def ofString (s : String) : Source := ⟨Text.toBytes s, true⟩

end Source

def byte (c : Char) : UInt8 := c.toUInt8

def isSpace (b : UInt8) : Bool := b == 0x20 || b == 0x0a || b == 0x09 || b == 0x0d

def isDigit (b : UInt8) : Bool := byte '0' ≤ b && b ≤ byte '9'

def hexDigit? (b : UInt8) : Option Nat :=
  if isDigit b then some (b - byte '0').toNat
  else if byte 'a' ≤ b && b ≤ byte 'f' then some (b - byte 'a' + 10).toNat
  else if byte 'A' ≤ b && b ≤ byte 'F' then some (b - byte 'A' + 10).toNat
  else none

def codeUnit (atEnd : Fault) : List UInt8 → Except Fault (Nat × List UInt8)
  | a :: b :: c :: d :: rest =>
    match hexDigit? a, hexDigit? b, hexDigit? c, hexDigit? d with
    | some a, some b, some c, some d => .ok (((a * 16 + b) * 16 + c) * 16 + d, rest)
    | _, _, _, _ => .error .malformed
  | _ => .error atEnd

theorem codeUnit_lt {atEnd : Fault} {bytes rest : List UInt8} {n : Nat}
    (h : codeUnit atEnd bytes = .ok (n, rest)) : rest.length < bytes.length := by
  unfold codeUnit at h
  split at h
  · split at h
    · simp only [Except.ok.injEq, Prod.mk.injEq] at h
      simp only [← h.2, List.length_cons]
      omega
    · simp at h
  · simp at h

def escaped? (b : UInt8) : Option UInt8 :=
  if b == byte '"' || b == byte '\\' || b == byte '/' then some b
  else if b == byte 'b' then some 0x08
  else if b == byte 'f' then some 0x0c
  else if b == byte 'n' then some 0x0a
  else if b == byte 'r' then some 0x0d
  else if b == byte 't' then some 0x09
  else none

/-- Find the end of a string, checking its form only. -/
def skipString (atEnd : Fault) : List UInt8 → Except Fault (List UInt8)
  | [] => .error atEnd
  | b :: rest =>
    if b == byte '"' then .ok rest
    else if b < 0x20 then .error .malformed
    else if b == byte '\\' then
      match rest with
      | [] => .error atEnd
      | e :: rest =>
        if e == byte 'u' then
          match h : codeUnit atEnd rest with
          | .error f => .error f
          | .ok (_, after) =>
            have := codeUnit_lt h
            skipString atEnd after
        else if (escaped? e).isSome then skipString atEnd rest
        else .error .malformed
    else skipString atEnd rest
termination_by bytes => bytes.length

theorem skipString_lt {atEnd : Fault} {bytes after : List UInt8}
    (h : skipString atEnd bytes = .ok after) : after.length < bytes.length := by
  fun_induction skipString atEnd bytes <;> grind

def isLowSurrogate (n : Nat) : Bool := 0xdc00 ≤ n && n ≤ 0xdfff

def isHighSurrogate (n : Nat) : Bool := 0xd800 ≤ n && n ≤ 0xdbff

def utf8Bytes (n : Nat) : List UInt8 := Text.toBytes (String.singleton (Char.ofNat n))

def lowSurrogate (atEnd : Fault) : List UInt8 → Except Fault (Nat × List UInt8)
  | [] => .error atEnd
  | [b] => if b == byte '\\' then .error atEnd else .error .malformed
  | b :: u :: rest =>
    if b == byte '\\' && u == byte 'u' then do
      let (n, after) ← codeUnit atEnd rest
      if isLowSurrogate n then return (n, after) else throw .malformed
    else .error .malformed

/-- The bytes of a character written by code units, and what follows it. -/
def codePoint (atEnd : Fault) (bytes : List UInt8) : Except Fault (List UInt8 × List UInt8) := do
  let (n, rest) ← codeUnit atEnd bytes
  if isLowSurrogate n then throw .malformed
  else if isHighSurrogate n then
    let (low, rest) ← lowSurrogate atEnd rest
    return (utf8Bytes (0x10000 + (n - 0xd800) * 0x400 + (low - 0xdc00)), rest)
  else return (utf8Bytes n, rest)

theorem lowSurrogate_lt {atEnd : Fault} {bytes rest : List UInt8} {n : Nat}
    (h : lowSurrogate atEnd bytes = .ok (n, rest)) : rest.length < bytes.length := by
  unfold lowSurrogate at h
  split at h
  · simp at h
  · split at h <;> simp at h
  · split at h
    · cases hc : codeUnit atEnd ‹List UInt8› with
      | error f => simp [hc, bind, Except.bind] at h
      | ok r =>
        have := codeUnit_lt hc
        simp only [hc, bind, Except.bind] at h
        split at h
        · simp only [pure, Except.pure, Except.ok.injEq, Prod.mk.injEq] at h
          simp only [← h.2, List.length_cons]
          omega
        · simp [throw, throwThe, MonadExceptOf.throw] at h
    · simp at h

theorem codePoint_lt {atEnd : Fault} {bytes char rest : List UInt8}
    (h : codePoint atEnd bytes = .ok (char, rest)) : rest.length < bytes.length := by
  unfold codePoint at h
  cases hc : codeUnit atEnd bytes with
  | error f => simp [hc, bind, Except.bind] at h
  | ok r =>
    have := codeUnit_lt hc
    simp only [hc, bind, Except.bind] at h
    split at h
    · simp [throw, throwThe, MonadExceptOf.throw] at h
    · split at h
      · cases hl : lowSurrogate atEnd r.2 with
        | error f => simp [hl] at h
        | ok l =>
          have := lowSurrogate_lt hl
          simp only [hl, pure, Except.pure, Except.ok.injEq, Prod.mk.injEq] at h
          rw [← h.2]
          omega
      · simp only [pure, Except.pure, Except.ok.injEq, Prod.mk.injEq] at h
        rw [← h.2]
        exact this

/-- The bytes that a string stands for, up to its closing quote; `read` holds those before, latest
first. -/
def stringBytes (atEnd : Fault) (read : List UInt8) : List UInt8 → Except Fault (List UInt8)
  | [] => .error atEnd
  | b :: rest =>
    if b == byte '"' then .ok read.reverse
    else if b < 0x20 then .error .malformed
    else if b == byte '\\' then
      match rest with
      | [] => .error atEnd
      | e :: rest =>
        if e == byte 'u' then
          match h : codePoint atEnd rest with
          | .error f => .error f
          | .ok (char, after) =>
            have := codePoint_lt h
            stringBytes atEnd (char.reverse ++ read) after
        else
          match escaped? e with
          | some e => stringBytes atEnd (e :: read) rest
          | none => .error .malformed
    else stringBytes atEnd (b :: read) rest
termination_by bytes => bytes.length

/-- The text of a string; its bytes are looked at as a whole when the closing quote is met. -/
def stringValue (atEnd : Fault) (bytes : List UInt8) : Except Fault String := do
  let content ← stringBytes atEnd [] bytes
  match Text.ofBytes? content with
  | some s => return s
  | none => throw .malformed

/-- Digits as a number of at most 64 bits, and how many digits did not fit. -/
def significand : UInt64 → List UInt8 → UInt64 × Nat
  | acc, [] => (acc, 0)
  | acc, d :: ds =>
    let next := acc.toNat * 10 + (d - byte '0').toNat
    if next < UInt64.size then significand (UInt64.ofNat next) ds else (acc, (d :: ds).length)

def maxExponent : Nat := 2147483647

/-- The value of the digits of an exponent; all beyond the largest are taken for the next one. -/
def exponentValue (ds : List UInt8) : Nat :=
  ds.foldl (fun n d => min (n * 10 + (d - byte '0').toNat) (maxExponent + 1)) 0

def maxPower : Nat := 308

/-- Whether a number with a fraction or an exponent is beyond all floating-point numbers. -/
def overflows (n : UInt64) (e : Int) : Bool :=
  if e < 0 || n == 0 then false
  else if e > maxPower then true
  else (n.toFloat * Float.ofScientific 1 false e.toNat).isInf

structure Numeral where
  whole : List UInt8
  fraction : Option (List UInt8)
  exponent : Option (Bool × List UInt8)

namespace Numeral

/-- The exponent is so large that the rest of its digits does not matter. -/
def isHuge (m : Numeral) : Bool :=
  m.exponent.any fun (_, ds) => exponentValue ds > maxExponent

/-- The significant digits as a word, and the power of ten that goes with them. -/
def scaled (m : Numeral) : UInt64 × Int :=
  let (n, dropped) := significand 0 m.whole
  let fraction := m.fraction.getD []
  let (n, lost) := significand n fraction
  let e : Int := match m.exponent with
    | some (negative, ds) => if negative then -(exponentValue ds : Int) else exponentValue ds
    | none => 0
  (n, (dropped : Int) - (fraction.length - lost : Nat) + e)

/-- A nonzero number with an exponent beyond counting is refused where the digits pass the limit. -/
def refused (m : Numeral) : Bool :=
  m.isHuge && m.scaled.1 != 0 && m.exponent.any fun (negative, _) => !negative

def value (m : Numeral) (negative : Bool) : Except Fault Number :=
  if m.refused then .error .malformed
  else if m.isHuge then .ok .other
  else
    let (n, e) := m.scaled
    if overflows n e then .error .malformed
    else if m.fraction.isNone && m.exponent.isNone && e == 0 && !negative then .ok (.word n)
    else .ok .other

end Numeral

/-- A place within a number: what a reader meets if a digit is missing here. -/
def digitFault (src : Source) : List UInt8 → Token
  | [] => .broken .other src.atEnd (if src.readable then .malformed else .unreadable)
  | _ => .broken .other .malformed .malformed

/-- The token of a finished number. At an unreadable end it is not known to be finished. -/
def numberToken (src : Source) (m : Numeral) (negative : Bool) (rest : List UInt8) :
    Token × List UInt8 :=
  if rest.isEmpty && !src.readable then
    (.broken .other (if m.refused then .malformed else .unreadable) .unreadable, rest)
  else (.number (m.value negative), rest)

def exponentDigits (src : Source) (whole : List UInt8) (fraction : Option (List UInt8))
    (negative minus : Bool) (bytes : List UInt8) : Token × List UInt8 :=
  match bytes.takeWhile isDigit with
  | [] => (digitFault src bytes, bytes)
  | ds => numberToken src ⟨whole, fraction, some (minus, ds)⟩ negative (bytes.dropWhile isDigit)

def exponentToken (src : Source) (whole : List UInt8) (fraction : Option (List UInt8))
    (negative : Bool) : List UInt8 → Token × List UInt8
  | [] => numberToken src ⟨whole, fraction, none⟩ negative []
  | b :: rest =>
    if b == byte 'e' || b == byte 'E' then
      match rest with
      | [] => exponentDigits src whole fraction negative false []
      | sign :: digits =>
        if sign == byte '-' then exponentDigits src whole fraction negative true digits
        else if sign == byte '+' then exponentDigits src whole fraction negative false digits
        else exponentDigits src whole fraction negative false (sign :: digits)
    else numberToken src ⟨whole, fraction, none⟩ negative (b :: rest)

def fractionToken (src : Source) (whole : List UInt8) (negative : Bool) :
    List UInt8 → Token × List UInt8
  | [] => exponentToken src whole none negative []
  | b :: rest =>
    if b == byte '.' then
      match rest.takeWhile isDigit with
      | [] => (digitFault src rest, rest)
      | fraction => exponentToken src whole (some fraction) negative (rest.dropWhile isDigit)
    else exponentToken src whole none negative (b :: rest)

def scanNumber (src : Source) (negative : Bool) (bytes : List UInt8) : Token × List UInt8 :=
  match bytes.takeWhile isDigit with
  | [] => (digitFault src bytes, bytes)
  | d :: ds =>
    if d == byte '0' && !ds.isEmpty then
      (.broken .other .malformed .malformed, bytes.dropWhile isDigit)
    else fractionToken src (d :: ds) negative (bytes.dropWhile isDigit)

def scanWord (src : Source) (token : Token) : List UInt8 → List UInt8 → Token × List UInt8
  | [], bytes => (token, bytes)
  | _ :: _, [] => (.broken .other src.atEnd src.atEnd, [])
  | w :: ws, b :: bytes =>
    if w == b then scanWord src token ws bytes else (.broken .other .malformed .malformed, bytes)

def scanString (src : Source) (bytes : List UInt8) : Token × List UInt8 :=
  let value := stringValue src.atEnd bytes
  match skipString src.atEnd bytes, value with
  | .ok rest, value => (.string value, rest)
  | .error skipped, .error used => (.broken .string used skipped, [])
  | .error skipped, .ok _ => (.broken .string skipped skipped, [])

def scanToken (src : Source) (b : UInt8) (rest : List UInt8) : Token × List UInt8 :=
  if b == byte '\x7b' then (.openObject, rest)
  else if b == byte '\x7d' then (.closeObject, rest)
  else if b == byte '[' then (.openArray, rest)
  else if b == byte ']' then (.closeArray, rest)
  else if b == byte ':' then (.colon, rest)
  else if b == byte ',' then (.comma, rest)
  else if b == byte '"' then scanString src rest
  else if b == byte 'n' then scanWord src .null (Text.toBytes "ull") rest
  else if b == byte 't' then scanWord src (.bool true) (Text.toBytes "rue") rest
  else if b == byte 'f' then scanWord src (.bool false) (Text.toBytes "alse") rest
  else if b == byte '-' then scanNumber src true rest
  else if isDigit b then scanNumber src false (b :: rest)
  else (.broken .other .malformed .malformed, rest)

/-! ## What a token leaves -/

theorem scanWord_le (src : Source) (token : Token) (word bytes : List UInt8) :
    (scanWord src token word bytes).2.length ≤ bytes.length := by
  fun_induction scanWord src token word bytes <;> simp_all only [List.length_cons] <;> grind

theorem scanString_le (src : Source) (bytes : List UInt8) :
    (scanString src bytes).2.length ≤ bytes.length := by
  simp only [scanString]
  split
  · exact Nat.le_of_lt (skipString_lt (by assumption))
  · simp
  · simp

theorem numberToken_rest (src : Source) (m : Numeral) (negative : Bool) (rest : List UInt8) :
    (numberToken src m negative rest).2 = rest := by
  unfold numberToken
  split <;> rfl

theorem length_dropWhile_le (p : UInt8 → Bool) (bytes : List UInt8) :
    (bytes.dropWhile p).length ≤ bytes.length := (List.dropWhile_suffix p).length_le

theorem exponentDigits_le (src : Source) (whole : List UInt8) (fraction : Option (List UInt8))
    (negative minus : Bool) (bytes : List UInt8) :
    (exponentDigits src whole fraction negative minus bytes).2.length ≤ bytes.length := by
  unfold exponentDigits
  split
  · exact Nat.le_refl _
  · rw [numberToken_rest]
    exact length_dropWhile_le _ _

theorem exponentToken_le (src : Source) (whole : List UInt8) (fraction : Option (List UInt8))
    (negative : Bool) (bytes : List UInt8) :
    (exponentToken src whole fraction negative bytes).2.length ≤ bytes.length := by
  have digits (minus : Bool) (bytes : List UInt8) :=
    exponentDigits_le src whole fraction negative minus bytes
  fun_cases exponentToken src whole fraction negative bytes <;> grind [numberToken_rest]

theorem fractionToken_le (src : Source) (whole : List UInt8) (negative : Bool)
    (bytes : List UInt8) : (fractionToken src whole negative bytes).2.length ≤ bytes.length := by
  have digits (fraction : Option (List UInt8)) (bytes : List UInt8) :=
    exponentToken_le src whole fraction negative bytes
  fun_cases fractionToken src whole negative bytes <;> grind [length_dropWhile_le]

theorem scanNumber_le (src : Source) (negative : Bool) (bytes : List UInt8) :
    (scanNumber src negative bytes).2.length ≤ bytes.length := by
  fun_cases scanNumber src negative bytes <;> grind [length_dropWhile_le, fractionToken_le]

theorem scanNumber_cons_le (src : Source) (negative : Bool) {b : UInt8} (rest : List UInt8)
    (h : isDigit b = true) : (scanNumber src negative (b :: rest)).2.length ≤ rest.length := by
  have shorter := length_dropWhile_le isDigit rest
  have fraction := fractionToken_le src (b :: rest.takeWhile isDigit) negative
    (rest.dropWhile isDigit)
  simp only [scanNumber, List.takeWhile_cons_of_pos h, List.dropWhile_cons_of_pos h]
  split
  · exact shorter
  · exact Nat.le_trans fraction shorter

theorem scanToken_le (src : Source) (b : UInt8) (rest : List UInt8) :
    (scanToken src b rest).2.length ≤ rest.length := by
  fun_cases scanToken src b rest <;>
    grind [scanString_le, scanWord_le, scanNumber_le, scanNumber_cons_le]

/-! ## All tokens -/

/-- The tokens of some bytes of a source, behind those read before, latest first. The last token
says why there are no more. -/
def scanFrom (src : Source) (read : List Token) : List UInt8 → List Token
  | [] => (.finish src.atEnd :: read).reverse
  | b :: rest =>
    if isSpace b then scanFrom src read rest
    else
      match h : scanToken src b rest with
      | (.broken lexeme used skipped, _) => (.broken lexeme used skipped :: read).reverse
      | (token, after) =>
        have : after.length ≤ rest.length := by simpa [h] using scanToken_le src b rest
        scanFrom src (token :: read) after
termination_by bytes => bytes.length

def scan (src : Source) : List Token := scanFrom src [] src.bytes

end CfiSlack.Json
