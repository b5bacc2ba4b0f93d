import CfiSlack.Node

/-!
# Addresses in documents

Documents write addresses in hexadecimal behind `0x` or `0X`.
-/
namespace CfiSlack

/-- A text that is no address. -/
structure BadAddress where
  text : String
  /-- What is wrong with the digits; `none` if they are not marked as hexadecimal. -/
  fault : Option Numeral.Fault
  deriving DecidableEq, Repr

def BadAddress.message (e : BadAddress) : String :=
  match e.fault with
  | none => "address '" ++ e.text ++ "' lacks 0x prefix"
  | some fault => "address '" ++ e.text ++ "': " ++ fault.message

def Address.readChars (cs : List Char) : Except (Option Numeral.Fault) Address :=
  match cs with
  | '0' :: 'x' :: digits => (Numeral.word 16 digits).mapError some
  | '0' :: 'X' :: digits => (Numeral.word 16 digits).mapError some
  | _ => .error none

def Address.read (s : String) : Except BadAddress Address :=
  (Address.readChars s.toList).mapError fun fault => ⟨s, fault⟩

end CfiSlack
