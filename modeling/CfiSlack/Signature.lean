import CfiSlack.Table
import CfiSlack.Node

/-!
# Signatures

The parameter types of a function. A call fits every function whose signature is a widening of the
call's own: each parameter stays, a pointer becomes `Pointer(void)`, or anything becomes `void`.
-/
namespace CfiSlack

inductive Signature where
  | params (types : List String)
  /-- Stand-in for a function without type information, which only fits itself. -/
  | untyped (number : Nat)
  deriving DecidableEq, Repr

namespace Signature

def voidType : String := "void"

def voidPointer : String := "Pointer(void)"

def isPointer (t : String) : Bool := "Pointer".toList.isPrefixOf t.toList

def widenings (t : String) : List String :=
  t :: ((if isPointer t && t ≠ voidPointer then [voidPointer] else []) ++
    if t ≠ voidType then [voidType] else [])

/-- Parameter lists widened in every way; the last parameter changes fastest. -/
def widenAll : List String → List (List String)
  | [] => [[]]
  | t :: ts => (widenings t).flatMap fun w => (widenAll ts).map (w :: ·)

/-- Every signature that this one widens to. -/
def supertypes : Signature → List Signature
  | .params types => (widenAll types).map .params
  | .untyped n => [.untyped n]

def arity? : Signature → Option Nat
  | .params types => some types.length
  | .untyped _ => none

/-- Parameter lists by their types, then stand-ins by number. -/
def le : Signature → Signature → Bool
  | .params a, .params b => !decide (b < a)
  | .params _, .untyped _ => true
  | .untyped _, .params _ => false
  | .untyped m, .untyped n => m ≤ n

end Signature

abbrev SignatureTable := Table Address (List String)

namespace SignatureTable

/-- Enter a list that starts with the return type, which is dropped. -/
def insertReturning (t : SignatureTable) (function : Address) (types : List String) :
    SignatureTable := t.insert function types.tail

end SignatureTable

structure SiteKey where
  binary : String
  site : Address
  deriving DecidableEq, Repr

abbrev SiteSignatures := Table SiteKey (List String)

end CfiSlack
