import CfiSlack.Node

/-!
# Transfers

How control leaves a block: the kind of its last instruction, and of each edge seen between blocks.
-/
namespace CfiSlack

inductive Transfer where
  | follow
  | jumpDirect
  | jumpIndirect
  | callDirect
  | callIndirect
  | rep
  | syscall
  | ret
  | misc
  | unknown
  deriving DecidableEq, Repr

namespace Transfer

def all : List Transfer :=
  [.follow, .jumpDirect, .jumpIndirect, .callDirect, .callIndirect, .rep, .syscall, .ret, .misc,
    .unknown]

def text : Transfer → String
  | .follow => "follow"
  | .jumpDirect => "jump_direct"
  | .jumpIndirect => "jump_indirect"
  | .callDirect => "call_direct"
  | .callIndirect => "call_indirect"
  | .rep => "rep"
  | .syscall => "syscall"
  | .ret => "ret"
  | .misc => "misc"
  | .unknown => "unknown"

def isIndirect : Transfer → Bool
  | .jumpIndirect => true
  | .callIndirect => true
  | _ => false

def read (s : String) : Except BadIdentifier Transfer :=
  match all.find? fun t => t.text = s with
  | some t => .ok t
  | none => .error ⟨s⟩

end Transfer

/-- An observed transfer along an edge. -/
structure Flow where
  kind : Transfer
  /-- The tools that saw it. -/
  seenBy : List String := []
  deriving DecidableEq, Repr

def Flow.observedBy (f : Flow) (tool : String) : Bool := f.seenBy.any (· == tool)

end CfiSlack
