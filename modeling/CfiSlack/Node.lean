import CfiSlack.Distance

/-!
# Nodes

A node of a control-flow graph is a basic block, the sink, or a hub. Hubs are no code: a policy
routes edges through them. Nodes have one order and one text form; blocks come first, by address.
-/
namespace CfiSlack

abbrev Address := UInt64

/-- What a policy hub stands for. -/
inductive HubLabel where
  /-- Every function entry at this distance from the sink. -/
  | distance (d : Distance)
  /-- Every function with this number of parameters. -/
  | argCount (n : Int64)
  /-- Every function entry. -/
  | functions
  deriving DecidableEq, Repr

inductive Node where
  | block (addr : Address)
  | sink
  /-- The hub from which control may go anywhere. -/
  | anywhere
  | hub (label : HubLabel)
  deriving DecidableEq, Repr

namespace HubLabel

/-- Argument counts lie from the negative of this up to below it. -/
def argCountLimit : Nat := 9223372036854775808

def rank : HubLabel → Nat
  | .distance d => d.rank
  | .argCount n => UInt64.size + 1 + (n.toInt + argCountLimit).toNat
  | .functions => 2 * UInt64.size + 1

theorem rank_argCount_lt (n : Int64) : (argCount n).rank < 2 * UInt64.size + 1 := by
  have hlow := n.le_toInt
  have hhigh := n.toInt_lt
  simp only [rank, UInt64.size, argCountLimit]
  omega

theorem rank_inj {a b : HubLabel} (h : a.rank = b.rank) : a = b := by
  cases a with
  | distance d =>
    have hd := d.rank_lt
    cases b with
    | distance e => exact congrArg distance (Distance.rank_inj h)
    | argCount n => simp only [rank] at h; omega
    | functions => simp only [rank, UInt64.size] at h hd; omega
  | argCount n =>
    have hn := rank_argCount_lt n
    cases b with
    | distance e =>
      have he := e.rank_lt
      simp only [rank] at h
      omega
    | argCount m =>
      have hn := n.le_toInt
      have hm := m.le_toInt
      refine congrArg argCount (Int64.toInt_inj.1 ?_)
      simp only [rank, argCountLimit] at h
      omega
    | functions => simp only [rank] at h hn; omega
  | functions =>
    cases b with
    | distance e =>
      have he := e.rank_lt
      simp only [rank, UInt64.size] at h he
      omega
    | argCount m =>
      have hm := rank_argCount_lt m
      simp only [rank] at h hm
      omega
    | functions => rfl

/-- Distances are padded to three digits and argument counts to two. -/
def chars : HubLabel → List Char
  | .distance (.finite d) => Numeral.padded 3 (Numeral.decimal d.toNat)
  | .distance .infinite => "inf".toList
  | .argCount n =>
    if n.toInt < 0 then '-' :: Numeral.decimal n.toInt.natAbs
    else Numeral.padded 2 (Numeral.decimal n.toInt.toNat)
  | .functions => "function".toList

/-- A label of at most two bytes or with a minus sign is an argument count; any other number is a
distance. -/
def ofChars? (cs : List Char) : Option HubLabel :=
  if cs = "function".toList then some .functions
  else if cs = "inf".toList then some (.distance .infinite)
  else if (cs.map Char.utf8Size).foldr (· + ·) 0 ≤ 2 ∨ cs.head? = some '-' then
    (Numeral.integer 10 argCountLimit cs).toOption.map fun n => .argCount (Int64.ofInt n)
  else (Numeral.word? 10 cs).map fun d => .distance (.finite d)

def text (label : HubLabel) : String := String.ofList label.chars

end HubLabel

namespace Node

/-- Position in the order of nodes. -/
def rank : Node → Nat
  | .block a => a.toNat
  | .sink => UInt64.size
  | .anywhere => UInt64.size + 1
  | .hub label => UInt64.size + 2 + label.rank

theorem rank_inj {a b : Node} (h : a.rank = b.rank) : a = b := by
  have below (x : Address) : x.toNat < UInt64.size := x.toNat_lt
  cases a with
  | block x =>
    have hx := below x
    cases b with
    | block y => exact congrArg block (UInt64.toNat_inj.1 h)
    | sink | anywhere | hub => simp only [rank] at h; omega
  | sink =>
    cases b with
    | block y => have hy := below y; simp only [rank] at h; omega
    | sink => rfl
    | anywhere | hub => simp only [rank] at h; omega
  | anywhere =>
    cases b with
    | block y => have hy := below y; simp only [rank] at h; omega
    | anywhere => rfl
    | sink | hub => simp only [rank] at h; omega
  | hub label =>
    cases b with
    | block y => have hy := below y; simp only [rank] at h; omega
    | hub other => exact congrArg hub (HubLabel.rank_inj (by simp only [rank] at h; omega))
    | sink | anywhere => simp only [rank] at h; omega

instance : LE Node := ⟨fun a b => a.rank ≤ b.rank⟩
instance : LT Node := ⟨fun a b => a.rank < b.rank⟩
instance : DecidableLE Node := fun a b => inferInstanceAs (Decidable (a.rank ≤ b.rank))
instance : DecidableLT Node := fun a b => inferInstanceAs (Decidable (a.rank < b.rank))

instance : Std.IsLinearOrder Node :=
  Ascending.isLinearOrder_of_rank rank (fun _ _ => Iff.rfl) fun _ _ => rank_inj

instance : Std.LawfulOrderLT Node where
  lt_iff _ _ := Nat.lt_iff_le_and_not_ge

def addr? : Node → Option Address
  | .block a => some a
  | _ => none

def isHub : Node → Bool
  | .anywhere => true
  | .hub _ => true
  | _ => false

def isSink : Node → Bool
  | .sink => true
  | _ => false

def chars : Node → List Char
  | .block a => '0' :: 'x' :: Numeral.hexadecimal a.toNat
  | .sink => "target".toList
  | .anywhere => "any".toList
  | .hub label => "virtual".toList ++ label.chars

/-- Read a node; addresses take digits in either case and an optional plus sign. -/
def ofChars? (cs : List Char) : Option Node :=
  if cs = "target".toList then some .sink
  else if cs = "any".toList then some .anywhere
  else
    match cs with
    | '0' :: 'x' :: digits => (Numeral.word? 16 digits).map .block
    | '0' :: 'X' :: digits => (Numeral.word? 16 digits).map .block
    | 'v' :: 'i' :: 'r' :: 't' :: 'u' :: 'a' :: 'l' :: label => (HubLabel.ofChars? label).map .hub
    | _ => none

def text (n : Node) : String := String.ofList n.chars

instance : ToString Node := ⟨text⟩

end Node

/-- A text that names no node, label or kind of transfer. -/
structure BadIdentifier where
  text : String
  deriving DecidableEq, Repr

def BadIdentifier.message (e : BadIdentifier) : String := "Invalid identifier '" ++ e.text ++ "'"

def Node.read (s : String) : Except BadIdentifier Node :=
  match Node.ofChars? s.toList with
  | some n => .ok n
  | none => .error ⟨s⟩

def HubLabel.read (s : String) : Except BadIdentifier HubLabel :=
  match HubLabel.ofChars? s.toList with
  | some label => .ok label
  | none => .error ⟨s⟩

/-- Text of an address, as of the block there. -/
def Address.text (a : Address) : String := (Node.block a).text

end CfiSlack
