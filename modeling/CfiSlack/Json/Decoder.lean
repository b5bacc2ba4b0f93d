import CfiSlack.Json.Token

/-!
# Reading JSON documents

A decoder reads one value of a known shape off the tokens of a document. The first fault in the
order of the text decides. Values that nobody asks for are skipped at any depth. Every value takes
at least one token, so that reading a list of values comes to an end.
-/
namespace CfiSlack.Json

/-- A value read from the front of `n` tokens, and the tokens behind it. -/
structure Read (α : Type) (n : Nat) where
  value : α
  rest : List Token
  shorter : rest.length < n

namespace Read

variable {α β : Type} {n : Nat}

def single (a : α) (ts : List Token) : Read α (ts.length + 1) := ⟨a, ts, Nat.lt_succ_self _⟩

def map (f : α → β) (r : Read α n) : Read β n := ⟨f r.value, r.rest, r.shorter⟩

def widen {m : Nat} (r : Read α m) (h : m ≤ n) : Read α n :=
  ⟨r.value, r.rest, Nat.lt_of_lt_of_le r.shorter h⟩

end Read

abbrev Decoder (α : Type) := (ts : List Token) → Except Fault (Read α ts.length)

namespace Decoder

variable {α β : Type}

/-- The fault of a reader that finds `token` where a value of another shape should stand. A value
is read to its end before its shape is found wrong. -/
def unexpected : Token → Fault
  | .null => .mismatch
  | .bool _ => .mismatch
  | .number (.ok _) => .mismatch
  | .number (.error f) => f
  | .string (.ok _) => .mismatch
  | .string (.error f) => f
  | .openArray => .mismatch
  | .openObject => .mismatch
  | .closeArray => .malformed
  | .closeObject => .malformed
  | .colon => .malformed
  | .comma => .malformed
  | .broken _ used _ => used
  | .finish f => f

/-- The fault of a reader that looks for a mark and finds `token`. -/
def misplaced : Token → Fault
  | .finish f => f
  | _ => .malformed

/-- The fault where the tokens are used up, which the last token prevents. -/
def exhausted : Fault := .ended

def text : Decoder String
  | .string (.ok s) :: ts => .ok (.single s ts)
  | t :: _ => .error (unexpected t)
  | [] => .error exhausted

def word : Decoder UInt64
  | .number (.ok (.word n)) :: ts => .ok (.single n ts)
  | t :: _ => .error (unexpected t)
  | [] => .error exhausted

def bool : Decoder Bool
  | .bool b :: ts => .ok (.single b ts)
  | t :: _ => .error (unexpected t)
  | [] => .error exhausted

/-- `null` stands for nothing. -/
def optional (d : Decoder α) : Decoder (Option α)
  | .null :: ts => .ok (.single none ts)
  | ts => (d ts).map (.map some)

/-- Take a value on if `f` accepts it; otherwise its shape is wrong. -/
def mapping (f : α → Option β) (d : Decoder α) : Decoder β := fun ts => do
  let r ← d ts
  match f r.value with
  | some b => return r.map fun _ => b
  | none => throw .mismatch

/-! ## Skipped values -/

inductive Expected where
  | value
  /-- The first item of a container, or its end. -/
  | first
  /-- A comma, or the end of a container. -/
  | next
  | key
  | colon

/-- A skipped value is within these containers; `true` stands for an object. -/
abbrev Nesting := List Bool

def closed : Nesting → Option (Expected × Nesting)
  | [] => none
  | outer => some (.next, outer)

def skipValue (outer : Nesting) : Token → Except Fault (Option (Expected × Nesting))
  | .null => .ok (closed outer)
  | .bool _ => .ok (closed outer)
  | .number _ => .ok (closed outer)
  | .string _ => .ok (closed outer)
  | .openArray => .ok (some (.first, false :: outer))
  | .openObject => .ok (some (.first, true :: outer))
  | .broken _ _ skipped => .error skipped
  | t => .error (misplaced t)

def skipKey (outer : Nesting) : Token → Except Fault (Option (Expected × Nesting))
  | .string _ => .ok (some (.colon, outer))
  | .broken .string _ skipped => .error skipped
  | t => .error (misplaced t)

/-- Pass one token; `none` means that the skipped value ends with it. -/
def skipStep : Expected → Nesting → Token → Except Fault (Option (Expected × Nesting))
  | .value, outer, t => skipValue outer t
  | .key, outer, t => skipKey outer t
  | .colon, outer, .colon => .ok (some (.value, outer))
  | .colon, _, t => .error (misplaced t)
  | .first, false :: outer, .closeArray => .ok (closed outer)
  | .first, true :: outer, .closeObject => .ok (closed outer)
  | .first, true :: outer, t => skipKey (true :: outer) t
  | .first, outer, t => skipValue outer t
  | .next, false :: outer, .closeArray => .ok (closed outer)
  | .next, true :: outer, .closeObject => .ok (closed outer)
  | .next, true :: outer, .comma => .ok (some (.key, true :: outer))
  | .next, outer, .comma => .ok (some (.value, outer))
  | .next, _, t => .error (misplaced t)

/-- Pass tokens up to the end of the skipped value; `n` bounds the tokens that are left. -/
def skipFrom {n : Nat} (expected : Expected) (outer : Nesting) :
    (ts : List Token) → ts.length ≤ n → Except Fault (Read Unit n)
  | [], _ => .error exhausted
  | t :: ts, h =>
    match skipStep expected outer t with
    | .error f => .error f
    | .ok none => .ok ((Read.single () ts).widen h)
    | .ok (some (expected, outer)) => skipFrom expected outer ts (Nat.le_of_succ_le h)

def skip : Decoder Unit := fun ts => skipFrom .value [] ts (Nat.le_refl _)

/-! ## Arrays -/

/-- Tokens that a reader goes on with, at most `n` of them. -/
abbrev Ahead (n : Nat) := { ts : List Token // ts.length ≤ n }

/-- Whether another item follows in an array; the tokens then start with it. -/
def nextItem? (first : Bool) : (ts : List Token) → Except Fault (Option (Ahead ts.length))
  | [] => .error exhausted
  | .closeArray :: _ => .ok none
  | t :: ts =>
    if first then
      match t with
      | .finish f => .error f
      | _ => .ok (some ⟨t :: ts, Nat.le_refl _⟩)
    else
      match t, ts with
      | .comma, .closeArray :: _ => .error .malformed
      | .comma, .finish f :: _ => .error f
      | .comma, ts => .ok (some ⟨ts, Nat.le_succ _⟩)
      | t, _ => .error (misplaced t)

def closeArray : Decoder Unit
  | .closeArray :: ts => .ok (.single () ts)
  | t :: _ => .error (misplaced t)
  | [] => .error exhausted

/-- Read the items of an array and its end; `items` holds those read before, latest first. -/
def itemsFrom {n : Nat} (d : Decoder α) (first : Bool) (items : List α) (ts : List Token)
    (h : ts.length ≤ n) : Except Fault (Read (List α) n) :=
  match nextItem? first ts with
  | .error f => .error f
  | .ok none => (closeArray ts).map fun r => (r.map fun _ => items.reverse).widen h
  | .ok (some item) =>
    match d item.1 with
    | .error f => .error f
    | .ok r =>
      have shorter : r.rest.length < ts.length := Nat.lt_of_lt_of_le r.shorter item.2
      itemsFrom d false (r.value :: items) r.rest (Nat.le_trans (Nat.le_of_lt shorter) h)
termination_by ts.length

def array (d : Decoder α) : Decoder (List α)
  | .openArray :: ts => itemsFrom d true [] ts (Nat.le_succ _)
  | t :: _ => .error (unexpected t)
  | [] => .error exhausted

/-! ## Objects -/

def key : Decoder String
  | .string (.ok k) :: ts => .ok (.single k ts)
  | .string (.error f) :: _ => .error f
  | .broken .string used _ :: _ => .error used
  | t :: _ => .error (misplaced t)
  | [] => .error exhausted

def nextKey? (first : Bool) : (ts : List Token) → Except Fault (Option (Read String ts.length))
  | [] => .error exhausted
  | .closeObject :: _ => .ok none
  | t :: ts =>
    match first, t, ts with
    | true, t, ts => (key (t :: ts)).map some
    | false, .comma, t :: ts => (key (t :: ts)).map fun r => some (r.widen (Nat.le_succ _))
    | false, t, _ => .error (misplaced t)

def closeObject : Decoder Unit
  | .closeObject :: ts => .ok (.single () ts)
  | t :: _ => .error (misplaced t)
  | [] => .error exhausted

def member (d : Decoder α) : Decoder α
  | .colon :: ts => (d ts).map fun r => r.widen (Nat.le_succ _)
  | t :: _ => .error (misplaced t)
  | [] => .error exhausted

/-- Go through the members of an object, to its end. `read` gets each key and the tokens behind
it. -/
def membersFrom {n : Nat} (read : String → β → Decoder β) (first : Bool) (b : β) (ts : List Token)
    (h : ts.length ≤ n) : Except Fault (Read β n) :=
  match nextKey? first ts with
  | .error f => .error f
  | .ok none => (closeObject ts).map fun r => (r.map fun _ => b).widen h
  | .ok (some k) =>
    match read k.value b k.rest with
    | .error f => .error f
    | .ok r =>
      have shorter : r.rest.length < ts.length := Nat.lt_trans r.shorter k.shorter
      membersFrom read false r.value r.rest (Nat.le_trans (Nat.le_of_lt shorter) h)
termination_by ts.length

/-- Rows of an object whose keys are data. A key that `readKey` refuses has the wrong shape. -/
def rows {κ : Type} (readKey : String → Option κ) (d : Decoder α) : Decoder (List (κ × α))
  | .openObject :: ts =>
    (membersFrom
      (fun key rows ts =>
        match readKey key with
        | none => .error .mismatch
        | some k => (member d ts).map (.map fun a => (k, a) :: rows))
      true [] ts (Nat.le_succ _)).map (.map List.reverse)
  | t :: _ => .error (unexpected t)
  | [] => .error exhausted

/-! ## Records -/

structure Member (β : Type) where
  name : String
  /-- In the array form the field may be missing at the end. -/
  skippable : Bool
  isSet : β → Bool
  read : β → Decoder β

def Member.of (name : String) (skippable : Bool) (get : β → Option α) (set : β → α → β)
    (d : Decoder α) : Member β where
  name := name
  skippable := skippable
  isSet b := (get b).isSome
  read b ts := (d ts).map (.map (set b))

/-- A record as an object. Unknown members are skipped, and a field stands once. -/
def recordMember (fields : List (Member β)) (key : String) (b : β) : Decoder β :=
  match fields.find? fun f => f.name = key with
  | none => fun ts => (member skip ts).map (.map fun _ => b)
  | some f => fun ts => if f.isSet b then .error .mismatch else member (f.read b) ts

def recordItems {n : Nat} : List (Member β) → Bool → β → (ts : List Token) → ts.length ≤ n →
    Except Fault (Read β n)
  | [], _, b, ts, h => (closeArray ts).map fun r => (r.map fun _ => b).widen h
  | f :: fields, first, b, ts, h =>
    match nextItem? first ts with
    | .error fault => .error fault
    | .ok none => if f.skippable then recordItems fields first b ts h else .error .mismatch
    | .ok (some item) =>
      match f.read b item.1 with
      | .error fault => .error fault
      | .ok r =>
        recordItems fields false r.value r.rest
          (Nat.le_trans (Nat.le_of_lt (Nat.lt_of_lt_of_le r.shorter item.2)) h)

/-- Read a record in either form; `finish` gives nothing while a field is missing. -/
def record (fields : List (Member β)) (draft : β) (finish : β → Option α) : Decoder α :=
  mapping finish fun
    | .openObject :: ts => membersFrom (recordMember fields) true draft ts (Nat.le_succ _)
    | .openArray :: ts => recordItems fields true draft ts (Nat.le_succ _)
    | t :: _ => .error (unexpected t)
    | [] => .error exhausted

end Decoder

def decode {α : Type} (d : Decoder α) (src : Source) : Except Fault α := do
  let r ← d (scan src)
  match r.rest with
  | [] => return r.value
  | .finish .ended :: _ => return r.value
  | t :: _ => throw (Decoder.misplaced t)

end CfiSlack.Json
