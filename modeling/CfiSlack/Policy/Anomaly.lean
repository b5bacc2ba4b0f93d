import CfiSlack.Node
import CfiSlack.Table

/-!
# Anomalies

Call sites at which the observed callees disagree with what the compiler saw. Each is recorded once,
and the number of sites looked at is kept, so that a rate can be given.
-/
namespace CfiSlack

inductive Mismatch where
  | types
  | argCounts
  deriving DecidableEq, Repr

namespace Mismatch

def all : List Mismatch := [.types, .argCounts]

def text : Mismatch → String
  | .types => "type mismatch"
  | .argCounts => "argument count mismatch"

end Mismatch

structure Anomaly where
  site : Address
  kind : Mismatch
  deriving DecidableEq, Repr

structure Anomalies where
  /-- Anomalies in the order in which they were found. -/
  seen : List Anomaly
  /-- Sites looked at, for each kind that was ever looked for. -/
  checked : Table Mismatch Nat

namespace Anomalies

def empty : Anomalies := ⟨[], .empty⟩

def contains (an : Anomalies) (a : Anomaly) : Bool := an.seen.contains a

def record (an : Anomalies) (a : Anomaly) : Anomalies :=
  if an.contains a then an else { an with seen := an.seen ++ [a] }

/-- Count more sites as looked at. -/
def addChecked (an : Anomalies) (kind : Mismatch) (sites : Nat) : Anomalies :=
  { an with checked := an.checked.insert kind ((an.checked.find? kind).getD 0 + sites) }

/-- Anomalous sites of a kind, ascending. -/
def sites (an : Anomalies) (kind : Mismatch) : List Address :=
  Ascending.ofList ((an.seen.filter fun a => a.kind = kind).map Anomaly.site)

def count (an : Anomalies) (kind : Mismatch) : Nat := an.seen.countP fun a => a.kind = kind

/-- Anomalous sites over sites looked at, if there were any. -/
def ratio? (an : Anomalies) (kind : Mismatch) : Option Float :=
  let checked := (an.checked.find? kind).getD 0
  if checked = 0 then none
  else some ((UInt64.ofNat (an.count kind)).toFloat / (UInt64.ofNat checked).toFloat)

structure Summary where
  kind : Mismatch
  anomalies : Nat
  sites : Nat
  ratio : Float

/-- Totals of every kind that was looked for. -/
def summary (an : Anomalies) : List Summary :=
  Mismatch.all.filterMap fun kind =>
    (an.checked.find? kind).map fun sites =>
      ⟨kind, an.count kind, sites, (an.ratio? kind).getD 0.0⟩

end Anomalies
end CfiSlack
