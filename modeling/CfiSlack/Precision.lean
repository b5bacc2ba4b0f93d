import CfiSlack.SiteQuotient

/-!
# Precision of a policy

How many targets a policy leaves open at the call sites of a population: the mean reduction (fAIR),
the mean number of targets (fAIA), their total (iCTR), and the quotient of the number of classes of
sites by the size of the largest class (QS).
-/
namespace CfiSlack

namespace Graph

/-- Indirect call sites of a binary, or of all binaries. -/
def sitesOf (g : Graph) (binary : Option String) : List Address :=
  g.callSites.filter fun a =>
    binary.all fun name => (g.block? a).any fun b => b.binary == name

/-- Whether a transfer other than a fall-through was observed at a site. -/
def isObserved (g : Graph) (site : Address) : Bool :=
  (g.outFlows (.block site)).any fun row => row.2.kind ≠ .follow

end Graph

/-- A total of target counts is held in a 64-bit word. -/
def targetSum (counts : List Nat) : UInt64 := (counts.map UInt64.ofNat).foldr (· + ·) 0

def meanReduction (counts : List Nat) (total : Nat) : Option Float :=
  if counts.isEmpty || total == 0 then none
  else
    let terms := counts.map fun n => 1.0 - (UInt64.ofNat n).toFloat / (UInt64.ofNat total).toFloat
    some (terms.foldl (· + ·) 0.0 / (UInt64.ofNat counts.length).toFloat)

def meanTargets (counts : List Nat) : Option Float :=
  if counts.isEmpty then none
  else some ((targetSum counts).toFloat / (UInt64.ofNat counts.length).toFloat)

def totalTargets (counts : List Nat) : Option UInt64 :=
  if counts.isEmpty then none else some (targetSum counts)

/-- Precision over one population of call sites. -/
structure Precision where
  sites : Nat
  meanReduction : Option Float
  meanTargets : Option Float
  totalTargets : Option UInt64
  quotient : Option Float

namespace Precision

def ofSites (v : View) (total : Nat) (sites : List Address) : Precision :=
  let permitted := fun a => v.permitted (.block a)
  let counts := sites.map fun a => (permitted a).count total
  { sites := sites.length
    meanReduction := CfiSlack.meanReduction counts total
    meanTargets := CfiSlack.meanTargets counts
    totalTargets := CfiSlack.totalTargets counts
    quotient := (SiteQuotient.ofSites v sites (fun a => some (permitted a)) total).value? }

/-- Precision over all sites of a binary, and over those with an observed target. -/
structure Report where
  all : Precision
  observed : Precision

def report (v : View) (g : Graph) (binary : Option String) (total : Nat) : Report :=
  let sites := g.sitesOf binary
  ⟨ofSites v total sites, ofSites v total (sites.filter g.isObserved)⟩

end Precision
end CfiSlack
