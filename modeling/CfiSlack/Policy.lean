import CfiSlack.DistanceMap

/-!
# Policies

The control-flow integrity policies under comparison, and what can go wrong when one is applied.
-/
namespace CfiSlack

/-- A table of type information that a policy may need. -/
inductive TypeTable where
  | functions
  | callSites
  deriving DecidableEq, Repr

def TypeTable.text : TypeTable → String
  | .functions => "function signature table"
  | .callSites => "call-site signature table"

inductive Policy where
  /-- Nothing beyond the observed targets. -/
  | baseline
  /-- Entries at least as far from the sink as the nearest observed target. -/
  | numeric (w : Weighting)
  /-- As `numeric`, through one hub for each distance. -/
  | numericHub (w : Weighting)
  /-- Functions of a fitting signature. -/
  | typed
  /-- What `numeric` and `typed` both permit. -/
  | numericTyped (w : Weighting)
  /-- Functions with a fitting number of parameters. -/
  | argCount
  /-- Every function. -/
  | anyFunction
  /-- Every block. -/
  | unrestricted
  deriving DecidableEq, Repr

namespace Policy

/-- All policies in the order of reports. -/
def all : List Policy :=
  [.baseline, .numeric .block, .numeric .instr, .numericHub .block, .numericHub .instr, .typed,
    .numericTyped .block, .numericTyped .instr, .argCount, .anyFunction, .unrestricted]

theorem mem_all (p : Policy) : p ∈ all := by
  cases p with
  | numeric w => cases w <;> decide
  | numericHub w => cases w <;> decide
  | numericTyped w => cases w <;> decide
  | _ => decide

def name : Policy → String
  | .baseline => "baseline"
  | .numeric .block => "num_bd_cfi_naive"
  | .numeric .instr => "num_id_cfi_naive"
  | .numericHub .block => "num_bd_cfi"
  | .numericHub .instr => "num_id_cfi"
  | .typed => "type_cfi"
  | .numericTyped .block => "num_bd_type_cfi"
  | .numericTyped .instr => "num_id_type_cfi"
  | .argCount => "numarg_cfi"
  | .anyFunction => "sof_cfi"
  | .unrestricted => "no_cfi"

/-- Place in the order of reports. -/
def rank (p : Policy) : Nat := all.idxOf p

instance : LE Policy := ⟨fun p q => p.rank ≤ q.rank⟩
instance : LT Policy := ⟨fun p q => p.rank < q.rank⟩
instance : DecidableLE Policy := fun p q => inferInstanceAs (Decidable (p.rank ≤ q.rank))
instance : DecidableLT Policy := fun p q => inferInstanceAs (Decidable (p.rank < q.rank))

theorem rank_inj {p q : Policy} (h : p.rank = q.rank) : p = q := by
  have hall : ∀ p ∈ all, ∀ q ∈ all, p.rank = q.rank → p = q := by decide
  exact hall p (mem_all p) q (mem_all q) h

instance : Std.IsLinearOrder Policy :=
  Ascending.isLinearOrder_of_rank rank (fun _ _ => Iff.rfl) fun _ _ => rank_inj

instance : Std.LawfulOrderLT Policy where
  lt_iff _ _ := Nat.lt_iff_le_and_not_ge

/-- Policies from whose edges this one is computed. -/
def dependencies : Policy → List Policy
  | .numericTyped w => [.numeric w, .typed]
  | _ => []

/-- Length of the longest chain of dependencies. -/
def depth : Policy → Nat
  | .numericTyped _ => 1
  | _ => 0

/-- Bound on the depths of several policies. -/
def height (ps : List Policy) : Nat := (ps.map fun p => p.depth + 1).foldr max 0

theorem height_dependencies_le (p : Policy) : height p.dependencies ≤ p.depth := by
  cases p <;> exact Nat.le_refl _

/-- Tables that this policy or a dependency reads. -/
def tables : Policy → List TypeTable
  | .typed => [.functions, .callSites]
  | .numericTyped _ => [.functions, .callSites]
  | .argCount => [.functions, .callSites]
  | _ => []

end Policy

inductive PolicyError where
  | graph (e : GraphError)
  | unknown (name : String)
  | missingTable (policy : Policy) (table : TypeTable)
  | sinkEdge (policy : Policy) (e : Edge)
  | unknownNode (policy : Policy) (n : Node)
  | dependencyCycle (policy : Policy)
  | ambiguousStub (stub : Address) (candidates : Nat)
  | stubWithoutJump (stub : Address)
  | calleeNotFunction (site callee : Address)
  deriving DecidableEq, Repr

def PolicyError.message : PolicyError → String
  | .graph e => "Graph error: " ++ e.message
  | .unknown name => "Unknown policy '" ++ name ++ "'"
  | .missingTable policy table => "Policy " ++ policy.name ++ " needs the " ++ table.text
  | .sinkEdge policy e =>
    "Policy " ++ policy.name ++ " produced edge " ++ e.source.text ++ " -> " ++ e.target.text ++
      " touching the sink"
  | .unknownNode policy n =>
    "Policy " ++ policy.name ++ " produced an edge touching unknown node " ++ n.text
  | .dependencyCycle policy => "Dependency cycle through policy " ++ policy.name
  | .ambiguousStub stub candidates =>
    "PLT stub " ++ stub.text ++ " has " ++ toString candidates ++ " candidate targets"
  | .stubWithoutJump stub => "PLT stub " ++ stub.text ++ " does not end in an indirect jump"
  | .calleeNotFunction site callee =>
    "Indirect call at " ++ site.text ++ " reaches " ++ callee.text ++
      ", which is not a function entry"

def Policy.read (s : String) : Except PolicyError Policy :=
  match all.find? fun p => p.name = s with
  | some p => .ok p
  | none => .error (.unknown s)

end CfiSlack
