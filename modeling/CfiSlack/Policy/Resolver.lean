import CfiSlack.Policy.Edges

/-!
# Resolved policies

A resolver computes the edges of a policy on demand and keeps them, so that intersections use the
sets of their constituents. The redirects of stubs and the indexes of signatures are shared by
several policies and kept too. A failing request keeps what was found before it failed.
-/
namespace CfiSlack

structure Resolver where
  inputs : PolicyInputs
  resolved : Table Policy (List Edge)
  /-- Policies under way, the latest first. -/
  resolving : List Policy
  redirects : Option Redirects
  types : Option TypeIndex
  arities : Option ArityIndex
  anomalies : Anomalies

namespace Resolver

def ofInputs (i : PolicyInputs) : Resolver where
  inputs := i
  resolved := .empty
  resolving := []
  redirects := none
  types := none
  arities := none
  anomalies := .empty

/-- The answer to a request, and the resolver after it. -/
abbrev Outcome (α : Type) := Except PolicyError α × Resolver

def Outcome.andThen {α β : Type} (o : Outcome α) (next : α → Resolver → Outcome β) : Outcome β :=
  match o with
  | (.ok a, r) => next a r
  | (.error e, r) => (.error e, r)

def stubRedirects (r : Resolver) : Outcome Redirects :=
  match r.redirects with
  | some redirects => (.ok redirects, r)
  | none =>
    match r.inputs.graph.redirects with
    | .ok redirects => (.ok redirects, { r with redirects := some redirects })
    | .error e => (.error e, r)

/-- An index over the table of signatures: where a resolver keeps it, and how it is built. -/
structure SharedIndex (α : Type) where
  held : Resolver → Option α
  keep : α → Resolver → Resolver
  build : SignatureTable → List Address → Redirects → α

def typeIndex : SharedIndex TypeIndex where
  held := types
  keep index r := { r with types := some index }
  build := .build

def arityIndex : SharedIndex ArityIndex where
  held := arities
  keep index r := { r with arities := some index }
  build := .build

/-- The index that a policy reads, built when it is needed first. -/
def indexFor {α : Type} (r : Resolver) (p : Policy) (shared : SharedIndex α) : Outcome α :=
  match r.inputs.missingTable? p with
  | some table => (.error (.missingTable p table), r)
  | none =>
    match shared.held r with
    | some index => (.ok index, r)
    | none =>
      r.stubRedirects.andThen fun redirects r =>
        match r.inputs.signatures with
        | some table =>
          let index := shared.build table r.inputs.functions redirects
          (.ok index, shared.keep index r)
        | none => (.error (.missingTable p .functions), r)

def survey {α : Type} (r : Resolver) (kind : Mismatch)
    (find : Address → Except PolicyError (PolicyInputs.SiteFinding (List α))) :
    Outcome (List α) :=
  let (found, anomalies) := PolicyInputs.survey kind find r.inputs.sites 0 r.anomalies
  (found, { r with anomalies := anomalies })

/-- Edges that a policy permits by itself; an intersection has none of its own. -/
def rawEdges (r : Resolver) : Policy → Outcome (List Edge)
  | .baseline => (.ok [], r)
  | .numeric w => (.ok (r.inputs.numericEdges w), r)
  | .numericHub w => (.ok (r.inputs.numericHubEdges w), r)
  | .numericTyped _ => (.ok [], r)
  | .anyFunction => (.ok r.inputs.anyFunctionEdges, r)
  | .unrestricted => (.ok r.inputs.unrestrictedEdges, r)
  | .typed =>
    (r.indexFor .typed typeIndex).andThen fun index r =>
      r.survey .types (r.inputs.typeFinding index)
  | .argCount =>
    (r.indexFor .argCount arityIndex).andThen fun index r =>
      (r.survey .argCounts (r.inputs.arityFinding index)).andThen fun permitted r =>
        (.ok (PolicyInputs.arityEdges index permitted), r)

def found (r : Resolver) (p : Policy) : Except PolicyError (List Edge) :=
  match r.resolved.find? p with
  | some edges => .ok edges
  | none => .error (.dependencyCycle p)

def common : List (List Edge) → List Edge
  | [] => []
  | first :: rest => first.filter fun e => rest.all (·.contains e)

def compute (r : Resolver) (p : Policy) : Outcome (List Edge) :=
  match p.dependencies with
  | [] => (r.rawEdges p).andThen fun raw r => (r.inputs.addedEdges p raw, r)
  | deps => ((deps.mapM r.found).map common, r)

/-- A policy is under way until it is done, whether it fails or not. -/
def begin (r : Resolver) (p : Policy) : Resolver := { r with resolving := p :: r.resolving }

/-- The edges of a policy are kept, unless it failed. -/
def finish (p : Policy) (o : Outcome (List Edge)) : Outcome Unit :=
  Outcome.andThen (o.1, { o.2 with resolving := o.2.resolving.erase p }) fun edges r =>
    (.ok (), { r with resolved := r.resolved.insert p edges })

mutual

/-- Resolve a policy, after those that it depends on. -/
def resolve (r : Resolver) (p : Policy) : Outcome Unit :=
  if (r.resolved.find? p).isSome then (.ok (), r)
  else if p ∈ r.resolving then (.error (.dependencyCycle p), r)
  else
    finish p (((r.begin p).resolveAll p.dependencies).andThen fun _ r => r.compute p)
termination_by (p.depth + 1, 0)
decreasing_by exact Prod.Lex.left _ _ (Nat.lt_succ_of_le p.height_dependencies_le)

/-- Resolve policies one after the other, up to the first that fails. -/
def resolveAll (r : Resolver) : List Policy → Outcome Unit
  | [] => (.ok (), r)
  | p :: ps => (r.resolve p).andThen fun _ r => r.resolveAll ps
termination_by ps => (Policy.height ps, ps.length + 1)
decreasing_by
  · simp only [Policy.height, List.map_cons, List.foldr_cons]
    rcases Nat.lt_or_eq_of_le (Nat.le_max_left (p.depth + 1)
      ((ps.map fun p => p.depth + 1).foldr max 0)) with h | h
    · exact Prod.Lex.left _ _ h
    · rw [← h]
      exact Prod.Lex.right _ (Nat.succ_pos _)
  · simp only [Policy.height, List.map_cons, List.foldr_cons, List.length_cons]
    rcases Nat.lt_or_eq_of_le (Nat.le_max_right (p.depth + 1)
      ((ps.map fun p => p.depth + 1).foldr max 0)) with h | h
    · exact Prod.Lex.left _ _ h
    · rw [← h]
      exact Prod.Lex.right _ (Nat.lt_succ_self _)

end

def edges (r : Resolver) (p : Policy) : Outcome (List Edge) :=
  (r.resolve p).andThen fun _ r => (r.found p, r)

/-- The edges of a policy, which the resolver then forgets. -/
def take (r : Resolver) (p : Policy) : Outcome (List Edge) :=
  (r.resolve p).andThen fun _ r => (r.found p, { r with resolved := r.resolved.erase p })

def resolvedPolicies (r : Resolver) : List Policy :=
  Policy.all.filter fun p => (r.resolved.find? p).isSome

end Resolver
end CfiSlack
