import CfiSlack.Policy

/-!
# Stub redirects

A linkage stub stands for the function that it jumps to.
-/
namespace CfiSlack

abbrev Redirects := Table Address Address

namespace Redirects

/-- The tool that watches a program run. -/
def runtimeTool : String := "cfggrind"

def pairs (r : Redirects) : List (Address × Address) :=
  (Ascending.ofList r.keys).filterMap fun stub => (r.find? stub).map fun target => (stub, target)

theorem mem_pairs {r : Redirects} {stub target : Address} :
    (stub, target) ∈ r.pairs ↔ r.find? stub = some target := by
  simp only [pairs, List.mem_filterMap, Ascending.mem_ofList, Table.mem_keys, Option.map_eq_some_iff,
    Prod.mk.injEq]
  constructor
  · rintro ⟨a, -, b, hfind, rfl, rfl⟩
    exact hfind
  · intro hfind
    exact ⟨stub, by simp [hfind], target, hfind, rfl, rfl⟩

theorem pairwise_pairs (r : Redirects) : r.pairs.Pairwise fun p q => p.1 < q.1 := by
  refine (Ascending.pairwise_ofList r.keys).filterMap _ ?_
  intro a b hlt p hp q hq
  obtain ⟨_, -, rfl⟩ := Option.map_eq_some_iff.1 hp
  obtain ⟨_, -, rfl⟩ := Option.map_eq_some_iff.1 hq
  exact hlt

end Redirects

namespace Graph

def stubs (g : Graph) : List Address :=
  Ascending.ofList ((g.blocks.rows.filter fun row => row.2.isPlt).map Prod.fst)

/-- Targets that a stub may stand for. Of several successors only those seen at run time count. -/
def stubTargets (g : Graph) (stub : Address) : List Node :=
  let flows := g.outFlows (.block stub)
  let kept :=
    if flows.length > 1 then flows.filter fun row => row.2.observedBy Redirects.runtimeTool
    else flows
  kept.map fun row => row.1.target

/-- The target of a stub. A stub that leads nowhere has none. -/
def redirect (g : Graph) (stub : Address) : Except PolicyError (Option Node) :=
  if !(g.block? stub).any (·.endsWith .jumpIndirect) then .error (.stubWithoutJump stub)
  else if (g.outFlows (.block stub)).isEmpty then .ok none
  else
    match g.stubTargets stub with
    | [target] => .ok (some target)
    | targets => .error (.ambiguousStub stub targets.length)

/-- Redirects of all stubs; the lowest faulty stub is reported. -/
def redirects (g : Graph) : Except PolicyError Redirects := do
  let targets ← g.stubs.mapM fun stub => do
    let target ← g.redirect stub
    return (target.bind Node.addr?).map fun a => (stub, a)
  return Table.ofRows (targets.filterMap id)

end Graph
end CfiSlack
