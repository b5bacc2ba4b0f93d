import CfiSlack.Policy.Edges
import CfiSlack.Proofs.ShortestDistances

/-!
# Distances of observed targets

How far a node is from the sink is a matter of its walks alone, and so is how far the nearest observed
target of a site is. What the numeric policies compute is these two numbers.
-/
namespace CfiSlack

theorem Distance.least_mem (ds : List Distance) : least ds = .infinite ∨ least ds ∈ ds := by
  induction ds with
  | nil => exact Or.inl rfl
  | cons d ds ih =>
    change (if d ≤ least ds then d else least ds) = .infinite ∨
      (if d ≤ least ds then d else least ds) ∈ d :: ds
    split
    · exact Or.inr List.mem_cons_self
    · exact ih.imp_right (List.mem_cons_of_mem d)

theorem Distance.infinite_le {d : Distance} : infinite ≤ d ↔ d = infinite := by
  constructor
  · intro h
    exact Std.le_antisymm (le_infinite d) h
  · rintro rfl
    exact Std.le_refl _

namespace Graph

variable {g : Graph} {w : Weighting} {site : Address} {n : Node} {d : Distance}

/-- An edge other than fall-through was observed from the block. -/
def Transfers (g : Graph) (site : Address) (n : Node) : Prop :=
  ∃ flow, g.flow? ⟨.block site, n⟩ = some flow ∧ flow.kind ≠ .follow

def ReachesSink (g : Graph) (n : Node) : Prop := ∃ r, (g.view .ascending).Walk .sink (n :: r)

/-- The distance of a node to the sink: infinite without a walk, and else the least weight of a walk,
or the largest word if that is smaller. -/
inductive IsDistance (g : Graph) (w : Weighting) (n : Node) : Distance → Prop
  | unreached (h : ¬ g.ReachesSink n) : IsDistance g w n .infinite
  | reached {D : ℕ} (h : IsLeast (w.walkWeights (g.view .ascending) .sink n) D) :
      IsDistance g w n (.finite (Distance.capped D))

/-- Distances of the observed targets of a site, and infinity in case there are none. -/
def targetDistances (g : Graph) (w : Weighting) (site : Address) : Set Distance :=
  insert .infinite {d | ∃ n, g.Transfers site n ∧ g.IsDistance w n d}

theorem isDistance_iff :
    g.IsDistance w n d ↔ (DistanceMap.toGoal (g.view .ascending) w .sink).get n = d := by
  constructor
  · intro h
    cases h with
    | unreached h => exact DistanceMap.get_toGoal_eq_infinite.mpr h
    | reached h => exact DistanceMap.get_toGoal_of_isLeast h
  · rintro rfl
    by_cases h : g.ReachesSink n
    · obtain ⟨r, hwalk⟩ := h
      obtain ⟨D, hD⟩ := Weighting.exists_isLeast_walkWeights (w := w) ⟨_, r, hwalk, rfl⟩
      rw [DistanceMap.get_toGoal_of_isLeast hD]
      exact .reached hD
    · rw [DistanceMap.get_toGoal_eq_infinite.mpr h]
      exact .unreached h

end Graph

namespace PolicyInputs

variable {i : PolicyInputs} {w : Weighting} {site entry : Address}

theorem nearestTarget_le {m : DistanceMap} {t : Node} (h : t ∈ i.transferTargets site) :
    i.nearestTarget m site ≤ m.get t :=
  Distance.least_le (List.mem_map_of_mem h)

theorem mem_transferTargets {n : Node} :
    n ∈ i.transferTargets site ↔ i.graph.Transfers site n :=
  Ascending.mem_ofList.trans (Graph.mem_map_target_outFlows fun flow => flow.kind ≠ .follow)

theorem isLeast_nearestTarget :
    IsLeast (i.graph.targetDistances w site) (i.nearestTarget (i.distances w) site) := by
  constructor
  · rcases Distance.least_mem ((i.transferTargets site).map (i.distances w).get) with h | h
    · exact Or.inl h
    · obtain ⟨n, hn, hget⟩ := List.mem_map.mp h
      exact Or.inr ⟨n, mem_transferTargets.mp hn, Graph.isDistance_iff.mpr hget⟩
  · rintro d (rfl | ⟨n, hn, hd⟩)
    · exact Distance.le_infinite _
    · rw [← Graph.isDistance_iff.mp hd]
      exact nearestTarget_le (mem_transferTargets.mpr hn)

/-- The entry is as far as the nearest observed target of the site, or farther. -/
theorem nearestTarget_le_iff :
    i.nearestTarget (i.distances w) site ≤ (i.distances w).get (.block entry) ↔
      ∃ near far, IsLeast (i.graph.targetDistances w site) near ∧
        i.graph.IsDistance w (.block entry) far ∧ near ≤ far := by
  constructor
  · intro h
    exact ⟨_, _, isLeast_nearestTarget, Graph.isDistance_iff.mpr rfl, h⟩
  · rintro ⟨near, far, hnear, hfar, hle⟩
    rw [show (i.distances w).get (.block entry) = far from Graph.isDistance_iff.mp hfar]
    exact Std.le_trans (isLeast_nearestTarget.2 hnear.1) hle

/-- An entry that leads to an observed target alone is no nearer than that. -/
theorem nearestTarget_le_of_succ {t : Node} (ht : i.graph.Transfers site t)
    (hsucc : ∀ k ∈ i.graph.successors (.block entry), k = t) :
    i.nearestTarget (i.distances w) site ≤ (i.distances w).get (.block entry) := by
  refine Std.le_trans (nearestTarget_le (mem_transferTargets.mpr ht)) ?_
  refine DistanceMap.get_toGoal_le_of_succ (by simp) ?_
  intro k hk
  exact hsucc k (Graph.mem_succ_view.mp hk)

/-- What only falls through has no nearest target. -/
theorem nearestTarget_le_iff_of_no_transfer (h : ∀ n, ¬ i.graph.Transfers site n) :
    i.nearestTarget (i.distances w) site ≤ (i.distances w).get (.block entry) ↔
      ¬ i.graph.ReachesSink (.block entry) := by
  have hinfinite : i.nearestTarget (i.distances w) site = .infinite := by
    rcases isLeast_nearestTarget.1 with hinfinite | ⟨n, hn, -⟩
    · exact hinfinite
    · exact absurd hn (h n)
  rw [hinfinite, Distance.infinite_le]
  exact DistanceMap.get_toGoal_eq_infinite

end PolicyInputs
end CfiSlack
