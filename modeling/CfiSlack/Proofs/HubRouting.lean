import CfiSlack.Proofs.Ancestors
import CfiSlack.Proofs.NumericForms

/-!
# Routing through hubs

Entering a hub is free, so a step from a site to an entry weighs the same as the two steps over the
hub of the entry. Every walk to the sink in one form of the numeric policy has a counterpart of the
same weight in the other; reachability and distance follow for all nodes but the hubs.
-/
namespace CfiSlack

theorem Weighting.weight_hub (w : Weighting) (v : View) (label : HubLabel) :
    w.weight v (.hub label) = 0 := rfl

theorem Overlay.Covers.sink_mem {o : Overlay} {g : Graph} {edges : List Edge}
    (h : o.Covers g edges) (hsink : g.hasSink = true) {order : Enumeration} :
    .sink ∈ (o.view order).nodes := by
  have hbase : Node.sink ∈ o.base.nodes := by
    rw [h.base]
    simp [Graph.nodes, hsink]
  exact Enumeration.mem_list.mpr (List.mem_append_left _ hbase)

namespace PolicyInputs

variable {i : PolicyInputs} {w u : Weighting} {naive hub : Overlay} {order order' : Enumeration}

theorem weight_numeric_eq (hn : naive.Covers i.graph (i.numericEdges w))
    (hh : hub.Covers i.graph (i.numericHubEdges w)) (n : Node) :
    u.weight (naive.view order) n = u.weight (hub.view order') n := by
  rw [hn.weight, hh.weight]

theorem numericHub_of_numeric_walk (hn : naive.Covers i.graph (i.numericEdges w))
    (hh : hub.Covers i.graph (i.numericHubEdges w)) {n : Node} {r : Route}
    (h : (naive.view order).Walk .sink (n :: r)) :
    ∃ s, (hub.view order').Walk .sink (n :: s) ∧
      u.total (hub.view order') (n :: s) = u.total (naive.view order) (n :: r) := by
  induction r generalizing n with
  | nil =>
    cases h
    exact ⟨[], .here, rfl⟩
  | cons k r ih =>
    obtain ⟨edge, rest⟩ := h.tail
    obtain ⟨s, hwalk, htotal⟩ := ih rest
    rcases (mem_succ_numeric hn).mp edge with hflow | ⟨site, entry, htarget, rfl, rfl⟩
    · refine ⟨k :: s, .step ((mem_succ_numericHub hh).mpr (Or.inl hflow)) hwalk, ?_⟩
      rw [Weighting.total_cons_cons, Weighting.total_cons_cons, htotal, weight_numeric_eq hn hh]
    · have hin : i.hubOf w entry ∈ (hub.view order').succ (.block site) :=
        (mem_succ_numericHub hh).mpr (Or.inr (Or.inl ⟨site, entry, htarget, rfl, rfl⟩))
      have hout : .block entry ∈ (hub.view order').succ (i.hubOf w entry) :=
        (mem_succ_hubOf hh).mpr ⟨entry, htarget.entry_mem, rfl, rfl⟩
      refine ⟨i.hubOf w entry :: .block entry :: s, .step hin (.step hout hwalk), ?_⟩
      rw [Weighting.total_cons_cons, Weighting.total_cons_cons, Weighting.total_cons_cons, htotal,
        weight_numeric_eq hn hh, hubOf, distanceHub, Weighting.weight_hub]
      exact Nat.zero_add _

/-- A walk that starts at a hub has no counterpart from there, but one from every site that leads to
the hub: the site goes straight to the entry that the walk visits next. -/
theorem numeric_of_numericHub_walk (hn : naive.Covers i.graph (i.numericEdges w))
    (hh : hub.Covers i.graph (i.numericHubEdges w)) {n : Node} {r : Route}
    (h : (hub.view order').Walk .sink (n :: r)) :
    (n.isHub = false → ∃ s, (naive.view order).Walk .sink (n :: s) ∧
      u.total (naive.view order) (n :: s) = u.total (hub.view order') (n :: r)) ∧
    ∀ site entry, i.NumericTarget w site entry → n = i.hubOf w entry →
      ∃ s, (naive.view order).Walk .sink (.block site :: s) ∧
        u.total (naive.view order) (.block site :: s) = u.total (hub.view order') (n :: r) := by
  induction r generalizing n with
  | nil =>
    cases h
    refine ⟨fun _ => ⟨[], .here, rfl⟩, ?_⟩
    intro site entry _ hhub
    cases hhub
  | cons k r ih =>
    obtain ⟨edge, rest⟩ := h.tail
    obtain ⟨hplain, hfrom⟩ := ih rest
    rw [Weighting.total_cons_cons]
    rcases (mem_succ_numericHub hh).mp edge with
      hflow | ⟨site, entry, htarget, rfl, rfl⟩ | ⟨entry, hentry, rfl, rfl⟩
    · -- an observed edge: neither end is a hub
      obtain ⟨hsource, htarget⟩ := Graph.not_isHub_of_mem_flows hflow
      obtain ⟨s, hwalk, htotal⟩ := hplain htarget
      constructor
      · intro _
        refine ⟨k :: s, .step ((mem_succ_numeric hn).mpr (Or.inl hflow)) hwalk, ?_⟩
        rw [Weighting.total_cons_cons, htotal, weight_numeric_eq hn hh]
      · intro site entry _ hhub
        rw [hhub] at hsource
        cases hsource
    · -- into a hub, which is free
      obtain ⟨s, hwalk, htotal⟩ := hfrom site entry htarget rfl
      constructor
      · intro _
        refine ⟨s, hwalk, ?_⟩
        rw [htotal, hubOf, distanceHub, Weighting.weight_hub]
        exact (Nat.zero_add _).symm
      · intro _ _ _ hhub
        cases hhub
    · -- out of a hub: all sites that lead to it have an edge to this entry
      obtain ⟨s, hwalk, htotal⟩ := hplain rfl
      constructor
      · intro hnot
        cases hnot
      · intro site other htarget hhub
        have hdirect := htarget.of_distance_eq hentry (hubOf_eq_hubOf.mp hhub)
        have hedge : .block entry ∈ (naive.view order).succ (.block site) :=
          (mem_succ_numeric hn).mpr (Or.inr ⟨site, entry, hdirect, rfl, rfl⟩)
        refine ⟨.block entry :: s, .step hedge hwalk, ?_⟩
        rw [Weighting.total_cons_cons, htotal, weight_numeric_eq hn hh]

theorem walkWeights_numeric_eq (hn : naive.Covers i.graph (i.numericEdges w))
    (hh : hub.Covers i.graph (i.numericHubEdges w)) {n : Node} (hnot : n.isHub = false) :
    u.walkWeights (naive.view order) .sink n = u.walkWeights (hub.view order') .sink n := by
  ext d
  constructor
  · rintro ⟨r, hwalk, rfl⟩
    exact numericHub_of_numeric_walk hn hh hwalk
  · rintro ⟨r, hwalk, rfl⟩
    exact (numeric_of_numericHub_walk hn hh hwalk).1 hnot

theorem mem_ancestors_numeric_iff (hn : naive.Covers i.graph (i.numericEdges w))
    (hh : hub.Covers i.graph (i.numericHubEdges w)) {n : Node} (hnot : n.isHub = false) :
    n ∈ (naive.view order).ancestors .sink ↔ n ∈ (hub.view order').ancestors .sink := by
  rw [View.mem_ancestors, View.mem_ancestors]
  constructor
  · rintro ⟨r, hwalk⟩
    obtain ⟨s, hwalk', -⟩ := numericHub_of_numeric_walk (u := .block) hn hh hwalk
    exact ⟨s, hwalk'⟩
  · rintro ⟨r, hwalk⟩
    obtain ⟨s, hwalk', -⟩ := (numeric_of_numericHub_walk (u := .block) hn hh hwalk).1 hnot
    exact ⟨s, hwalk'⟩

/-- Whatever the weighting that a numeric policy was made with, its two forms give all blocks and
the sink the same reachability, and the same distances under every weighting. -/
theorem numeric_forms_equidistant (g : Graph) (hsink : g.hasSink = true) (declared : List Address)
    (w : Weighting) :
    ∃ i naive hub, ofGraph g declared = .ok i ∧ i.Yields (.numeric w) naive ∧
      i.Yields (.numericHub w) hub ∧ ∀ order order' n, n.isHub = false →
        (n ∈ (naive.view order).ancestors .sink ↔ n ∈ (hub.view order').ancestors .sink) ∧
        ∀ u, ∃ m m', DistanceMap.compute (naive.view order) u .sink = .ok m ∧
          DistanceMap.compute (hub.view order') u .sink = .ok m' ∧ m.get n = m'.get n := by
  obtain ⟨i, hi, rfl, -⟩ := exists_ofGraph hsink declared
  obtain ⟨naive, hnaive, hn⟩ := i.exists_numeric w
  obtain ⟨hub, hhub, hh⟩ := i.exists_numericHub w
  refine ⟨i, naive, hub, hi, hnaive, hhub, ?_⟩
  intro order order' n hnot
  refine ⟨mem_ancestors_numeric_iff hn hh hnot, ?_⟩
  intro u
  exact ⟨_, _, DistanceMap.compute_eq_ok (hn.sink_mem hsink),
    DistanceMap.compute_eq_ok (hh.sink_mem hsink),
    DistanceMap.get_toGoal_congr (walkWeights_numeric_eq hn hh hnot)⟩

theorem numeric_forms_equidistant_entryAfterCall :
    entryAfterCall.hasSink = true ∧ (Node.block 16).isHub = false ∧
      ∃ i naive hub, ofGraph entryAfterCall [20, 256] = .ok i ∧
        i.Yields (.numeric .block) naive ∧ i.Yields (.numericHub .block) hub ∧
        (.block 16 ∈ (naive.view .ascending).ancestors .sink ↔
          .block 16 ∈ (hub.view .descending).ancestors .sink) ∧
        ∃ m m', DistanceMap.compute (naive.view .ascending) .instr .sink = .ok m ∧
          DistanceMap.compute (hub.view .descending) .instr .sink = .ok m' ∧
          m.get (.block 16) = m'.get (.block 16) := by
  obtain ⟨i, naive, hub, hi, hnaive, hhub, hsame⟩ :=
    numeric_forms_equidistant entryAfterCall rfl [20, 256] .block
  obtain ⟨hancestors, hdistances⟩ := hsame .ascending .descending (.block 16) rfl
  exact ⟨rfl, rfl, i, naive, hub, hi, hnaive, hhub, hancestors, hdistances .instr⟩

end PolicyInputs
end CfiSlack
