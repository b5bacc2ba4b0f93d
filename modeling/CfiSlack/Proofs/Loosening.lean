import CfiSlack.Precision
import CfiSlack.Proofs.Ancestors
import CfiSlack.Proofs.Avoidance
import CfiSlack.Proofs.LaidEdges
import CfiSlack.Proofs.ShortestDistances

/-!
# Looser policies

A policy with more edges leaves more open: every walk of the tighter overlay is one of the looser,
with the same weight, so no ancestor of the sink is lost and no distance grows; and what a site may
reach only becomes more.
-/
namespace CfiSlack

namespace Permitted

/-- Everything is the most that can be permitted. -/
instance : LE Permitted where
  le
    | _, .everything => True
    | .everything, .only _ => False
    | .only a, .only b => a ⊆ b

theorem le_everything (p : Permitted) : p ≤ .everything := by
  cases p <;> trivial

end Permitted

namespace View

/-- The view shows an overlay, with the kinds of observed edges. -/
structure Presents (v : View) (o : Overlay) : Prop extends v.Shows o where
  kind?_eq : ∀ m n, v.kind? m n = (o.base.flow? ⟨m, n⟩).map Flow.kind

/-- The second view has the edges of the first and agrees with it on weights and kinds. -/
structure LoosenedBy (v u : View) : Prop where
  mem_succ : ∀ m n, n ∈ v.succ m → n ∈ u.succ m
  instrs_eq : ∀ n, v.instrs n = u.instrs n
  kind?_eq : ∀ m n, v.kind? m n = u.kind? m n

namespace LoosenedBy

variable {v u : View} (h : v.LoosenedBy u)
include h

theorem ancestors_subset (goal : Node) : v.ancestors goal ⊆ u.ancestors goal := by
  intro n hn
  obtain ⟨r, hr⟩ := mem_ancestors.mp hn
  exact mem_ancestors.mpr ⟨r, hr.mono h.mem_succ⟩

theorem total_eq (w : Weighting) (r : Route) : w.total v r = w.total u r := by
  have hweight (n : Node) : w.weight v n = w.weight u n := by
    cases w with
    | block => rfl
    | instr => simp only [Weighting.weight, h.instrs_eq]
  simp only [Weighting.total, hweight]

theorem get_toGoal_le (w : Weighting) (goal n : Node) :
    (DistanceMap.toGoal u w goal).get n ≤ (DistanceMap.toGoal v w goal).get n := by
  cases hget : (DistanceMap.toGoal v w goal).get n with
  | infinite => exact Distance.le_infinite _
  | finite d =>
    obtain ⟨r, hr, rfl⟩ := DistanceMap.toGoal_reached hget
    rw [h.total_eq w]
    exact DistanceMap.toGoal_le (hr.mono h.mem_succ)

theorem permittedVia_subset (site n : Node) : v.permittedVia site n ⊆ u.permittedVia site n := by
  intro t ht
  cases n with
  | hub label => exact h.mem_succ _ _ ht
  | block a => simpa only [permittedVia, h.kind?_eq] using ht
  | sink => simpa only [permittedVia, h.kind?_eq] using ht
  | anywhere => simpa only [permittedVia, h.kind?_eq] using ht

theorem permitted_le (site : Node) : v.permitted site ≤ u.permitted site := by
  by_cases hu : .anywhere ∈ u.succ site
  · rw [permitted.eq_def u, if_pos hu]
    exact Permitted.le_everything _
  · have hv : .anywhere ∉ v.succ site := fun hv => hu (h.mem_succ _ _ hv)
    rw [permitted, permitted, if_neg hv, if_neg hu]
    intro t ht
    simp only [Ascending.mem_ofList, List.mem_flatMap] at ht ⊢
    obtain ⟨n, hn, ht⟩ := ht
    exact ⟨n, h.mem_succ _ _ hn, h.permittedVia_subset site n ht⟩

end LoosenedBy
end View

namespace Overlay

variable {g : Graph} {tight loose : List Edge} {small big : Overlay}

theorem presents_view (o : Overlay) (order : Enumeration) : (o.view order).Presents o where
  toShows := o.shows_view order
  kind?_eq _ _ := rfl

theorem exists_ofEdges_of_subset (hsub : tight ⊆ loose) (h : ofEdges g loose = .ok big) :
    ∃ small, ofEdges g tight = .ok small := by
  have hsound := ofEdges_eq_ok_iff.mp ⟨big, h⟩
  exact ofEdges_eq_ok_iff.mpr fun e he => hsound e (hsub he)

theorem nodes_subset_of_ofEdges (hsub : tight ⊆ loose) (hsmall : ofEdges g tight = .ok small)
    (hbig : ofEdges g loose = .ok big) : small.nodes ⊆ big.nodes := by
  intro n hn
  rw [mem_nodes_of_ofEdges hsmall] at hn
  rw [mem_nodes_of_ofEdges hbig]
  exact hn.imp_right fun ⟨hhub, e, he, hend⟩ => ⟨hhub, e, hsub he, hend⟩

theorem loosenedBy_of_ofEdges (hsub : tight ⊆ loose) (hsmall : ofEdges g tight = .ok small)
    (hbig : ofEdges g loose = .ok big) {v u : View} (hv : v.Presents small) (hu : u.Presents big) :
    v.LoosenedBy u where
  mem_succ m n hn := by
    rw [hv.mem_succ, mem_successors_of_ofEdges hsmall] at hn
    rw [hu.mem_succ, mem_successors_of_ofEdges hbig]
    exact hn.imp_right fun he => hsub he
  instrs_eq n := by
    rw [hv.instrs_eq, hu.instrs_eq, base_of_ofEdges hsmall, base_of_ofEdges hbig]
  kind?_eq m n := by
    rw [hv.kind?_eq, hu.kind?_eq, base_of_ofEdges hsmall, base_of_ofEdges hbig]

/-- Fewer edges can be laid wherever more can. In whatever orders the two overlays are enumerated, the
looser one keeps every node and every ancestor of the sink, no distance to the sink is longer in it,
and it permits at least as much at every site. -/
theorem loosening_monotone (g : Graph) (hsink : g.hasSink = true) (tight loose : List Edge)
    (hsub : tight ⊆ loose) (big : Overlay) (hbig : ofEdges g loose = .ok big) :
    ∃ small, ofEdges g tight = .ok small ∧ ∀ v u : View, v.Presents small → u.Presents big →
      v.nodes ⊆ u.nodes ∧
      v.ancestors .sink ⊆ u.ancestors .sink ∧
      (∀ w, ∃ near far, DistanceMap.compute u w .sink = .ok near ∧
        DistanceMap.compute v w .sink = .ok far ∧ ∀ n, near.get n ≤ far.get n) ∧
      ∀ site, v.permitted site ≤ u.permitted site := by
  obtain ⟨small, hsmall⟩ := exists_ofEdges_of_subset hsub hbig
  refine ⟨small, hsmall, ?_⟩
  intro v u hv hu
  have hnodes : v.nodes ⊆ u.nodes := by
    intro n hn
    exact (hu.mem_nodes n).mpr
      (nodes_subset_of_ofEdges hsub hsmall hbig ((hv.mem_nodes n).mp hn))
  have hgoal : .sink ∈ v.nodes := by
    refine (hv.mem_nodes .sink).mpr (sink_mem_nodes ?_)
    rw [base_of_ofEdges hsmall, hsink]
  have hloosened := loosenedBy_of_ofEdges hsub hsmall hbig hv hu
  refine ⟨hnodes, hloosened.ancestors_subset .sink, ?_, hloosened.permitted_le⟩
  intro w
  exact ⟨_, _, DistanceMap.compute_eq_ok (hnodes hgoal), DistanceMap.compute_eq_ok hgoal,
    hloosened.get_toGoal_le w .sink⟩

/-- The looser list leads from block 1 to the gate through a hub. -/
theorem loosening_monotone_detour :
    ∃ big, ofEdges Session.detour.graph [⟨.block 1, .hub .functions⟩, ⟨.hub .functions, .block 4⟩,
        ⟨.block 2, .block 1⟩] = .ok big ∧
      ∃ small, ofEdges Session.detour.graph [⟨.block 2, .block 1⟩] = .ok small ∧
        (∃ near far, DistanceMap.compute (big.view .descending) .block .sink = .ok near ∧
          DistanceMap.compute (small.view .ascending) .block .sink = .ok far ∧
          near.get (.block 1) ≤ far.get (.block 1)) ∧
        (small.view .ascending).permitted (.block 1) = .only [.block 2, .block 3] ∧
        .only [.block 2, .block 3] ≤ (big.view .descending).permitted (.block 1) := by
  obtain ⟨big, hbig⟩ : ∃ big, ofEdges Session.detour.graph [⟨.block 1, .hub .functions⟩,
      ⟨.hub .functions, .block 4⟩, ⟨.block 2, .block 1⟩] = .ok big := ⟨_, rfl⟩
  obtain ⟨small, hsmall, hviews⟩ := loosening_monotone Session.detour.graph rfl [⟨.block 2, .block 1⟩]
    _ (by simp) big hbig
  obtain ⟨-, -, hdistance, hpermitted⟩ :=
    hviews _ _ (small.presents_view .ascending) (big.presents_view .descending)
  obtain ⟨near, far, hnear, hfar, hle⟩ := hdistance .block
  have htargets : (small.view .ascending).permitted (.block 1) = .only [.block 2, .block 3] := by
    have heval : (ofEdges Session.detour.graph [⟨.block 2, .block 1⟩]).map
        (fun o => (o.view .ascending).permitted (.block 1)) = .ok (.only [.block 2, .block 3]) := rfl
    rw [hsmall] at heval
    exact Except.ok.inj heval
  refine ⟨big, hbig, small, hsmall, ⟨near, far, hnear, hfar, hle _⟩, htargets, ?_⟩
  rw [← htargets]
  exact hpermitted _

end Overlay
end CfiSlack
