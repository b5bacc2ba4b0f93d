import CfiSlack.Proofs.Ancestors
import CfiSlack.Proofs.Descendants
import CfiSlack.Proofs.LaidEdges
import CfiSlack.Proofs.ShortestDistances
import CfiSlack.SiteMetric
import Mathlib.Analysis.SpecialFunctions.Log.Basic
import Mathlib.Combinatorics.Enumerative.DoubleCounting

/-!
# Bounds on the complexity

The complexity of a set of nodes is at least one if every node but one is entered from the set, or if
every node but one is left into the set. The first holds of what a forward walk finds from a site, also
if it is cut short; the second of all that can reach the sink. A hub takes nothing away: it adds its
members once for each caller beyond the first, or its callers once for each member beyond the first.
-/
namespace CfiSlack

namespace View

variable {v : View} {nodes : List Node} {n root : Node}

theorem outDegreeIn_eq_card (v : View) (nodes : List Node) (n : Node) :
    v.outDegreeIn nodes n = (nodes.toFinset.filter fun m => m ∈ v.succ n).card := by
  have hnodup : ((v.succ n).filter nodes.contains).Nodup := (v.succ_nodup n).filter _
  rw [outDegreeIn, List.countP_eq_length_filter, ← List.toFinset_card_of_nodup hnodup]
  congr 1
  ext m
  simp [and_comm]

theorem inDegreeIn_eq_card (v : View) (nodes : List Node) (n : Node) :
    v.inDegreeIn nodes n = (nodes.toFinset.filter fun m => n ∈ v.succ m).card := by
  have hnodup : ((v.pred n).filter nodes.contains).Nodup := (v.pred_nodup n).filter _
  rw [inDegreeIn, List.countP_eq_length_filter, ← List.toFinset_card_of_nodup hnodup]
  congr 1
  ext m
  simp [v.mem_pred, and_comm]

/-- Inside a set of nodes, edges may be counted where they start or where they end. -/
theorem sum_outDegreeIn_eq_sum_inDegreeIn (v : View) (nodes : List Node) :
    ∑ n ∈ nodes.toFinset, v.outDegreeIn nodes n = ∑ n ∈ nodes.toFinset, v.inDegreeIn nodes n := by
  simp only [outDegreeIn_eq_card, inDegreeIn_eq_card]
  exact Finset.sum_card_bipartiteAbove_eq_sum_card_bipartiteBelow fun m n => n ∈ v.succ m

/-- What a node adds to the complexity if edges are counted where they start. -/
def leavingShare (v : View) (nodes : List Node) (n : Node) : ℤ :=
  v.outDegreeIn nodes n - 1 + v.meshSurplus nodes n

/-- What a node adds to the complexity if edges are counted where they end. -/
def enteringShare (v : View) (nodes : List Node) (n : Node) : ℤ :=
  v.inDegreeIn nodes n - 1 + v.meshSurplus nodes n

theorem complexity_eq_sum_leavingShare (h : nodes.Nodup) :
    v.complexity nodes = 2 + ∑ n ∈ nodes.toFinset, v.leavingShare nodes n := by
  have hout : (nodes.map fun n => (v.outDegreeIn nodes n : ℤ)).foldr (· + ·) 0 =
      ∑ n ∈ nodes.toFinset, (v.outDegreeIn nodes n : ℤ) := (List.sum_toFinset _ h).symm
  have hsurplus : (nodes.map (v.meshSurplus nodes)).foldr (· + ·) 0 =
      ∑ n ∈ nodes.toFinset, v.meshSurplus nodes n := (List.sum_toFinset _ h).symm
  have hcard : (nodes.length : ℤ) = ∑ n ∈ nodes.toFinset, (1 : ℤ) := by
    rw [← List.toFinset_card_of_nodup h]
    simp
  unfold complexity leavingShare
  rw [hout, hsurplus, hcard, Finset.sum_add_distrib, Finset.sum_sub_distrib]
  ring

theorem complexity_eq_sum_enteringShare (h : nodes.Nodup) :
    v.complexity nodes = 2 + ∑ n ∈ nodes.toFinset, v.enteringShare nodes n := by
  have hedges : ∑ n ∈ nodes.toFinset, (v.outDegreeIn nodes n : ℤ) =
      ∑ n ∈ nodes.toFinset, (v.inDegreeIn nodes n : ℤ) := by
    exact_mod_cast v.sum_outDegreeIn_eq_sum_inDegreeIn nodes
  rw [complexity_eq_sum_leavingShare h]
  unfold leavingShare enteringShare
  rw [Finset.sum_add_distrib, Finset.sum_sub_distrib, hedges, ← Finset.sum_sub_distrib,
    ← Finset.sum_add_distrib]

theorem enteringShare_nonneg (h : 0 < v.inDegreeIn nodes n) : 0 ≤ v.enteringShare nodes n := by
  unfold enteringShare meshSurplus
  split
  · have hmesh : 0 ≤ (v.outDegreeIn nodes n : ℤ) * (v.inDegreeIn nodes n - 1) :=
      mul_nonneg (by omega) (by omega)
    linarith
  · omega

theorem leavingShare_nonneg (h : 0 < v.outDegreeIn nodes n) : 0 ≤ v.leavingShare nodes n := by
  unfold leavingShare meshSurplus
  split
  · have hmesh : 0 ≤ ((v.outDegreeIn nodes n : ℤ) - 1) * v.inDegreeIn nodes n :=
      mul_nonneg (by omega) (by omega)
    linarith
  · omega

theorem meshSurplus_of_not_isHub (h : n.isHub = false) : v.meshSurplus nodes n = 0 := by
  simp [meshSurplus, h]

/-- One node may add less than nothing, but not less than an edge. -/
theorem one_le_two_add_sum {s : Finset Node} {share : Node → ℤ} (hroot : root ∈ s)
    (hshare : -1 ≤ share root) (hothers : ∀ n ∈ s, n ≠ root → 0 ≤ share n) :
    1 ≤ 2 + ∑ n ∈ s, share n := by
  have hrest : 0 ≤ ∑ n ∈ s.erase root, share n := by
    refine Finset.sum_nonneg fun n hn => ?_
    exact hothers n (Finset.mem_of_mem_erase hn) (Finset.ne_of_mem_erase hn)
  rw [← Finset.add_sum_erase s share hroot]
  omega

theorem one_le_complexity_of_entered (hnodup : nodes.Nodup) (hroot : root ∈ nodes)
    (hhub : root.isHub = false)
    (hentered : ∀ n ∈ nodes, n ≠ root → ∃ m ∈ nodes, n ∈ v.succ m) : 1 ≤ v.complexity nodes := by
  rw [complexity_eq_sum_enteringShare hnodup]
  refine one_le_two_add_sum (List.mem_toFinset.mpr hroot) ?_ ?_
  · rw [enteringShare, meshSurplus_of_not_isHub hhub]
    omega
  · intro n hn hne
    obtain ⟨m, hm, hedge⟩ := hentered n (List.mem_toFinset.mp hn) hne
    have hpos : 0 < v.inDegreeIn nodes n :=
      List.countP_pos_iff.mpr ⟨m, (v.mem_pred m n).mpr hedge, by simpa using hm⟩
    exact enteringShare_nonneg hpos

theorem one_le_complexity_of_left (hnodup : nodes.Nodup) (hroot : root ∈ nodes)
    (hhub : root.isHub = false)
    (hleft : ∀ n ∈ nodes, n ≠ root → ∃ m ∈ nodes, m ∈ v.succ n) : 1 ≤ v.complexity nodes := by
  rw [complexity_eq_sum_leavingShare hnodup]
  refine one_le_two_add_sum (List.mem_toFinset.mpr hroot) ?_ ?_
  · rw [leavingShare, meshSurplus_of_not_isHub hhub]
    omega
  · intro n hn hne
    obtain ⟨m, hm, hedge⟩ := hleft n (List.mem_toFinset.mp hn) hne
    have hpos : 0 < v.outDegreeIn nodes n :=
      List.countP_pos_iff.mpr ⟨m, hedge, by simpa using hm⟩
    exact leavingShare_nonneg hpos

/-- An ancestor other than the goal goes on to an ancestor. -/
theorem exists_succ_mem_ancestors {goal : Node} (h : n ∈ v.ancestors goal) (hne : n ≠ goal) :
    ∃ m ∈ v.ancestors goal, m ∈ v.succ n := by
  obtain ⟨r, hwalk⟩ := mem_ancestors.mp h
  cases r with
  | nil =>
    cases hwalk
    exact absurd rfl hne
  | cons m r =>
    obtain ⟨hedge, hrest⟩ := hwalk.tail
    exact ⟨m, mem_ancestors.mpr ⟨r, hrest⟩, hedge⟩

end View

namespace Corridor

variable {goal start : Node}

theorem one_le_wholeComplexity (v : View) (hgoal : goal.isHub = false) (cap : ℕ) :
    1 ≤ (ofGoal v goal cap).wholeComplexity :=
  View.one_le_complexity_of_left View.nodup_ancestors View.goal_mem_ancestorsExcluding hgoal
    fun _ => View.exists_succ_mem_ancestors

theorem one_le_complexity_subgraph (c : Corridor) (hstart : start.isHub = false) :
    1 ≤ c.view.complexity (c.subgraph start) := by
  have hdescending : View.Descending c.view _ start [] (c.subgraph start) :=
    View.descending_descendantsWhere _ _
  exact View.one_le_complexity_of_entered hdescending.nodup hdescending.start_mem hstart
    hdescending.entered

end Corridor

namespace Evaluator

variable {v : View} {goal : Node} {cap : ℕ}

theorem ofView_eq_ok (h : goal ∈ v.nodes) (cap : ℕ) :
    ofView v goal cap =
      .ok ⟨.ofGoal v goal cap, .toGoal v .block goal, .toGoal v .instr goal⟩ := by
  rw [ofView, DistanceMap.compute_eq_ok h, DistanceMap.compute_eq_ok h]
  rfl

theorem exists_measure {ev : Evaluator} {site : Address} (h : .block site ∈ ev.view.nodes) :
    ∃ metric, ev.measure site = .ok metric :=
  ⟨_, if_pos ((ev.view.contains_iff _).mpr h)⟩

theorem complexity_of_measure {ev : Evaluator} {site : Address} {metric : SiteMetric}
    (h : ev.measure site = .ok metric) : metric.complexity = ev.complexityOf site := by
  unfold measure at h
  split at h
  · cases h
    rfl
  · cases h

theorem one_le_of_complexityOf {ev : Evaluator} (hcorridor : ev.corridor = .ofGoal v goal cap)
    (hgoal : goal.isHub = false) {site : Address} {m : ℤ} (h : ev.complexityOf site = some m) :
    1 ≤ m := by
  unfold complexityOf at h
  split at h
  · cases h
    rw [hcorridor]
    exact Corridor.one_le_wholeComplexity v hgoal cap
  · split at h
    · cases h
      exact ev.corridor.one_le_complexity_subgraph rfl
    · cases h

/-- Every site of an overlay can be measured, and a complexity that is reported for it is at least one;
so it can be divided by, and the logarithm of its successor is there and is not zero. -/
theorem measured_complexity_positive (g : Graph) (hsink : g.hasSink = true) (edges : List Edge)
    (o : Overlay) (ho : Overlay.ofEdges g edges = .ok o) (v : View) (hv : v.Shows o) (cap : ℕ) :
    ∃ ev, ofView v .sink cap = .ok ev ∧ ∀ site, .block site ∈ v.nodes →
      ∃ metric, ev.measure site = .ok metric ∧ ∀ m, metric.complexity = some m →
        1 ≤ m ∧ (m : ℝ) ≠ 0 ∧ 0 < 1 + (m : ℝ) ∧ Real.log (1 + m) ≠ 0 := by
  have hbase : o.base.hasSink = true := by rw [Overlay.base_of_ofEdges ho, hsink]
  have hgoal : .sink ∈ v.nodes := (hv.mem_nodes .sink).mpr (Overlay.sink_mem_nodes hbase)
  obtain ⟨ev, hev, hcorridor⟩ :
      ∃ ev, ofView v .sink cap = .ok ev ∧ ev.corridor = .ofGoal v .sink cap :=
    ⟨_, ofView_eq_ok hgoal cap, rfl⟩
  refine ⟨ev, hev, ?_⟩
  intro site hsite
  have hview : ev.view = v := by rw [view, hcorridor, Corridor.ofGoal]
  obtain ⟨metric, hmetric⟩ := exists_measure (hview ▸ hsite)
  refine ⟨metric, hmetric, ?_⟩
  intro m hm
  rw [complexity_of_measure hmetric] at hm
  have hone : 1 ≤ m := one_le_of_complexityOf hcorridor rfl hm
  have hreal : (1 : ℝ) ≤ m := by exact_mod_cast hone
  refine ⟨hone, by linarith, by linarith, ?_⟩
  exact (Real.log_pos (by linarith)).ne'

/-- Blocks 1 and 2 call through a hub whose only member is the gate 3, and block 1 calls block 2. -/
def calledHub : Overlay where
  base :=
    { blocks := ⟨[(1, { size := 4, instrs := 1, terminator := some .callIndirect }),
        (2, { size := 4, instrs := 1, terminator := some .callIndirect }),
        (3, { size := 2, instrs := 1, terminator := some .syscall })], by decide⟩
      flows := ⟨[(⟨.block 1, .block 2⟩, { kind := .callIndirect }),
        (⟨.block 3, .sink⟩, { kind := .syscall })], by decide⟩
      hasSink := true
      source_mem := by simp [Table.keys]
      target_mem := by simp [Table.keys] }
  extra := [⟨.block 1, .hub .functions⟩, ⟨.block 2, .hub .functions⟩, ⟨.hub .functions, .block 3⟩]
  extra_nodup := by decide
  extra_fresh := by decide
  extra_sound := by decide

theorem subgraph_calledHub : (Corridor.ofGoal (calledHub.view .ascending) .sink 3).subgraph (.block 1) =
    [.hub .functions, .block 2, .block 1] := by
  obtain ⟨hsink, hthree, hhub, htwo, hone⟩ : (calledHub.view .ascending).pred .sink = [.block 3] ∧
      (calledHub.view .ascending).pred (.block 3) = [.hub .functions] ∧
      (calledHub.view .ascending).pred (.hub .functions) = [.block 1, .block 2] ∧
      (calledHub.view .ascending).pred (.block 2) = [.block 1] ∧
      (calledHub.view .ascending).pred (.block 1) = [] := by decide
  have hancestors : (calledHub.view .ascending).ancestors .sink =
      [.block 2, .block 1, .hub .functions, .block 3, .sink] := by
    simp [View.ancestors, View.ancestorsExcluding, View.climb, View.Frame.ofPred, View.entryMode?,
      View.trailTo, ForbiddenRoutes.maxLength_empty, hsink, hthree, hhub, htwo, hone]
  have hout : (calledHub.view .ascending).succ (.block 1) = [.block 2, .hub .functions] := by decide
  have hcalls : (calledHub.view .ascending).succ (.block 2) = [.hub .functions] := by decide
  have hmember : (calledHub.view .ascending).succ (.hub .functions) = [.block 3] := by decide
  simp [Corridor.subgraph, Corridor.ofGoal, hancestors, View.descendantsWhere, View.descend,
    View.Frame.ofSucc, hout, hcalls, hmember]

theorem isFinite_calledHub :
    ((DistanceMap.toGoal (calledHub.view .ascending) .block .sink).get (.block 1)).isFinite := by
  have hwalk : (calledHub.view .ascending).Walk .sink
      [.block 1, .hub .functions, .block 3, .sink] :=
    .step (by decide) (.step (by decide) (.step (by decide) .here))
  obtain ⟨d, hd⟩ := Distance.eq_finite_of_le (DistanceMap.toGoal_le (w := .block) hwalk)
  rw [hd]
  rfl

/-- A walk from block 1 that is cut short after three nodes ends at the hub, which then has callers and
no member, and takes away as much as the bound allows. -/
theorem measured_complexity_positive_calledHub :
    calledHub.base.hasSink = true ∧ Overlay.ofEdges calledHub.base calledHub.extra = .ok calledHub ∧
      (calledHub.view .ascending).Shows calledHub ∧
      ∃ ev metric, ofView (calledHub.view .ascending) .sink 3 = .ok ev ∧
        ev.measure 1 = .ok metric ∧ metric.complexity = some 1 ∧ Real.log (1 + (1 : ℤ)) ≠ 0 := by
  have hoverlay : Overlay.ofEdges calledHub.base calledHub.extra = .ok calledHub := rfl
  have hshows := calledHub.shows_view .ascending
  obtain ⟨ev, hev, hmeasured⟩ := measured_complexity_positive _ rfl _ _ hoverlay _ hshows 3
  obtain ⟨metric, hmetric, hpositive⟩ := hmeasured 1 (by decide)
  have hcomplexity : metric.complexity = some 1 := by
    rw [ofView_eq_ok (by decide)] at hev
    cases hev
    rw [complexity_of_measure hmetric, complexityOf, if_neg (by decide), if_pos isFinite_calledHub,
      subgraph_calledHub]
    decide
  obtain ⟨-, -, -, hlog⟩ := hpositive 1 hcomplexity
  exact ⟨rfl, hoverlay, hshows, ev, metric, hev, hmetric, hcomplexity, hlog⟩

end Evaluator
end CfiSlack
