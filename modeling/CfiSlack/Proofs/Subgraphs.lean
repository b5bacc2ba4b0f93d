import CfiSlack.Proofs.Complexity
import CfiSlack.Proofs.PrunedAncestors

/-!
# Subgraphs between a site and the sink

A forward walk that admits the ancestors of a goal alone and starts at one of them loses nothing that leads
to the goal: it finds the nodes on the walks from its start to the goal. Both distances to the goal are
finite at the same nodes, which are the ancestors.
-/
namespace CfiSlack

namespace View

variable {v : View} {keep : Node → Bool} {start goal n m : Node}

theorem mem_descendants_none : m ∈ v.descendants start none ↔ v.Reaches start m := by
  simp only [descendants, mem_descendantsWhere_none, ReachesThrough, Reaches, and_true]

/-- Passing through ancestors of the goal is no restriction for what is an ancestor itself. -/
theorem reachesThrough_ancestors (hstart : v.Reaches start goal) :
    v.ReachesThrough (v.ancestors goal).contains start m ↔ v.Reaches start m ∧ v.Reaches m goal := by
  have hkeep (n : Node) : (v.ancestors goal).contains n = true ↔ v.Reaches n goal := by
    rw [List.contains_iff_mem, mem_ancestors_iff_reaches]
  constructor
  · intro h
    induction h with
    | refl => exact ⟨Relation.ReflTransGen.refl, hstart⟩
    | tail _ hstep ih => exact ⟨ih.1.tail hstep.1, (hkeep _).mp hstep.2⟩
  · rintro ⟨hreach, hgoal⟩
    -- every node on the way is an ancestor, by the rest of the way
    induction hreach with
    | refl => exact Relation.ReflTransGen.refl
    | tail _ hedge ih =>
      have hrest := ih (Relation.ReflTransGen.head hedge hgoal)
      exact hrest.tail ⟨hedge, (hkeep _).mpr hgoal⟩

/-- The nodes on the walks from a node to the goal are those on its way and on the way to the goal. -/
theorem exists_walk_through :
    (∃ r, v.Walk goal (start :: r) ∧ m ∈ start :: r) ↔ v.Reaches start m ∧ v.Reaches m goal := by
  constructor
  · rintro ⟨r, hwalk, hm⟩
    induction r generalizing start with
    | nil =>
      rw [List.mem_singleton.mp hm]
      exact ⟨Relation.ReflTransGen.refl, hwalk.reaches⟩
    | cons k r ih =>
      rcases List.mem_cons.mp hm with rfl | hm
      · exact ⟨Relation.ReflTransGen.refl, hwalk.reaches⟩
      · obtain ⟨hedge, hrest⟩ := hwalk.tail
        obtain ⟨hreach, hgoal⟩ := ih hrest hm
        exact ⟨Relation.ReflTransGen.head hedge hreach, hgoal⟩
  · rintro ⟨hreach, hgoal⟩
    induction hreach using Relation.ReflTransGen.head_induction_on with
    | refl =>
      obtain ⟨r, hwalk⟩ := hgoal.exists_walk
      exact ⟨r, hwalk, List.mem_cons_self⟩
    | @head k j hedge _ ih =>
      obtain ⟨r, hwalk, hm⟩ := ih
      exact ⟨j :: r, Walk.step hedge hwalk, List.mem_cons_of_mem k hm⟩

end View

namespace DistanceMap

theorem isFinite_toGoal {v : View} {w : Weighting} {goal n : Node} :
    ((toGoal v w goal).get n).isFinite = true ↔ n ∈ v.ancestors goal := by
  have hinfinite : (toGoal v w goal).get n = .infinite ↔ ¬ ∃ r, v.Walk goal (n :: r) :=
    get_toGoal_eq_infinite
  rw [View.mem_ancestors]
  cases hget : (toGoal v w goal).get n with
  | finite d => simpa [hget, Distance.isFinite] using hinfinite
  | infinite => simpa [hget, Distance.isFinite] using hinfinite

end DistanceMap

namespace Corridor

variable {v : View} {goal n m : Node} {cap : ℕ}

/-- All that lies on the way from a node to the goal, found by two walks that know nothing of each other. -/
def shared (v : View) (goal n : Node) : List Node :=
  (v.descendants n none).filter (v.ancestors goal).contains

theorem mem_shared : m ∈ shared v goal n ↔ v.Reaches n m ∧ v.Reaches m goal := by
  rw [shared, List.mem_filter, View.mem_descendants_none, List.contains_iff_mem,
    View.mem_ancestors_iff_reaches]

/-- The walk that enters ancestors of the goal alone finds what both walks find. -/
theorem perm_shared (hn : v.Reaches n goal) :
    (v.descendantsWhere (v.ancestors goal).contains n none).Perm (shared v goal n) := by
  have hdescendants : (v.descendants n none).Nodup := (View.descending_descendantsWhere _ _).nodup
  refine (List.perm_ext_iff_of_nodup (View.descending_descendantsWhere _ _).nodup
    (hdescendants.filter _)).mpr ?_
  intro m
  rw [View.mem_descendantsWhere_none, View.reachesThrough_ancestors hn]
  exact mem_shared.symm

theorem subgraph_eq (hn : v.Reaches n goal) (hcap : (shared v goal n).length < cap) :
    (ofGoal v goal cap).subgraph n = v.descendantsWhere (v.ancestors goal).contains n none := by
  rw [← (perm_shared hn).length_eq] at hcap
  exact View.descendantsWhere_of_length_le (hcap.le.trans (le_max_left _ _))

end Corridor

namespace Evaluator

theorem complexityOf_eq_none {ev : Evaluator} {site : Address} :
    ev.complexityOf site = none ↔
      .anywhere ∉ ev.view.succ (.block site) ∧ (ev.block.get (.block site)).isFinite = false := by
  unfold complexityOf
  split
  · simp [*]
  · split <;> simp [*]

/-- If the cap is beyond all that lies between a node and the goal, the subgraph of that node is what its
descendants and the ancestors of the goal have in common, which are the nodes on the walks from there to
the goal. Distances to the goal in blocks and in instructions are both finite at its ancestors and nowhere
else. Hence a site has no complexity just if it neither reaches the goal nor may go anywhere. -/
theorem subgraph_exact (v : View) (goal : Node) (cap : ℕ) :
    (∀ n ∈ v.ancestors goal,
      ((v.descendants n none).filter (v.ancestors goal).contains).length < cap →
        ((Corridor.ofGoal v goal cap).subgraph n).Perm
          ((v.descendants n none).filter (v.ancestors goal).contains) ∧
        ∀ m, m ∈ (Corridor.ofGoal v goal cap).subgraph n ↔
          ∃ r, v.Walk goal (n :: r) ∧ m ∈ n :: r) ∧
    (goal ∈ v.nodes → ∃ ev, ofView v goal cap = .ok ev ∧ ev.corridor = .ofGoal v goal cap ∧
      (∀ n, ((ev.block.get n).isFinite = true ↔ (ev.instr.get n).isFinite = true) ∧
        ((ev.instr.get n).isFinite = true ↔ n ∈ ev.corridor.ancestors)) ∧
      ∀ site, .block site ∈ v.nodes → ∃ metric, ev.measure site = .ok metric ∧
        (metric.complexity = none ↔
          ¬ v.Reaches (.block site) goal ∧ .anywhere ∉ v.succ (.block site))) := by
  constructor
  · intro n hn hcap
    have hreaches := View.mem_ancestors_iff_reaches.mp hn
    have hperm := Corridor.perm_shared hreaches
    rw [← Corridor.subgraph_eq hreaches hcap] at hperm
    refine ⟨hperm, ?_⟩
    intro m
    rw [View.exists_walk_through, hperm.mem_iff]
    exact Corridor.mem_shared
  · intro hgoal
    obtain ⟨ev, hev, hcorridor, hblock, hinstr⟩ : ∃ ev, ofView v goal cap = .ok ev ∧
        ev.corridor = .ofGoal v goal cap ∧ ev.block = .toGoal v .block goal ∧
          ev.instr = .toGoal v .instr goal :=
      ⟨_, ofView_eq_ok hgoal cap, rfl, rfl, rfl⟩
    have hview : ev.view = v := by rw [view, hcorridor, Corridor.ofGoal]
    refine ⟨ev, hev, hcorridor, ?_, ?_⟩
    · intro n
      rw [hblock, hinstr, hcorridor, DistanceMap.isFinite_toGoal, DistanceMap.isFinite_toGoal]
      exact ⟨Iff.rfl, Iff.rfl⟩
    · intro site hsite
      obtain ⟨metric, hmetric⟩ := exists_measure (hview ▸ hsite)
      refine ⟨metric, hmetric, ?_⟩
      rw [complexity_of_measure hmetric, complexityOf_eq_none, hview, hblock, ← Bool.not_eq_true,
        DistanceMap.isFinite_toGoal, View.mem_ancestors_iff_reaches, and_comm]

/-- Block 1 leads to block 2, which leads back and on to the gate 4, and into a loop of the blocks 3 and
5 that is never left. -/
def sideLoop : Graph where
  blocks := ⟨[(1, { size := 4, instrs := 1 }), (2, { size := 4, instrs := 1 }),
    (3, { size := 4, instrs := 1 }), (4, { size := 2, instrs := 1, terminator := some .syscall }),
    (5, { size := 4, instrs := 1 })], by decide⟩
  flows := ⟨[(⟨.block 1, .block 2⟩, { kind := .jumpDirect }),
    (⟨.block 1, .block 3⟩, { kind := .jumpDirect }), (⟨.block 2, .block 1⟩, { kind := .jumpDirect }),
    (⟨.block 2, .block 4⟩, { kind := .jumpDirect }), (⟨.block 3, .block 5⟩, { kind := .jumpDirect }),
    (⟨.block 4, .sink⟩, { kind := .syscall }), (⟨.block 5, .block 3⟩, { kind := .jumpDirect })],
    by decide⟩
  hasSink := true
  source_mem := by simp [Table.keys]
  target_mem := by simp [Table.keys]

theorem ancestors_sideLoop : (sideLoop.view .ascending).ancestors .sink =
    [.block 1, .block 2, .block 4, .sink] := by
  have hsink : (sideLoop.view .ascending).pred .sink = [.block 4] := by decide
  have hfour : (sideLoop.view .ascending).pred (.block 4) = [.block 2] := by decide
  have htwo : (sideLoop.view .ascending).pred (.block 2) = [.block 1] := by decide
  have hone : (sideLoop.view .ascending).pred (.block 1) = [.block 2] := by decide
  simp [View.ancestors, View.ancestorsExcluding, View.climb, View.Frame.ofPred, View.entryMode?,
    View.trailTo, ForbiddenRoutes.maxLength_empty, hsink, hfour, htwo, hone]

theorem descendants_sideLoop : (sideLoop.view .ascending).descendants (.block 1) none =
    [.block 5, .block 3, .sink, .block 4, .block 2, .block 1] := by
  have hone : (sideLoop.view .ascending).succ (.block 1) = [.block 2, .block 3] := by decide
  have htwo : (sideLoop.view .ascending).succ (.block 2) = [.block 1, .block 4] := by decide
  have hthree : (sideLoop.view .ascending).succ (.block 3) = [.block 5] := by decide
  have hfour : (sideLoop.view .ascending).succ (.block 4) = [.sink] := by decide
  have hfive : (sideLoop.view .ascending).succ (.block 5) = [.block 3] := by decide
  have hsink : (sideLoop.view .ascending).succ .sink = [] := by decide
  simp [View.descendants, View.descendantsWhere, View.descend, View.Frame.ofSucc, hone, htwo, hthree,
    hfour, hfive, hsink]

/-- With room for one node more than lie on the way, the loop is left out and nothing else is. -/
theorem subgraph_exact_sideLoop :
    Node.block 1 ∈ (sideLoop.view .ascending).ancestors .sink ∧
    Node.sink ∈ (sideLoop.view .ascending).nodes ∧
    ((Corridor.ofGoal (sideLoop.view .ascending) .sink 5).subgraph (.block 1)).Perm
      [.block 1, .block 2, .block 4, .sink] ∧
    ∃ ev metric, ofView (sideLoop.view .ascending) .sink 5 = .ok ev ∧ ev.measure 3 = .ok metric ∧
      metric.complexity = none := by
  have hshared : ((sideLoop.view .ascending).descendants (.block 1) none).filter
      ((sideLoop.view .ascending).ancestors .sink).contains = [.sink, .block 4, .block 2, .block 1] := by
    rw [ancestors_sideLoop, descendants_sideLoop]
    decide
  have hmem : Node.block 1 ∈ (sideLoop.view .ascending).ancestors .sink := by
    simp [ancestors_sideLoop]
  have hsink : Node.sink ∈ (sideLoop.view .ascending).nodes := by decide
  obtain ⟨hsubgraph, hevaluated⟩ := subgraph_exact (sideLoop.view .ascending) .sink 5
  obtain ⟨hperm, -⟩ := hsubgraph _ hmem (by rw [hshared]; decide)
  obtain ⟨ev, hev, -, -, hmeasured⟩ := hevaluated hsink
  obtain ⟨metric, hmetric, hnone⟩ := hmeasured 3 (by decide)
  have hcut : ¬ (sideLoop.view .ascending).Reaches (.block 3) .sink := by
    rw [← View.mem_ancestors_iff_reaches, ancestors_sideLoop]
    decide
  rw [hshared] at hperm
  exact ⟨hmem, hsink, hperm.trans (by decide), ev, metric, hev, hmetric,
    hnone.mpr ⟨hcut, by decide⟩⟩

end Evaluator
end CfiSlack
