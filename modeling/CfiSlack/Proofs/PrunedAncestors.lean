import CfiSlack.Proofs.Avoidance
import Mathlib.Data.List.Basic
import Mathlib.Logic.Relation

/-!
# Pruned ancestors

Whatever routes are forbidden, the backward walk keeps only nodes that have a simple route to the
goal with no forbidden end, and it loses a predecessor of a node that it keeps only where a forbidden
route starts with that predecessor. Nothing forbidden, it finds the backward closure of the goal. A
report on blocks to avoid therefore splits the ancestors into those that are kept and those that are
excluded.
-/
namespace CfiSlack.View

variable {v : View} {goal n : Node} {forbidden : ForbiddenRoutes}

/-- The edges of the view lead from the one node to the other, in any number of steps. -/
def Reaches (v : View) : Node → Node → Prop :=
  Relation.ReflTransGen fun m n => n ∈ v.succ m

theorem Walk.reaches {r : Route} (h : v.Walk goal (n :: r)) : v.Reaches n goal := by
  induction r generalizing n with
  | nil =>
    cases h
    exact Relation.ReflTransGen.refl
  | cons m r ih =>
    obtain ⟨hedge, hrest⟩ := h.tail
    exact Relation.ReflTransGen.head hedge (ih hrest)

theorem Reaches.exists_walk (h : v.Reaches n goal) : ∃ r, v.Walk goal (n :: r) := by
  induction h using Relation.ReflTransGen.head_induction_on with
  | refl => exact ⟨[], Walk.here⟩
  | @head m k hedge _ ih =>
    obtain ⟨r, hr⟩ := ih
    exact ⟨k :: r, Walk.step hedge hr⟩

theorem mem_ancestors_iff_reaches : n ∈ v.ancestors goal ↔ v.Reaches n goal := by
  rw [mem_ancestors]
  exact ⟨fun ⟨_, hr⟩ => hr.reaches, Reaches.exists_walk⟩

theorem ancestorsExcluding_subset : v.ancestorsExcluding goal forbidden ⊆ v.ancestors goal := by
  intro n hn
  obtain ⟨r, hr⟩ := exists_admissible_of_mem hn
  exact mem_ancestors.mpr ⟨r, hr.walk⟩

/-- The kept ancestors and the excluded ones together are all ancestors, each counted once. -/
theorem ancestors_add_excluded (v : View) (avoid : List Address) (depth : Option ℕ) :
    (v.pathsReport avoid depth).ancestors + (v.pathsReport avoid depth).excluded.length =
      (v.pathsReport avoid depth).naiveAncestors := by
  let pruned := v.ancestorsExcluding .sink (v.routesFrom avoid depth)
  have hkept : ((v.ancestors .sink).filter fun n => pruned.contains n).Perm pruned := by
    refine (List.perm_ext_iff_of_nodup (nodup_ancestors.filter _) nodup_ancestorsExcluding).mpr ?_
    intro n
    rw [List.mem_filter, List.contains_iff_mem]
    exact and_iff_right_of_imp fun hn => ancestorsExcluding_subset hn
  have hlost : (Ascending.ofList ((v.ancestors .sink).filter fun n => !pruned.contains n)).Perm
      ((v.ancestors .sink).filter fun n => !pruned.contains n) :=
    Enumeration.ascending.perm_list (nodup_ancestors.filter _)
  calc (v.pathsReport avoid depth).ancestors + (v.pathsReport avoid depth).excluded.length
      = ((v.ancestors .sink).filter fun n => pruned.contains n).length +
          ((v.ancestors .sink).filter fun n => !pruned.contains n).length := by
        rw [hkept.length_eq, ← hlost.length_eq]
        rfl
    _ = (v.ancestors .sink).length := (List.length_eq_length_filter_add _).symm

/-- What the walk keeps under any set of forbidden routes and in any order of enumeration, and what
its reports count. -/
theorem pruning_sound (v : View) (goal : Node) (forbidden : ForbiddenRoutes) :
    (v.ancestorsExcluding goal forbidden).Nodup ∧
    goal ∈ v.ancestorsExcluding goal forbidden ∧
    (∀ n ∈ v.ancestorsExcluding goal forbidden,
      n ∈ v.ancestors goal ∧ ∃ r, v.Admissible goal forbidden (n :: r)) ∧
    (∀ n ∈ v.ancestorsExcluding goal forbidden, ∀ p ∈ v.pred n,
      p ∈ v.ancestorsExcluding goal forbidden ∨ ∃ r, p :: r ∈ forbidden.routes) ∧
    (∀ n, n ∈ v.ancestorsExcluding goal .empty ↔ v.Reaches n goal) ∧
    ∀ avoid depth,
      (v.pathsReport avoid depth).ancestors + (v.pathsReport avoid depth).excluded.length =
        (v.pathsReport avoid depth).naiveAncestors := by
  refine ⟨nodup_ancestorsExcluding, goal_mem_ancestorsExcluding, ?_, ?_, ?_, ?_⟩
  · intro n hn
    exact ⟨ancestorsExcluding_subset hn, exists_admissible_of_mem hn⟩
  · intro n hn p hp
    exact pred_mem_ancestorsExcluding hn hp
  · intro n
    exact mem_ancestors_iff_reaches
  · intro avoid depth
    exact ancestors_add_excluded v avoid depth

/-- The way from block 1 through block 2 is forbidden, and is still on the trail when the walk turns
to block 3. -/
theorem pruning_sound_detour :
    (Session.detour.graph.view .ascending).ancestorsExcluding .sink
        (.ofRoutes [[.block 1, .block 2, .block 4, .sink]]) =
      [.block 1, .block 3, .block 2, .block 4, .sink] ∧
    ∃ r, (Session.detour.graph.view .ascending).Admissible .sink
      (.ofRoutes [[.block 1, .block 2, .block 4, .sink]]) (.block 1 :: r) := by
  have hkept : (Session.detour.graph.view .ascending).ancestorsExcluding .sink
      (.ofRoutes [[.block 1, .block 2, .block 4, .sink]]) =
        [.block 1, .block 3, .block 2, .block 4, .sink] := by
    have hsink : (Session.detour.graph.view .ascending).pred .sink = [.block 4] := by decide
    have hfour : (Session.detour.graph.view .ascending).pred (.block 4) = [.block 2, .block 3] := by
      decide
    have hthree : (Session.detour.graph.view .ascending).pred (.block 3) = [.block 1] := by decide
    have htwo : (Session.detour.graph.view .ascending).pred (.block 2) = [.block 1] := by decide
    have hone : (Session.detour.graph.view .ascending).pred (.block 1) = [] := by decide
    have hlength :
        (ForbiddenRoutes.ofRoutes [[.block 1, .block 2, .block 4, .sink]]).maxLength = 4 := by decide
    have hcontains : ∀ r,
        (ForbiddenRoutes.ofRoutes [[.block 1, .block 2, .block 4, .sink]]).contains r = true ↔
          r = [.block 1, .block 2, .block 4, .sink] := by
      intro r
      rw [ForbiddenRoutes.contains_iff, ForbiddenRoutes.mem_ofRoutes, List.mem_singleton]
    simp [ancestorsExcluding, climb, Frame.ofPred, entryMode?, trailTo, hsink, hfour, hthree, htwo,
      hone, hlength, hcontains]
  obtain ⟨-, -, hsound, -⟩ := pruning_sound (Session.detour.graph.view .ascending) .sink
    (.ofRoutes [[.block 1, .block 2, .block 4, .sink]])
  exact ⟨hkept, (hsound (.block 1) (by simp [hkept])).2⟩

end CfiSlack.View
