import CfiSlack.Proofs.Ancestors
import CfiSlack.Session

/-!
# Avoiding blocks is exact

Without a limit on their length, the forbidden routes are exactly the simple routes that start at a
block to avoid and meet no other. A route is then free of forbidden ends just if it meets no block to
avoid, so the pruned walk finds the nodes with such a route and nothing else, in whatever order it
enumerates neighbours.
-/
namespace CfiSlack

/-- The route passes through none of the blocks. -/
def Route.Avoids (r : Route) (avoid : List Address) : Prop := ∀ a ∈ avoid, Node.block a ∉ r

namespace Route

variable {avoid : List Address}

theorem avoids_nil : Avoids [] avoid := by simp [Avoids]

theorem avoids_cons {n : Node} {r : Route} :
    Avoids (n :: r) avoid ↔ (∀ a ∈ avoid, n ≠ .block a) ∧ r.Avoids avoid := by
  simp only [Avoids, List.mem_cons, not_or]
  constructor
  · intro h
    exact ⟨fun a ha heq => (h a ha).1 heq.symm, fun a ha => (h a ha).2⟩
  · rintro ⟨h, hr⟩ a ha
    exact ⟨fun heq => h a ha heq.symm, hr a ha⟩

theorem Avoids.suffix {r s : Route} (h : r.Avoids avoid) (hs : s <:+ r) : s.Avoids avoid := by
  intro a ha hmem
  exact h a ha (hs.mem hmem)

end Route

theorem avoidance_eq_accept {avoid : List Address} {r : Route} :
    avoidance avoid r = .accept ↔ ∃ a ∈ avoid, ∃ t, r = .block a :: t := by
  unfold avoidance
  cases r with
  | nil => simp
  | cons n t => cases n <;> simp

theorem avoidance_eq_extend {avoid : List Address} {r : Route} (h : r.Avoids avoid) :
    avoidance avoid r = .extend := by
  have hne : avoidance avoid r ≠ .accept := by
    intro hacc
    obtain ⟨a, ha, t, rfl⟩ := avoidance_eq_accept.mp hacc
    exact h a ha List.mem_cons_self
  revert hne
  unfold avoidance
  split <;> simp

namespace View

variable {v u : View} {avoid : List Address}

/-- A walk to the sink that starts at a block has an edge. -/
theorem Walk.two_le_length {a : Address} {t : Route} (h : v.Walk .sink (.block a :: t)) :
    2 ≤ (Node.block a :: t).length := by
  cases h with
  | step => simp

/-- The forbidden routes start at a block to avoid, meet no other, and keep to the limit. -/
theorem mem_routesFrom {depth : Option ℕ} {r : Route} :
    r ∈ (v.routesFrom avoid depth).routes ↔ v.Walk .sink r ∧ r.Nodup ∧
      r.length ≤ max 1 (depth.getD v.nodeCount) + 1 ∧
      ∃ a ∈ avoid, ∃ t : Route, r = .block a :: t ∧ t.Avoids avoid := by
  rw [routesFrom, mem_search, mem_offered, avoidance_eq_accept]
  constructor
  · rintro ⟨⟨hoff, hlimit⟩, a, ha, t, rfl⟩
    refine ⟨hoff.walk, hoff.nodup, hlimit, a, ha, t, rfl, ?_⟩
    -- an avoided block further on would start a shorter end that was accepted, not extended
    intro b hb hmem
    obtain ⟨p, q, rfl⟩ := List.append_of_mem hmem
    have hsuffix : Node.block b :: q <:+ .block a :: (p ++ .block b :: q) := ⟨.block a :: p, by simp⟩
    have hlen := (hoff.walk.suffix hsuffix (by simp)).two_le_length
    have hshorter : (Node.block b :: q).length < (Node.block a :: (p ++ .block b :: q)).length := by
      simp only [List.length_cons, List.length_append]
      omega
    have hext := hoff.extended _ hsuffix hlen hshorter
    rw [avoidance_eq_accept.mpr ⟨b, hb, q, rfl⟩] at hext
    cases hext
  · rintro ⟨hwalk, hnodup, hlimit, a, ha, t, rfl, havoids⟩
    refine ⟨⟨⟨hwalk, hnodup, hwalk.two_le_length, ?_⟩, hlimit⟩, a, ha, t, rfl⟩
    intro s hs _ hlt
    rcases List.suffix_cons_iff.mp hs with rfl | hs
    · exact absurd hlt (lt_irrefl _)
    · exact avoidance_eq_extend (havoids.suffix hs)

theorem mem_routesFrom_none {r : Route} :
    r ∈ (v.routesFrom avoid none).routes ↔ v.Walk .sink r ∧ r.Nodup ∧
      ∃ a ∈ avoid, ∃ t : Route, r = .block a :: t ∧ t.Avoids avoid := by
  rw [mem_routesFrom]
  refine and_congr_right fun hwalk => and_congr_right fun hnodup => ?_
  refine and_iff_right_of_imp fun _ => ?_
  have hlength := hwalk.length_le hnodup
  simp only [Option.getD_none]
  omega

theorem Admissible.avoids {r : Route} (h : v.Admissible .sink (v.routesFrom avoid none) r) :
    r.Avoids avoid := by
  induction r with
  | nil => exact Route.avoids_nil
  | cons n t ih =>
    have htail : Route.Avoids t avoid := by
      by_cases ht : t = []
      · rw [ht]
        exact Route.avoids_nil
      · exact ih (h.tail ht)
    refine Route.avoids_cons.mpr ⟨?_, htail⟩
    rintro a ha rfl
    exact h.clear _ (List.suffix_refl _) h.walk.two_le_length
      (mem_routesFrom_none.mpr ⟨h.walk, h.nodup, a, ha, t, rfl, htail⟩)

theorem mem_ancestorsExcluding_routesFrom {n : Node} :
    n ∈ v.ancestorsExcluding .sink (v.routesFrom avoid none) ↔
      ∃ r, v.Walk .sink (n :: r) ∧ Route.Avoids (n :: r) avoid := by
  constructor
  · intro h
    obtain ⟨r, hr⟩ := exists_admissible_of_mem h
    exact ⟨r, hr.walk, hr.avoids⟩
  · rintro ⟨r, hwalk, havoids⟩
    apply hwalk.mem_ancestorsExcluding
    intro p m t hsuffix q hq
    obtain ⟨-, -, a, ha, t', heq, -⟩ := mem_routesFrom_none.mp hq
    obtain ⟨rfl, -⟩ := List.cons.inj heq
    exact havoids a ha (hsuffix.mem List.mem_cons_self)

theorem mem_excluded_iff {depth : Option ℕ} {n : Node} :
    n ∈ (v.pathsReport avoid depth).excluded ↔
      n ∈ v.ancestors .sink ∧ n ∉ v.ancestorsExcluding .sink (v.routesFrom avoid depth) := by
  simp only [pathsReport, Ascending.mem_ofList, List.mem_filter, Bool.not_eq_true',
    List.contains_eq_mem, decide_eq_false_iff_not]

theorem mem_excluded {n : Node} :
    n ∈ (v.pathsReport avoid none).excluded ↔
      n ∈ v.ancestors .sink ∧ ∀ r, v.Walk .sink (n :: r) → ¬ Route.Avoids (n :: r) avoid := by
  simp only [mem_excluded_iff, mem_ancestorsExcluding_routesFrom, not_exists, not_and]

/-- The view lists the edges of a graph, each node's neighbours in any order. -/
def Lists (v : View) (g : Graph) : Prop := ∀ m n, m ∈ v.pred n ↔ m ∈ g.predecessors n

theorem lists_view (g : Graph) (o : Enumeration) : (g.view o).Lists g := by
  intro m n
  simp [Graph.view]

section Order

variable {g : Graph} (hv : v.Lists g) (hu : u.Lists g)
include hv hu

theorem Lists.succ_iff {m n : Node} : n ∈ v.succ m ↔ n ∈ u.succ m := by
  rw [← v.mem_pred, ← u.mem_pred, hv m n, hu m n]

theorem Lists.walk_iff {goal : Node} {r : Route} : v.Walk goal r ↔ u.Walk goal r :=
  ⟨Walk.mono fun _ _ => (hv.succ_iff hu).mp, Walk.mono fun _ _ => (hv.succ_iff hu).mpr⟩

theorem Lists.mem_ancestors_iff {goal n : Node} :
    n ∈ v.ancestors goal ↔ n ∈ u.ancestors goal := by
  simp only [mem_ancestors, hv.walk_iff hu]

theorem Lists.mem_ancestorsExcluding_iff {n : Node} :
    n ∈ v.ancestorsExcluding .sink (v.routesFrom avoid none) ↔
      n ∈ u.ancestorsExcluding .sink (u.routesFrom avoid none) := by
  simp only [mem_ancestorsExcluding_routesFrom, hv.walk_iff hu]

theorem Lists.size_routesFrom_eq :
    (v.routesFrom avoid none).size = (u.routesFrom avoid none).size := by
  have hmem : ∀ r, r ∈ (v.routesFrom avoid none).routes ↔ r ∈ (u.routesFrom avoid none).routes := by
    intro r
    rw [mem_routesFrom_none, mem_routesFrom_none, hv.walk_iff hu]
  rw [ForbiddenRoutes.size_eq, ForbiddenRoutes.size_eq]
  exact ((List.perm_ext_iff_of_nodup (v.routesFrom avoid none).nodup_routes
    (u.routesFrom avoid none).nodup_routes).mpr hmem).length_eq

/-- The whole report is one for all orders, the number of forbidden routes included. -/
theorem Lists.pathsReport_eq : v.pathsReport avoid none = u.pathsReport avoid none := by
  have hpruned : (v.ancestorsExcluding .sink (v.routesFrom avoid none)).length =
      (u.ancestorsExcluding .sink (u.routesFrom avoid none)).length :=
    ((List.perm_ext_iff_of_nodup nodup_ancestorsExcluding nodup_ancestorsExcluding).mpr
      fun _ => hv.mem_ancestorsExcluding_iff hu).length_eq
  have hnaive : (v.ancestors .sink).length = (u.ancestors .sink).length :=
    ((List.perm_ext_iff_of_nodup nodup_ancestors nodup_ancestors).mpr
      fun _ => hv.mem_ancestors_iff hu).length_eq
  have hexcluded : (v.pathsReport avoid none).excluded = (u.pathsReport avoid none).excluded := by
    apply Ascending.ofList_eq_ofList.mpr
    intro n
    simp only [List.mem_filter, Bool.not_eq_true', List.contains_eq_mem, decide_eq_false_iff_not,
      hv.mem_ancestors_iff hu, hv.mem_ancestorsExcluding_iff hu]
  simp only [pathsReport, PathsReport.mk.injEq]
  exact ⟨hv.size_routesFrom_eq hu, hpruned, hnaive, hexcluded⟩

end Order

end View

namespace Session

/-- Whatever the order of enumeration, the nodes that are left are those with a walk to the sink
that meets no block to avoid, and the nodes that are excluded are the ancestors without one. -/
theorem paths_exact (s : Session) (avoid : List Address) (v : View) (hv : v.Lists s.graph) :
    (∀ n, n ∈ v.ancestorsExcluding .sink (v.routesFrom avoid none) ↔
      ∃ r, v.Walk .sink (n :: r) ∧ Route.Avoids (n :: r) avoid) ∧
    (∀ n, n ∈ v.ancestors .sink ↔ ∃ r, v.Walk .sink (n :: r)) ∧
    (∀ n, n ∈ (s.paths avoid none).excluded ↔
      n ∈ v.ancestors .sink ∧ ∀ r, v.Walk .sink (n :: r) → ¬ Route.Avoids (n :: r) avoid) ∧
    v.pathsReport avoid none = s.paths avoid none := by
  have horder : v.pathsReport avoid none = s.paths avoid none :=
    hv.pathsReport_eq (View.lists_view s.graph .ascending)
  refine ⟨fun n => View.mem_ancestorsExcluding_routesFrom, fun n => View.mem_ancestors, ?_, horder⟩
  intro n
  rw [← horder]
  exact View.mem_excluded

/-- Two ways lead from block 1 to the gate 4: one through block 2, one through block 3. -/
def detour : Session where
  graph :=
    { blocks := ⟨[(1, { size := 4, instrs := 1 }), (2, { size := 4, instrs := 1 }),
        (3, { size := 4, instrs := 1 }),
        (4, { size := 2, instrs := 1, terminator := some .syscall })], by decide⟩
      flows := ⟨[(⟨.block 1, .block 2⟩, { kind := .jumpDirect }),
        (⟨.block 1, .block 3⟩, { kind := .jumpDirect }),
        (⟨.block 2, .block 4⟩, { kind := .jumpDirect }),
        (⟨.block 3, .block 4⟩, { kind := .jumpDirect }),
        (⟨.block 4, .sink⟩, { kind := .syscall })], by decide⟩
      hasSink := true
      source_mem := by simp [Table.keys]
      target_mem := by simp [Table.keys] }
  functions := .empty

theorem paths_exact_detour :
    (detour.graph.view .descending).Lists detour.graph ∧
      (detour.graph.view .descending).pathsReport [2] none = detour.paths [2] none ∧
      Node.block 2 ∈ (detour.paths [2] none).excluded ∧
      Node.block 1 ∉ (detour.paths [2] none).excluded := by
  have hlists := View.lists_view detour.graph .descending
  obtain ⟨-, hancestors, hexcluded, horder⟩ := paths_exact detour [2] _ hlists
  have hgate : (detour.graph.view .descending).Walk .sink [.block 4, .sink] :=
    .step (Graph.mem_succ_view.mpr (by decide)) .here
  refine ⟨hlists, horder, ?_, ?_⟩
  · have hwalk : (detour.graph.view .descending).Walk .sink [.block 2, .block 4, .sink] :=
      .step (Graph.mem_succ_view.mpr (by decide)) hgate
    refine (hexcluded _).mpr ⟨(hancestors _).mpr ⟨_, hwalk⟩, ?_⟩
    intro r _ havoids
    exact havoids 2 (by simp) List.mem_cons_self
  · intro h
    have hwalk : (detour.graph.view .descending).Walk .sink [.block 1, .block 3, .block 4, .sink] :=
      .step (Graph.mem_succ_view.mpr (by decide))
        (.step (Graph.mem_succ_view.mpr (by decide)) hgate)
    exact ((hexcluded _).mp h).2 _ hwalk (by simp [Route.Avoids])

end Session
end CfiSlack
