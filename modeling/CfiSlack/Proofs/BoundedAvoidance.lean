import CfiSlack.Proofs.PrunedAncestors

/-!
# Avoiding blocks by short routes

With a limit on their length the forbidden routes no longer settle which nodes are left, since the walk
enters a node once. Whether a predecessor of a node is lost is decided by the route along which the node
was first reached, and so by the order of enumeration. A node is lost in every order just if each of its
simple routes has a forbidden end.
-/
namespace CfiSlack.View

variable {v u : View} {goal n : Node} {forbidden : ForbiddenRoutes} {trail : Route}

/-! ### An order that follows a route -/

theorem mem_climb {stack : List (Frame v)} {visited : List Node} (h : n ∈ visited) :
    n ∈ v.climb forbidden trail stack visited := by
  induction trail, stack, visited using climb.induct v forbidden with
  | case1 trail visited =>
    rw [climb]
    exact h
  | case2 trail depth within stack visited ih =>
    rw [climb]
    exact ih h
  | case3 trail depth n rest within stack visited frame hn ih =>
    rw [climb, dif_pos hn]
    exact ih h
  | case4 trail depth n rest within stack visited frame hn hentry ih =>
    rw [climb, dif_neg hn, hentry]
    exact ih h
  | case5 trail depth n rest within stack visited frame hn next hentry ih =>
    rw [climb, dif_neg hn, hentry]
    exact ih (List.mem_cons_of_mem n h)

theorem exists_climb_of_enter {f : Frame v} {visited rest : List Node} {next : Option ℕ}
    (stack : List (Frame v)) (hf : f.pending = n :: rest) (hn : n ∉ visited)
    (hentry : entryMode? forbidden (trailTo trail f.depth n) f.depth = some next) :
    ∃ g, v.climb forbidden trail (f :: stack) visited =
      v.climb forbidden (trailTo trail f.depth n) (.ofPred v n next :: g :: stack) (n :: visited) := by
  obtain ⟨depth, pending, within⟩ := f
  cases hf
  rw [climb, dif_neg hn, hentry]
  exact ⟨_, rfl⟩

/-- Where the first neighbour to be looked at is always the one before on an admissible route, the walk
goes along the route. -/
theorem mem_climb_of_route {q t : Route} {m : Node} {depth : Option ℕ} {stack : List (Frame v)}
    {visited : List Node} (htracks : Tracks forbidden trail depth (m :: t))
    (hadm : v.Admissible goal forbidden (q ++ m :: t)) (hnew : ∀ k ∈ q, k ∉ visited)
    (hfirst : ∀ a b, [a, b] <:+: q ++ m :: t → ∃ rest, v.pred b = a :: rest) (hn : n ∈ q) :
    n ∈ v.climb forbidden trail (.ofPred v m depth :: stack) visited := by
  induction q using List.reverseRecOn generalizing m t trail depth stack visited with
  | nil => cases hn
  | append_singleton q a ih =>
    rw [List.append_assoc, List.singleton_append] at hadm hfirst
    obtain ⟨rest, hpred⟩ := hfirst a m ⟨q, t, by simp⟩
    -- the frame of `m` looks at `a` first, and `a` completes no forbidden route
    have hclear : a :: m :: t ∉ forbidden.routes :=
      hadm.clear _ (List.suffix_append q _) (by simp)
    obtain ⟨next, hentry⟩ :
        ∃ next, entryMode? forbidden (trailTo trail depth a) depth = some next :=
      Option.ne_none_iff_exists'.mp fun hnone => hclear (htracks.completes hnone)
    obtain ⟨g, hclimb⟩ :=
      exists_climb_of_enter (f := .ofPred v m depth) stack hpred (hnew a (by simp)) hentry
    rw [hclimb]
    rcases List.mem_append.mp hn with hn | hn
    · refine ih (htracks.entry hentry).2 hadm ?_ hfirst hn
      intro k hk hmem
      rcases List.mem_cons.mp hmem with rfl | hmem
      · exact List.disjoint_of_nodup_append hadm.nodup hk List.mem_cons_self
      · exact hnew k (List.mem_append_left _ hk) hmem
    · rw [List.mem_singleton.mp hn]
      exact mem_climb List.mem_cons_self

/-- The same edges, where the neighbour before a node on the route is the first to be looked at. -/
def favoring (v : View) (r : Route) : View :=
  { v with
    pred := fun n => (v.pred n).filter (fun m => [m, n] <:+: r) ++
      (v.pred n).filter (fun m => !([m, n] <:+: r))
    pred_nodup := fun n => (List.filter_append_perm _ _).nodup_iff.mpr (v.pred_nodup n)
    mem_pred := fun m n => (List.filter_append_perm _ _).mem_iff.trans (v.mem_pred m n)
    inDegree_eq := fun n => (v.inDegree_eq n).trans (List.filter_append_perm _ _).length_eq.symm }

theorem mem_pred_favoring {m : Node} {r : Route} : m ∈ (v.favoring r).pred n ↔ m ∈ v.pred n :=
  (List.filter_append_perm _ _).mem_iff

/-- On a simple route one node at most comes before a node. -/
theorem eq_of_adjacent {a b : Node} {r : Route} (hr : r.Nodup) (ha : [a, n] <:+: r)
    (hb : [b, n] <:+: r) : a = b := by
  obtain ⟨s, t, rfl⟩ := ha
  obtain ⟨s', t', heq⟩ := hb
  have hsplit : (s ++ [a]) ++ n :: t = (s' ++ [b]) ++ n :: t' := by simpa using heq.symm
  have hnodup : ((s ++ [a]) ++ n :: t).Nodup := by simpa using hr
  have hbefore : n ∉ s ++ [a] := fun hmem =>
    List.disjoint_of_nodup_append hnodup hmem List.mem_cons_self
  have hafter : n ∉ t := (List.nodup_cons.mp hnodup.of_append_right).1
  obtain ⟨hsame, -, -⟩ := (List.append_cons_inj_of_notMem hbefore hafter).mp hsplit
  exact (List.append_singleton_inj.mp hsame).2

theorem exists_pred_favoring {m : Node} {r : Route} (hr : r.Nodup) (hm : m ∈ v.pred n)
    (hadjacent : [m, n] <:+: r) : ∃ rest, (v.favoring r).pred n = m :: rest := by
  have hmem : m ∈ (v.pred n).filter fun k => [k, n] <:+: r := by simp [hm, hadjacent]
  obtain ⟨k, rest, hlist⟩ := List.exists_cons_of_ne_nil (List.ne_nil_of_mem hmem)
  have hk : k ∈ (v.pred n).filter fun k => [k, n] <:+: r := hlist ▸ List.mem_cons_self
  obtain rfl : k = m := by
    refine eq_of_adjacent hr ?_ hadjacent
    simpa using (List.mem_filter.mp hk).2
  exact ⟨_, congrArg (· ++ _) hlist⟩

theorem Walk.mem_succ_of_adjacent {a b : Node} {r : Route} (h : v.Walk goal r)
    (hadjacent : [a, b] <:+: r) : b ∈ v.succ a := by
  obtain ⟨s, t, rfl⟩ := hadjacent
  rw [List.append_assoc] at h
  exact (h.suffix (List.suffix_append s _) (by simp)).tail.1

/-- An admissible route is found by the walk that follows it. -/
theorem Admissible.mem_favoring {r : Route} (h : (v.favoring r).Admissible goal forbidden r)
    (hn : n ∈ r) : n ∈ (v.favoring r).ancestorsExcluding goal forbidden := by
  have hfirst : ∀ a b, [a, b] <:+: r → ∃ rest, (v.favoring r).pred b = a :: rest := by
    intro a b hadjacent
    have hsucc := h.walk.mem_succ_of_adjacent hadjacent
    exact exists_pred_favoring h.nodup ((v.mem_pred a b).mpr hsucc) hadjacent
  obtain ⟨q, rfl⟩ := h.walk.goal_suffix
  rcases List.mem_append.mp hn with hn | hn
  · refine mem_climb_of_route (Or.inl ⟨rfl, List.suffix_refl _⟩) h ?_ hfirst hn
    intro k hk hgoal
    exact List.disjoint_of_nodup_append h.nodup hk hgoal
  · rw [List.mem_singleton.mp hn]
    exact goal_mem_ancestorsExcluding

/-! ### Routes of limited length -/

variable {avoid : List Address} {d : ℕ}

section Order

variable {g : Graph} (hv : v.Lists g) (hu : u.Lists g)
include hv hu

theorem Lists.mem_routesFrom_iff {r : Route} :
    r ∈ (v.routesFrom avoid (some d)).routes ↔ r ∈ (u.routesFrom avoid (some d)).routes := by
  rw [mem_routesFrom, mem_routesFrom, hv.walk_iff hu, Option.getD_some, Option.getD_some]

theorem Lists.admissible {r : Route} (h : v.Admissible .sink (v.routesFrom avoid (some d)) r) :
    u.Admissible .sink (u.routesFrom avoid (some d)) r where
  walk := (hv.walk_iff hu).mp h.walk
  nodup := h.nodup
  clear t ht hlength hmem := h.clear t ht hlength ((hv.mem_routesFrom_iff hu).mpr hmem)

end Order

/-- A node with a simple route of which no end is forbidden is kept in one order at least. -/
theorem Lists.exists_kept_iff {g : Graph} (hv : v.Lists g) :
    (∃ r, v.Admissible .sink (v.routesFrom avoid (some d)) (n :: r)) ↔
      n ∈ v.ancestors .sink ∧ ∃ u : View, u.Lists g ∧ n ∉ (u.pathsReport avoid (some d)).excluded := by
  constructor
  · rintro ⟨r, hr⟩
    have hu : (v.favoring (n :: r)).Lists g := fun a b => mem_pred_favoring.trans (hv a b)
    refine ⟨mem_ancestors.mpr ⟨r, hr.walk⟩, _, hu, ?_⟩
    intro hexcluded
    exact (mem_excluded_iff.mp hexcluded).2 ((hv.admissible hu hr).mem_favoring List.mem_cons_self)
  · rintro ⟨hn, u, hu, hkept⟩
    have hmem : n ∈ u.ancestorsExcluding .sink (u.routesFrom avoid (some d)) := by
      by_contra hlost
      exact hkept (mem_excluded_iff.mpr ⟨(hv.mem_ancestors_iff hu).mp hn, hlost⟩)
    obtain ⟨r, hr⟩ := exists_admissible_of_mem hmem
    exact ⟨r, hu.admissible hv hr⟩

end CfiSlack.View

namespace CfiSlack.Session

open View

/-- In every order of enumeration the routes of at most `d` edges from the blocks to avoid are forbidden,
and a predecessor of a node that is left is lost only if it makes the first route of that node a forbidden
one. So a node is left in every order if a walk leads from it to the sink of which no edge starts a
forbidden route; and it is left in some order exactly if it has a simple route without a forbidden end. -/
theorem bounded_paths_exact (s : Session) (avoid : List Address) (d : ℕ) (v : View)
    (hv : v.Lists s.graph) :
    (∀ r, r ∈ (v.routesFrom avoid (some d)).routes ↔ v.Walk .sink r ∧ r.Nodup ∧
      r.length ≤ max 1 d + 1 ∧ ∃ a ∈ avoid, ∃ t : Route, r = .block a :: t ∧ t.Avoids avoid) ∧
    (∃ kept first, v.FirstRoutes .sink (v.routesFrom avoid (some d)) kept first ∧
      ∀ n, n ∈ (v.pathsReport avoid (some d)).excluded ↔ n ∈ v.ancestors .sink ∧ n ∉ kept) ∧
    (∀ n r, v.Walk .sink (n :: r) →
      (∀ p m t, p :: m :: t <:+ n :: r → ∀ q, p :: m :: q ∉ (v.routesFrom avoid (some d)).routes) →
        n ∉ (v.pathsReport avoid (some d)).excluded) ∧
    ∀ n, (∃ r, v.Admissible .sink (v.routesFrom avoid (some d)) (n :: r)) ↔
      n ∈ v.ancestors .sink ∧
        ∃ u : View, u.Lists s.graph ∧ n ∉ (u.pathsReport avoid (some d)).excluded := by
  refine ⟨fun r => mem_routesFrom, ?_, ?_, fun n => hv.exists_kept_iff⟩
  · obtain ⟨first, hfirst⟩ := firstRoutes_ancestorsExcluding v .sink (v.routesFrom avoid (some d))
    exact ⟨_, first, hfirst, fun n => mem_excluded_iff⟩
  · intro n r hwalk hclear hexcluded
    exact (mem_excluded_iff.mp hexcluded).2 (hwalk.mem_ancestorsExcluding hclear)

/-- Block 1 is a gate and leads to the gate 2, and block 3 leads to block 1. -/
def shortcut : Session where
  graph :=
    { blocks := ⟨[(1, { size := 2, instrs := 1, terminator := some .syscall }),
        (2, { size := 2, instrs := 1, terminator := some .syscall }),
        (3, { size := 4, instrs := 1 })], by decide⟩
      flows := ⟨[(⟨.block 1, .block 2⟩, { kind := .jumpDirect }),
        (⟨.block 3, .block 1⟩, { kind := .jumpDirect }),
        (⟨.block 1, .sink⟩, { kind := .syscall }),
        (⟨.block 2, .sink⟩, { kind := .syscall })], by decide⟩
      hasSink := true
      source_mem := by simp [Table.keys]
      target_mem := by simp [Table.keys] }
  functions := .empty

theorem routes_shortcut : ((shortcut.graph.view .ascending).routesFrom [3] (some 2)).routes =
    [[.block 3, .block 1, .sink]] := by decide +kernel

theorem admissible_shortcut : (shortcut.graph.view .ascending).Admissible .sink
    ((shortcut.graph.view .ascending).routesFrom [3] (some 2))
    [.block 3, .block 1, .block 2, .sink] where
  walk := .step (Graph.mem_succ_view.mpr (by decide)) (.step (Graph.mem_succ_view.mpr (by decide))
    (.step (Graph.mem_succ_view.mpr (by decide)) .here))
  nodup := by decide
  clear t ht _ hmem := by
    rw [routes_shortcut] at hmem
    cases List.mem_singleton.mp hmem
    revert ht
    decide

theorem ancestorsExcluding_shortcut : (shortcut.graph.view .ascending).ancestorsExcluding .sink
    ((shortcut.graph.view .ascending).routesFrom [3] (some 2)) = [.block 2, .block 1, .sink] := by
  have hsink : (shortcut.graph.view .ascending).pred .sink = [.block 1, .block 2] := by decide
  have htwo : (shortcut.graph.view .ascending).pred (.block 2) = [.block 1] := by decide
  have hone : (shortcut.graph.view .ascending).pred (.block 1) = [.block 3] := by decide
  have hlength : ((shortcut.graph.view .ascending).routesFrom [3] (some 2)).maxLength = 3 := by
    decide +kernel
  have hcontains : ∀ r, ((shortcut.graph.view .ascending).routesFrom [3] (some 2)).contains r = true ↔
      r = [.block 3, .block 1, .sink] := by
    intro r
    rw [ForbiddenRoutes.contains_iff, routes_shortcut, List.mem_singleton]
  simp [View.ancestorsExcluding, View.climb, View.Frame.ofPred, View.entryMode?, View.trailTo, hsink,
    hone, htwo, hlength, hcontains]

/-- The walk meets block 1 first from the sink, and block 3 then completes the forbidden route. The way
from block 3 through both gates is not forbidden. -/
theorem excluded_with_route_left_shortcut :
    (∃ r, (shortcut.graph.view .ascending).Admissible .sink
      ((shortcut.graph.view .ascending).routesFrom [3] (some 2)) (.block 3 :: r)) ∧
    Node.block 3 ∈ (shortcut.paths [3] (some 2)).excluded := by
  have hancestor := ((lists_view shortcut.graph .ascending).exists_kept_iff.mp
    ⟨_, admissible_shortcut⟩).1
  refine ⟨⟨_, admissible_shortcut⟩, mem_excluded_iff.mpr ⟨hancestor, ?_⟩⟩
  rw [ancestorsExcluding_shortcut]
  decide

theorem bounded_paths_exact_shortcut :
    (shortcut.graph.view .ascending).Lists shortcut.graph ∧
      Node.block 1 ∉ (shortcut.paths [3] (some 2)).excluded ∧
      ∃ u : View, u.Lists shortcut.graph ∧
        Node.block 3 ∉ (u.pathsReport [3] (some 2)).excluded := by
  have hlists := lists_view shortcut.graph .ascending
  obtain ⟨hroutes, -, hleft, hsome⟩ := bounded_paths_exact shortcut [3] 2 _ hlists
  refine ⟨hlists, ?_, ((hsome (.block 3)).mp ⟨_, admissible_shortcut⟩).2⟩
  refine hleft (.block 1) [.sink] (.step (Graph.mem_succ_view.mpr (by decide)) .here) ?_
  intro p m t hsuffix q hq
  obtain ⟨-, -, -, a, ha, r, heq, -⟩ := (hroutes _).mp hq
  obtain ⟨rfl, -⟩ := List.cons.inj heq
  cases List.mem_singleton.mp ha
  have hstart : Node.block 3 ∈ [Node.block 1, .sink] := hsuffix.mem List.mem_cons_self
  revert hstart
  decide

end CfiSlack.Session
