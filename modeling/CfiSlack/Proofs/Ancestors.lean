import CfiSlack.Proofs.RouteSearch
import CfiSlack.Reach

/-!
# Ancestors of a goal

What the backward walk holds when it stops. Every node it holds was first reached along a simple route
to the goal of which no end is forbidden, although all frames share one trail and the walk forgets the
exact routes beyond the longest forbidden one; and a predecessor of a held node is held too, unless it
makes the route of that node a forbidden one. With nothing forbidden the walk finds exactly the nodes
from which a walk leads to the goal.
-/
namespace CfiSlack.View

variable {v : View} {goal : Node} {forbidden : ForbiddenRoutes} {trail : Route}

/-- A simple route to the goal of which no end of at least one edge is forbidden. -/
structure Admissible (v : View) (goal : Node) (forbidden : ForbiddenRoutes) (r : Route) :
    Prop where
  walk : v.Walk goal r
  nodup : r.Nodup
  clear : ∀ t, t <:+ r → 2 ≤ t.length → t ∉ forbidden.routes

theorem admissible_goal : v.Admissible goal forbidden [goal] where
  walk := Walk.here
  nodup := List.nodup_singleton goal
  clear t ht hlen := by
    have := ht.length_le
    simp only [List.length_singleton] at this
    omega

theorem Admissible.tail {n : Node} {r : Route} (h : v.Admissible goal forbidden (n :: r))
    (hr : r ≠ []) : v.Admissible goal forbidden r where
  walk := h.walk.suffix (List.suffix_cons n r) hr
  nodup := (List.nodup_cons.mp h.nodup).2
  clear t ht hlen := h.clear t (ht.trans (List.suffix_cons n r)) hlen

theorem Admissible.cons {n m : Node} {r : Route} (h : v.Admissible goal forbidden (m :: r))
    (hpred : n ∈ v.pred m) (hn : n ∉ m :: r) (hclear : n :: m :: r ∉ forbidden.routes) :
    v.Admissible goal forbidden (n :: m :: r) where
  walk := Walk.step ((v.mem_pred n m).mp hpred) h.walk
  nodup := List.nodup_cons.mpr ⟨hn, h.nodup⟩
  clear t ht hlen := by
    rcases List.suffix_cons_iff.mp ht with rfl | ht
    · exact hclear
    · exact h.clear t ht hlen

/-- A frame finds its exact route at the end of the trail, or has forgotten one that is longer than
every forbidden route. -/
def Tracks (forbidden : ForbiddenRoutes) (trail : Route) (depth : Option ℕ) (r : Route) : Prop :=
  depth = some r.length ∧ r <:+ trail ∨ depth = none ∧ forbidden.maxLength < r.length

theorem trailTo_of_suffix {r : Route} (h : r <:+ trail) (n : Node) :
    trailTo trail (some r.length) n = n :: r := by
  rw [trailTo, ← List.suffix_iff_eq_drop.mp h]

/-- Entering a node never completes a forbidden route, in either mode of tracking. -/
theorem Tracks.entry {depth next : Option ℕ} {n : Node} {r : Route}
    (h : Tracks forbidden trail depth r)
    (hentry : entryMode? forbidden (trailTo trail depth n) depth = some next) :
    n :: r ∉ forbidden.routes ∧ Tracks forbidden (trailTo trail depth n) next (n :: r) := by
  have hlong (hlt : forbidden.maxLength < (n :: r).length) : n :: r ∉ forbidden.routes := by
    intro hmem
    exact absurd (ForbiddenRoutes.length_le_maxLength hmem) (not_le.mpr hlt)
  rcases h with ⟨rfl, hsuffix⟩ | ⟨rfl, hlt⟩
  · rw [trailTo_of_suffix hsuffix] at hentry ⊢
    simp only [entryMode?] at hentry
    split_ifs at hentry with hlt hmem
    · cases hentry
      exact ⟨hlong hlt, Or.inr ⟨rfl, hlt⟩⟩
    · cases hentry
      refine ⟨?_, Or.inl ⟨rfl, List.suffix_refl _⟩⟩
      rwa [ForbiddenRoutes.contains_iff] at hmem
  · simp only [entryMode?] at hentry
    cases hentry
    have hlt' : forbidden.maxLength < (n :: r).length := by
      simp only [List.length_cons]
      omega
    exact ⟨hlong hlt', Or.inr ⟨rfl, hlt'⟩⟩

/-- A node is kept out only where it would complete a forbidden route. -/
theorem Tracks.completes {depth : Option ℕ} {n : Node} {r : Route}
    (h : Tracks forbidden trail depth r)
    (hentry : entryMode? forbidden (trailTo trail depth n) depth = none) :
    n :: r ∈ forbidden.routes := by
  rcases h with ⟨rfl, hsuffix⟩ | ⟨rfl, -⟩
  · rw [trailTo_of_suffix hsuffix] at hentry
    simp only [entryMode?] at hentry
    split_ifs at hentry with hlt hmem
    exact ForbiddenRoutes.contains_iff.mp hmem
  · cases hentry

/-- The nodes that the frames of a stack were made for, the last entered one first. -/
inductive Stacked (v : View) (forbidden : ForbiddenRoutes) (trail : Route) :
    List (Frame v) → Route → Prop
  | nil : Stacked v forbidden trail [] []
  | cons {f : Frame v} {stack : List (Frame v)} {n : Node} {r : Route}
      (pending : ∀ p ∈ f.pending, p ∈ v.pred n) (tracks : Tracks forbidden trail f.depth (n :: r))
      (rest : Stacked v forbidden trail stack r) : Stacked v forbidden trail (f :: stack) (n :: r)

/-- Any trail that ends with the route of the last frame serves the frames below it as well, since
their routes are ends of that one. -/
theorem Stacked.of_suffix {trail' : Route} {stack : List (Frame v)} {r : Route}
    (h : Stacked v forbidden trail stack r) (hr : r <:+ trail') :
    Stacked v forbidden trail' stack r := by
  induction h with
  | nil => exact .nil
  | cons pending tracks _ ih =>
    have htracks := tracks.imp_left fun hknown => And.intro hknown.1 hr
    exact .cons pending htracks (ih ((List.suffix_cons _ _).trans hr))

/-- Looking at a node leaves the routes of all frames on the trail. -/
theorem Stacked.look {f : Frame v} {stack : List (Frame v)} {r : Route}
    (h : Stacked v forbidden trail (f :: stack) r) (n : Node) :
    Stacked v forbidden (trailTo trail f.depth n) (f :: stack) r := by
  cases hdepth : f.depth with
  | none => exact h
  | some d =>
    cases h with
    | cons pending tracks rest =>
      rcases tracks with ⟨hknown, hsuffix⟩ | ⟨hforgot, -⟩
      · cases hdepth.symm.trans hknown
        rw [trailTo_of_suffix hsuffix]
        exact (Stacked.cons pending (Or.inl ⟨hknown, hsuffix⟩) rest).of_suffix (List.suffix_cons _ _)
      · cases hdepth.symm.trans hforgot

theorem Stacked.exists_cons {f : Frame v} {stack : List (Frame v)} {r : Route}
    (h : Stacked v forbidden trail (f :: stack) r) : ∃ m t, r = m :: t := by
  cases h with
  | cons => exact ⟨_, _, rfl⟩

/-- A frame may leave out nodes that it had pending. -/
theorem Stacked.advance {f g : Frame v} {stack : List (Frame v)} {r : Route}
    (h : Stacked v forbidden trail (f :: stack) r) (hpending : g.pending ⊆ f.pending)
    (hdepth : g.depth = f.depth) : Stacked v forbidden trail (g :: stack) r := by
  cases h with
  | cons pending tracks rest =>
    exact .cons (fun p hp => pending p (hpending hp)) (hdepth ▸ tracks) rest

/-- What holds at every moment of a backward walk, where `entered` are the nodes of its frames and
`first n` is the way on from a node `n` when it was first reached. -/
structure Climbing (v : View) (goal : Node) (forbidden : ForbiddenRoutes) (trail : Route)
    (stack : List (Frame v)) (visited : List Node) (entered : Route) (first : Node → Route) :
    Prop where
  stacked : Stacked v forbidden trail stack entered
  entered_first : ∀ n r, n :: r <:+ entered → n ∈ visited ∧ first n = r
  sound : ∀ n ∈ visited, v.Admissible goal forbidden (n :: first n)
  linked : ∀ n ∈ visited, first n = [] ∨ ∃ m ∈ visited, first n = m :: first m
  nodup : visited.Nodup
  goal_mem : goal ∈ visited
  closed : ∀ n ∈ visited, ∀ p ∈ v.pred n, p ∈ visited ∨
    (∃ f, (f, n) ∈ stack.zip entered ∧ p ∈ f.pending) ∨ p :: n :: first n ∈ forbidden.routes

theorem climbing_start :
    Climbing v goal forbidden [goal] [.ofPred v goal (some 1)] [goal] [goal] fun _ => [] where
  stacked := .cons (fun _ h => h) (Or.inl ⟨rfl, List.suffix_refl _⟩) .nil
  entered_first n r h := by
    rcases List.suffix_cons_iff.mp h with heq | hnil
    · cases heq
      exact ⟨List.mem_cons_self, rfl⟩
    · cases List.suffix_nil.mp hnil
  sound n hn := by
    rw [List.mem_singleton.mp hn]
    exact admissible_goal
  linked _ _ := Or.inl rfl
  nodup := List.nodup_singleton goal
  goal_mem := List.mem_singleton_self goal
  closed n hn p hp := by
    rw [List.mem_singleton.mp hn] at hp ⊢
    exact Or.inr (Or.inl ⟨_, List.mem_cons_self, hp⟩)

section Steps

variable {f g : Frame v} {stack : List (Frame v)} {visited : List Node} {m n : Node} {r : Route}
  {first : Node → Route}

theorem Climbing.mem_visited (h : Climbing v goal forbidden trail stack visited r first)
    (hn : n ∈ r) : n ∈ visited := by
  obtain ⟨s, t, rfl⟩ := List.append_of_mem hn
  exact (h.entered_first n t (List.suffix_append s _)).1

/-- A frame with nothing left is dropped. -/
theorem Climbing.pop (h : Climbing v goal forbidden trail (f :: stack) visited (m :: r) first)
    (hf : f.pending = []) : Climbing v goal forbidden trail stack visited r first :=
  { h with
    stacked := by
      cases h.stacked with
      | cons _ _ rest => exact rest
    entered_first := fun n t ht => h.entered_first n t (ht.trans (List.suffix_cons m r))
    closed := by
      intro n hn p hp
      rcases h.closed n hn p hp with hheld | ⟨i, hi, hwaits⟩ | hforbidden
      · exact Or.inl hheld
      · rcases List.mem_cons.mp hi with heq | hi
        · cases heq
          simp [hf] at hwaits
        · exact Or.inr (Or.inl ⟨i, hi, hwaits⟩)
      · exact Or.inr (Or.inr hforbidden) }

/-- A pending node that is held, or that completes a forbidden route, is passed over. -/
theorem Climbing.pass (h : Climbing v goal forbidden trail (f :: stack) visited (m :: r) first)
    (hf : f.pending = n :: g.pending) (hdepth : g.depth = f.depth)
    (hn : n ∈ visited ∨ n :: m :: r ∈ forbidden.routes) :
    Climbing v goal forbidden trail (g :: stack) visited (m :: r) first :=
  { h with
    stacked := h.stacked.advance (hf ▸ List.subset_cons_self n g.pending) hdepth
    closed := by
      intro k hk p hp
      rcases h.closed k hk p hp with hheld | ⟨i, hi, hwaits⟩ | hforbidden
      · exact Or.inl hheld
      · rcases List.mem_cons.mp hi with heq | hi
        · cases heq
          rw [hf] at hwaits
          rcases List.mem_cons.mp hwaits with rfl | hwaits
          · rw [(h.entered_first m r (List.suffix_refl _)).2]
            exact hn.imp_right Or.inr
          · exact Or.inr (Or.inl ⟨g, List.mem_cons_self, hwaits⟩)
        · exact Or.inr (Or.inl ⟨i, List.mem_cons_of_mem _ hi, hwaits⟩)
      · exact Or.inr (Or.inr hforbidden) }

/-- A node may be looked at without being entered. -/
theorem Climbing.look (h : Climbing v goal forbidden trail (f :: stack) visited r first) (n : Node) :
    Climbing v goal forbidden (trailTo trail f.depth n) (f :: stack) visited r first :=
  { h with stacked := h.stacked.look n }

/-- A node that is kept out would complete a forbidden route. -/
theorem Climbing.completes (h : Climbing v goal forbidden trail (f :: stack) visited (m :: r) first)
    (hentry : entryMode? forbidden (trailTo trail f.depth n) f.depth = none) :
    n :: m :: r ∈ forbidden.routes := by
  cases h.stacked with
  | cons _ tracks _ => exact tracks.completes hentry

/-- A pending node is entered: its route is that of the frame with the node in front. -/
theorem Climbing.enter {next : Option ℕ}
    (h : Climbing v goal forbidden trail (f :: stack) visited (m :: r) first)
    (hf : f.pending = n :: g.pending) (hdepth : g.depth = f.depth) (hn : n ∉ visited)
    (hentry : entryMode? forbidden (trailTo trail f.depth n) f.depth = some next) :
    Climbing v goal forbidden (trailTo trail f.depth n) (.ofPred v n next :: g :: stack)
      (n :: visited) (n :: m :: r) (Function.update first n (m :: r)) := by
  have hlook := (h.look n).stacked.advance (hf ▸ List.subset_cons_self n g.pending) hdepth
  obtain ⟨hm, hfirst⟩ := h.entered_first m r (List.suffix_refl _)
  -- a node is entered once, so the routes of the others stay as they are
  have hkeep : ∀ k ∈ visited, Function.update first n (m :: r) k = first k := by
    intro k hk
    refine Function.update_of_ne ?_ _ _
    rintro rfl
    exact hn hk
  cases h.stacked with
  | cons pending tracks _ =>
    obtain ⟨hclear, hnext⟩ := tracks.entry hentry
    have hpred : n ∈ v.pred m := pending n (hf ▸ List.mem_cons_self)
    have hadm : v.Admissible goal forbidden (n :: m :: r) :=
      (hfirst ▸ h.sound m hm).cons hpred (fun hmem => hn (h.mem_visited hmem)) hclear
    constructor
    · exact .cons (fun p hp => hp) hnext hlook
    · intro k t ht
      rcases List.suffix_cons_iff.mp ht with heq | ht
      · cases heq
        exact ⟨List.mem_cons_self, Function.update_self _ _ _⟩
      · obtain ⟨hk, hfirst'⟩ := h.entered_first k t ht
        exact ⟨List.mem_cons_of_mem n hk, (hkeep k hk).trans hfirst'⟩
    · intro k hk
      rcases List.mem_cons.mp hk with rfl | hk
      · rw [Function.update_self]
        exact hadm
      · rw [hkeep k hk]
        exact h.sound k hk
    · intro k hk
      rcases List.mem_cons.mp hk with rfl | hk
      · refine Or.inr ⟨m, List.mem_cons_of_mem _ hm, ?_⟩
        rw [Function.update_self, hkeep m hm, hfirst]
      · rw [hkeep k hk]
        refine (h.linked k hk).imp_right ?_
        rintro ⟨j, hj, heq⟩
        exact ⟨j, List.mem_cons_of_mem n hj, by rw [hkeep j hj, heq]⟩
    · exact List.nodup_cons.mpr ⟨hn, h.nodup⟩
    · exact List.mem_cons_of_mem n h.goal_mem
    · intro k hk p hp
      rcases List.mem_cons.mp hk with rfl | hk
      · exact Or.inr (Or.inl ⟨_, List.mem_cons_self, hp⟩)
      · rw [hkeep k hk]
        rcases h.closed k hk p hp with hheld | ⟨i, hi, hwaits⟩ | hforbidden
        · exact Or.inl (List.mem_cons_of_mem n hheld)
        · rcases List.mem_cons.mp hi with heq | hi
          · cases heq
            rw [hf] at hwaits
            rcases List.mem_cons.mp hwaits with rfl | hwaits
            · exact Or.inl List.mem_cons_self
            · exact Or.inr (Or.inl ⟨g, List.mem_cons_of_mem _ List.mem_cons_self, hwaits⟩)
          · exact Or.inr (Or.inl ⟨i, List.mem_cons_of_mem _ (List.mem_cons_of_mem _ hi), hwaits⟩)
        · exact Or.inr (Or.inr hforbidden)

end Steps

theorem Climbing.run {stack : List (Frame v)} {visited : List Node}
    (h : ∃ entered first, Climbing v goal forbidden trail stack visited entered first) :
    ∃ trail' first', Climbing v goal forbidden trail' []
      (v.climb forbidden trail stack visited) [] first' := by
  induction trail, stack, visited using climb.induct v forbidden with
  | case1 trail visited =>
    obtain ⟨_, first, h⟩ := h
    rw [climb]
    cases h.stacked
    exact ⟨trail, first, h⟩
  | case2 trail depth within stack visited ih =>
    obtain ⟨_, first, h⟩ := h
    obtain ⟨m, r, rfl⟩ := h.stacked.exists_cons
    rw [climb]
    exact ih ⟨_, _, h.pop rfl⟩
  | case3 trail depth n rest within stack visited frame hn ih =>
    obtain ⟨_, first, h⟩ := h
    obtain ⟨m, r, rfl⟩ := h.stacked.exists_cons
    rw [climb, dif_pos hn]
    exact ih ⟨_, _, h.pass rfl rfl (Or.inl hn)⟩
  | case4 trail depth n rest within stack visited frame hn hentry ih =>
    obtain ⟨_, first, h⟩ := h
    obtain ⟨m, r, rfl⟩ := h.stacked.exists_cons
    rw [climb, dif_neg hn, hentry]
    exact ih ⟨_, _, (h.look n).pass rfl rfl (Or.inr (h.completes hentry))⟩
  | case5 trail depth n rest within stack visited frame hn next hentry ih =>
    obtain ⟨_, first, h⟩ := h
    obtain ⟨m, r, rfl⟩ := h.stacked.exists_cons
    rw [climb, dif_neg hn, hentry]
    exact ih ⟨_, _, h.enter rfl rfl hn hentry⟩

/-- The routes along which nodes were first reached. The route of a node goes on as that of the next
node did. A predecessor is only missing where it makes the route of its successor a forbidden one. -/
structure FirstRoutes (v : View) (goal : Node) (forbidden : ForbiddenRoutes) (kept : List Node)
    (first : Node → Route) : Prop where
  goal_mem : goal ∈ kept
  admissible : ∀ n ∈ kept, v.Admissible goal forbidden (n :: first n)
  linked : ∀ n ∈ kept, first n = [] ∨ ∃ m ∈ kept, first n = m :: first m
  closed : ∀ n ∈ kept, ∀ p ∈ v.pred n, p ∈ kept ∨ p :: n :: first n ∈ forbidden.routes

theorem climbing_ancestorsExcluding (v : View) (goal : Node) (forbidden : ForbiddenRoutes) :
    ∃ trail first,
      Climbing v goal forbidden trail [] (v.ancestorsExcluding goal forbidden) [] first :=
  Climbing.run ⟨_, _, climbing_start⟩

theorem firstRoutes_ancestorsExcluding (v : View) (goal : Node) (forbidden : ForbiddenRoutes) :
    ∃ first, v.FirstRoutes goal forbidden (v.ancestorsExcluding goal forbidden) first := by
  obtain ⟨_, first, h⟩ := climbing_ancestorsExcluding v goal forbidden
  refine ⟨first, h.goal_mem, h.sound, h.linked, ?_⟩
  intro n hn p hp
  rcases h.closed n hn p hp with hp | ⟨f, hf, -⟩ | hp
  · exact Or.inl hp
  · simp at hf
  · exact Or.inr hp

theorem nodup_ancestorsExcluding : (v.ancestorsExcluding goal forbidden).Nodup := by
  obtain ⟨_, _, h⟩ := climbing_ancestorsExcluding v goal forbidden
  exact h.nodup

theorem nodup_ancestors : (v.ancestors goal).Nodup := nodup_ancestorsExcluding

theorem goal_mem_ancestorsExcluding : goal ∈ v.ancestorsExcluding goal forbidden := by
  obtain ⟨_, h⟩ := firstRoutes_ancestorsExcluding v goal forbidden
  exact h.goal_mem

theorem exists_admissible_of_mem {n : Node} (h : n ∈ v.ancestorsExcluding goal forbidden) :
    ∃ r, v.Admissible goal forbidden (n :: r) := by
  obtain ⟨first, hfirst⟩ := firstRoutes_ancestorsExcluding v goal forbidden
  exact ⟨first n, hfirst.admissible n h⟩

theorem pred_mem_ancestorsExcluding {n p : Node} (h : n ∈ v.ancestorsExcluding goal forbidden)
    (hp : p ∈ v.pred n) :
    p ∈ v.ancestorsExcluding goal forbidden ∨ ∃ r, p :: r ∈ forbidden.routes := by
  obtain ⟨first, hfirst⟩ := firstRoutes_ancestorsExcluding v goal forbidden
  exact (hfirst.closed n h p hp).imp_right fun hmem => ⟨n :: first n, hmem⟩

/-- A walk stays among the ancestors as long as no forbidden route starts with one of its edges. -/
theorem Walk.mem_ancestorsExcluding {n : Node} {r : Route} (h : v.Walk goal (n :: r))
    (hclear : ∀ p m t, p :: m :: t <:+ n :: r → ∀ q, p :: m :: q ∉ forbidden.routes) :
    n ∈ v.ancestorsExcluding goal forbidden := by
  obtain ⟨first, hfirst⟩ := firstRoutes_ancestorsExcluding v goal forbidden
  induction r generalizing n with
  | nil =>
    cases h
    exact goal_mem_ancestorsExcluding
  | cons m r ih =>
    obtain ⟨hedge, hrest⟩ := h.tail
    have hm := ih hrest fun p k t ht => hclear p k t (ht.trans (List.suffix_cons n _))
    rcases hfirst.closed m hm n ((v.mem_pred n m).mpr hedge) with hn | hforbidden
    · exact hn
    · exact absurd hforbidden (hclear n m r (List.suffix_refl _) (first m))

theorem mem_ancestors {n : Node} : n ∈ v.ancestors goal ↔ ∃ r, v.Walk goal (n :: r) := by
  constructor
  · intro h
    obtain ⟨r, hr⟩ := exists_admissible_of_mem h
    exact ⟨r, hr.walk⟩
  · rintro ⟨r, hr⟩
    exact hr.mem_ancestorsExcluding (by simp)

end CfiSlack.View
