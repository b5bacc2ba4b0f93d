import CfiSlack.Proofs.FiledRoutes
import CfiSlack.Proofs.Walks
import CfiSlack.Search

/-!
# What a search offers and accepts

A search shows its filter exactly the simple routes to the goal that fit the limit and whose shorter
ends were all answered with `extend`, each of them once. Without a limit no simple route is lost. The queue
decides about their order only: at every moment the routes shown and those still to be shown make up the
same collection (`perm_of_step?`), which can be listed branch by branch (`below`).
-/
namespace CfiSlack

namespace View

variable {v : View} {goal : Node} {filter : Route → Verdict}

/-- A simple route whose ends, itself included, the filter told to extend. -/
structure Extensible (v : View) (goal : Node) (filter : Route → Verdict) (r : Route) : Prop where
  walk : v.Walk goal r
  nodup : r.Nodup
  extended : ∀ t, t <:+ r → 2 ≤ t.length → filter t = .extend

/-- A simple route of at least one edge whose shorter ends the filter told to extend. -/
structure Offerable (v : View) (goal : Node) (filter : Route → Verdict) (r : Route) : Prop where
  walk : v.Walk goal r
  nodup : r.Nodup
  grown : 2 ≤ r.length
  extended : ∀ t, t <:+ r → 2 ≤ t.length → t.length < r.length → filter t = .extend

theorem mem_extensions {r q : Route} :
    q ∈ v.extensions r ↔ ∃ n m t, r = m :: t ∧ q = n :: r ∧ n ∈ v.pred m ∧ n ∉ r := by
  cases r with
  | nil => simp [extensions]
  | cons m t =>
    simp only [extensions, List.mem_map, List.mem_filter, decide_eq_true_eq]
    constructor
    · rintro ⟨n, ⟨hpred, hn⟩, rfl⟩
      exact ⟨n, m, t, rfl, rfl, hpred, hn⟩
    · rintro ⟨n, m', t', heq, rfl, hpred, hn⟩
      obtain ⟨rfl, rfl⟩ := List.cons.inj heq
      exact ⟨n, ⟨hpred, hn⟩, rfl⟩

theorem extensible_goal : v.Extensible goal filter [goal] where
  walk := Walk.here
  nodup := List.nodup_singleton goal
  extended t ht hlen := by
    have := ht.length_le
    simp only [List.length_singleton] at this
    omega

theorem Extensible.offerable {r q : Route} (h : v.Extensible goal filter r)
    (hq : q ∈ v.extensions r) : v.Offerable goal filter q ∧ q.length = r.length + 1 := by
  obtain ⟨n, m, t, rfl, rfl, hpred, hn⟩ := mem_extensions.mp hq
  refine ⟨⟨?_, List.nodup_cons.mpr ⟨hn, h.nodup⟩, by simp, ?_⟩, by simp⟩
  · exact Walk.step ((v.mem_pred n m).mp hpred) h.walk
  · intro s hs hlen hlt
    rcases List.suffix_cons_iff.mp hs with rfl | hs
    · exact absurd hlt (lt_irrefl _)
    · exact h.extended s hs hlen

theorem Offerable.extensible {r : Route} (h : v.Offerable goal filter r)
    (hr : filter r = .extend) : v.Extensible goal filter r where
  walk := h.walk
  nodup := h.nodup
  extended t ht hlen := by
    rcases ht.length_le.eq_or_lt with heq | hlt
    · rw [ht.eq_of_length heq]
      exact hr
    · exact h.extended t ht hlen hlt

theorem nodup_extensions (v : View) (r : Route) : (v.extensions r).Nodup := by
  cases r with
  | nil => exact List.nodup_nil
  | cons n t =>
    refine ((v.pred_nodup n).filter _).map ?_
    intro a b h
    exact (List.cons.inj h).1

/-- The routes shown below a route that may grow by `room` nodes, one branch after the other. -/
def below (v : View) (filter : Route → Verdict) : ℕ → Route → List Route
  | 0, _ => []
  | room + 1, r => (v.extensions r).flatMap fun q =>
      q :: if filter q = .extend then v.below filter room q else []

theorem mem_below_succ {room : ℕ} {r s : Route} :
    s ∈ v.below filter (room + 1) r ↔
      ∃ q ∈ v.extensions r, s = q ∨ filter q = .extend ∧ s ∈ v.below filter room q := by
  simp only [below, List.mem_flatMap, List.mem_cons, List.mem_ite_nil_right]

theorem suffix_of_mem_below {room : ℕ} {r s : Route} (h : s ∈ v.below filter room r) :
    r <:+ s ∧ r.length < s.length := by
  induction room generalizing r with
  | zero => cases h
  | succ room ih =>
    obtain ⟨q, hq, hs⟩ := mem_below_succ.mp h
    obtain ⟨n, m, t, rfl, rfl, -, -⟩ := mem_extensions.mp hq
    have hgrown : m :: t <:+ n :: m :: t := List.suffix_cons n _
    rcases hs with rfl | ⟨-, hs⟩
    · exact ⟨hgrown, Nat.lt_succ_self _⟩
    · obtain ⟨hsuffix, hlt⟩ := ih hs
      exact ⟨hgrown.trans hsuffix, (Nat.lt_succ_self _).trans hlt⟩

/-- Different branches have no route in common, since a route has one end of each length. -/
theorem nodup_below (v : View) (filter : Route → Verdict) (room : ℕ) (r : Route) :
    (v.below filter room r).Nodup := by
  induction room generalizing r with
  | zero => exact List.nodup_nil
  | succ room ih =>
    have hbranch {q s : Route} (hs : s ∈ q :: if filter q = .extend then v.below filter room q else []) :
        q <:+ s := by
      rcases List.mem_cons.mp hs with rfl | hs
      · exact List.suffix_refl _
      · exact (suffix_of_mem_below (List.mem_ite_nil_right.mp hs).2).1
    rw [below, List.nodup_flatMap]
    constructor
    · intro q _
      refine List.nodup_cons.mpr ⟨?_, ?_⟩
      · intro hq
        exact lt_irrefl _ (suffix_of_mem_below (List.mem_ite_nil_right.mp hq).2).2
      · split
        · exact ih q
        · exact List.nodup_nil
    · refine (v.nodup_extensions r).imp_of_mem ?_
      intro q q' hq hq' hne s hs hs'
      obtain ⟨n, m, t, rfl, rfl, -, -⟩ := mem_extensions.mp hq
      obtain ⟨n', m', t', heq, rfl, -, -⟩ := mem_extensions.mp hq'
      exact hne ((List.suffix_of_suffix_length_le (hbranch hs) (hbranch hs') le_rfl).eq_of_length rfl)

theorem offerable_of_mem_below {room : ℕ} {r s : Route} (h : v.Extensible goal filter r)
    (hs : s ∈ v.below filter room r) :
    v.Offerable goal filter s ∧ s.length ≤ r.length + room := by
  induction room generalizing r with
  | zero => cases hs
  | succ room ih =>
    obtain ⟨q, hq, hs⟩ := mem_below_succ.mp hs
    obtain ⟨hoff, hlen⟩ := h.offerable hq
    rcases hs with rfl | ⟨hext, hs⟩
    · exact ⟨hoff, by omega⟩
    · obtain ⟨hoff', hlen'⟩ := ih (hoff.extensible hext) hs
      exact ⟨hoff', by omega⟩

/-- The end of a list that is one element longer than a proper end. -/
theorem exists_longer_suffix {α : Type} {base s : List α} (h : base <:+ s)
    (hlt : base.length < s.length) : ∃ a, a :: base <:+ s := by
  obtain ⟨p, rfl⟩ := h
  rcases List.eq_nil_or_concat p with rfl | ⟨p, a, rfl⟩
  · simp at hlt
  · exact ⟨a, p, by simp⟩

/-- An offerable route is shown below any of its ends, if there is room enough. The induction lengthens
the end by one node each time. -/
theorem Offerable.mem_below {room : ℕ} {base s : Route} (h : v.Offerable goal filter s)
    (hne : base ≠ []) (hsuffix : base <:+ s) (hlt : base.length < s.length)
    (hle : s.length ≤ base.length + room) : s ∈ v.below filter room base := by
  induction room generalizing base with
  | zero => omega
  | succ room ih =>
    obtain ⟨n, hn⟩ := exists_longer_suffix hsuffix hlt
    have hgrown : n :: base ∈ v.extensions base := by
      obtain ⟨m, t, rfl⟩ := List.exists_cons_of_ne_nil hne
      have hedge := (h.walk.suffix hn (by simp)).tail.1
      have hnodup := List.nodup_cons.mp (hn.sublist.nodup h.nodup)
      exact mem_extensions.mpr ⟨n, m, t, rfl, rfl, (v.mem_pred n m).mpr hedge, hnodup.1⟩
    refine mem_below_succ.mpr ⟨n :: base, hgrown, ?_⟩
    rcases hn.length_le.eq_or_lt with heq | hlonger
    · exact Or.inl (hn.eq_of_length heq).symm
    · right
      have hpos := List.length_pos_iff.mpr hne
      have hext : filter (n :: base) = .extend :=
        h.extended _ hn (by simp only [List.length_cons]; omega) hlonger
      refine ⟨hext, ih (by simp) hn hlonger ?_⟩
      simp only [List.length_cons]
      omega

end View

namespace Search

variable {v : View} {filter : Route → Verdict} {s next last : Search}

/-- The routes that will still be shown, one waiting route after the other. A route that waits is grown
by one node at least. -/
def ahead (v : View) (filter : Route → Verdict) (ws : List WaitingRoute) : List Route :=
  ws.flatMap fun w => v.below filter (max 1 w.room) w.route

theorem shown_offer (room : ℕ) (s : Search) (r : Route) :
    (s.offer filter room r).shown = r :: s.shown := by
  unfold offer
  cases filter r with
  | accept => rfl
  | reject => rfl
  | extend =>
    simp only
    split <;> rfl

theorem shown_offerAll (room : ℕ) (s : Search) (rs : List Route) :
    (s.offerAll filter room rs).shown = rs.reverse ++ s.shown := by
  induction rs generalizing s with
  | nil => rfl
  | cons r rs ih =>
    refine (ih (s.offer filter room r)).trans ?_
    rw [shown_offer, List.reverse_cons, List.append_assoc, List.singleton_append]

theorem ahead_append (ws ws' : List WaitingRoute) :
    ahead v filter (ws ++ ws') = ahead v filter ws ++ ahead v filter ws' := List.flatMap_append

theorem ahead_kept (room : ℕ) (rs : List Route) :
    ahead v filter (kept filter (room + 1) rs) = rs.flatMap fun q =>
      if filter q = .extend then v.below filter room q else [] := by
  induction rs with
  | nil =>
    unfold kept
    split <;> rfl
  | cons q rs ih =>
    rw [kept_cons, ahead_append, ih, List.flatMap_cons]
    congr 1
    unfold kept
    cases room with
    | zero => simp [ahead, View.below]
    | succ room => by_cases h : filter q = .extend <;> simp [ahead, h]

/-- Below a route are the routes grown from it, and what is below those of them that wait. -/
theorem perm_below (v : View) (filter : Route → Verdict) (room : ℕ) (r : Route) :
    (v.extensions r ++ ahead v filter (kept filter room (v.extensions r))).Perm
      (v.below filter (max 1 room) r) := by
  -- no room counts as room for one node, since the first node is always tried
  obtain ⟨k, hroom, hkept⟩ : ∃ k, max 1 room = k + 1 ∧
      kept filter room (v.extensions r) = kept filter (k + 1) (v.extensions r) := by
    cases room with
    | zero => exact ⟨0, rfl, rfl⟩
    | succ k => exact ⟨k, by omega, rfl⟩
  have hperm := List.map_append_flatMap_perm (v.extensions r) id fun q =>
    if filter q = .extend then v.below filter k q else []
  rw [hroom, hkept, ahead_kept]
  rwa [List.map_id] at hperm

/-- A step moves routes from those ahead to those shown, and neither loses nor repeats any. -/
theorem perm_of_step? (h : s.step? v filter = some next) :
    (next.shown ++ ahead v filter next.queue.toList).Perm
      (s.shown ++ ahead v filter s.queue.toList) := by
  obtain ⟨w, queue, hpop, rfl⟩ := step?_eq_some h
  have hfirst : ahead v filter s.queue.toList =
      v.below filter (max 1 w.room) w.route ++ ahead v filter queue.toList := by
    rw [Queue.toList_of_pop? hpop, ahead, List.flatMap_cons]
    rfl
  rw [shown_offerAll, toList_queue_offerAll, ahead_append, hfirst, List.perm_iff_count]
  intro r
  have hbelow := (perm_below v filter w.room w.route).count_eq r
  simp only [List.count_append, List.count_reverse] at hbelow ⊢
  omega

theorem toList_of_idle (h : s.step? v filter = none) : s.queue.toList = [] :=
  Queue.toList_of_pop?_eq_none (Option.map_eq_none_iff.mp h)

/-- A search that is over after some steps. -/
inductive Runs (v : View) (filter : Route → Verdict) : Search → ℕ → Search → Prop
  | done {s : Search} (idle : s.step? v filter = none) : Runs v filter s 0 s
  | step {s next last : Search} {steps : ℕ} (first : s.step? v filter = some next)
      (rest : Runs v filter next steps last) : Runs v filter s (steps + 1) last

theorem runs_run (v : View) (filter : Route → Verdict) (s : Search) :
    Runs v filter s (s.work v filter) (s.run v filter) := by
  fun_induction run v filter s with
  | case1 s hidle =>
    have hwork : s.work v filter = 0 := by rw [work, toList_of_idle hidle, workOf, List.foldr_nil]
    rw [hwork]
    exact .done hidle
  | case2 s next hstep ih =>
    rw [work_of_step? hstep]
    exact .step hstep ih

theorem Runs.perm {steps : ℕ} (h : Runs v filter s steps last) :
    last.shown.Perm (s.shown ++ ahead v filter s.queue.toList) := by
  induction h with
  | done idle => simp [toList_of_idle idle, ahead]
  | step first _ ih => exact ih.trans (perm_of_step? first)

/-- What was accepted is what was shown and answered so. -/
def Answered (filter : Route → Verdict) (s : Search) : Prop :=
  ∀ r, r ∈ s.accepted.routes ↔ r ∈ s.shown ∧ filter r = .accept

theorem mem_accepted_offer {room : ℕ} {r q : Route} :
    q ∈ (s.offer filter room r).accepted.routes ↔
      filter r = .accept ∧ q = r ∨ q ∈ s.accepted.routes := by
  unfold offer
  cases filter r with
  | accept => simp [ForbiddenRoutes.mem_add]
  | reject => simp
  | extend =>
    simp only
    split <;> simp

theorem Answered.offer (h : s.Answered filter) (room : ℕ) (r : Route) :
    (s.offer filter room r).Answered filter := by
  intro q
  rw [mem_accepted_offer, shown_offer, List.mem_cons, h q]
  constructor
  · rintro (⟨haccept, rfl⟩ | ⟨hshown, haccept⟩)
    · exact ⟨Or.inl rfl, haccept⟩
    · exact ⟨Or.inr hshown, haccept⟩
  · rintro ⟨rfl | hshown, haccept⟩
    · exact Or.inl ⟨haccept, rfl⟩
    · exact Or.inr ⟨hshown, haccept⟩

theorem Answered.offerAll (h : s.Answered filter) (room : ℕ) (rs : List Route) :
    (s.offerAll filter room rs).Answered filter := by
  induction rs generalizing s with
  | nil => exact h
  | cons r rs ih => exact ih (h.offer room r)

theorem Runs.answered {steps : ℕ} (h : Runs v filter s steps last) (hs : s.Answered filter) :
    last.Answered filter := by
  induction h with
  | done => exact hs
  | step first _ ih =>
    obtain ⟨w, queue, -, rfl⟩ := step?_eq_some first
    exact ih (Answered.offerAll (s := ⟨queue, _, _⟩) hs w.room _)

end Search

namespace View

variable {v : View} {goal : Node} {filter : Route → Verdict}

theorem runs_searched (v : View) (goal : Node) (filter : Route → Verdict) (limit : Option ℕ) :
    ∃ steps, Search.Runs v filter (.start goal (limit.getD v.nodeCount)) steps
      (v.searched goal filter limit) :=
  ⟨_, Search.runs_run v filter _⟩

theorem perm_offered (v : View) (goal : Node) (filter : Route → Verdict) (limit : Option ℕ) :
    (v.offered goal filter limit).Perm
      (v.below filter (max 1 (limit.getD v.nodeCount)) [goal]) := by
  obtain ⟨steps, hruns⟩ := v.runs_searched goal filter limit
  have hperm := hruns.perm
  simp only [Search.start, Search.ahead, Queue.toList_push, Queue.toList_empty, List.nil_append,
    List.flatMap_singleton] at hperm
  exact (List.reverse_perm _).trans hperm

/-- No route is shown twice. -/
theorem nodup_offered (v : View) (goal : Node) (filter : Route → Verdict) (limit : Option ℕ) :
    (v.offered goal filter limit).Nodup :=
  (v.perm_offered goal filter limit).nodup_iff.mpr (v.nodup_below filter _ _)

theorem Walk.goal_suffix {r : Route} (h : v.Walk goal r) : [goal] <:+ r := by
  induction h with
  | here => exact List.suffix_refl _
  | step _ _ ih => exact ih.trans (List.suffix_cons _ _)

theorem mem_offered {limit : Option ℕ} {s : Route} :
    s ∈ v.offered goal filter limit ↔
      v.Offerable goal filter s ∧ s.length ≤ max 1 (limit.getD v.nodeCount) + 1 := by
  rw [(v.perm_offered goal filter limit).mem_iff]
  constructor
  · intro hs
    obtain ⟨hoff, hlen⟩ := offerable_of_mem_below extensible_goal hs
    rw [List.length_singleton] at hlen
    exact ⟨hoff, by omega⟩
  · rintro ⟨hoff, hlen⟩
    have hgrown := hoff.grown
    exact hoff.mem_below (by simp) hoff.walk.goal_suffix
      (by simp only [List.length_singleton]; omega) (by simp only [List.length_singleton]; omega)

/-- A search without a limit offers every route that may be offered. -/
theorem mem_offered_none {s : Route} :
    s ∈ v.offered goal filter none ↔ v.Offerable goal filter s := by
  rw [mem_offered, and_iff_left_iff_imp]
  intro h
  have := h.walk.length_le h.nodup
  simp only [Option.getD_none]
  omega

theorem mem_search {limit : Option ℕ} {s : Route} :
    s ∈ (v.search goal filter limit).routes ↔
      s ∈ v.offered goal filter limit ∧ filter s = .accept := by
  obtain ⟨steps, hruns⟩ := v.runs_searched goal filter limit
  have hstart : (Search.start goal (limit.getD v.nodeCount)).Answered filter := by
    simp [Search.Answered, Search.start]
  rw [offered, List.mem_reverse]
  exact hruns.answered hstart s

/-- Whatever the limit, a search is over after a number of steps. It has then shown its filter, once each,
the simple routes of at least one edge whose shorter ends were extended and that keep to the limit, where
no edge at all counts as one; and it has accepted those that were answered so. Without a limit no route is
too long. -/
theorem search_exact (v : View) (goal : Node) (filter : Route → Verdict) (limit : Option ℕ) :
    (∃ steps last, Search.Runs v filter (.start goal (limit.getD v.nodeCount)) steps last ∧
      last.shown.reverse = v.offered goal filter limit ∧
      last.accepted = v.search goal filter limit) ∧
    (v.offered goal filter limit).Nodup ∧
    (∀ r, r ∈ v.offered goal filter limit ↔
      v.Offerable goal filter r ∧ r.length ≤ max 1 (limit.getD v.nodeCount) + 1) ∧
    (∀ r, r ∈ (v.search goal filter limit).routes ↔
      r ∈ v.offered goal filter limit ∧ filter r = .accept) ∧
    ∀ r, r ∈ v.offered goal filter none ↔ v.Offerable goal filter r := by
  obtain ⟨steps, hruns⟩ := v.runs_searched goal filter limit
  exact ⟨⟨steps, _, hruns, rfl, rfl⟩, v.nodup_offered goal filter limit, fun r => mem_offered,
    fun r => mem_search, fun r => mem_offered_none⟩

end View
end CfiSlack
