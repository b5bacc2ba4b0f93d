import CfiSlack.Reach
import Mathlib.Data.List.DropRight
import Mathlib.Data.Set.Card
import Mathlib.Tactic

/-!
# Descendants of a node

What the forward walk holds when it stops. Whether it ran out of nodes or was cut short by a cap, it holds
the node it started at, and besides that only nodes that it was led to by others that it holds. A walk that
is not cut short finds all that can be reached through the nodes it admits. A cap lets the same walk stop
early: what is held then are the nodes that the walk without a cap holds first, as many as the cap allows.
-/
namespace CfiSlack.View

variable {v : View} {keep : Node → Bool} {start m n : Node}

/-- The edges of the view lead from the one node to the other, and each node entered is admitted. -/
def ReachesThrough (v : View) (keep : Node → Bool) : Node → Node → Prop :=
  Relation.ReflTransGen fun m n => n ∈ v.succ m ∧ keep n = true

theorem ReachesThrough.mono {wider : Node → Bool} (h : v.ReachesThrough keep m n)
    (hwider : ∀ k, keep k = true → wider k = true) : v.ReachesThrough wider m n := by
  induction h with
  | refl => exact Relation.ReflTransGen.refl
  | tail _ hstep ih => exact ih.tail ⟨hstep.1, hwider _ hstep.2⟩

/-! ## Turns of a walk -/

section Turns

variable {full : ℕ → Bool} {stack : List (Frame v)} {visited rest : List Node} {depth : Option ℕ}

theorem descend_of_full (h : full visited.length = true) :
    v.descend keep full stack visited = visited := by
  cases stack with
  | nil => rw [descend]
  | cons f stack =>
    obtain ⟨depth, pending, within⟩ := f
    cases pending with
    | nil => rw [descend, if_pos h]
    | cons n rest => rw [descend, if_pos h]

theorem descend_pop (h : full visited.length = false) (within : ∀ k ∈ [], k ∈ v.nodes) :
    v.descend keep full (⟨depth, [], within⟩ :: stack) visited = v.descend keep full stack visited := by
  rw [descend, if_neg (by simp [h])]

theorem descend_pass (h : full visited.length = false) (within : ∀ k ∈ n :: rest, k ∈ v.nodes)
    (hskip : n ∈ visited ∨ keep n = false) :
    v.descend keep full (⟨depth, n :: rest, within⟩ :: stack) visited =
      v.descend keep full (⟨depth, rest, fun k hk => within k (List.mem_cons_of_mem n hk)⟩ :: stack)
        visited := by
  rw [descend, if_neg (by simp [h]), dif_pos hskip]

theorem descend_enter (h : full visited.length = false) (within : ∀ k ∈ n :: rest, k ∈ v.nodes)
    (hskip : ¬ (n ∈ visited ∨ keep n = false)) :
    v.descend keep full (⟨depth, n :: rest, within⟩ :: stack) visited =
      v.descend keep full (.ofSucc v n ::
        ⟨depth, rest, fun k hk => within k (List.mem_cons_of_mem n hk)⟩ :: stack) (n :: visited) := by
  rw [descend, if_neg (by simp [h]), dif_neg hskip]

end Turns

/-! ## What every walk keeps -/

/-- What holds at every moment of a forward walk, capped or not. -/
structure Descending (v : View) (keep : Node → Bool) (start : Node) (stack : List (Frame v))
    (visited : List Node) : Prop where
  nodup : visited.Nodup
  start_mem : start ∈ visited
  reached : ∀ n ∈ visited, v.ReachesThrough (fun k => keep k && visited.contains k) start n
  pending : ∀ f ∈ stack, ∃ m ∈ visited, ∀ n ∈ f.pending, n ∈ v.succ m

theorem descending_start : Descending v keep start [.ofSucc v start] [start] where
  nodup := List.nodup_singleton start
  start_mem := List.mem_singleton_self start
  reached n hn := by
    rw [List.mem_singleton.mp hn]
    exact Relation.ReflTransGen.refl
  pending f hf := by
    rw [List.mem_singleton.mp hf]
    exact ⟨start, List.mem_singleton_self start, fun n hn => hn⟩

section Steps

variable {f g : Frame v} {stack : List (Frame v)} {visited : List Node}

/-- The last step to a node comes from one that is held. -/
theorem Descending.entered (h : Descending v keep start stack visited) (n : Node) (hn : n ∈ visited)
    (hne : n ≠ start) : ∃ m ∈ visited, n ∈ v.succ m := by
  cases h.reached n hn with
  | refl => exact absurd rfl hne
  | @tail m _ hm hedge =>
    refine ⟨m, ?_, hedge.1⟩
    cases hm with
    | refl => exact h.start_mem
    | tail _ hstep => simpa using (Bool.and_eq_true_iff.mp hstep.2).2

theorem Descending.admitted (h : Descending v keep start stack visited) (hn : n ∈ visited) :
    v.ReachesThrough keep start n :=
  (h.reached n hn).mono fun _ hk => (Bool.and_eq_true_iff.mp hk).1

/-- Frames may be dropped, all of them if the walk is cut short. -/
theorem Descending.drop (h : Descending v keep start stack visited) {rest : List (Frame v)}
    (hrest : rest ⊆ stack) : Descending v keep start rest visited where
  nodup := h.nodup
  start_mem := h.start_mem
  reached := h.reached
  pending f hf := h.pending f (hrest hf)

theorem Descending.pass (h : Descending v keep start (f :: stack) visited)
    (hf : f.pending = n :: g.pending) : Descending v keep start (g :: stack) visited where
  nodup := h.nodup
  start_mem := h.start_mem
  reached := h.reached
  pending k hk := by
    rcases List.mem_cons.mp hk with rfl | hk
    · obtain ⟨m, hm, hsucc⟩ := h.pending f List.mem_cons_self
      refine ⟨m, hm, fun x hx => hsucc x ?_⟩
      rw [hf]
      exact List.mem_cons_of_mem n hx
    · exact h.pending k (List.mem_cons_of_mem f hk)

theorem Descending.enter (h : Descending v keep start (f :: stack) visited)
    (hf : f.pending = n :: g.pending) (hn : n ∉ visited) (hkeep : keep n = true) :
    Descending v keep start (.ofSucc v n :: g :: stack) (n :: visited) where
  nodup := List.nodup_cons.mpr ⟨hn, h.nodup⟩
  start_mem := List.mem_cons_of_mem n h.start_mem
  reached k hk := by
    have hmore (j : Node) (hj : j ∈ visited) :
        v.ReachesThrough (fun i => keep i && (n :: visited).contains i) start j :=
      (h.reached j hj).mono fun i hi => by
        simp only [Bool.and_eq_true, List.contains_iff_mem] at hi ⊢
        exact ⟨hi.1, List.mem_cons_of_mem n hi.2⟩
    rcases List.mem_cons.mp hk with rfl | hk
    · obtain ⟨m, hm, hsucc⟩ := h.pending f List.mem_cons_self
      have hedge : k ∈ v.succ m := hsucc k (hf ▸ List.mem_cons_self)
      exact (hmore m hm).tail ⟨hedge, by simp [hkeep]⟩
    · exact hmore k hk
  pending k hk := by
    rcases List.mem_cons.mp hk with rfl | hk
    · exact ⟨n, List.mem_cons_self, fun x hx => hx⟩
    · obtain ⟨m, hm, hsucc⟩ := (h.pass hf).pending k hk
      exact ⟨m, List.mem_cons_of_mem n hm, hsucc⟩

end Steps

theorem Descending.run {stack : List (Frame v)} {visited : List Node}
    (h : Descending v keep start stack visited) (full : ℕ → Bool) :
    Descending v keep start [] (v.descend keep full stack visited) := by
  induction stack, visited using descend.induct v keep full with
  | case1 visited =>
    rw [descend]
    exact h
  | case2 depth within stack visited hfull =>
    rw [descend_of_full hfull]
    exact h.drop (List.nil_subset _)
  | case3 depth within stack visited hfull ih =>
    rw [descend_pop (Bool.not_eq_true _ ▸ hfull)]
    exact ih (h.drop (List.subset_cons_self _ _))
  | case4 depth n rest within stack visited hfull =>
    rw [descend_of_full hfull]
    exact h.drop (List.nil_subset _)
  | case5 depth n rest within stack visited frame hfull hskip ih =>
    rw [descend_pass (Bool.not_eq_true _ ▸ hfull) within hskip]
    exact ih (h.pass rfl)
  | case6 depth n rest within stack visited frame hfull hskip ih =>
    rw [descend_enter (Bool.not_eq_true _ ▸ hfull) within hskip]
    rw [not_or, Bool.not_eq_false] at hskip
    exact ih (h.enter rfl hskip.1 hskip.2)

theorem descending_descendantsWhere (keep : Node → Bool) (cap : Option ℕ) :
    Descending v keep start [] (v.descendantsWhere keep start cap) :=
  descending_start.run _

/-! ## Walks that are not cut short -/

/-- What holds besides at every moment of a forward walk that has no cap. -/
structure Exploring (v : View) (keep : Node → Bool) (start : Node) (stack : List (Frame v))
    (visited : List Node) : Prop extends Descending v keep start stack visited where
  closed : ∀ m ∈ visited, ∀ n ∈ v.succ m, keep n = true →
    n ∈ visited ∨ ∃ f ∈ stack, n ∈ f.pending

theorem exploring_start : Exploring v keep start [.ofSucc v start] [start] where
  toDescending := descending_start
  closed m hm n hn _ := by
    rw [List.mem_singleton.mp hm] at hn
    exact Or.inr ⟨_, List.mem_singleton_self _, hn⟩

section Steps

variable {f g : Frame v} {stack : List (Frame v)} {visited : List Node}

theorem Exploring.pop (h : Exploring v keep start (f :: stack) visited) (hf : f.pending = []) :
    Exploring v keep start stack visited where
  toDescending := h.toDescending.drop (List.subset_cons_self _ _)
  closed m hm n hn hkeep := by
    rcases h.closed m hm n hn hkeep with hvisited | ⟨k, hk, hpending⟩
    · exact Or.inl hvisited
    · rcases List.mem_cons.mp hk with rfl | hk
      · rw [hf] at hpending
        cases hpending
      · exact Or.inr ⟨k, hk, hpending⟩

/-- What is pending before the first node of a frame is looked at is that node or pending after. -/
theorem pending_cases (hf : f.pending = n :: g.pending) (h : ∃ k ∈ f :: stack, m ∈ k.pending) :
    m = n ∨ ∃ k ∈ g :: stack, m ∈ k.pending := by
  obtain ⟨k, hk, hpending⟩ := h
  rcases List.mem_cons.mp hk with rfl | hk
  · rw [hf] at hpending
    rcases List.mem_cons.mp hpending with rfl | hpending
    · exact Or.inl rfl
    · exact Or.inr ⟨g, List.mem_cons_self, hpending⟩
  · exact Or.inr ⟨k, List.mem_cons_of_mem g hk, hpending⟩

theorem Exploring.pass (h : Exploring v keep start (f :: stack) visited)
    (hf : f.pending = n :: g.pending) (hskip : n ∈ visited ∨ keep n = false) :
    Exploring v keep start (g :: stack) visited where
  toDescending := h.toDescending.pass hf
  closed m hm k hk hkeep := by
    rcases h.closed m hm k hk hkeep with hvisited | hpending
    · exact Or.inl hvisited
    · rcases pending_cases hf hpending with rfl | hpending
      · rcases hskip with hvisited | hdropped
        · exact Or.inl hvisited
        · rw [hkeep] at hdropped
          cases hdropped
      · exact Or.inr hpending

theorem Exploring.enter (h : Exploring v keep start (f :: stack) visited)
    (hf : f.pending = n :: g.pending) (hn : n ∉ visited) (hkeep : keep n = true) :
    Exploring v keep start (.ofSucc v n :: g :: stack) (n :: visited) where
  toDescending := h.toDescending.enter hf hn hkeep
  closed m hm k hk hkept := by
    rcases List.mem_cons.mp hm with rfl | hm
    · exact Or.inr ⟨_, List.mem_cons_self, hk⟩
    · rcases h.closed m hm k hk hkept with hvisited | hpending
      · exact Or.inl (List.mem_cons_of_mem n hvisited)
      · rcases pending_cases hf hpending with rfl | ⟨j, hj, hpending⟩
        · exact Or.inl List.mem_cons_self
        · exact Or.inr ⟨j, List.mem_cons_of_mem _ hj, hpending⟩

end Steps

theorem Exploring.run {stack : List (Frame v)} {visited : List Node}
    (h : Exploring v keep start stack visited) :
    Exploring v keep start [] (v.descend keep (fun _ => false) stack visited) := by
  induction stack, visited using descend.induct v keep (fun _ => false) with
  | case1 visited =>
    rw [descend]
    exact h
  | case3 depth within stack visited hnever ih =>
    rw [descend_pop rfl]
    exact ih (h.pop rfl)
  | case5 depth n rest within stack visited frame hnever hskip ih =>
    rw [descend_pass rfl within hskip]
    exact ih (h.pass rfl hskip)
  | case6 depth n rest within stack visited frame hnever hskip ih =>
    rw [descend_enter rfl within hskip]
    rw [not_or, Bool.not_eq_false] at hskip
    exact ih (h.enter rfl hskip.1 hskip.2)
  -- a walk without a cap is never full
  | case2 depth within stack visited hnever => cases hnever
  | case4 depth n rest within stack visited hnever => cases hnever

theorem mem_descendantsWhere_none :
    m ∈ v.descendantsWhere keep start none ↔ v.ReachesThrough keep start m := by
  have hrun : Exploring v keep start [] (v.descendantsWhere keep start none) := exploring_start.run
  constructor
  · exact hrun.admitted
  · intro h
    induction h with
    | refl => exact hrun.start_mem
    | tail _ hstep ih =>
      rcases hrun.closed _ ih _ hstep.1 hstep.2 with hvisited | ⟨f, hf, -⟩
      · exact hvisited
      · cases hf

/-! ## Walks with a cap -/

/-- A walk only ever puts nodes in front of what it holds. -/
theorem suffix_descend (full : ℕ → Bool) (stack : List (Frame v)) (visited : List Node) :
    visited <:+ v.descend keep full stack visited := by
  fun_induction descend v keep full stack visited with
  | case1 => exact List.suffix_rfl
  | case2 => exact List.suffix_rfl
  | case3 _ _ _ _ _ ih => exact ih
  | case4 => exact List.suffix_rfl
  | case5 _ _ _ _ _ _ _ _ _ ih => exact ih
  | case6 _ _ _ _ _ _ _ _ _ ih => exact (List.suffix_cons _ _).trans ih

theorem rtake_descend {full : ℕ → Bool} {stack : List (Frame v)} {visited : List Node} :
    (v.descend keep full stack visited).rtake visited.length = visited :=
  (List.suffix_iff_eq_drop.mp (suffix_descend full stack visited)).symm

/-- A capped walk takes the turns of the walk without a cap, up to the moment when it is full. -/
theorem descend_cap (cap : ℕ) (stack : List (Frame v)) (visited : List Node) :
    v.descend keep (fun held => decide (cap ≤ held)) stack visited =
      (v.descend keep (fun _ => false) stack visited).rtake (max cap visited.length) := by
  by_cases hfull : cap ≤ visited.length
  · rw [max_eq_right hfull, rtake_descend, descend_of_full (by simpa using hfull)]
  rw [max_eq_left (by omega)]
  induction stack, visited using descend.induct v keep (fun _ => false) with
  | case1 visited =>
    rw [descend, descend, List.rtake, Nat.sub_eq_zero_of_le (by omega), List.drop_zero]
  | case3 depth within stack visited hnever ih =>
    rw [descend_pop (by simpa using hfull), descend_pop rfl, ih hfull]
  | case5 depth n rest within stack visited frame hnever hskip ih =>
    rw [descend_pass (by simpa using hfull) within hskip, descend_pass rfl within hskip, ih hfull]
  | case6 depth n rest within stack visited frame hnever hskip ih =>
    rw [descend_enter (by simpa using hfull) within hskip, descend_enter rfl within hskip]
    by_cases hnext : cap ≤ (n :: visited).length
    · -- this node is the last one that there is room for
      have hcap : cap = (n :: visited).length := by
        rw [List.length_cons] at hnext ⊢
        omega
      rw [hcap, rtake_descend, descend_of_full (by simp)]
    · exact ih hnext
  | case2 depth within stack visited hnever => cases hnever
  | case4 depth n rest within stack visited hnever => cases hnever

theorem descendantsWhere_some (cap : ℕ) :
    v.descendantsWhere keep start (some cap) =
      (v.descendantsWhere keep start none).rtake (max cap 1) :=
  descend_cap cap _ [start]

theorem descendantsWhere_of_length_le {cap : ℕ}
    (h : (v.descendantsWhere keep start none).length ≤ max cap 1) :
    v.descendantsWhere keep start (some cap) = v.descendantsWhere keep start none := by
  rw [descendantsWhere_some, List.rtake, Nat.sub_eq_zero_of_le h, List.drop_zero]

theorem length_descendantsWhere_some (cap : ℕ) :
    (v.descendantsWhere keep start (some cap)).length =
      min (v.descendantsWhere keep start none).length (max cap 1) := by
  rw [descendantsWhere_some, List.rtake, List.length_drop]
  omega

/-- All that can be reached from a node through admitted ones. -/
def reach (v : View) (keep : Node → Bool) (start : Node) : Set Node :=
  {m | v.ReachesThrough keep start m}

theorem coe_descendantsWhere_none :
    ((v.descendantsWhere keep start none).toFinset : Set Node) = v.reach keep start := by
  ext m
  rw [List.coe_toFinset]
  exact mem_descendantsWhere_none

theorem ncard_reach :
    (v.reach keep start).ncard = (v.descendantsWhere keep start none).length := by
  rw [← coe_descendantsWhere_none, Set.ncard_coe_finset,
    List.toFinset_card_of_nodup (descending_descendantsWhere keep none).nodup]

/-- In whatever order a view enumerates its nodes, a forward walk holds its start and besides that only
nodes which admitted nodes that it holds lead to. It holds all that can be reached, or as many nodes of that
as the cap allows, where no room at all counts as room for the start. -/
theorem descendants_exact (v : View) (keep : Node → Bool) (start : Node) (cap : Option ℕ) :
    (v.reach keep start).Finite ∧
    start ∈ v.descendantsWhere keep start cap ∧
    (v.descendantsWhere keep start cap).Nodup ∧
    (∀ m ∈ v.descendantsWhere keep start cap, m ∈ v.reach keep start ∧
      v.ReachesThrough (fun n => keep n && (v.descendantsWhere keep start cap).contains n) start m) ∧
    (v.descendantsWhere keep start cap).length =
      cap.elim (v.reach keep start).ncard (fun c => min (v.reach keep start).ncard (max c 1)) ∧
    ((∀ c ∈ cap, (v.reach keep start).ncard ≤ max c 1) →
      ∀ m, m ∈ v.descendantsWhere keep start cap ↔ m ∈ v.reach keep start) := by
  have hwalk : Descending v keep start [] (v.descendantsWhere keep start cap) :=
    descending_descendantsWhere keep cap
  refine ⟨?_, hwalk.start_mem, hwalk.nodup, ?_, ?_, ?_⟩
  · rw [← coe_descendantsWhere_none]
    exact Finset.finite_toSet _
  · intro m hm
    exact ⟨hwalk.admitted hm, hwalk.reached m hm⟩
  · rw [ncard_reach]
    cases cap with
    | none => rfl
    | some c => exact length_descendantsWhere_some c
  · intro hroom m
    rw [ncard_reach] at hroom
    cases cap with
    | none => exact mem_descendantsWhere_none
    | some c =>
      rw [descendantsWhere_of_length_le (hroom c rfl)]
      exact mem_descendantsWhere_none

/-- Block 6 leads to 7 and 8, and 7 goes on to 9, which leads back; behind 8 there is block 10. -/
def forkedLoop : Graph where
  blocks := ⟨[(6, { size := 4, instrs := 1 }), (7, { size := 4, instrs := 2 }),
    (8, { size := 4, instrs := 1 }), (9, { size := 4, instrs := 3 }),
    (10, { size := 2, instrs := 1 })], by decide⟩
  flows := ⟨[(⟨.block 6, .block 7⟩, { kind := .jumpDirect }),
    (⟨.block 6, .block 8⟩, { kind := .jumpDirect }), (⟨.block 7, .block 9⟩, { kind := .jumpDirect }),
    (⟨.block 8, .block 10⟩, { kind := .jumpDirect }), (⟨.block 9, .block 6⟩, { kind := .jumpDirect })],
    by decide⟩
  hasSink := false
  source_mem := by simp [Table.keys]
  target_mem := by simp [Table.keys]

/-- If block 8 is not admitted, three nodes can be reached; with room for two of them block 9 is left out. -/
theorem descendants_exact_forkedLoop :
    ((forkedLoop.view .ascending).reach (· ≠ .block 8) (.block 6)).ncard = 3 ∧
    ((forkedLoop.view .ascending).descendantsWhere (· ≠ .block 8) (.block 6) (some 2)).length = 2 ∧
    (forkedLoop.view .ascending).ReachesThrough
      (fun n => (n ≠ .block 8 : Bool) && ((forkedLoop.view .ascending).descendantsWhere (· ≠ .block 8)
        (.block 6) (some 2)).contains n) (.block 6) (.block 7) ∧
    ∀ m, m ∈ (forkedLoop.view .ascending).descendantsWhere (· ≠ .block 8) (.block 6) (some 3) ↔
      m ∈ (forkedLoop.view .ascending).reach (· ≠ .block 8) (.block 6) := by
  have hsix : (forkedLoop.view .ascending).succ (.block 6) = [.block 7, .block 8] := by decide
  have hseven : (forkedLoop.view .ascending).succ (.block 7) = [.block 9] := by decide
  have hnine : (forkedLoop.view .ascending).succ (.block 9) = [.block 6] := by decide
  have hreach : ((forkedLoop.view .ascending).reach (· ≠ .block 8) (.block 6)).ncard = 3 := by
    simp [ncard_reach, descendantsWhere, descend, Frame.ofSucc, hsix, hseven, hnine]
  have hheld : (forkedLoop.view .ascending).descendantsWhere (· ≠ .block 8) (.block 6) (some 2) =
      [.block 7, .block 6] := by
    simp [descendantsWhere, descend, Frame.ofSucc, hsix, hseven]
  obtain ⟨-, -, -, hled, hlength, -⟩ :=
    descendants_exact (forkedLoop.view .ascending) (· ≠ .block 8) (.block 6) (some 2)
  obtain ⟨-, -, -, -, -, hall⟩ :=
    descendants_exact (forkedLoop.view .ascending) (· ≠ .block 8) (.block 6) (some 3)
  rw [hreach] at hlength hall
  refine ⟨hreach, hlength, (hled _ (hheld ▸ List.mem_cons_self)).2, hall ?_⟩
  rintro c ⟨⟩
  decide

end CfiSlack.View
