import CfiSlack.Proofs.Walks

/-!
# Distances are exact

The search ends with the weight of the lightest walk for every node that has one, capped at the
largest word, and with an infinite distance for the others. The argument does not use that the
nearest arrival is looked at first: a node either waits with its present distance, or has passed it
on to all its predecessors. So ties, the order of neighbours, edges of weight zero and arrivals that
are out of date need no case of their own.
-/
namespace CfiSlack

namespace Distance

theorem finite_le_finite {d e : UInt64} : finite d ≤ finite e ↔ d.toNat ≤ e.toNat := Iff.rfl

theorem not_infinite_le_finite (d : UInt64) : ¬ infinite ≤ finite d := by
  intro h
  exact absurd (Nat.lt_of_le_of_lt h d.toNat_lt) (Nat.lt_irrefl _)

theorem le_infinite (a : Distance) : a ≤ infinite := Nat.lt_succ_iff.mp a.rank_lt

theorem eq_finite_of_le {a : Distance} {d : UInt64} (h : a ≤ finite d) : ∃ e, a = finite e := by
  cases a with
  | finite e => exact ⟨e, rfl⟩
  | infinite => exact absurd h (not_infinite_le_finite d)

theorem toNat_capped (n : ℕ) : (capped n).toNat = min (UInt64.size - 1) n := by
  have hlt : min (UInt64.size - 1) n < UInt64.size := by
    simp only [UInt64.size]
    omega
  exact UInt64.toNat_ofNat_of_lt hlt

theorem capped_mono {m n : ℕ} (h : m ≤ n) : finite (capped m) ≤ finite (capped n) := by
  rw [finite_le_finite, toNat_capped, toNat_capped]
  omega

/-- A sum may be capped on the way. -/
theorem capped_toNat_add (m n : ℕ) : capped ((capped m).toNat + n) = capped (m + n) := by
  apply UInt64.toNat_inj.mp
  simp only [toNat_capped]
  omega

end Distance

namespace Arrival

theorem mem_enqueue {a b : Arrival} {queue : List Arrival} :
    b ∈ enqueue a queue ↔ b = a ∨ b ∈ queue := by
  induction queue with
  | nil => simp [enqueue]
  | cons c queue ih =>
    unfold enqueue
    split
    · rw [List.mem_cons, ih, List.mem_cons]
      tauto
    · rw [List.mem_cons]

end Arrival

namespace Frontier

variable {d : UInt64} {f : Frontier} {n k : Node} {ns : List Node}

theorem get_offer_le : (f.offer d n).found.get k ≤ f.found.get k := by
  unfold offer
  split
  · next h =>
    rw [DistanceMap.get_set]
    split
    · next hk => exact Std.le_of_lt (hk ▸ h)
    · exact Std.le_refl _
  · exact Std.le_refl _

theorem get_offer_self_le : (f.offer d n).found.get n ≤ .finite d := by
  unfold offer
  split
  · rw [DistanceMap.get_set, if_pos rfl]
    exact Std.le_refl _
  · next h => exact Std.not_lt.mp h

theorem offer_cases : (f.offer d n).found.get k = f.found.get k ∨
    k = n ∧ (f.offer d n).found.get k = .finite d ∧ ⟨d, k⟩ ∈ (f.offer d n).queue := by
  unfold offer
  split
  · rw [DistanceMap.get_set]
    split
    · next hk => exact Or.inr ⟨hk, rfl, Arrival.mem_enqueue.mpr (Or.inl (by rw [hk]))⟩
    · exact Or.inl rfl
  · exact Or.inl rfl

theorem mem_queue_offer {a : Arrival} (h : a ∈ f.queue) : a ∈ (f.offer d n).queue := by
  unfold offer
  split
  · exact Arrival.mem_enqueue.mpr (Or.inr h)
  · exact h

theorem of_mem_queue_offer {a : Arrival} (h : a ∈ (f.offer d n).queue) :
    a ∈ f.queue ∨ a = ⟨d, n⟩ := by
  unfold offer at h
  split at h
  · exact (Arrival.mem_enqueue.mp h).symm
  · exact Or.inl h

theorem offerAll_cons : f.offerAll d (n :: ns) = (f.offer d n).offerAll d ns := rfl

theorem get_offerAll_le : (f.offerAll d ns).found.get k ≤ f.found.get k := by
  induction ns generalizing f with
  | nil => exact Std.le_refl _
  | cons n ns ih =>
    rw [offerAll_cons]
    exact Std.le_trans ih get_offer_le

theorem get_offerAll_mem_le (hk : k ∈ ns) : (f.offerAll d ns).found.get k ≤ .finite d := by
  induction ns generalizing f with
  | nil => simp at hk
  | cons n ns ih =>
    rw [offerAll_cons]
    rcases List.mem_cons.mp hk with rfl | hk
    · exact Std.le_trans get_offerAll_le get_offer_self_le
    · exact ih hk

theorem mem_queue_offerAll {a : Arrival} (h : a ∈ f.queue) : a ∈ (f.offerAll d ns).queue := by
  induction ns generalizing f with
  | nil => exact h
  | cons n ns ih => exact ih (mem_queue_offer h)

theorem of_mem_queue_offerAll {a : Arrival} (h : a ∈ (f.offerAll d ns).queue) :
    a ∈ f.queue ∨ a.distance = d ∧ a.node ∈ ns := by
  induction ns generalizing f with
  | nil => exact Or.inl h
  | cons n ns ih =>
    rcases ih h with h | ⟨hd, hn⟩
    · rcases of_mem_queue_offer h with h | rfl
      · exact Or.inl h
      · exact Or.inr ⟨rfl, List.mem_cons_self⟩
    · exact Or.inr ⟨hd, List.mem_cons_of_mem n hn⟩

/-- A node keeps its distance, or takes the one on offer and waits with it. -/
theorem offerAll_cases : (f.offerAll d ns).found.get k = f.found.get k ∨
    k ∈ ns ∧ (f.offerAll d ns).found.get k = .finite d ∧ ⟨d, k⟩ ∈ (f.offerAll d ns).queue := by
  induction ns generalizing f with
  | nil => exact Or.inl rfl
  | cons n ns ih =>
    rw [offerAll_cons]
    rcases ih (f := f.offer d n) with hkeep | ⟨hk, hget, hqueue⟩
    · rcases offer_cases (f := f) (d := d) (n := n) (k := k) with hsame | ⟨rfl, hget, hqueue⟩
      · exact Or.inl (hkeep.trans hsame)
      · exact Or.inr ⟨List.mem_cons_self, hkeep.trans hget, mem_queue_offerAll hqueue⟩
    · exact Or.inr ⟨List.mem_cons_of_mem n hk, hget, hqueue⟩

end Frontier

namespace DistanceMap

variable {v : View} {w : Weighting} {goal : Node} {m : DistanceMap} {a : Arrival}
  {queue : List Arrival}

/-- What holds at every moment of a search. -/
structure Sweeping (v : View) (w : Weighting) (goal : Node) (m : DistanceMap)
    (queue : List Arrival) : Prop where
  reached : ∀ n d, m.get n = .finite d →
    ∃ r, v.Walk goal (n :: r) ∧ d = Distance.capped (w.total v (n :: r))
  goal_zero : m.get goal = .zero
  waiting : ∀ b ∈ queue, m.get b.node ≤ .finite b.distance
  passed : ∀ n d, m.get n = .finite d →
    ⟨d, n⟩ ∈ queue ∨ ∀ p ∈ v.pred n, m.get p ≤ .finite (passedOn v w ⟨d, n⟩)

theorem sweeping_start : Sweeping v w goal (empty.set goal 0) [⟨0, goal⟩] where
  reached n d h := by
    rw [get_set] at h
    split at h
    · next hn =>
      cases h
      exact ⟨[], hn ▸ View.Walk.here, rfl⟩
    · cases h
  goal_zero := by rw [get_set, if_pos rfl, Distance.zero]
  waiting b hb := by
    rw [List.mem_singleton.mp hb, get_set, if_pos rfl]
    exact Std.le_refl _
  passed n d h := by
    rw [get_set] at h
    split at h
    · next hn =>
      cases h
      exact Or.inl (by simp [hn])
    · cases h

/-- An arrival that is out of date may be dropped: its node waits with a smaller distance, or has
passed that on. -/
theorem Sweeping.drop (h : Sweeping v w goal m (a :: queue))
    (hstale : m.get a.node < .finite a.distance) : Sweeping v w goal m queue where
  reached := h.reached
  goal_zero := h.goal_zero
  waiting b hb := h.waiting b (List.mem_cons_of_mem a hb)
  passed n d hn := by
    rcases h.passed n d hn with hmem | hpassed
    · rcases List.mem_cons.mp hmem with rfl | hmem
      · rw [hn] at hstale
        exact absurd hstale Std.lt_irrefl
      · exact Or.inl hmem
    · exact Or.inr hpassed

/-- An arrival that is up to date passes its distance on to all predecessors of its node. -/
theorem Sweeping.pass (h : Sweeping v w goal m (a :: queue))
    (hcurrent : ¬ m.get a.node < .finite a.distance) :
    Sweeping v w goal (Frontier.offerAll (passedOn v w a) ⟨m, queue⟩ (v.pred a.node)).found
      (Frontier.offerAll (passedOn v w a) ⟨m, queue⟩ (v.pred a.node)).queue := by
  have hget : m.get a.node = .finite a.distance :=
    Std.le_antisymm (h.waiting a List.mem_cons_self) (Std.not_lt.mp hcurrent)
  constructor
  · intro n d hn
    rcases Frontier.offerAll_cases with hkeep | ⟨hpred, htaken, -⟩
    · exact h.reached n d (hkeep.symm.trans hn)
    · cases htaken.symm.trans hn
      obtain ⟨r, hwalk, hd⟩ := h.reached a.node a.distance hget
      refine ⟨a.node :: r, .step ((v.mem_pred n a.node).mp hpred) hwalk, ?_⟩
      rw [passedOn, hd, Distance.capped_toNat_add, Weighting.total_cons_cons, Nat.add_comm]
  · have hle : (Frontier.offerAll (passedOn v w a) ⟨m, queue⟩ (v.pred a.node)).found.get goal ≤
        m.get goal := Frontier.get_offerAll_le
    rw [h.goal_zero] at hle
    exact Std.le_antisymm hle (Nat.zero_le _)
  · intro b hb
    rcases Frontier.of_mem_queue_offerAll hb with hb | ⟨hd, hpred⟩
    · exact Std.le_trans Frontier.get_offerAll_le (h.waiting b (List.mem_cons_of_mem a hb))
    · rw [hd]
      exact Frontier.get_offerAll_mem_le hpred
  · intro n d hn
    rcases Frontier.offerAll_cases with hkeep | ⟨-, htaken, hqueue⟩
    · rcases h.passed n d (hkeep.symm.trans hn) with hmem | hpassed
      · rcases List.mem_cons.mp hmem with rfl | hmem
        · exact Or.inr fun p hp => Frontier.get_offerAll_mem_le hp
        · exact Or.inl (Frontier.mem_queue_offerAll hmem)
      · exact Or.inr fun p hp => Std.le_trans Frontier.get_offerAll_le (hpassed p hp)
    · cases htaken.symm.trans hn
      exact Or.inl hqueue

theorem Sweeping.run (h : Sweeping v w goal m queue) :
    Sweeping v w goal (sweep v w m queue) [] := by
  induction m, queue using sweep.induct v w with
  | case1 m =>
    rw [sweep]
    exact h
  | case2 m a queue hstale ih =>
    rw [sweep, if_pos hstale]
    exact ih (h.drop hstale)
  | case3 m a queue hcurrent next ih =>
    rw [sweep, if_neg hcurrent]
    exact ih (h.pass hcurrent)

theorem compute_eq_ok (h : goal ∈ v.nodes) : compute v w goal = .ok (toGoal v w goal) := by
  simp [compute, v.contains_iff, h]

theorem sweeping_toGoal : Sweeping v w goal (toGoal v w goal) [] := sweeping_start.run

theorem toGoal_reached {n : Node} {d : UInt64} (h : (toGoal v w goal).get n = .finite d) :
    ∃ r, v.Walk goal (n :: r) ∧ d = Distance.capped (w.total v (n :: r)) :=
  sweeping_toGoal.reached n d h

/-- No walk is lighter than the distance found. -/
theorem toGoal_le {n : Node} {r : Route} (h : v.Walk goal (n :: r)) :
    (toGoal v w goal).get n ≤ .finite (Distance.capped (w.total v (n :: r))) := by
  induction r generalizing n with
  | nil =>
    cases h
    rw [sweeping_toGoal.goal_zero]
    exact Nat.zero_le _
  | cons k r ih =>
    obtain ⟨hedge, hrest⟩ := h.tail
    obtain ⟨d, hd⟩ := Distance.eq_finite_of_le (ih hrest)
    have hle := ih hrest
    rw [hd, Distance.finite_le_finite] at hle
    rcases sweeping_toGoal.passed k d hd with hmem | hpassed
    · simp at hmem
    · refine Std.le_trans (hpassed n ((v.mem_pred n k).mpr hedge)) ?_
      rw [Weighting.total_cons_cons, Nat.add_comm, ← Distance.capped_toNat_add]
      exact Distance.capped_mono (Nat.add_le_add_right hle _)

/-- A node with a single way on is no nearer than the node it leads to. -/
theorem get_toGoal_le_of_succ {n k : Node} (hn : n ≠ goal) (hsucc : ∀ j ∈ v.succ n, j = k) :
    (toGoal v w goal).get k ≤ (toGoal v w goal).get n := by
  cases hget : (toGoal v w goal).get n with
  | infinite => exact Distance.le_infinite _
  | finite d =>
    obtain ⟨r, hwalk, rfl⟩ := toGoal_reached hget
    cases hwalk with
    | here => exact absurd rfl hn
    | step edge rest =>
      cases hsucc _ edge
      refine Std.le_trans (toGoal_le rest) (Distance.capped_mono ?_)
      rw [Weighting.total_cons_cons]
      exact Nat.le_add_left _ _

theorem get_toGoal_eq_infinite {n : Node} :
    (toGoal v w goal).get n = .infinite ↔ ¬ ∃ r, v.Walk goal (n :: r) := by
  constructor
  · rintro h ⟨r, hwalk⟩
    have hle := toGoal_le (w := w) hwalk
    rw [h] at hle
    exact Distance.not_infinite_le_finite _ hle
  · intro h
    cases hget : (toGoal v w goal).get n with
    | infinite => rfl
    | finite d =>
      obtain ⟨r, hwalk, -⟩ := toGoal_reached hget
      exact absurd ⟨r, hwalk⟩ h

/-- The distance of a node is the least weight of its walks, capped. -/
theorem get_toGoal_of_isLeast {n : Node} {D : ℕ} (h : IsLeast (w.walkWeights v goal n) D) :
    (toGoal v w goal).get n = .finite (Distance.capped D) := by
  obtain ⟨⟨r, hwalk, rfl⟩, hleast⟩ := h
  have hle := toGoal_le (w := w) hwalk
  obtain ⟨d, hd⟩ := Distance.eq_finite_of_le hle
  obtain ⟨s, hwalk', hcap⟩ := toGoal_reached hd
  have hge : Distance.finite (Distance.capped (w.total v (n :: r))) ≤ .finite d := by
    rw [hcap]
    exact Distance.capped_mono (hleast ⟨s, hwalk', rfl⟩)
  rw [hd] at hle ⊢
  exact Std.le_antisymm hle hge

/-- Distances depend on the weights of walks alone, also across views. -/
theorem get_toGoal_congr {u : View} {n : Node}
    (h : w.walkWeights v goal n = w.walkWeights u goal n) :
    (toGoal v w goal).get n = (toGoal u w goal).get n := by
  rcases (w.walkWeights v goal n).eq_empty_or_nonempty with hempty | hne
  · have hnone (x : View) (hx : w.walkWeights x goal n = ∅) : ¬ ∃ r, x.Walk goal (n :: r) := by
      rintro ⟨r, hwalk⟩
      exact Set.eq_empty_iff_forall_notMem.mp hx _ ⟨r, hwalk, rfl⟩
    rw [get_toGoal_eq_infinite.mpr (hnone v hempty),
      get_toGoal_eq_infinite.mpr (hnone u (h ▸ hempty))]
  · obtain ⟨D, hD⟩ := Weighting.exists_isLeast_walkWeights hne
    rw [get_toGoal_of_isLeast hD, get_toGoal_of_isLeast (h ▸ hD)]

/-- For every goal of a view there are distances: none where no walk leads to the goal, and else
the least weight of a walk, or the largest word if that is smaller. -/
theorem compute_exact (v : View) (w : Weighting) (goal : Node) (hgoal : goal ∈ v.nodes) :
    ∃ m, compute v w goal = .ok m ∧ m.get goal = .zero ∧ ∀ n,
      (m.get n = .infinite ↔ ¬ ∃ r, v.Walk goal (n :: r)) ∧
      ((∃ r, v.Walk goal (n :: r)) → ∃ D d, IsLeast (w.walkWeights v goal n) D ∧
        m.get n = .finite d ∧ d.toNat = min (2 ^ 64 - 1) D) := by
  refine ⟨toGoal v w goal, compute_eq_ok hgoal, sweeping_toGoal.goal_zero, ?_⟩
  intro n
  refine ⟨get_toGoal_eq_infinite, ?_⟩
  rintro ⟨r, hwalk⟩
  obtain ⟨D, hD⟩ := Weighting.exists_isLeast_walkWeights ⟨_, r, hwalk, rfl⟩
  exact ⟨D, _, hD, get_toGoal_of_isLeast hD, Distance.toNat_capped D⟩

/-- Block 1 jumps to block 2, which is as heavy as a block can be and jumps to the gate 3. -/
def heavyChain : Graph where
  blocks := ⟨[(1, { size := 4, instrs := 1 }), (2, { size := 4, instrs := 18446744073709551615 }),
    (3, { size := 2, instrs := 5, terminator := some .syscall })], by decide⟩
  flows := ⟨[(⟨.block 1, .block 2⟩, { kind := .jumpDirect }),
    (⟨.block 2, .block 3⟩, { kind := .jumpDirect }), (⟨.block 3, .sink⟩, { kind := .syscall })],
    by decide⟩
  hasSink := true
  source_mem := by simp [Table.keys]
  target_mem := by simp [Table.keys]

theorem compute_exact_heavyChain :
    Node.sink ∈ (heavyChain.view .descending).nodes ∧
      ∃ m, compute (heavyChain.view .descending) .instr .sink = .ok m ∧
        m.get (.block 1) = .finite 18446744073709551615 := by
  have hsink : Node.sink ∈ (heavyChain.view .descending).nodes :=
    Graph.mem_nodes_view.mpr (by decide)
  obtain ⟨m, hm, -, hexact⟩ := compute_exact (heavyChain.view .descending) .instr .sink hsink
  refine ⟨hsink, m, hm, ?_⟩
  have hwalk : (heavyChain.view .descending).Walk .sink [.block 1, .block 2, .block 3, .sink] :=
    .step (Graph.mem_succ_view.mpr (by decide)) (.step (Graph.mem_succ_view.mpr (by decide))
      (.step (Graph.mem_succ_view.mpr (by decide)) .here))
  obtain ⟨D, d, ⟨⟨r, hr, rfl⟩, -⟩, hget, hd⟩ := (hexact (.block 1)).2 ⟨_, hwalk⟩
  -- every walk from block 1 enters block 2, so the cap is reached whatever follows
  have hheavy : 18446744073709551615 ≤ Weighting.total .instr (heavyChain.view .descending)
      (.block 1 :: r) := by
    cases hr with
    | @step _ k t edge rest =>
      have hsucc : heavyChain.successors (.block 1) = [.block 2] := by decide
      rw [Graph.mem_succ_view, hsucc, List.mem_singleton] at edge
      rw [edge, Weighting.total_cons_cons]
      exact Nat.le_add_right 18446744073709551615 _
  rw [hget]
  congr 1
  apply UInt64.toNat_inj.mp
  rw [hd]
  exact Nat.min_eq_left hheavy

end DistanceMap
end CfiSlack
