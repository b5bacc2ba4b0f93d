import CfiSlack.Overlay
import CfiSlack.Proofs.Fallible
import Mathlib.Data.Finset.Card
import Mathlib.Data.List.Count

/-!
# Edges laid over a graph

Laying edges one after the other succeeds just if each of them could be laid alone. What comes out is
the graph with these edges and no others, each listed once at either end, whatever was repeated or
known before.
-/
namespace CfiSlack

namespace Graph

variable {g : Graph}

theorem contains_block {a : Address} : g.contains (.block a) = true ↔ a ∈ g.blocks.keys :=
  hasBlock_iff

/-- An edge can be laid over a graph if neither end is the sink and both are hubs or blocks of the
graph. -/
theorem overlayFault?_eq_none {e : Edge} :
    g.overlayFault? e = none ↔ (e.source.isSink = false ∧ e.target.isSink = false) ∧
      (e.source.isHub = true ∨ g.contains e.source = true) ∧
      (e.target.isHub = true ∨ g.contains e.target = true) := by
  unfold overlayFault?
  cases e.source.isSink <;> cases e.target.isSink <;> cases e.source.isHub <;>
    cases e.target.isHub <;> cases g.contains e.source <;> cases g.contains e.target <;> simp

theorem isHub_or_contains {n : Node} (hn : n.isSink = false) :
    n.isHub = true ∨ g.contains n = true ↔ n.isHub = true ∨ ∃ a ∈ g.blocks.keys, n = .block a := by
  cases n with
  | block a => simp [contains_block, Node.isHub]
  | sink => cases hn
  | anywhere => simp [Node.isHub]
  | hub label => simp [Node.isHub]

theorem isSink_eq_false {n : Node} : n.isSink = false ↔ n ≠ .sink := by
  cases n <;> simp [Node.isSink]

/-- Observed edges leave blocks and enter blocks or the sink. -/
theorem not_isHub_of_mem_flows {e : Edge} (h : e ∈ g.flows.keys) :
    e.source.isHub = false ∧ e.target.isHub = false := by
  obtain ⟨a, ha, -⟩ := g.source_mem e h
  refine ⟨by rw [ha]; rfl, ?_⟩
  rcases g.target_mem e h with ⟨b, hb, -⟩ | ⟨hb, -⟩
  · rw [hb]
    rfl
  · rw [hb]
    rfl

theorem mem_flows_iff {e : Edge} : e ∈ g.flows.keys ↔ (g.flow? e).isSome = true := Table.mem_keys

end Graph

/-- The view shows an overlay, each node's neighbours in any order. -/
structure View.Shows (v : View) (o : Overlay) : Prop where
  mem_nodes : ∀ n, n ∈ v.nodes ↔ n ∈ o.nodes
  mem_succ : ∀ m n, n ∈ v.succ m ↔ n ∈ o.successors m
  instrs_eq : ∀ n, v.instrs n = o.base.instrs n

namespace Overlay

theorem shows_view (o : Overlay) (order : Enumeration) : (o.view order).Shows o where
  mem_nodes _ := Enumeration.mem_list
  mem_succ _ _ := Enumeration.mem_list
  instrs_eq _ := rfl

theorem sink_mem_nodes {o : Overlay} (h : o.base.hasSink = true) : .sink ∈ o.nodes := by
  simp [nodes, Graph.nodes, h]

variable {o o' : Overlay} {g : Graph} {edges : List Edge} {e : Edge}

/-- The second overlay has the edges of the first and the new ones among some given edges. -/
structure Grown (o o' : Overlay) (edges : List Edge) : Prop where
  base : o'.base = o.base
  mem_extra : ∀ d, d ∈ o'.extra ↔ d ∈ o.extra ∨ d ∈ edges ∧ d ∉ o.base.flows.keys

theorem lay_eq_ok (h : o.lay e = .ok o') : o.base.overlayFault? e = none ∧ Grown o o' [e] := by
  unfold lay at h
  split at h
  · cases h
  · next hfault =>
    refine ⟨hfault, ?_⟩
    split at h
    · next hknown =>
      cases h
      refine ⟨rfl, ?_⟩
      intro d
      rw [List.mem_singleton, Graph.mem_flows_iff]
      constructor
      · exact Or.inl
      · rintro (hd | ⟨rfl, hnew⟩)
        · exact hd
        · exact hknown.resolve_left hnew
    · next hunknown =>
      cases h
      refine ⟨rfl, ?_⟩
      intro d
      have hnew : e ∉ o.base.flows.keys := fun hmem => hunknown (Or.inl (Graph.mem_flows_iff.mp hmem))
      change d ∈ o.extra ++ [e] ↔ _
      rw [List.mem_append, List.mem_singleton]
      constructor
      · rintro (hd | rfl)
        · exact Or.inl hd
        · exact Or.inr ⟨rfl, hnew⟩
      · exact Or.imp_right And.left

theorem exists_lay (h : o.base.overlayFault? e = none) : ∃ o', o.lay e = .ok o' := by
  unfold lay
  split
  · next hfault =>
    rw [h] at hfault
    cases hfault
  · split
    · exact ⟨_, rfl⟩
    · exact ⟨_, rfl⟩

theorem Grown.trans {o'' : Overlay} {more : List Edge} (h : Grown o o' edges)
    (h' : Grown o' o'' more) : Grown o o'' (edges ++ more) where
  base := h'.base.trans h.base
  mem_extra d := by
    rw [h'.mem_extra, h.mem_extra, h.base, List.mem_append]
    tauto

theorem foldlM_lay_eq_ok (h : edges.foldlM lay o = .ok o') :
    (∀ e ∈ edges, o.base.overlayFault? e = none) ∧ Grown o o' edges := by
  induction edges generalizing o with
  | nil =>
    cases h
    refine ⟨by simp, rfl, ?_⟩
    simp
  | cons e edges ih =>
    rw [List.foldlM_cons] at h
    obtain ⟨next, hlay, hrest⟩ := bind_eq_ok.mp h
    obtain ⟨hfault, hgrown⟩ := lay_eq_ok hlay
    obtain ⟨hfaults, hgrown'⟩ := ih hrest
    refine ⟨?_, hgrown.trans hgrown'⟩
    intro d hd
    rcases List.mem_cons.mp hd with rfl | hd
    · exact hfault
    · exact hgrown.base ▸ hfaults d hd

theorem exists_foldlM_lay (h : ∀ e ∈ edges, o.base.overlayFault? e = none) :
    ∃ o', edges.foldlM lay o = .ok o' := by
  induction edges generalizing o with
  | nil => exact ⟨o, rfl⟩
  | cons e edges ih =>
    obtain ⟨next, hlay⟩ := exists_lay (h e List.mem_cons_self)
    have hbase := (lay_eq_ok hlay).2.base
    obtain ⟨o', hrest⟩ := ih (o := next) fun d hd => hbase ▸ h d (List.mem_cons_of_mem e hd)
    refine ⟨o', ?_⟩
    rw [List.foldlM_cons]
    exact bind_eq_ok.mpr ⟨next, hlay, hrest⟩

theorem ofEdges_eq_ok_iff :
    (∃ o, ofEdges g edges = .ok o) ↔ ∀ e ∈ edges, g.overlayFault? e = none := by
  constructor
  · rintro ⟨o, ho⟩
    exact (foldlM_lay_eq_ok ho).1
  · intro h
    exact exists_foldlM_lay (o := bare g) h

theorem base_of_ofEdges (h : ofEdges g edges = .ok o) : o.base = g := (foldlM_lay_eq_ok h).2.base

theorem mem_extra_of_ofEdges (h : ofEdges g edges = .ok o) :
    e ∈ o.extra ↔ e ∈ edges ∧ e ∉ g.flows.keys := by
  rw [(foldlM_lay_eq_ok h).2.mem_extra]
  simp [bare, Layer.empty]

theorem mem_successors_of_ofEdges (h : ofEdges g edges = .ok o) {m n : Node} :
    n ∈ o.successors m ↔ n ∈ g.successors m ∨ (⟨m, n⟩ : Edge) ∈ edges := by
  rw [mem_successors, mem_extra_of_ofEdges h, base_of_ofEdges h, Graph.mem_successors]
  tauto

/-- An edge at a hub is never one of the graph, so no hub of the list gets lost. -/
theorem mem_hubs_of_ofEdges (h : ofEdges g edges = .ok o) {n : Node} :
    n ∈ o.hubs ↔ n.isHub = true ∧ ∃ e ∈ edges, n ∈ e.ends := by
  rw [o.mem_hubs]
  refine and_congr_right fun hhub => exists_congr fun e => ?_
  rw [mem_extra_of_ofEdges h]
  have hnew (hn : n ∈ e.ends) : e ∉ g.flows.keys := by
    intro hflow
    obtain ⟨hsource, htarget⟩ := Graph.not_isHub_of_mem_flows hflow
    rcases Edge.mem_ends.mp hn with rfl | rfl
    · simp [hhub] at hsource
    · simp [hhub] at htarget
  exact ⟨fun ⟨hmem, hn⟩ => ⟨hmem.1, hn⟩, fun ⟨hmem, hn⟩ => ⟨⟨hmem, hnew hn⟩, hn⟩⟩

theorem mem_nodes_of_ofEdges (h : ofEdges g edges = .ok o) {n : Node} :
    n ∈ o.nodes ↔ n ∈ g.nodes ∨ n.isHub = true ∧ ∃ e ∈ edges, n ∈ e.ends := by
  rw [nodes, List.mem_append, mem_hubs_of_ofEdges h, base_of_ofEdges h]

theorem extraCount_of_ofEdges (h : ofEdges g edges = .ok o) :
    o.extraCount = (edges.toFinset.filter fun e => e.target ∉ g.successors e.source).card := by
  have hextra : o.extra.toFinset = edges.toFinset.filter fun e => e.target ∉ g.successors e.source := by
    ext e
    simp [mem_extra_of_ofEdges h, Graph.mem_successors]
  rw [o.extraCount_eq, ← hextra, List.toFinset_card_of_nodup o.extra_nodup]

/-- The overlay is the graph with the edges of a list: neighbours in both directions, each listed
once, the numbers of them, the nodes, and the number of edges that are new. -/
structure Joins (o : Overlay) (g : Graph) (edges : List Edge) : Prop where
  count_successors : ∀ m n, (o.successors m).count n =
    if n ∈ g.successors m ∨ (⟨m, n⟩ : Edge) ∈ edges then 1 else 0
  count_predecessors : ∀ m n, (o.predecessors n).count m = (o.successors m).count n
  outDegree_eq : ∀ n, o.outDegree n = (o.successors n).length
  inDegree_eq : ∀ n, o.inDegree n = (o.predecessors n).length
  nodup_nodes : o.nodes.Nodup
  mem_nodes : ∀ n, n ∈ o.nodes ↔ n ∈ g.nodes ∨ n.isHub = true ∧ ∃ e ∈ edges, n ∈ e.ends
  nodeCount_eq : o.nodeCount = o.nodes.length
  contains_iff : ∀ n, o.contains n = true ↔ n ∈ o.nodes
  contains_ends : ∀ m n, n ∈ o.successors m → o.contains m = true ∧ o.contains n = true
  extraCount_eq : o.extraCount =
    (edges.toFinset.filter fun e => e.target ∉ g.successors e.source).card

theorem joins_of_ofEdges (h : ofEdges g edges = .ok o) : o.Joins g edges where
  count_successors m n := by
    rw [(o.nodup_successors m).count]
    simp only [mem_successors_of_ofEdges h]
  count_predecessors m n := by
    rw [(o.nodup_successors m).count, (o.nodup_predecessors n).count]
    simp only [mem_predecessors, mem_successors]
  outDegree_eq := o.outDegree_eq
  inDegree_eq := o.inDegree_eq
  nodup_nodes := o.nodup_nodes
  mem_nodes _ := mem_nodes_of_ofEdges h
  nodeCount_eq := o.nodeCount_eq
  contains_iff _ := contains_iff
  contains_ends m n hn := by
    have hshows := o.shows_view .ascending
    obtain ⟨hm, hn⟩ := (o.view .ascending).mem_nodes m n ((hshows.mem_succ m n).mpr hn)
    exact ⟨contains_iff.mpr ((hshows.mem_nodes m).mp hm), contains_iff.mpr ((hshows.mem_nodes n).mp hn)⟩
  extraCount_eq := extraCount_of_ofEdges h

/-- Edges can be laid over a graph just if none touches the sink and each end is a hub or a block of
the graph; what comes out is the graph with these edges, in whatever order it is enumerated. -/
theorem overlay_exact (g : Graph) (edges : List Edge) :
    ((∃ o, ofEdges g edges = .ok o) ↔ ∀ e ∈ edges, ∀ n ∈ e.ends,
      n ≠ .sink ∧ (n.isHub = true ∨ ∃ a ∈ g.blocks.keys, n = .block a)) ∧
    ∀ o, ofEdges g edges = .ok o → o.Joins g edges ∧
      ∀ order, (o.view order).nodes.Perm o.nodes ∧
        ∀ n, ((o.view order).succ n).Perm (o.successors n) ∧
          ((o.view order).pred n).Perm (o.predecessors n) := by
  constructor
  · rw [ofEdges_eq_ok_iff]
    have hend (n : Node) : n.isSink = false ∧ (n.isHub = true ∨ g.contains n = true) ↔
        n ≠ .sink ∧ (n.isHub = true ∨ ∃ a ∈ g.blocks.keys, n = .block a) :=
      (and_congr_right fun hn => Graph.isHub_or_contains hn).trans
        (and_congr_left' Graph.isSink_eq_false)
    refine forall₂_congr fun e _ => ?_
    simp only [Graph.overlayFault?_eq_none, ← hend, Edge.mem_ends, forall_eq_or_imp, forall_eq]
    tauto
  · intro o ho
    refine ⟨joins_of_ofEdges ho, ?_⟩
    intro order
    refine ⟨order.perm_list o.nodup_nodes, ?_⟩
    intro n
    exact ⟨order.perm_list (o.nodup_successors n), order.perm_list (o.nodup_predecessors n)⟩

/-- A site that was seen to call a gate. -/
def calledGate : Graph where
  blocks := ⟨[(1, { size := 4, instrs := 1, terminator := some .callIndirect }),
    (2, { size := 2, instrs := 1, terminator := some .syscall })], by decide⟩
  flows := ⟨[(⟨.block 1, .block 2⟩, { kind := .callIndirect }),
    (⟨.block 2, .sink⟩, { kind := .syscall })], by decide⟩
  hasSink := true
  source_mem := by simp [Table.keys]
  target_mem := by simp [Table.keys]

/-- The list repeats an edge, has one of the graph and a loop, and leads through a hub. -/
theorem overlay_exact_calledGate :
    ∃ o, ofEdges calledGate [⟨.block 1, .anywhere⟩, ⟨.anywhere, .block 2⟩, ⟨.anywhere, .block 2⟩,
        ⟨.block 1, .block 2⟩, ⟨.block 2, .block 2⟩] = .ok o ∧
      o.extraCount = 3 ∧ o.contains .anywhere = true ∧
      (o.successors (.block 1)).count (.block 2) = 1 ∧
      (o.predecessors (.block 2)).count .anywhere = 1 ∧
      (o.predecessors (.block 2)).count (.block 2) = 1 ∧
      (o.successors .anywhere).count (.block 1) = 0 := by
  obtain ⟨o, ho⟩ : ∃ o, ofEdges calledGate [⟨.block 1, .anywhere⟩, ⟨.anywhere, .block 2⟩,
      ⟨.anywhere, .block 2⟩, ⟨.block 1, .block 2⟩, ⟨.block 2, .block 2⟩] = .ok o := ⟨_, rfl⟩
  obtain ⟨hjoins, -⟩ := (overlay_exact _ _).2 o ho
  have hpred (m n : Node) := (hjoins.count_predecessors m n).trans (hjoins.count_successors m n)
  refine ⟨o, ho, hjoins.extraCount_eq.trans (by decide), ?_, ?_, ?_, ?_, ?_⟩
  · exact (hjoins.contains_iff _).mpr ((hjoins.mem_nodes _).mpr (by decide))
  · exact (hjoins.count_successors _ _).trans (by decide)
  · exact (hpred _ _).trans (by decide)
  · exact (hpred _ _).trans (by decide)
  · exact (hjoins.count_successors _ _).trans (by decide)

end Overlay
end CfiSlack
