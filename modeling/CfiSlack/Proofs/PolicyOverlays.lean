import CfiSlack.Proofs.LaidEdges
import CfiSlack.Proofs.PolicyAnswers

/-!
# From a policy to its overlay

An overlay has the edges of its graph and those laid over it, whether or not edges that the graph
has already were taken out before. So what a policy permits by itself decides the successors of its
overlay, and taking out the observed edges, sorting and dropping repetitions change nothing there.
-/
namespace CfiSlack

namespace Overlay

variable {o : Overlay} {g : Graph} {edges : List Edge}

@[simp]
theorem mem_succ_view {order : Enumeration} {m n : Node} :
    n ∈ (o.view order).succ m ↔
      (⟨m, n⟩ : Edge) ∈ o.base.flows.keys ∨ (⟨m, n⟩ : Edge) ∈ o.extra :=
  Enumeration.mem_list.trans mem_successors

/-- The overlay stands on the graph and has its edges and the given ones, no others. -/
structure Covers (o : Overlay) (g : Graph) (edges : List Edge) : Prop where
  base : o.base = g
  edge_iff : ∀ e, e ∈ g.flows.keys ∨ e ∈ o.extra ↔ e ∈ g.flows.keys ∨ e ∈ edges

theorem Covers.mem_succ (h : o.Covers g edges) {order : Enumeration} {m n : Node} :
    n ∈ (o.view order).succ m ↔ (⟨m, n⟩ : Edge) ∈ g.flows.keys ∨ (⟨m, n⟩ : Edge) ∈ edges := by
  rw [mem_succ_view, h.base]
  exact h.edge_iff _

theorem Covers.kind? (h : o.Covers g edges) {order : Enumeration} {m n : Node} :
    (o.view order).kind? m n = (g.flow? ⟨m, n⟩).map Flow.kind := by
  rw [← h.base]
  rfl

theorem Covers.weight (h : o.Covers g edges) {order : Enumeration} {w : Weighting} {n : Node} :
    w.weight (o.view order) n = w.weight (g.view .ascending) n := by
  rw [← h.base]
  rfl

/-- Edges without a fault can be laid over the graph. -/
theorem exists_covers_of_sound (h : ∀ e ∈ edges, g.overlayFault? e = none) :
    ∃ o, ofEdges g edges = .ok o ∧ o.Covers g edges := by
  obtain ⟨o, ho⟩ := ofEdges_eq_ok_iff.mpr h
  refine ⟨o, ho, base_of_ofEdges ho, ?_⟩
  intro e
  rw [mem_extra_of_ofEdges ho]
  tauto

/-- Edges that the graph has already may be left out. -/
theorem Covers.of_filter (h : o.Covers g edges) {raw : List Edge}
    (hraw : ∀ e, e ∈ edges ↔ e ∈ raw ∧ e ∉ g.flows.keys) : o.Covers g raw where
  base := h.base
  edge_iff e := by
    rw [h.edge_iff, hraw]
    tauto

end Overlay

namespace PolicyInputs

variable {i : PolicyInputs} {p : Policy}

/-- The overlay of the edges that a resolver hands out for a policy. -/
def Yields (i : PolicyInputs) (p : Policy) (o : Overlay) : Prop :=
  ∃ edges, ((Resolver.ofInputs i).edges p).1 = .ok edges ∧ Overlay.ofEdges i.graph edges = .ok o

theorem edgeFault?_eq_none {e : Edge} (h : i.graph.overlayFault? e = none) :
    i.edgeFault? p e = none := by
  obtain ⟨⟨hs, ht⟩, hsource, htarget⟩ := Graph.overlayFault?_eq_none.mp h
  unfold edgeFault?
  split
  · rfl
  · rw [hs, ht]
    rcases hsource with hsource | hsource <;> rcases htarget with htarget | htarget <;>
      simp [hsource, htarget]

theorem addedEdges_eq_ok {raw : List Edge} (h : ∀ e ∈ raw, i.graph.overlayFault? e = none) :
    i.addedEdges p raw =
      .ok (Ascending.ofList (raw.filter fun e => (i.graph.flow? e).isNone)) :=
  addedEdges_eq_ok_iff.mpr ⟨fun e he => edgeFault?_eq_none (h e he), rfl⟩

/-- A policy whose own edges can be laid over the graph yields an overlay with exactly these. -/
theorem exists_yields {raw : List Edge} (hp : p.dependencies = [])
    (hraw : i.ownEdges p = .ok raw)
    (hsound : ∀ e ∈ raw, i.graph.overlayFault? e = none) :
    ∃ o, i.Yields p o ∧ o.Covers i.graph raw := by
  have hadded := addedEdges_eq_ok (p := p) hsound
  obtain ⟨o, ho, hcovers⟩ := Overlay.exists_covers_of_sound fun e he =>
    hsound e ((mem_addedEdges hadded).mp he).1
  refine ⟨o, ⟨_, ?_, ho⟩, hcovers.of_filter fun e => mem_addedEdges hadded⟩
  rw [((Resolver.ready_ofInputs i).edges p).1, answer_of_independent hp, ownAnswer, hraw]
  exact hadded

end PolicyInputs
end CfiSlack
