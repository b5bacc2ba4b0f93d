import CfiSlack.Proofs.NumericForms
import CfiSlack.Proofs.TypedTargets

/-!
# Edges that a resolver hands out

Every set of edges that a resolver hands out can be laid over its graph as it is: no edge is refused
and none is dropped.
-/
namespace CfiSlack

namespace Graph

variable {g : Graph} {e : Edge}

/-- An edge that a policy may add: it is new, stays away from the sink, joins blocks and hubs, and has
a block at one end at least. -/
structure Admits (g : Graph) (e : Edge) : Prop where
  fresh : e ∉ g.flows.keys
  source_ne_sink : e.source ≠ .sink
  target_ne_sink : e.target ≠ .sink
  source_known : e.source.isHub = true ∨ ∃ a ∈ g.blocks.keys, e.source = .block a
  target_known : e.target.isHub = true ∨ ∃ a ∈ g.blocks.keys, e.target = .block a
  not_between_hubs : ¬(e.source.isHub = true ∧ e.target.isHub = true)

/-- Edges that a policy may add, each listed once. -/
structure AdmitsAll (g : Graph) (set : List Edge) : Prop where
  nodup : set.Nodup
  admits : ∀ e ∈ set, g.Admits e

theorem Admits.of_sound (hfresh : e ∉ g.flows.keys) (hsound : g.overlayFault? e = none)
    (hends : e.source.isHub = false ∨ e.target.isHub = false) : g.Admits e := by
  obtain ⟨⟨hs, ht⟩, hsource, htarget⟩ := overlayFault?_eq_none.mp hsound
  refine ⟨hfresh, isSink_eq_false.mp hs, isSink_eq_false.mp ht, (isHub_or_contains hs).mp hsource,
    (isHub_or_contains ht).mp htarget, ?_⟩
  rintro ⟨hboth, hboth'⟩
  simp [hboth, hboth'] at hends

theorem Admits.overlayFault?_eq_none (h : g.Admits e) : g.overlayFault? e = none := by
  have hs := isSink_eq_false.mpr h.source_ne_sink
  have ht := isSink_eq_false.mpr h.target_ne_sink
  exact Graph.overlayFault?_eq_none.mpr ⟨⟨hs, ht⟩, (isHub_or_contains hs).mpr h.source_known,
    (isHub_or_contains ht).mpr h.target_known⟩

theorem AdmitsAll.filter {set : List Edge} (h : g.AdmitsAll set) (keep : Edge → Bool) :
    g.AdmitsAll (set.filter keep) where
  nodup := h.nodup.filter keep
  admits e he := h.admits e (List.mem_filter.mp he).1

theorem AdmitsAll.of_perm {set listed : List Edge} (h : g.AdmitsAll set) (hperm : listed.Perm set) :
    g.AdmitsAll listed where
  nodup := hperm.nodup_iff.mpr h.nodup
  admits e he := h.admits e (hperm.mem_iff.mp he)

end Graph

namespace Overlay

variable {o : Overlay} {g : Graph} {edges : List Edge}

/-- New edges are all derived ones of the overlay. -/
theorem Covers.perm_extra (h : o.Covers g edges) (hnodup : edges.Nodup)
    (hfresh : ∀ e ∈ edges, e ∉ g.flows.keys) : o.extra.Perm edges := by
  rw [List.perm_ext_iff_of_nodup o.extra_nodup hnodup]
  intro e
  have hedge := h.edge_iff e
  have hextra : e ∈ o.extra → e ∉ g.flows.keys := by
    rw [← h.base]
    exact o.extra_fresh e
  have hgiven := hfresh e
  tauto

/-- Nothing is refused and nothing is dropped when admitted edges are laid over the graph. -/
theorem exists_of_admitsAll (h : g.AdmitsAll edges) :
    ∃ o, ofEdges g edges = .ok o ∧ o.base = g ∧ o.extraCount = edges.length := by
  obtain ⟨o, ho, hcovers⟩ :=
    exists_covers_of_sound fun e he => (h.admits e he).overlayFault?_eq_none
  have hperm := hcovers.perm_extra h.nodup fun e he => (h.admits e he).fresh
  exact ⟨o, ho, hcovers.base, o.extraCount_eq.trans hperm.length_eq⟩

end Overlay

namespace PolicyInputs

variable {i : PolicyInputs} {p : Policy} {e : Edge} {raw set : List Edge}

/-- A new edge that can be handed out can be laid over the graph. -/
theorem overlayFault?_eq_none_of_edgeFault? (hfresh : e ∉ i.graph.flows.keys)
    (h : i.edgeFault? p e = none) : i.graph.overlayFault? e = none := by
  have hflow : ¬(i.graph.flow? e).isSome = true := fun hsome => hfresh (Graph.mem_flows_iff.mpr hsome)
  rw [edgeFault?, if_neg hflow] at h
  split at h
  · cases h
  · next hsink =>
    simp only [Bool.or_eq_true, not_or, Bool.not_eq_true] at hsink
    have hknown : ∀ n ∈ [e.source, e.target], n.isHub = true ∨ i.graph.contains n = true := by
      rw [Option.map_eq_none_iff, List.find?_eq_none] at h
      intro n hn
      have hnode := h n hn
      simpa [or_iff_not_imp_left] using hnode
    exact Graph.overlayFault?_eq_none.mpr
      ⟨hsink, hknown e.source (by simp), hknown e.target (by simp)⟩

theorem addedEdges_sound (h : i.addedEdges p raw = .ok set) :
    set.Nodup ∧ ∀ e ∈ set, e ∈ raw ∧ e ∉ i.graph.flows.keys ∧ i.graph.overlayFault? e = none := by
  obtain ⟨hfaultless, hset⟩ := addedEdges_eq_ok_iff.mp h
  refine ⟨hset ▸ Ascending.nodup_ofList _, ?_⟩
  intro e he
  obtain ⟨hraw, hfresh⟩ := (mem_addedEdges h).mp he
  exact ⟨hraw, hfresh, overlayFault?_eq_none_of_edgeFault? hfresh (hfaultless e hraw)⟩

/-- No policy permits an edge from a hub to a hub. -/
theorem isHub_eq_false_of_mem_ownEdges (h : i.ownEdges p = .ok raw) (he : e ∈ raw) :
    e.source.isHub = false ∨ e.target.isHub = false := by
  cases p with
  | baseline =>
    cases h
    simp at he
  | numeric w =>
    cases h
    obtain ⟨site, entry, -, hsource, -⟩ := mem_numericEdges.mp he
    exact Or.inl (hsource ▸ rfl)
  | numericHub w =>
    cases h
    rcases mem_numericHubEdges.mp he with ⟨site, entry, -, hsource, -⟩ | ⟨entry, -, -, htarget⟩
    · exact Or.inl (hsource ▸ rfl)
    · exact Or.inr (htarget ▸ rfl)
  | numericTyped w =>
    cases h
    simp at he
  | anyFunction =>
    cases h
    simp only [anyFunctionEdges, List.mem_append, List.mem_map] at he
    rcases he with ⟨site, -, rfl⟩ | ⟨entry, -, rfl⟩
    · exact Or.inl rfl
    · exact Or.inr rfl
  | unrestricted =>
    cases h
    simp only [unrestrictedEdges, List.mem_append, List.mem_map, List.mem_filter] at he
    rcases he with ⟨site, -, rfl⟩ | ⟨n, ⟨hn, -⟩, rfl⟩
    · exact Or.inl rfl
    · exact Or.inr (Graph.isHub_eq_false_of_mem_nodes (Graph.mem_nodes_view.mp hn))
  | typed =>
    obtain ⟨index, hindex, hfindings⟩ := bind_eq_ok.mp h
    obtain ⟨sites, hsites⟩ := exists_siteSignatures (indexed_of_indexFor hindex).1 (by decide)
    obtain ⟨site, -, finding, hfinding, hpermitted⟩ := (mem_findings hfindings).mp he
    obtain ⟨target, rfl, -⟩ := (mem_permitted_typeFinding hsites hfinding).mp hpermitted
    exact Or.inl rfl
  | argCount =>
    obtain ⟨index, -, h⟩ := bind_eq_ok.mp h
    obtain ⟨permitted, -, h⟩ := bind_eq_ok.mp h
    cases h
    simp only [arityEdges, List.mem_append, List.mem_map, List.mem_flatMap] at he
    rcases he with ⟨row, -, rfl⟩ | ⟨n, -, f, -, rfl⟩
    · exact Or.inl rfl
    · exact Or.inr rfl

theorem ownAnswer_admitsAll (h : i.ownAnswer p = .ok set) : i.graph.AdmitsAll set := by
  obtain ⟨raw, hraw, hadded⟩ := bind_eq_ok.mp h
  obtain ⟨hnodup, hsound⟩ := addedEdges_sound hadded
  refine ⟨hnodup, ?_⟩
  intro e he
  obtain ⟨hmem, hfresh, hfault⟩ := hsound e he
  exact .of_sound hfresh hfault (isHub_eq_false_of_mem_ownEdges hraw hmem)

theorem answer_admitsAll (h : i.answer p = .ok set) : i.graph.AdmitsAll set := by
  cases p with
  | numericTyped w =>
    rw [answer_numericTyped] at h
    obtain ⟨numeric, hnumeric, h⟩ := bind_eq_ok.mp h
    obtain ⟨typed, -, h⟩ := bind_eq_ok.mp h
    cases h
    rw [answer_of_independent rfl] at hnumeric
    exact (ownAnswer_admitsAll hnumeric).filter _
  | _ => exact ownAnswer_admitsAll h

end PolicyInputs

namespace Resolver

/-- Whatever was asked before, the edges handed out for a policy are new, join blocks and hubs, and
have a block at one end; in any order they can be laid over the graph, and every one of them counts
there. -/
theorem served_edges_make_overlay (i : PolicyInputs) (history : List Request) (q : Request)
    (set : List Edge) (h : ((after i history).serve q).1 = .ok set) :
    i.graph.AdmitsAll set ∧ ∀ listed : List Edge, listed.Perm set →
      ∃ o, Overlay.ofEdges i.graph listed = .ok o ∧ o.base = i.graph ∧
        o.extraCount = set.length := by
  rw [serve_after] at h
  have hset := PolicyInputs.answer_admitsAll h
  refine ⟨hset, ?_⟩
  intro listed hperm
  rw [← hperm.length_eq]
  exact Overlay.exists_of_admitsAll (hset.of_perm hperm)

theorem served_edges_make_overlay_stubbedCall :
    ∃ set, ((after PolicyInputs.stubbedCall [⟨.typed, true⟩, ⟨.numericTyped .block, false⟩]).serve
        ⟨.argCount, true⟩).1 = .ok set ∧ set.length = 6 ∧
      PolicyInputs.stubbedCall.graph.AdmitsAll set ∧
      ∃ o, Overlay.ofEdges PolicyInputs.stubbedCall.graph set.reverse = .ok o ∧
        o.extraCount = 6 := by
  have hanswer : PolicyInputs.stubbedCall.answer .argCount =
      .ok [⟨.block 16, .hub (.argCount 1)⟩, ⟨.block 16, .hub (.argCount 2)⟩,
        ⟨.hub (.argCount 1), .block 768⟩, ⟨.hub (.argCount 2), .block 256⟩,
        ⟨.hub (.argCount 2), .block 512⟩, ⟨.hub (.argCount 2), .block 1536⟩] := by decide
  have hserve := (serve_after PolicyInputs.stubbedCall
    [⟨.typed, true⟩, ⟨.numericTyped .block, false⟩] ⟨.argCount, true⟩).trans hanswer
  obtain ⟨hadmits, hoverlay⟩ := served_edges_make_overlay _ _ _ _ hserve
  obtain ⟨o, ho, -, hcount⟩ := hoverlay _ (List.reverse_perm _)
  exact ⟨_, hserve, rfl, hadmits, o, ho, hcount⟩

end Resolver
end CfiSlack
