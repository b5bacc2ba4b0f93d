import CfiSlack.Proofs.Complexity
import CfiSlack.Proofs.NumericForms

/-!
# Hubs as meshes

Where no hub leads to a hub, the complexity of a set of nodes is that of its blocks and the sink, with
an edge for each way through a hub. A way through a hub that runs beside an observed edge is counted
again, so the hub form of the numeric policy exceeds the naive form by the targets that were observed.
-/
namespace CfiSlack

namespace View

variable {v : View} {nodes : List Node} {n : Node}

/-- The members of a set of nodes that are no hubs. -/
def plainOf (nodes : List Node) : Finset Node := nodes.toFinset.filter fun n => n.isHub = false

def hubsOf (nodes : List Node) : Finset Node := nodes.toFinset.filter fun n => n.isHub = true

/-- Edges inside a set of nodes. -/
def edgesIn (v : View) (s : Finset Node) : Finset (Node × Node) :=
  (s ×ˢ s).filter fun e => e.2 ∈ v.succ e.1

/-- The view has no edge from a hub to a hub. -/
def Layered (v : View) : Prop := ∀ m n, n ∈ v.succ m → m.isHub = false ∨ n.isHub = false

/-- A sum over a set of nodes splits into its hubs and the rest. -/
theorem sum_hubsOf_add_sum_plainOf {M : Type} [AddCommMonoid M] (nodes : List Node) (f : Node → M) :
    ∑ n ∈ hubsOf nodes, f n + ∑ n ∈ plainOf nodes, f n = ∑ n ∈ nodes.toFinset, f n := by
  have hplain : plainOf nodes = nodes.toFinset.filter fun n => ¬n.isHub = true := by
    simp only [plainOf, Bool.not_eq_true]
  rw [hplain, hubsOf]
  exact Finset.sum_filter_add_sum_filter_not _ _ _

theorem filter_plainOf {p : Node → Prop} [DecidablePred p] (h : ∀ n, p n → n.isHub = false)
    (nodes : List Node) : (plainOf nodes).filter p = nodes.toFinset.filter p := by
  rw [plainOf, Finset.filter_filter]
  refine Finset.filter_congr fun n _ => ?_
  exact and_iff_right_of_imp (h n)

/-- The neighbours of a hub are no hubs. -/
theorem Layered.outDegreeIn_eq (hv : v.Layered) (hn : n.isHub = true) (nodes : List Node) :
    v.outDegreeIn nodes n = ((plainOf nodes).filter fun m => m ∈ v.succ n).card := by
  have hmembers : ∀ m, m ∈ v.succ n → m.isHub = false := by
    intro m hm
    simpa [hn] using hv n m hm
  rw [outDegreeIn_eq_card, filter_plainOf hmembers]

theorem Layered.inDegreeIn_eq (hv : v.Layered) (hn : n.isHub = true) (nodes : List Node) :
    v.inDegreeIn nodes n = ((plainOf nodes).filter fun m => n ∈ v.succ m).card := by
  have hcallers : ∀ m, n ∈ v.succ m → m.isHub = false := by
    intro m hm
    simpa [hn] using hv m n hm
  rw [inDegreeIn_eq_card, filter_plainOf hcallers]

theorem outDegreeIn_eq_hubs_add_plain (v : View) (nodes : List Node) (n : Node) :
    v.outDegreeIn nodes n = ((hubsOf nodes).filter fun m => m ∈ v.succ n).card +
      ((plainOf nodes).filter fun m => m ∈ v.succ n).card := by
  rw [outDegreeIn_eq_card]
  simp only [Finset.card_filter]
  exact (sum_hubsOf_add_sum_plainOf nodes _).symm

theorem card_edgesIn (v : View) (s : Finset Node) :
    (v.edgesIn s).card = ∑ n ∈ s, (s.filter fun m => m ∈ v.succ n).card := by
  simp only [edgesIn, Finset.card_filter, Finset.sum_product]

/-- Edges that leave the blocks and the sink end there or at a hub, and those at the hubs may be
counted where they end. -/
theorem Layered.sum_outDegreeIn_plainOf (hv : v.Layered) (nodes : List Node) :
    ∑ n ∈ plainOf nodes, v.outDegreeIn nodes n =
      (v.edgesIn (plainOf nodes)).card + ∑ n ∈ hubsOf nodes, v.inDegreeIn nodes n := by
  have hcross : ∑ n ∈ plainOf nodes, ((hubsOf nodes).filter fun m => m ∈ v.succ n).card =
      ∑ n ∈ hubsOf nodes, v.inDegreeIn nodes n := by
    have hswap := Finset.sum_card_bipartiteAbove_eq_sum_card_bipartiteBelow
      (s := plainOf nodes) (t := hubsOf nodes) fun n m => m ∈ v.succ n
    refine hswap.trans (Finset.sum_congr rfl fun n hn => ?_)
    exact (hv.inDegreeIn_eq (Finset.mem_filter.mp hn).2 nodes).symm
  simp only [outDegreeIn_eq_hubs_add_plain, Finset.sum_add_distrib]
  rw [hcross, card_edgesIn, Nat.add_comm]

theorem leavingShare_of_isHub (h : n.isHub = true) :
    v.leavingShare nodes n =
      v.inDegreeIn nodes n * v.outDegreeIn nodes n - v.inDegreeIn nodes n := by
  simp only [leavingShare, meshSurplus, h, if_true]
  ring

theorem leavingShare_of_not_isHub (h : n.isHub = false) :
    v.leavingShare nodes n = v.outDegreeIn nodes n - 1 := by
  rw [leavingShare, meshSurplus_of_not_isHub h, add_zero]

/-- A hub counts as an edge from each of its callers to each of its members. -/
theorem Layered.complexity_eq_mesh (hv : v.Layered) (hnodup : nodes.Nodup) :
    v.complexity nodes = (v.edgesIn (plainOf nodes)).card +
      ∑ n ∈ hubsOf nodes, (v.inDegreeIn nodes n * v.outDegreeIn nodes n : ℤ) -
        (plainOf nodes).card + 2 := by
  have hhubs : ∑ n ∈ hubsOf nodes, v.leavingShare nodes n =
      ∑ n ∈ hubsOf nodes, (v.inDegreeIn nodes n * v.outDegreeIn nodes n : ℤ) -
        ∑ n ∈ hubsOf nodes, (v.inDegreeIn nodes n : ℤ) := by
    rw [← Finset.sum_sub_distrib]
    exact Finset.sum_congr rfl fun n hn => leavingShare_of_isHub (Finset.mem_filter.mp hn).2
  have hplain : ∑ n ∈ plainOf nodes, v.leavingShare nodes n =
      ∑ n ∈ plainOf nodes, (v.outDegreeIn nodes n : ℤ) - (plainOf nodes).card := by
    rw [Finset.card_eq_sum_ones, Nat.cast_sum, ← Finset.sum_sub_distrib]
    exact Finset.sum_congr rfl fun n hn => leavingShare_of_not_isHub (Finset.mem_filter.mp hn).2
  have hedges : ∑ n ∈ plainOf nodes, (v.outDegreeIn nodes n : ℤ) =
      (v.edgesIn (plainOf nodes)).card + ∑ n ∈ hubsOf nodes, (v.inDegreeIn nodes n : ℤ) := by
    exact_mod_cast hv.sum_outDegreeIn_plainOf nodes
  rw [complexity_eq_sum_leavingShare hnodup, ← sum_hubsOf_add_sum_plainOf, hhubs, hplain, hedges]
  ring

theorem plainOf_hubsOf_of_perm {hubs listed : List Node} (hperm : listed.Perm (nodes ++ hubs))
    (hnodes : ∀ n ∈ nodes, n.isHub = false) (hhubs : ∀ n ∈ hubs, n.isHub = true) :
    plainOf listed = nodes.toFinset ∧ hubsOf listed = hubs.toFinset := by
  have hmem (n : Node) : n ∈ listed ↔ n ∈ nodes ∨ n ∈ hubs := by
    rw [hperm.mem_iff, List.mem_append]
  constructor
  · ext n
    simp only [plainOf, Finset.mem_filter, List.mem_toFinset, hmem]
    grind
  · ext n
    simp only [hubsOf, Finset.mem_filter, List.mem_toFinset, hmem]
    grind

end View

/-- The pairs of nodes of a set that are joined by one of some edges. -/
def Edge.joinedIn (edges : List Edge) (s : Finset Node) : Finset (Node × Node) :=
  (s ×ˢ s).filter fun e => (⟨e.1, e.2⟩ : Edge) ∈ edges

theorem View.Shows.mem_succ_iff {v : View} {o : Overlay} {g : Graph} {edges : List Edge}
    (hv : v.Shows o) (h : o.Covers g edges) {m n : Node} :
    n ∈ v.succ m ↔ (⟨m, n⟩ : Edge) ∈ g.flows.keys ∨ (⟨m, n⟩ : Edge) ∈ edges := by
  rw [hv.mem_succ, ← (o.shows_view .ascending).mem_succ, h.mem_succ]

namespace Overlay

theorem layered_of_shows {o : Overlay} {v : View}
    (hlayered : ∀ e ∈ o.extra, e.source.isHub = false ∨ e.target.isHub = false) (hv : v.Shows o) :
    v.Layered := by
  intro m n hn
  rcases mem_successors.mp ((hv.mem_succ m n).mp hn) with hflow | hextra
  · exact Or.inl (Graph.not_isHub_of_mem_flows hflow).1
  · exact hlayered _ hextra

/-- Where no hub leads to a hub, the complexity of a set of nodes counts the edges between its blocks and
the sink, and for each hub an edge from every caller in the set to every member in it; the hubs themselves
are no nodes. The order in which nodes and neighbours are listed does not matter. -/
theorem complexity_counts_mesh (o : Overlay)
    (hlayered : ∀ e ∈ o.extra, e.source.isHub = false ∨ e.target.isHub = false) (s : Finset Node)
    (v : View) (hv : v.Shows o) (nodes : List Node) (hnodup : nodes.Nodup)
    (hnodes : nodes.toFinset = s) :
    v.complexity nodes =
      ((s ×ˢ s).filter fun e => e.1.isHub = false ∧ e.2.isHub = false ∧
        e.2 ∈ o.successors e.1).card +
      ∑ h ∈ s with h.isHub = true,
        ((s.filter fun m => m ∈ o.predecessors h).card *
          (s.filter fun m => m ∈ o.successors h).card : ℤ) -
      (s.filter fun n => n.isHub = false).card + 2 := by
  subst hnodes
  have hpred (h : Node) : v.inDegreeIn nodes h =
      (nodes.toFinset.filter fun m => m ∈ o.predecessors h).card := by
    rw [View.inDegreeIn_eq_card]
    congr 1
    refine Finset.filter_congr fun m _ => ?_
    rw [hv.mem_succ, mem_successors, mem_predecessors]
  have hsucc (h : Node) : v.outDegreeIn nodes h =
      (nodes.toFinset.filter fun m => m ∈ o.successors h).card := by
    rw [View.outDegreeIn_eq_card]
    congr 1
    exact Finset.filter_congr fun m _ => hv.mem_succ h m
  have hedges : v.edgesIn (View.plainOf nodes) = (nodes.toFinset ×ˢ nodes.toFinset).filter fun e =>
      e.1.isHub = false ∧ e.2.isHub = false ∧ e.2 ∈ o.successors e.1 := by
    ext e
    simp only [View.edgesIn, View.plainOf, Finset.mem_filter, Finset.mem_product, hv.mem_succ]
    grind
  rw [(layered_of_shows hlayered hv).complexity_eq_mesh hnodup, hedges]
  simp only [hpred, hsucc]
  rfl

/-- Blocks 1 and 2 may call blocks 3 and 4 through a hub. Block 4 may go anywhere, which is block 5. -/
def sharedMembers : Overlay where
  base :=
    { blocks := ⟨[(1, { size := 4, instrs := 1, terminator := some .callIndirect }),
        (2, { size := 4, instrs := 1, terminator := some .callIndirect }),
        (3, { size := 6, instrs := 2 }),
        (4, { size := 4, instrs := 1, terminator := some .callIndirect }),
        (5, { size := 6, instrs := 2 })], by decide⟩
      flows := ⟨[(⟨.block 1, .block 2⟩, { kind := .jumpDirect }),
        (⟨.block 1, .block 3⟩, { kind := .callIndirect })], by decide⟩
      hasSink := false
      source_mem := by simp [Table.keys]
      target_mem := by simp [Table.keys] }
  extra := [⟨.block 1, .hub .functions⟩, ⟨.block 2, .hub .functions⟩, ⟨.hub .functions, .block 3⟩,
    ⟨.hub .functions, .block 4⟩, ⟨.block 4, .anywhere⟩, ⟨.anywhere, .block 5⟩]
  extra_nodup := by decide
  extra_fresh := by decide
  extra_sound := by decide

/-- Two edges and the four ways through the first hub count. The second hub has a caller in the set and no
member in it. -/
theorem complexity_counts_mesh_sharedMembers :
    (∀ e ∈ sharedMembers.extra, e.source.isHub = false ∨ e.target.isHub = false) ∧
      (sharedMembers.view .descending).Shows sharedMembers ∧
      (sharedMembers.view .descending).complexity
        [.anywhere, .block 4, .hub .functions, .block 2, .block 3, .block 1] =
          2 + (2 * 2 + 1 * 0) - 4 + 2 := by
  have hlayered : ∀ e ∈ sharedMembers.extra, e.source.isHub = false ∨ e.target.isHub = false := by
    decide
  have hshows := sharedMembers.shows_view .descending
  refine ⟨hlayered, hshows, ?_⟩
  rw [complexity_counts_mesh sharedMembers hlayered _ _ hshows _ (by decide) rfl]
  rfl

end Overlay

namespace PolicyInputs

variable {i : PolicyInputs} {w : Weighting} {naive hub : Overlay} {v : View} {s : Finset Node}

theorem edgesIn_numeric (h : naive.Covers i.graph (i.numericEdges w)) (hv : v.Shows naive) :
    v.edgesIn s = Edge.joinedIn i.graph.flows.keys s ∪ Edge.joinedIn (i.numericEdges w) s := by
  ext e
  simp only [View.edgesIn, Edge.joinedIn, Finset.mem_union, Finset.mem_filter, hv.mem_succ_iff h]
  exact and_or_left

theorem edgesIn_numericHub (h : hub.Covers i.graph (i.numericHubEdges w)) (hv : v.Shows hub)
    (hs : ∀ n ∈ s, n.isHub = false) : v.edgesIn s = Edge.joinedIn i.graph.flows.keys s := by
  refine Finset.filter_congr fun e he => ?_
  obtain ⟨hsource, htarget⟩ := Finset.mem_product.mp he
  rw [hv.mem_succ_iff h, mem_numericHubEdges]
  refine or_iff_left ?_
  rintro (⟨_, _, -, -, hhub⟩ | ⟨_, -, hhub, -⟩)
  · have hplain := hs _ htarget
    rw [hhub] at hplain
    cases hplain
  · have hplain := hs _ hsource
    rw [hhub] at hplain
    cases hplain

theorem layered_numeric (h : naive.Covers i.graph (i.numericEdges w)) (hv : v.Shows naive) :
    v.Layered := by
  intro m n hn
  rcases (hv.mem_succ_iff h).mp hn with hflow | hedge
  · exact Or.inl (Graph.not_isHub_of_mem_flows hflow).1
  · obtain ⟨site, entry, -, rfl, -⟩ := mem_numericEdges.mp hedge
    exact Or.inl rfl

theorem layered_numericHub (h : hub.Covers i.graph (i.numericHubEdges w)) (hv : v.Shows hub) :
    v.Layered := by
  intro m n hn
  rcases (hv.mem_succ_iff h).mp hn with hflow | hedge
  · exact Or.inl (Graph.not_isHub_of_mem_flows hflow).1
  · rcases mem_numericHubEdges.mp hedge with ⟨site, entry, -, rfl, -⟩ | ⟨entry, -, -, rfl⟩
    · exact Or.inl rfl
    · exact Or.inr rfl

theorem mem_hubs_numericHub (h : hub.Covers i.graph (i.numericHubEdges w)) {site entry : Address}
    (htarget : i.NumericTarget w site entry) : i.hubOf w entry ∈ hub.hubs := by
  have hedge : (⟨.block site, i.hubOf w entry⟩ : Edge) ∈ i.numericHubEdges w :=
    mem_numericHubEdges.mpr (Or.inl ⟨site, entry, htarget, rfl, rfl⟩)
  rcases (h.edge_iff _).mpr (Or.inr hedge) with hflow | hextra
  · cases (Graph.not_isHub_of_mem_flows hflow).2
  · exact (hub.mem_hubs _).mpr ⟨rfl, _, hextra, by simp [Edge.ends]⟩

/-- The targets with a given hub are the ways through it: all that lead there may call all that it
leads to. -/
theorem joinedIn_through_hub (h : hub.Covers i.graph (i.numericHubEdges w)) (hv : v.Shows hub)
    {b : Node} (hb : b.isHub = true) :
    (Edge.joinedIn (i.numericEdges w) s).filter (fun e => distanceHub ((i.distances w).get e.2) = b) =
      (s.filter fun m => b ∈ v.succ m) ×ˢ (s.filter fun n => n ∈ v.succ b) := by
  ext ⟨m, n⟩
  have hin : b ∈ v.succ m ↔ ∃ site entry, i.NumericTarget w site entry ∧ m = .block site ∧
      b = i.hubOf w entry := by
    rw [hv.mem_succ_iff h, mem_numericHubEdges]
    constructor
    · rintro (hflow | hsite | ⟨_, -, -, rfl⟩)
      · rw [(Graph.not_isHub_of_mem_flows hflow).2] at hb
        cases hb
      · exact hsite
      · cases hb
    · intro hsite
      exact Or.inr (Or.inl hsite)
  have hout : n ∈ v.succ b ↔ ∃ entry ∈ i.functions, b = i.hubOf w entry ∧ n = .block entry := by
    rw [hv.mem_succ_iff h, mem_numericHubEdges]
    constructor
    · rintro (hflow | ⟨_, _, -, rfl, -⟩ | hentry)
      · rw [(Graph.not_isHub_of_mem_flows hflow).1] at hb
        cases hb
      · cases hb
      · exact hentry
    · intro hentry
      exact Or.inr (Or.inr hentry)
  simp only [Edge.joinedIn, Finset.mem_filter, Finset.mem_product, mem_numericEdges, hin, hout]
  constructor
  · rintro ⟨⟨⟨hm, hn⟩, site, entry, htarget, rfl, rfl⟩, rfl⟩
    exact ⟨⟨hm, site, entry, htarget, rfl, rfl⟩, hn, entry, htarget.entry_mem, rfl, rfl⟩
  · rintro ⟨⟨hm, site, other, htarget, rfl, rfl⟩, hn, entry, hentry, hhub, rfl⟩
    have hdistance := hubOf_eq_hubOf.mp hhub
    exact ⟨⟨⟨hm, hn⟩, site, entry, htarget.of_distance_eq hentry hdistance.symm, rfl, rfl⟩, hhub.symm⟩

/-- Distances part the entries, so the ways through all hubs are the targets, each counted once. -/
theorem sum_mesh_numericHub (h : hub.Covers i.graph (i.numericHubEdges w)) (hv : v.Shows hub)
    {listed : List Node} (hlisted : View.hubsOf listed = hub.hubs.toFinset) :
    ∑ b ∈ View.hubsOf listed, v.inDegreeIn listed b * v.outDegreeIn listed b =
      (Edge.joinedIn (i.numericEdges w) (View.plainOf listed)).card := by
  have hmaps : ∀ e ∈ Edge.joinedIn (i.numericEdges w) (View.plainOf listed),
      distanceHub ((i.distances w).get e.2) ∈ View.hubsOf listed := by
    rintro ⟨m, n⟩ he
    obtain ⟨site, entry, htarget, rfl, rfl⟩ := mem_numericEdges.mp (Finset.mem_filter.mp he).2
    rw [hlisted, List.mem_toFinset]
    exact mem_hubs_numericHub h htarget
  rw [Finset.card_eq_sum_card_fiberwise hmaps]
  refine Finset.sum_congr rfl fun b hb => ?_
  have hhub : b.isHub = true := (Finset.mem_filter.mp hb).2
  have hlayered := layered_numericHub h hv
  rw [joinedIn_through_hub h hv hhub, Finset.card_product, hlayered.inDegreeIn_eq hhub,
    hlayered.outDegreeIn_eq hhub]

variable {nodes : List Node}

theorem complexity_numeric (h : naive.Covers i.graph (i.numericEdges w)) (hv : v.Shows naive)
    (hnodup : nodes.Nodup) (hplain : ∀ n ∈ nodes, n.isHub = false) :
    v.complexity nodes = (Edge.joinedIn i.graph.flows.keys nodes.toFinset ∪
      Edge.joinedIn (i.numericEdges w) nodes.toFinset).card - nodes.toFinset.card + 2 := by
  have hperm : nodes.Perm (nodes ++ []) := by rw [List.append_nil]
  obtain ⟨hnodes, hhubs⟩ := View.plainOf_hubsOf_of_perm hperm hplain (by simp)
  rw [(layered_numeric h hv).complexity_eq_mesh hnodup, hnodes, hhubs, edgesIn_numeric h hv]
  simp

theorem complexity_numericHub (h : hub.Covers i.graph (i.numericHubEdges w)) (hv : v.Shows hub)
    (hnodup : nodes.Nodup) (hplain : ∀ n ∈ nodes, n.isHub = false) {listed : List Node}
    (hperm : listed.Perm (nodes ++ hub.hubs)) :
    v.complexity listed = (Edge.joinedIn i.graph.flows.keys nodes.toFinset).card +
      (Edge.joinedIn (i.numericEdges w) nodes.toFinset).card - nodes.toFinset.card + 2 := by
  have hhub : ∀ n ∈ hub.hubs, n.isHub = true := fun n hn => ((hub.mem_hubs n).mp hn).1
  have hlisted : listed.Nodup := by
    rw [hperm.nodup_iff, List.nodup_append']
    refine ⟨hnodup, Ascending.nodup_of_pairwise hub.hubs_ascend, ?_⟩
    intro n hn hn'
    cases (hplain n hn).symm.trans (hhub n hn')
  obtain ⟨hnodes, hhubs⟩ := View.plainOf_hubsOf_of_perm hperm hplain hhub
  have hmesh : ∑ b ∈ View.hubsOf listed, (v.inDegreeIn listed b * v.outDegreeIn listed b : ℤ) =
      (Edge.joinedIn (i.numericEdges w) (View.plainOf listed)).card := by
    exact_mod_cast sum_mesh_numericHub h hv hhubs
  have hedges : v.edgesIn nodes.toFinset = Edge.joinedIn i.graph.flows.keys nodes.toFinset :=
    edgesIn_numericHub h hv fun n hn => hplain n (List.mem_toFinset.mp hn)
  rw [(layered_numericHub h hv).complexity_eq_mesh hlisted, hmesh, hnodes, hedges]

/-- The targets that were observed, as pairs of addresses. -/
theorem card_observed_targets {declared : List Address}
    (hfunctions : ∀ a, a ∈ i.functions ↔ a ∈ declared ∧ a ∈ i.graph.blocks.keys) :
    (Edge.joinedIn i.graph.flows.keys nodes.toFinset ∩
        Edge.joinedIn (i.numericEdges w) nodes.toFinset).card =
      {p : Address × Address | .block p.1 ∈ nodes ∧ .block p.2 ∈ nodes ∧
        p.1 ∈ i.graph.callSites ∧ p.2 ∈ declared ∧
        (⟨.block p.1, .block p.2⟩ : Edge) ∈ i.graph.flows.keys ∧
        ∃ near far, IsLeast (i.graph.targetDistances w p.1) near ∧
          i.graph.IsDistance w (.block p.2) far ∧ near ≤ far}.ncard := by
  have hinjective : Function.Injective fun p : Address × Address =>
      (Node.block p.1, Node.block p.2) := by
    rintro ⟨a, b⟩ ⟨c, d⟩ heq
    simpa using heq
  rw [← Set.ncard_image_of_injective _ hinjective, ← Set.ncard_coe_finset]
  congr 1
  ext ⟨m, n⟩
  simp only [Edge.joinedIn, Finset.coe_inter, Set.mem_inter_iff, SetLike.mem_coe, Finset.mem_filter,
    Finset.mem_product, List.mem_toFinset, mem_numericEdges, Set.mem_image, Set.mem_ofPred_eq,
    Prod.mk.injEq]
  constructor
  · rintro ⟨⟨⟨hm, hn⟩, hflow⟩, -, site, entry, htarget, rfl, rfl⟩
    have hentry := ((hfunctions entry).mp htarget.entry_mem).1
    exact ⟨(site, entry), ⟨hm, hn, htarget.site_mem, hentry, hflow,
      nearestTarget_le_iff.mp htarget.no_nearer⟩, rfl, rfl⟩
  · rintro ⟨⟨site, entry⟩, ⟨hm, hn, hsite, hentry, hflow, hnear⟩, rfl, rfl⟩
    have hfunction := (hfunctions entry).mpr ⟨hentry, Graph.block_mem_of_mem_flows hflow⟩
    exact ⟨⟨⟨hm, hn⟩, hflow⟩, ⟨hm, hn⟩, site, entry,
      ⟨hsite, hfunction, nearestTarget_le_iff.mpr hnear⟩, rfl, rfl⟩

/-- The hub form is more complex than the naive form by the number of targets that were observed: it
counts each of them once as an edge and once as a way through a hub. A target is a declared function that
is as far from the sink as the nearest block the site was seen to transfer to, or farther. -/
theorem numeric_forms_complexity (g : Graph) (hsink : g.hasSink = true) (declared : List Address)
    (w : Weighting) :
    ∃ i naive hub, ofGraph g declared = .ok i ∧ i.Yields (.numeric w) naive ∧
      i.Yields (.numericHub w) hub ∧
      ∀ (v v' : View) (nodes listed : List Node), v.Shows naive → v'.Shows hub → nodes.Nodup →
        (∀ n ∈ nodes, n.isHub = false) → listed.Perm (nodes ++ hub.hubs) →
        v'.complexity listed = v.complexity nodes +
          {p : Address × Address | .block p.1 ∈ nodes ∧ .block p.2 ∈ nodes ∧
            p.1 ∈ g.callSites ∧ p.2 ∈ declared ∧
            (⟨.block p.1, .block p.2⟩ : Edge) ∈ g.flows.keys ∧
            ∃ near far, IsLeast (g.targetDistances w p.1) near ∧
              g.IsDistance w (.block p.2) far ∧ near ≤ far}.ncard := by
  obtain ⟨i, hi, rfl, hfunctions⟩ := exists_ofGraph hsink declared
  obtain ⟨naive, hnaive, hn⟩ := i.exists_numeric w
  obtain ⟨hub, hhub, hh⟩ := i.exists_numericHub w
  refine ⟨i, naive, hub, hi, hnaive, hhub, ?_⟩
  intro v v' nodes listed hv hv' hnodup hplain hperm
  have htwice := Finset.card_union_add_card_inter
    (Edge.joinedIn i.graph.flows.keys nodes.toFinset)
    (Edge.joinedIn (i.numericEdges w) nodes.toFinset)
  rw [complexity_numeric hn hv hnodup hplain, complexity_numericHub hh hv' hnodup hplain hperm,
    ← card_observed_targets hfunctions]
  omega

/-- Block 16 was seen to call the functions at 256 and 512 and to go on at 20, where a function starts that
is nearer to the sink than both. The function at 768 was never seen to be called. -/
def nearReturn : Graph where
  blocks := ⟨[(16, { size := 4, instrs := 1, terminator := some .callIndirect }),
    (20, { size := 2, instrs := 1, terminator := some .syscall }),
    (256, { size := 4, instrs := 1, terminator := some .jumpDirect }),
    (512, { size := 4, instrs := 1, terminator := some .jumpDirect }),
    (768, { size := 4, instrs := 1, terminator := some .jumpDirect }),
    (1024, { size := 2, instrs := 1, terminator := some .syscall })], by decide⟩
  flows := ⟨[(⟨.block 16, .block 256⟩, { kind := .callIndirect }),
    (⟨.block 16, .block 512⟩, { kind := .callIndirect }),
    (⟨.block 16, .block 20⟩, { kind := .follow }),
    (⟨.block 20, .sink⟩, { kind := .syscall }),
    (⟨.block 256, .block 1024⟩, { kind := .jumpDirect }),
    (⟨.block 512, .block 256⟩, { kind := .jumpDirect }),
    (⟨.block 768, .block 256⟩, { kind := .jumpDirect }),
    (⟨.block 1024, .sink⟩, { kind := .syscall })], by decide⟩
  hasSink := true
  source_mem := by simp [Table.keys]
  target_mem := by simp [Table.keys]

/-- What block 16 was seen to transfer to enters a block first. -/
theorem weight_of_transfers_nearReturn {n k : Node} (hn : nearReturn.Transfers 16 n)
    (hk : k ∈ nearReturn.successors n) :
    Weighting.weight .instr (nearReturn.view .ascending) k = 1 := by
  obtain ⟨flow, hflow, hkind⟩ := hn
  have hmem : n ∈ nearReturn.successors (.block 16) :=
    Graph.mem_successors.mpr (Graph.mem_flows_iff.mpr (by rw [hflow]; rfl))
  have htargets : nearReturn.successors (.block 16) = [.block 256, .block 512, .block 20] := by decide
  simp only [htargets, List.mem_cons, List.not_mem_nil, or_false] at hmem
  rcases hmem with rfl | rfl | rfl
  · have hsucc : nearReturn.successors (.block 256) = [.block 1024] := by decide
    rw [hsucc, List.mem_singleton] at hk
    rw [hk]
    rfl
  · have hsucc : nearReturn.successors (.block 512) = [.block 256] := by decide
    rw [hsucc, List.mem_singleton] at hk
    rw [hk]
    rfl
  · cases hflow
    exact absurd rfl hkind

/-- Block 20 is next to the sink. -/
theorem nearer_than_targets_nearReturn :
    ¬ ∃ near far, IsLeast (nearReturn.targetDistances .instr 16) near ∧
      nearReturn.IsDistance .instr (.block 20) far ∧ near ≤ far := by
  rintro ⟨near, far, ⟨hnear, -⟩, hfar, hle⟩
  have hwalk : (nearReturn.view .ascending).Walk .sink [.block 20, .sink] :=
    .step (Graph.mem_succ_view.mpr (by decide)) .here
  have hzero : near ≤ .finite 0 := by
    rw [← Graph.isDistance_iff.mp hfar] at hle
    exact Std.le_trans hle (DistanceMap.toGoal_le hwalk)
  obtain ⟨d, rfl⟩ := Distance.eq_finite_of_le hzero
  rcases hnear with hinfinite | ⟨n, hn, hd⟩
  · cases hinfinite
  · obtain ⟨r, hr, rfl⟩ := DistanceMap.toGoal_reached (Graph.isDistance_iff.mp hd)
    rw [Distance.finite_le_finite, Distance.toNat_capped] at hzero
    cases hr with
    | here =>
      obtain ⟨flow, hflow, -⟩ := hn
      cases hflow
    | step edge rest =>
      have hweight := weight_of_transfers_nearReturn hn (Graph.mem_succ_view.mp edge)
      rw [Weighting.total_cons_cons, hweight] at hzero
      have hone : (1 : UInt64).toNat = 1 := rfl
      have hnone : (0 : UInt64).toNat = 0 := rfl
      simp only [UInt64.size] at hzero
      omega

/-- Of the three functions that block 16 was seen to enter, two count. -/
theorem numeric_forms_complexity_nearReturn :
    nearReturn.hasSink = true ∧
      ∃ i naive hub, ofGraph nearReturn [20, 256, 512, 768] = .ok i ∧
        i.Yields (.numeric .instr) naive ∧ i.Yields (.numericHub .instr) hub ∧
        (naive.view .ascending).Shows naive ∧ (hub.view .descending).Shows hub ∧
        (hub.view .descending).complexity
            (hub.hubs ++ [.block 256, .sink, .block 16, .block 512, .block 20, .block 768]) =
          (naive.view .ascending).complexity
            [.block 256, .sink, .block 16, .block 512, .block 20, .block 768] + 2 := by
  obtain ⟨i, naive, hub, hi, hnaive, hhub, hcomplexity⟩ :=
    numeric_forms_complexity nearReturn rfl [20, 256, 512, 768] .instr
  have hgraph : i.graph = nearReturn := by
    cases hi
    rfl
  have hcalled (entry : Address) (h : nearReturn.Transfers 16 (.block entry)) :
      ∃ near far, IsLeast (nearReturn.targetDistances .instr 16) near ∧
        nearReturn.IsDistance .instr (.block entry) far ∧ near ≤ far := by
    rw [← hgraph] at h ⊢
    exact nearestTarget_le_iff.mp (nearestTarget_le (mem_transferTargets.mpr h))
  have hnaiveView := naive.shows_view .ascending
  have hhubView := hub.shows_view .descending
  refine ⟨rfl, i, naive, hub, hi, hnaive, hhub, hnaiveView, hhubView, ?_⟩
  rw [hcomplexity _ _ _ _ hnaiveView hhubView (by decide) (by decide) List.perm_append_comm]
  have htwo : (({(16, 256), (16, 512)} : Set (Address × Address)).ncard : ℤ) = 2 := by
    rw [Set.ncard_pair (by decide)]
    rfl
  rw [← htwo]
  congr 3
  ext ⟨site, entry⟩
  simp only [Set.mem_ofPred_eq, Set.mem_insert_iff, Set.mem_singleton_iff, Prod.mk.injEq]
  constructor
  · rintro ⟨-, -, hsite, hentry, hflow, hnear⟩
    have hsites : nearReturn.callSites = [16] := by decide
    rw [hsites, List.mem_singleton] at hsite
    subst hsite
    simp only [List.mem_cons, List.not_mem_nil, or_false] at hentry
    rcases hentry with rfl | rfl | rfl | rfl
    · exact absurd hnear nearer_than_targets_nearReturn
    · exact Or.inl ⟨rfl, rfl⟩
    · exact Or.inr ⟨rfl, rfl⟩
    · revert hflow
      decide
  · rintro (⟨rfl, rfl⟩ | ⟨rfl, rfl⟩)
    · exact ⟨by decide, by decide, by decide, by decide, by decide, hcalled 256 ⟨_, rfl, by decide⟩⟩
    · exact ⟨by decide, by decide, by decide, by decide, by decide, hcalled 512 ⟨_, rfl, by decide⟩⟩

end PolicyInputs
end CfiSlack
