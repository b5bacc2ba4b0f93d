import CfiSlack.Precision
import CfiSlack.Proofs.PolicyOverlays
import CfiSlack.Proofs.TargetDistances

/-!
# The two forms of the numeric policy

The naive form has an edge from each call site to each entry that is no nearer to the sink than the
nearest observed target of the site. The hub form goes through one hub for each distance. The
targets permitted at a site are the same unless an entry is the block that the site falls through
to: the hub form permits it, and the naive form takes its edge for the fall-through.
-/
namespace CfiSlack

namespace DistanceMap

variable {m : DistanceMap} {entries : List Address} {low : Distance}

theorem mem_bins {bin : Bin} :
    bin ∈ m.bins entries ↔ (∃ a ∈ entries, m.get (.block a) = bin.distance) ∧
      bin.entries = (Ascending.ofList entries).filter fun a => m.get (.block a) = bin.distance := by
  simp only [bins, List.mem_map, Ascending.mem_ofList]
  constructor
  · rintro ⟨d, hd, rfl⟩
    exact ⟨hd, rfl⟩
  · rintro ⟨hd, hentries⟩
    exact ⟨bin.distance, hd, by rw [← hentries]⟩

/-- Each entry lies in the bin of its distance. -/
theorem exists_bin {a : Address} (ha : a ∈ entries) :
    ∃ bin ∈ m.bins entries, bin.distance = m.get (.block a) ∧ a ∈ bin.entries := by
  let bin : Bin := ⟨m.get (.block a),
    (Ascending.ofList entries).filter fun b => m.get (.block b) = m.get (.block a)⟩
  refine ⟨bin, mem_bins.mpr ⟨⟨a, ha, rfl⟩, rfl⟩, rfl, ?_⟩
  simp [bin, ha]

theorem mem_of_mem_bin {bin : Bin} (hbin : bin ∈ m.bins entries) {a : Address}
    (ha : a ∈ bin.entries) : a ∈ entries ∧ m.get (.block a) = bin.distance := by
  rw [(mem_bins.mp hbin).2] at ha
  simpa using ha

theorem mem_binsFrom {bin : Bin} :
    bin ∈ m.binsFrom entries low ↔ bin ∈ m.bins entries ∧ low ≤ bin.distance := by
  simp [binsFrom]

theorem mem_entriesFrom {a : Address} :
    a ∈ m.entriesFrom entries low ↔ a ∈ entries ∧ low ≤ m.get (.block a) := by
  simp only [entriesFrom, List.mem_flatMap, mem_binsFrom]
  constructor
  · rintro ⟨bin, ⟨hbin, hlow⟩, ha⟩
    obtain ⟨hmem, hd⟩ := mem_of_mem_bin hbin ha
    exact ⟨hmem, hd ▸ hlow⟩
  · rintro ⟨ha, hlow⟩
    obtain ⟨bin, hbin, hd, hmem⟩ := exists_bin (m := m) ha
    exact ⟨bin, ⟨hbin, hd ▸ hlow⟩, hmem⟩

end DistanceMap

namespace PolicyInputs

variable {i : PolicyInputs} {w : Weighting} {site entry : Address}

/-- The entry is a target of the site under the numeric policy. -/
structure NumericTarget (i : PolicyInputs) (w : Weighting) (site entry : Address) : Prop where
  site_mem : site ∈ i.sites
  entry_mem : entry ∈ i.functions
  no_nearer : i.nearestTarget (i.distances w) site ≤ (i.distances w).get (.block entry)

/-- Targets are told apart by their distances only. -/
theorem NumericTarget.of_distance_eq (h : i.NumericTarget w site entry) {other : Address}
    (hother : other ∈ i.functions)
    (heq : (i.distances w).get (.block other) = (i.distances w).get (.block entry)) :
    i.NumericTarget w site other :=
  ⟨h.site_mem, hother, heq ▸ h.no_nearer⟩

theorem mem_numericEdges {m n : Node} :
    (⟨m, n⟩ : Edge) ∈ i.numericEdges w ↔
      ∃ site entry, i.NumericTarget w site entry ∧ m = .block site ∧ n = .block entry := by
  simp only [numericEdges, List.mem_flatMap, List.mem_map, DistanceMap.mem_entriesFrom,
    Edge.mk.injEq]
  constructor
  · rintro ⟨site, hsite, entry, ⟨hentry, hnear⟩, rfl, rfl⟩
    exact ⟨site, entry, ⟨hsite, hentry, hnear⟩, rfl, rfl⟩
  · rintro ⟨site, entry, h, rfl, rfl⟩
    exact ⟨site, h.site_mem, entry, ⟨h.entry_mem, h.no_nearer⟩, rfl, rfl⟩

/-- The hub of the entries that are as far as this one. -/
def hubOf (i : PolicyInputs) (w : Weighting) (entry : Address) : Node :=
  distanceHub ((i.distances w).get (.block entry))

theorem hubOf_eq_hubOf {other : Address} :
    i.hubOf w other = i.hubOf w entry ↔
      (i.distances w).get (.block other) = (i.distances w).get (.block entry) := by
  simp [hubOf, distanceHub]

theorem mem_numericHubEdges {m n : Node} :
    (⟨m, n⟩ : Edge) ∈ i.numericHubEdges w ↔
      (∃ site entry, i.NumericTarget w site entry ∧ m = .block site ∧ n = i.hubOf w entry) ∨
      ∃ entry ∈ i.functions, m = i.hubOf w entry ∧ n = .block entry := by
  simp only [numericHubEdges, List.mem_append, List.mem_flatMap, List.mem_map,
    DistanceMap.mem_binsFrom, Edge.mk.injEq]
  refine or_congr ⟨?_, ?_⟩ ⟨?_, ?_⟩
  · rintro ⟨site, hsite, bin, ⟨hbin, hlow⟩, rfl, rfl⟩
    obtain ⟨⟨entry, hentry, hd⟩, -⟩ := DistanceMap.mem_bins.mp hbin
    exact ⟨site, entry, ⟨hsite, hentry, hd ▸ hlow⟩, rfl, by rw [hubOf, hd]⟩
  · rintro ⟨site, entry, h, rfl, rfl⟩
    obtain ⟨bin, hbin, hd, -⟩ := DistanceMap.exists_bin (m := i.distances w) h.entry_mem
    exact ⟨site, h.site_mem, bin, ⟨hbin, hd ▸ h.no_nearer⟩, rfl, by rw [hubOf, hd]⟩
  · rintro ⟨bin, hbin, entry, hentry, rfl, rfl⟩
    obtain ⟨hmem, hd⟩ := DistanceMap.mem_of_mem_bin hbin hentry
    exact ⟨entry, hmem, by rw [hubOf, hd], rfl⟩
  · rintro ⟨entry, hentry, rfl, rfl⟩
    obtain ⟨bin, hbin, hd, hmem⟩ := DistanceMap.exists_bin (m := i.distances w) hentry
    exact ⟨bin, hbin, entry, hmem, by rw [hubOf, hd], rfl⟩

theorem contains_site (h : site ∈ i.sites) : i.graph.contains (.block site) = true :=
  Graph.contains_block.mpr (Graph.mem_blocksEnding h)

theorem contains_entry (h : entry ∈ i.functions) : i.graph.contains (.block entry) = true :=
  Graph.contains_block.mpr (i.functions_mem entry h)

/-- The naive form yields an overlay. -/
theorem exists_numeric (i : PolicyInputs) (w : Weighting) :
    ∃ o, i.Yields (.numeric w) o ∧ o.Covers i.graph (i.numericEdges w) := by
  refine exists_yields rfl rfl ?_
  rintro ⟨m, n⟩ he
  obtain ⟨site, entry, h, rfl, rfl⟩ := mem_numericEdges.mp he
  exact Graph.overlayFault?_eq_none.mpr
    ⟨⟨rfl, rfl⟩, Or.inr (contains_site h.site_mem), Or.inr (contains_entry h.entry_mem)⟩

/-- The hub form yields an overlay. -/
theorem exists_numericHub (i : PolicyInputs) (w : Weighting) :
    ∃ o, i.Yields (.numericHub w) o ∧ o.Covers i.graph (i.numericHubEdges w) := by
  refine exists_yields rfl rfl ?_
  rintro ⟨m, n⟩ he
  rcases mem_numericHubEdges.mp he with ⟨site, entry, h, rfl, rfl⟩ | ⟨entry, h, rfl, rfl⟩
  · exact Graph.overlayFault?_eq_none.mpr
      ⟨⟨rfl, rfl⟩, Or.inr (contains_site h.site_mem), Or.inl rfl⟩
  · exact Graph.overlayFault?_eq_none.mpr
      ⟨⟨rfl, rfl⟩, Or.inl rfl, Or.inr (contains_entry h)⟩

end PolicyInputs

/-- The edge was observed when control fell through to the next block. -/
def Graph.FallsThrough (g : Graph) (m n : Node) : Prop :=
  (g.flow? ⟨m, n⟩).map Flow.kind = some .follow

theorem Graph.block_mem_of_mem_flows {g : Graph} {m : Node} {a : Address}
    (h : (⟨m, .block a⟩ : Edge) ∈ g.flows.keys) : a ∈ g.blocks.keys := by
  rcases g.target_mem _ h with ⟨b, hb, hmem⟩ | ⟨hb, -⟩
  · cases hb
    exact hmem
  · cases hb

theorem Graph.FallsThrough.block_mem {g : Graph} {m : Node} {a : Address}
    (h : g.FallsThrough m (.block a)) : a ∈ g.blocks.keys := by
  obtain ⟨flow, hflow, -⟩ := Option.map_eq_some_iff.mp h
  refine Graph.block_mem_of_mem_flows (m := m) ?_
  rw [Graph.mem_flows_iff, hflow]
  rfl

namespace View

variable {v : View} {site t : Node}

theorem mem_permittedVia {n : Node} (hn : n.isHub = false) :
    t ∈ v.permittedVia site n ↔ t = n ∧ v.kind? site n ≠ some .follow := by
  have hvia : v.permittedVia site n = if v.kind? site n = some .follow then [] else [n] := by
    cases n with
    | block a => rfl
    | sink => rfl
    | anywhere => cases hn
    | hub label => cases hn
  rw [hvia]
  by_cases h : v.kind? site n = some .follow <;> simp [h]

/-- Without an edge to everywhere, sites permit the same if they permit the same through their
successors. -/
theorem permitted_eq_permitted_iff {u : View} (hv : .anywhere ∉ v.succ site)
    (hu : .anywhere ∉ u.succ site) :
    v.permitted site = u.permitted site ↔ ∀ t,
      (∃ n ∈ v.succ site, t ∈ v.permittedVia site n) ↔
        ∃ n ∈ u.succ site, t ∈ u.permittedVia site n := by
  rw [permitted, permitted, if_neg hv, if_neg hu, Permitted.only.injEq, Ascending.ofList_eq_ofList]
  simp only [List.mem_flatMap]

end View

namespace PolicyInputs

variable {i : PolicyInputs} {w : Weighting} {naive hub : Overlay} {order : Enumeration}
  {site : Address} {t : Node}

theorem mem_succ_numeric (h : naive.Covers i.graph (i.numericEdges w)) {m n : Node} :
    n ∈ (naive.view order).succ m ↔ (⟨m, n⟩ : Edge) ∈ i.graph.flows.keys ∨
      ∃ site entry, i.NumericTarget w site entry ∧ m = .block site ∧ n = .block entry := by
  rw [h.mem_succ, mem_numericEdges]

theorem mem_succ_numericHub (h : hub.Covers i.graph (i.numericHubEdges w)) {m n : Node} :
    n ∈ (hub.view order).succ m ↔ (⟨m, n⟩ : Edge) ∈ i.graph.flows.keys ∨
      (∃ site entry, i.NumericTarget w site entry ∧ m = .block site ∧ n = i.hubOf w entry) ∨
      ∃ entry ∈ i.functions, m = i.hubOf w entry ∧ n = .block entry := by
  rw [h.mem_succ, mem_numericHubEdges]

/-- Only the hub form has hubs. -/
theorem not_isHub_of_mem_succ_numeric (h : naive.Covers i.graph (i.numericEdges w)) {m n : Node}
    (hn : n ∈ (naive.view order).succ m) : n.isHub = false := by
  rcases (mem_succ_numeric h).mp hn with hflow | ⟨_, entry, -, -, rfl⟩
  · exact (Graph.not_isHub_of_mem_flows hflow).2
  · rfl

theorem anywhere_notMem_numeric (h : naive.Covers i.graph (i.numericEdges w)) {m : Node} :
    .anywhere ∉ (naive.view order).succ m := by
  intro hmem
  cases not_isHub_of_mem_succ_numeric h hmem

theorem anywhere_notMem_numericHub (h : hub.Covers i.graph (i.numericHubEdges w)) {m : Node} :
    .anywhere ∉ (hub.view order).succ m := by
  intro hmem
  rcases (mem_succ_numericHub h).mp hmem with
    hflow | ⟨_, _, -, -, htarget⟩ | ⟨_, -, -, htarget⟩
  · cases (Graph.not_isHub_of_mem_flows hflow).2
  · cases htarget
  · cases htarget

/-- A hub leads to the entries at its distance. -/
theorem mem_succ_hubOf (h : hub.Covers i.graph (i.numericHubEdges w)) {entry : Address} :
    t ∈ (hub.view order).succ (i.hubOf w entry) ↔ ∃ other ∈ i.functions,
      (i.distances w).get (.block other) = (i.distances w).get (.block entry) ∧
        t = .block other := by
  rw [mem_succ_numericHub h]
  constructor
  · rintro (hflow | ⟨_, _, -, hsource, -⟩ | ⟨other, hother, hhub, rfl⟩)
    · cases (Graph.not_isHub_of_mem_flows hflow).1
    · cases hsource
    · exact ⟨other, hother, hubOf_eq_hubOf.mp hhub.symm, rfl⟩
  · rintro ⟨other, hother, heq, rfl⟩
    exact Or.inr (Or.inr ⟨other, hother, (hubOf_eq_hubOf.mpr heq).symm, rfl⟩)

theorem mem_permitted_numeric (h : naive.Covers i.graph (i.numericEdges w)) :
    (∃ n ∈ (naive.view order).succ (.block site),
      t ∈ (naive.view order).permittedVia (.block site) n) ↔
      ((⟨.block site, t⟩ : Edge) ∈ i.graph.flows.keys ∨
        ∃ entry, i.NumericTarget w site entry ∧ t = .block entry) ∧
      ¬ i.graph.FallsThrough (.block site) t := by
  have hsucc {n : Node} : n ∈ (naive.view order).succ (.block site) ↔
      (⟨.block site, n⟩ : Edge) ∈ i.graph.flows.keys ∨
        ∃ entry, i.NumericTarget w site entry ∧ n = .block entry := by
    rw [mem_succ_numeric h]
    simp
  constructor
  · rintro ⟨n, hn, ht⟩
    obtain ⟨rfl, hkind⟩ := (View.mem_permittedVia (not_isHub_of_mem_succ_numeric h hn)).mp ht
    rw [h.kind?] at hkind
    exact ⟨hsucc.mp hn, hkind⟩
  · rintro ⟨hedge, hkind⟩
    have hn := hsucc.mpr hedge
    refine ⟨t, hn, (View.mem_permittedVia (not_isHub_of_mem_succ_numeric h hn)).mpr ⟨rfl, ?_⟩⟩
    rw [h.kind?]
    exact hkind

theorem mem_permitted_numericHub (h : hub.Covers i.graph (i.numericHubEdges w)) :
    (∃ n ∈ (hub.view order).succ (.block site),
      t ∈ (hub.view order).permittedVia (.block site) n) ↔
      ((⟨.block site, t⟩ : Edge) ∈ i.graph.flows.keys ∧
        ¬ i.graph.FallsThrough (.block site) t) ∨
      ∃ entry, i.NumericTarget w site entry ∧ t = .block entry := by
  constructor
  · rintro ⟨n, hn, ht⟩
    rcases (mem_succ_numericHub h).mp hn with
      hflow | ⟨_, entry, htarget, hsite, rfl⟩ | ⟨_, -, hsite, -⟩
    · obtain ⟨rfl, hkind⟩ :=
        (View.mem_permittedVia (Graph.not_isHub_of_mem_flows hflow).2).mp ht
      rw [h.kind?] at hkind
      exact Or.inl ⟨hflow, hkind⟩
    · cases hsite
      obtain ⟨other, hother, heq, rfl⟩ := (mem_succ_hubOf h).mp ht
      exact Or.inr ⟨other, htarget.of_distance_eq hother heq, rfl⟩
    · cases hsite
  · rintro (⟨hflow, hkind⟩ | ⟨entry, htarget, rfl⟩)
    · refine ⟨t, (mem_succ_numericHub h).mpr (Or.inl hflow),
        (View.mem_permittedVia (Graph.not_isHub_of_mem_flows hflow).2).mpr ⟨rfl, ?_⟩⟩
      rw [h.kind?]
      exact hkind
    · refine ⟨i.hubOf w entry, (mem_succ_numericHub h).mpr
        (Or.inr (Or.inl ⟨site, entry, htarget, rfl, rfl⟩)), ?_⟩
      exact (mem_succ_hubOf h).mpr ⟨entry, htarget.entry_mem, rfl, rfl⟩

/-- The forms agree at a site unless one of its targets is the block after it. -/
theorem permitted_numeric_eq_iff {order' : Enumeration}
    (hn : naive.Covers i.graph (i.numericEdges w))
    (hh : hub.Covers i.graph (i.numericHubEdges w)) :
    (naive.view order).permitted (.block site) = (hub.view order').permitted (.block site) ↔
      ∀ entry, i.NumericTarget w site entry →
        ¬ i.graph.FallsThrough (.block site) (.block entry) := by
  rw [View.permitted_eq_permitted_iff (anywhere_notMem_numeric hn) (anywhere_notMem_numericHub hh)]
  simp only [mem_permitted_numeric hn, mem_permitted_numericHub hh]
  constructor
  · intro hsame entry htarget
    exact ((hsame (.block entry)).mpr (Or.inr ⟨entry, htarget, rfl⟩)).2
  · intro hclear t
    constructor
    · rintro ⟨hflow | htarget, hkind⟩
      · exact Or.inl ⟨hflow, hkind⟩
      · exact Or.inr htarget
    · rintro (⟨hflow, hkind⟩ | ⟨entry, htarget, rfl⟩)
      · exact ⟨Or.inl hflow, hkind⟩
      · exact ⟨Or.inr ⟨entry, htarget, rfl⟩, hclear entry htarget⟩

theorem exists_ofGraph {g : Graph} (hsink : g.hasSink = true) (declared : List Address) :
    ∃ i, ofGraph g declared = .ok i ∧ i.graph = g ∧
      ∀ a, a ∈ i.functions ↔ a ∈ declared ∧ a ∈ g.blocks.keys := by
  rw [ofGraph, dif_pos hsink]
  refine ⟨_, rfl, rfl, ?_⟩
  intro a
  simp [Graph.hasBlock_iff]

/-- At a call site the two forms permit the same targets exactly if no declared function that is as
far as the nearest observed target, or farther, starts at the block that the site falls through
to. -/
theorem numeric_forms_permit_same_iff (g : Graph) (hsink : g.hasSink = true)
    (declared : List Address) (w : Weighting) :
    ∃ i naive hub, ofGraph g declared = .ok i ∧ i.Yields (.numeric w) naive ∧
      i.Yields (.numericHub w) hub ∧ ∀ order order', ∀ site ∈ g.callSites,
        ((naive.view order).permitted (.block site) = (hub.view order').permitted (.block site) ↔
          ∀ entry ∈ declared,
            (∃ near far, IsLeast (g.targetDistances w site) near ∧
              g.IsDistance w (.block entry) far ∧ near ≤ far) →
            ¬ g.FallsThrough (.block site) (.block entry)) := by
  obtain ⟨i, hi, rfl, hfunctions⟩ := exists_ofGraph hsink declared
  obtain ⟨naive, hnaive, hn⟩ := i.exists_numeric w
  obtain ⟨hub, hhub, hh⟩ := i.exists_numericHub w
  refine ⟨i, naive, hub, hi, hnaive, hhub, ?_⟩
  intro order order' site hsite
  rw [permitted_numeric_eq_iff hn hh]
  constructor
  · intro hclear entry hentry hnear hfalls
    have hmem := (hfunctions entry).mpr ⟨hentry, hfalls.block_mem⟩
    exact hclear entry ⟨hsite, hmem, nearestTarget_le_iff.mpr hnear⟩ hfalls
  · intro hclear entry htarget
    exact hclear entry ((hfunctions entry).mp htarget.entry_mem).1
      (nearestTarget_le_iff.mp htarget.no_nearer)

/-- Block 16 calls the function at 256; the function at 20 starts where the call returns, and jumps
to the other one. -/
def entryAfterCall : Graph where
  blocks := ⟨[(16, { size := 4, instrs := 1, terminator := some .callIndirect }),
    (20, { size := 4, instrs := 1, terminator := some .jumpDirect }),
    (256, { size := 4, instrs := 1, terminator := some .jumpDirect }),
    (1024, { size := 4, instrs := 1, terminator := some .syscall })], by decide⟩
  flows := ⟨[(⟨.block 16, .block 256⟩, { kind := .callIndirect }),
    (⟨.block 16, .block 20⟩, { kind := .follow }),
    (⟨.block 20, .block 256⟩, { kind := .jumpDirect }),
    (⟨.block 256, .block 1024⟩, { kind := .jumpDirect }),
    (⟨.block 1024, .sink⟩, { kind := .syscall })], by decide⟩
  hasSink := true
  source_mem := by simp [Table.keys]
  target_mem := by simp [Table.keys]

theorem numeric_forms_differ_entryAfterCall :
    entryAfterCall.hasSink = true ∧ 16 ∈ entryAfterCall.callSites ∧
      ∃ i naive hub, ofGraph entryAfterCall [20, 256] = .ok i ∧
        i.Yields (.numeric .block) naive ∧ i.Yields (.numericHub .block) hub ∧
        (naive.view .ascending).permitted (.block 16) ≠
          (hub.view .ascending).permitted (.block 16) := by
  obtain ⟨i, naive, hub, hi, hnaive, hhub, hsame⟩ :=
    numeric_forms_permit_same_iff entryAfterCall rfl [20, 256] .block
  refine ⟨rfl, by decide, i, naive, hub, hi, hnaive, hhub, ?_⟩
  rw [Ne, hsame .ascending .ascending 16 (by decide)]
  intro hclear
  refine hclear 20 (by decide) ?_ rfl
  have hgraph : i.graph = entryAfterCall := by
    cases hi
    rfl
  rw [← hgraph]
  refine nearestTarget_le_iff.mp (nearestTarget_le_of_succ (t := .block 256) ?_ ?_)
  · exact ⟨_, by rw [hgraph]; rfl, by decide⟩
  · rw [hgraph]
    decide

end PolicyInputs
end CfiSlack
