import CfiSlack.Proofs.PolicyFailures

/-!
# Targets of the numeric policy

The numeric policy adds the edge from a call site to a function entry exactly if the entry is no nearer
to the sink than every observed target of the site. Distances are those of lightest walks. A site
without observed targets counts as infinitely far, and so leads to the entries without a walk.
-/
namespace CfiSlack

namespace PolicyInputs

variable {i : PolicyInputs} {w : Weighting}

theorem mem_answer_numeric {set : List Edge} (h : i.answer (.numeric w) = .ok set) {u v : Node} :
    (⟨u, v⟩ : Edge) ∈ set ↔ ∃ site entry, i.NumericTarget w site entry ∧ u = .block site ∧
      v = .block entry ∧ (⟨u, v⟩ : Edge) ∉ i.graph.flows.keys := by
  rw [answer_of_independent rfl] at h
  obtain ⟨raw, hraw, hadded⟩ := bind_eq_ok.mp h
  cases hraw
  rw [mem_addedEdges hadded, mem_numericEdges]
  constructor
  · rintro ⟨⟨site, entry, htarget, hu, hv⟩, hfresh⟩
    exact ⟨site, entry, htarget, hu, hv, hfresh⟩
  · rintro ⟨site, entry, htarget, hu, hv, hfresh⟩
    exact ⟨⟨site, entry, htarget, hu, hv⟩, hfresh⟩

/-- Whatever type information there is and whatever was asked before, the numeric policy is served. An
edge of it leaves a call site, is new, and enters a function of the graph that is as far from the sink
as the nearest observed target of the site; and every such edge is one of the policy. At a site that was
only seen to fall through these are the functions from which the sink is out of reach. -/
theorem numeric_edges_exact (g : Graph) (hsink : g.hasSink = true) (declared : List Address)
    (w : Weighting) :
    ∃ i, ofGraph g declared = .ok i ∧ ∀ signatures siteSignatures history taking, ∃ set,
      ((Resolver.after { i with signatures, siteSignatures } history).serve
        ⟨.numeric w, taking⟩).1 = .ok set ∧
      (∀ u v, (⟨u, v⟩ : Edge) ∈ set ↔ ∃ site ∈ g.callSites, ∃ entry ∈ declared,
        entry ∈ g.blocks.keys ∧ u = .block site ∧ v = .block entry ∧
        (⟨u, v⟩ : Edge) ∉ g.flows.keys ∧
        ∃ near far, IsLeast (g.targetDistances w site) near ∧
          g.IsDistance w (.block entry) far ∧ near ≤ far) ∧
      ∀ site ∈ g.callSites, (∀ n, ¬ g.Transfers site n) →
        ∀ entry ∈ declared, entry ∈ g.blocks.keys →
          ((⟨.block site, .block entry⟩ : Edge) ∈ set ↔
            (⟨.block site, .block entry⟩ : Edge) ∉ g.flows.keys ∧
              ¬ g.ReachesSink (.block entry)) := by
  obtain ⟨i, hi, rfl, hfunctions⟩ := exists_ofGraph hsink declared
  refine ⟨i, hi, ?_⟩
  intro signatures siteSignatures history taking
  obtain ⟨set, hset⟩ := { i with signatures, siteSignatures }.exists_answer_numeric w
  refine ⟨set, (Resolver.serve_after _ history ⟨.numeric w, taking⟩).trans hset, ?_⟩
  constructor
  · intro u v
    rw [mem_answer_numeric hset]
    constructor
    · rintro ⟨site, entry, htarget, hu, hv, hfresh⟩
      obtain ⟨hdeclared, hblock⟩ := (hfunctions entry).mp htarget.entry_mem
      exact ⟨site, htarget.site_mem, entry, hdeclared, hblock, hu, hv, hfresh,
        nearestTarget_le_iff.mp htarget.no_nearer⟩
    · rintro ⟨site, hsite, entry, hdeclared, hblock, hu, hv, hfresh, hnear⟩
      have hentry := (hfunctions entry).mpr ⟨hdeclared, hblock⟩
      exact ⟨site, entry, ⟨hsite, hentry, nearestTarget_le_iff.mpr hnear⟩, hu, hv, hfresh⟩
  · intro site hsite hnone entry hdeclared hblock
    rw [mem_answer_numeric hset]
    constructor
    · rintro ⟨_, _, htarget, hu, hv, hfresh⟩
      cases hu
      cases hv
      exact ⟨hfresh, (nearestTarget_le_iff_of_no_transfer hnone).mp htarget.no_nearer⟩
    · rintro ⟨hfresh, hout⟩
      have hentry := (hfunctions entry).mpr ⟨hdeclared, hblock⟩
      exact ⟨site, entry, ⟨hsite, hentry, (nearestTarget_le_iff_of_no_transfer hnone).mpr hout⟩,
        rfl, rfl, hfresh⟩

/-- Block 16 calls the function at 256, and block 20 was only seen to fall through. The function at 512
leads to that at 256, and that at 1024 nowhere. -/
def lonelySite : Graph where
  blocks := ⟨[(16, { size := 4, instrs := 2, terminator := some .callIndirect }),
    (20, { size := 4, instrs := 2, terminator := some .callIndirect }),
    (24, { size := 2, instrs := 1, terminator := some .syscall }),
    (256, { size := 8, instrs := 3, terminator := some .jumpDirect }),
    (512, { size := 8, instrs := 3, terminator := some .jumpDirect }),
    (1024, { size := 8, instrs := 3, terminator := some .jumpIndirect })], by decide⟩
  flows := ⟨[(⟨.block 16, .block 256⟩, { kind := .callIndirect }),
    (⟨.block 16, .block 20⟩, { kind := .follow }),
    (⟨.block 20, .block 24⟩, { kind := .follow }),
    (⟨.block 256, .block 24⟩, { kind := .jumpDirect }),
    (⟨.block 512, .block 256⟩, { kind := .jumpDirect }),
    (⟨.block 24, .sink⟩, { kind := .syscall })], by decide⟩
  hasSink := true
  source_mem := by simp [Table.keys]
  target_mem := by simp [Table.keys]

theorem numeric_edges_exact_lonelySite :
    lonelySite.hasSink = true ∧ ∃ i, ofGraph lonelySite [256, 512, 1024, 2048] = .ok i ∧
      ∃ set, ((Resolver.after i [⟨.typed, true⟩]).serve ⟨.numeric .instr, false⟩).1 = .ok set ∧
        (⟨.block 16, .block 512⟩ : Edge) ∈ set ∧ (⟨.block 16, .block 256⟩ : Edge) ∉ set ∧
        (⟨.block 20, .block 1024⟩ : Edge) ∈ set ∧ (⟨.block 20, .block 512⟩ : Edge) ∉ set := by
  obtain ⟨i, hi, hserved⟩ := numeric_edges_exact lonelySite rfl [256, 512, 1024, 2048] .instr
  obtain ⟨set, hset, hexact, hlonely⟩ := hserved none none [⟨.typed, true⟩] false
  have hgraph : i.graph = lonelySite := by
    cases hi
    rfl
  have htargets : i.transferTargets 20 = [] := by
    cases hi
    decide
  have hlone : ∀ n, ¬ lonelySite.Transfers 20 n := by
    intro n hn
    rw [← hgraph, ← mem_transferTargets, htargets] at hn
    cases hn
  refine ⟨rfl, i, hi, set, ?_, ?_, ?_, ?_, ?_⟩
  · cases hi
    exact hset
  · refine (hexact _ _).mpr ⟨16, by decide, 512, by decide, by decide, rfl, rfl, by decide, ?_⟩
    rw [← hgraph]
    refine nearestTarget_le_iff.mp (nearestTarget_le_of_succ (t := .block 256) ?_ ?_)
    · exact ⟨_, by rw [hgraph]; rfl, by decide⟩
    · rw [hgraph]
      decide
  · intro hmem
    obtain ⟨_, -, _, -, -, -, -, hfresh, -⟩ := (hexact _ _).mp hmem
    exact hfresh (by decide)
  · refine (hlonely 20 (by decide) hlone 1024 (by decide) (by decide)).mpr ⟨by decide, ?_⟩
    rintro ⟨r, hwalk⟩
    cases hwalk with
    | step edge rest =>
      have hsucc : lonelySite.successors (.block 1024) = [] := by decide
      simp [hsucc] at edge
  · intro hmem
    refine ((hlonely 20 (by decide) hlone 512 (by decide) (by decide)).mp hmem).2 ?_
    exact ⟨[.block 256, .block 24, .sink], .step (Graph.mem_succ_view.mpr (by decide))
      (.step (Graph.mem_succ_view.mpr (by decide)) (.step (Graph.mem_succ_view.mpr (by decide)) .here))⟩

end PolicyInputs
end CfiSlack
