import CfiSlack.Proofs.AddedEdges
import CfiSlack.Proofs.GraphHistory
import CfiSlack.Proofs.Loosening
import CfiSlack.Proofs.PolicyFailures
import CfiSlack.Session

/-!
# Numbers of targets

Whatever the policy, a call site keeps its observed targets and gets blocks of the program besides: a hub
leads to blocks alone, and the edges to the sink leave other blocks than the sites. So no number of targets
is beyond that of the blocks, and the part of the program that a policy rules out is a proper fraction.
-/
namespace CfiSlack

namespace Graph

variable {g attached : Graph} {site : Address}

theorem attachSink_changed (h : g.attachSink.changed = .ok attached) :
    g.hasSink = false ∧ attached = (g.perform .attachSink).2 := by
  obtain ⟨gates, hgates, rfl⟩ := map_eq_ok.mp h
  refine ⟨?_, rfl⟩
  cases hsink : g.hasSink with
  | false => rfl
  | true =>
    rw [attachSink, if_pos hsink] at hgates
    cases hgates

/-- A site ends in a call and no gate does, so no site leads to the sink. -/
theorem sink_notMem_callSite (h : g.attachSink.changed = .ok attached)
    (hsite : site ∈ attached.callSites) : (⟨.block site, .sink⟩ : Edge) ∉ attached.flows.keys := by
  obtain ⟨hsink, rfl⟩ := attachSink_changed h
  obtain ⟨b, hblock, hcall⟩ := mem_blocksEnding_iff.mp hsite
  have hblock : g.block? site = some b := (block?_perform site).symm.trans hblock
  intro hedge
  rcases mem_flows_perform.mp hedge with hold | ⟨-, a, gate, hgate, hsyscall, heq⟩
  · rcases g.target_mem _ hold with ⟨a, ha, -⟩ | ⟨-, hattached⟩
    · cases ha
    · rw [hsink] at hattached
      cases hattached
  · cases heq
    rw [hblock] at hgate
    cases hgate
    simp only [Block.endsWith, beq_iff_eq] at hcall hsyscall
    rw [hcall] at hsyscall
    cases hsyscall

end Graph

namespace Permitted

variable {p q : Permitted} {total : ℕ}

theorem count_le_count (h : p ≤ q) (hnodup : ∀ targets, p = .only targets → targets.Nodup)
    (hp : p.count total ≤ total) : p.count total ≤ q.count total := by
  cases q with
  | everything => exact hp
  | only more =>
    cases p with
    | everything => exact h.elim
    | only targets => exact ((hnodup targets rfl).subperm h).length_le

end Permitted

theorem View.nodup_of_permitted {v : View} {site : Node} {targets : List Node}
    (h : v.permitted site = .only targets) : targets.Nodup := by
  unfold permitted at h
  split at h
  · cases h
  · cases h
    exact Ascending.nodup_ofList _

namespace Overlay

variable {o : Overlay} {g : Graph} {edges : List Edge} {order : Enumeration} {site : Address}
  {targets : List Node}

/-- A hub leads to blocks alone. -/
theorem block_of_mem_succ_hub (hedges : g.AdmitsAll edges) (ho : ofEdges g edges = .ok o)
    {label : HubLabel} {n : Node} (hn : n ∈ (o.view order).succ (.hub label)) :
    ∃ a ∈ g.blocks.keys, n = .block a := by
  rw [(o.shows_view order).mem_succ, mem_successors_of_ofEdges ho, Graph.mem_successors] at hn
  rcases hn with hflow | hadded
  · cases (Graph.not_isHub_of_mem_flows hflow).1
  · have hadmits := hedges.admits _ hadded
    rcases hadmits.target_known with hhub | hblock
    · exact absurd ⟨rfl, hhub⟩ hadmits.not_between_hubs
    · exact hblock

/-- What a site is led to by itself is a block or a hub. -/
theorem block_of_mem_succ_site (hedges : g.AdmitsAll edges) (ho : ofEdges g edges = .ok o)
    (hsink : (⟨.block site, .sink⟩ : Edge) ∉ g.flows.keys) {n : Node}
    (hn : n ∈ (o.view order).succ (.block site)) :
    n.isHub = true ∨ ∃ a ∈ g.blocks.keys, n = .block a := by
  rw [(o.shows_view order).mem_succ, mem_successors_of_ofEdges ho, Graph.mem_successors] at hn
  rcases hn with hflow | hadded
  · rcases g.target_mem _ hflow with ⟨a, ha, hmem⟩ | ⟨hn, -⟩
    · exact Or.inr ⟨a, hmem, ha⟩
    · have hn : n = .sink := hn
      rw [hn] at hflow
      exact absurd hflow hsink
  · exact (hedges.admits _ hadded).target_known

theorem block_of_mem_permitted (hedges : g.AdmitsAll edges) (ho : ofEdges g edges = .ok o)
    (hsink : (⟨.block site, .sink⟩ : Edge) ∉ g.flows.keys)
    (h : (o.view order).permitted (.block site) = .only targets) :
    ∀ n ∈ targets, ∃ a ∈ g.blocks.keys, n = .block a := by
  unfold View.permitted at h
  split at h
  · cases h
  · next hbound =>
    cases h
    intro t ht
    obtain ⟨n, hn, ht⟩ := List.mem_flatMap.mp (Ascending.mem_ofList.mp ht)
    rcases block_of_mem_succ_site hedges ho hsink hn with hhub | ⟨a, ha, rfl⟩
    · cases n with
      | block a => cases hhub
      | sink => cases hhub
      | anywhere => exact absurd hn hbound
      | hub label => exact block_of_mem_succ_hub hedges ho ht
    · obtain ⟨rfl, -⟩ := (View.mem_permittedVia rfl).mp ht
      exact ⟨a, ha, rfl⟩

theorem count_le_blockCount (hedges : g.AdmitsAll edges) (ho : ofEdges g edges = .ok o)
    (hsink : (⟨.block site, .sink⟩ : Edge) ∉ g.flows.keys) :
    ((o.view order).permitted (.block site)).count g.blockCount ≤ g.blockCount := by
  cases h : (o.view order).permitted (.block site) with
  | everything => exact le_rfl
  | only targets =>
    have hsub : targets ⊆ g.blocks.keys.map Node.block := by
      intro n hn
      obtain ⟨a, ha, rfl⟩ := block_of_mem_permitted hedges ho hsink h n hn
      exact List.mem_map_of_mem ha
    have hlength := ((View.nodup_of_permitted h).subperm hsub).length_le
    rw [List.length_map, Table.keys, List.length_map] at hlength
    exact hlength

end Overlay

namespace PolicyInputs

variable {i : PolicyInputs} {p : Policy} {o : Overlay}

theorem exists_yields_of_untabled (hp : p.tables = []) : ∃ o, i.Yields p o := by
  obtain ⟨set, hset⟩ := exists_answer_of_untabled (i := i) hp
  obtain ⟨o, ho, -⟩ := Overlay.exists_of_admitsAll (answer_admitsAll hset)
  exact ⟨o, set, ((Resolver.ready_ofInputs i).edges p).1.trans hset, ho⟩

theorem ofEdges_of_yields_baseline (h : i.Yields .baseline o) : Overlay.ofEdges i.graph [] = .ok o := by
  obtain ⟨edges, hedges, ho⟩ := h
  rw [((Resolver.ready_ofInputs i).edges .baseline).1] at hedges
  cases hedges
  exact ho

/-- Without a policy every site may go anywhere. -/
theorem permitted_of_yields_unrestricted (h : i.Yields .unrestricted o) {order : Enumeration}
    {site : Address} (hsite : site ∈ i.sites) :
    (o.view order).permitted (.block site) = .everything := by
  obtain ⟨edges, hedges, ho⟩ := h
  rw [((Resolver.ready_ofInputs i).edges .unrestricted).1, answer_of_independent rfl] at hedges
  have hedge : (⟨.block site, .anywhere⟩ : Edge) ∈ edges := by
    refine (mem_addedEdges hedges).mpr ⟨?_, ?_⟩
    · exact List.mem_append_left _ (List.mem_map_of_mem hsite)
    · intro hflow
      cases (Graph.not_isHub_of_mem_flows hflow).2
  have hsucc : Node.anywhere ∈ (o.view order).succ (.block site) := by
    rw [(o.shows_view order).mem_succ, Overlay.mem_successors_of_ofEdges ho]
    exact Or.inr hedge
  rw [View.permitted, if_pos hsucc]

end PolicyInputs

namespace Session

/-- The number of targets that a view leaves open at a site. -/
def targetCount (s : Session) (v : View) (site : Address) : ℕ :=
  (v.permitted (.block site)).count s.totalSize

/-- The part of the program that a view rules out at a site. -/
def reduction (s : Session) (v : View) (site : Address) : ℚ :=
  1 - s.targetCount v site / s.totalSize

/-- The targets at a site lie between those of two other views and are blocks of the program. -/
structure Bounded (s : Session) (least v most : View) (site : Address) : Prop where
  least_le : s.targetCount least site ≤ s.targetCount v site
  le_most : s.targetCount v site ≤ s.targetCount most site
  le_blockCount : s.targetCount v site ≤ s.graph.blockCount
  blocks : ∀ targets, v.permitted (.block site) = .only targets →
    ∀ n ∈ targets, ∃ a ∈ s.graph.blocks.keys, n = .block a
  reduction_nonneg : 0 ≤ s.reduction v site
  reduction_le_one : s.reduction v site ≤ 1

variable {s : Session}

theorem reduction_bounds {v : View} {site : Address} (h : s.targetCount v site ≤ s.totalSize) :
    0 ≤ s.reduction v site ∧ s.reduction v site ≤ 1 := by
  have hle : (s.targetCount v site : ℚ) ≤ s.totalSize := by exact_mod_cast h
  have hquot : (s.targetCount v site : ℚ) / s.totalSize ≤ 1 :=
    div_le_one_of_le₀ hle (Nat.cast_nonneg _)
  have hpos : (0 : ℚ) ≤ s.targetCount v site / s.totalSize := by positivity
  unfold reduction
  constructor
  · linarith
  · linarith

theorem exists_policyInputs (h : s.graph.hasSink = true) :
    ∃ i, s.policyInputs = .ok i ∧ i.graph = s.graph := by
  obtain ⟨i, hi, hgraph, -⟩ := PolicyInputs.exists_ofGraph h s.functions.keys
  refine ⟨{ i with signatures := s.signatures, siteSignatures := s.siteSignatures }, ?_, hgraph⟩
  rw [policyInputs, hi]
  rfl

theorem attachSink_of_ofProgram {program : Program} {settings : Settings}
    (h : ofProgram program settings = .ok s) : program.graph.attachSink.changed = .ok s.graph := by
  obtain ⟨attached, hattached, hs⟩ := bind_eq_ok.mp h
  cases hs
  exact mapError_eq_ok.mp hattached

theorem bounded_of_admitsAll {i : PolicyInputs} {base o full : Overlay} {edges : List Edge}
    {least order most : Enumeration} {site : Address} (hsize : s.totalSize = s.graph.blockCount)
    (hgraph : i.graph = s.graph) (hbase : i.Yields .baseline base) (hfull : i.Yields .unrestricted full)
    (hedges : s.graph.AdmitsAll edges) (ho : Overlay.ofEdges s.graph edges = .ok o)
    (hsite : site ∈ s.graph.callSites) (hsink : (⟨.block site, .sink⟩ : Edge) ∉ s.graph.flows.keys) :
    s.Bounded (base.view least) (o.view order) (full.view most) site := by
  have hbase := PolicyInputs.ofEdges_of_yields_baseline hbase
  rw [hgraph] at hbase
  have hloose : (base.view least).LoosenedBy (o.view order) :=
    Overlay.loosenedBy_of_ofEdges (List.nil_subset _) hbase ho (base.presents_view _) (o.presents_view _)
  have hcount : s.targetCount (o.view order) site ≤ s.graph.blockCount := by
    rw [targetCount, hsize]
    exact Overlay.count_le_blockCount hedges ho hsink
  have hbaseCount : s.targetCount (base.view least) site ≤ s.totalSize := by
    rw [targetCount, hsize]
    exact Overlay.count_le_blockCount ⟨List.nodup_nil, nofun⟩ hbase hsink
  have hmost : s.targetCount (full.view most) site = s.graph.blockCount := by
    rw [← hgraph] at hsite
    rw [targetCount, PolicyInputs.permitted_of_yields_unrestricted hfull hsite, hsize]
    rfl
  obtain ⟨hnonneg, hone⟩ := reduction_bounds (hsize ▸ hcount)
  exact
    { least_le := Permitted.count_le_count (hloose.permitted_le _)
        (fun _ hpermitted => View.nodup_of_permitted hpermitted) hbaseCount
      le_most := hcount.trans_eq hmost.symm
      le_blockCount := hcount
      blocks := fun _ hpermitted => Overlay.block_of_mem_permitted hedges ho hsink hpermitted
      reduction_nonneg := hnonneg
      reduction_le_one := hone }

/-- A session for a program, with whatever tables, that takes the number of blocks for the size of the
program. The overlay of each policy, from whatever resolver its edges come, leaves at a site no fewer targets
open than were observed there and no more than without a policy. They are blocks of the program. -/
theorem target_counts_within_program (program : Program) (s : Session)
    (hloaded : ofProgram program s.settings = .ok { s with signatures := none, siteSignatures := none })
    (hsize : s.settings.totalSize = none) :
    ∃ i base full, s.policyInputs = .ok i ∧ i.Yields .baseline base ∧ i.Yields .unrestricted full ∧
      s.totalSize = s.graph.blockCount ∧
      ∀ history q set, ((Resolver.after i history).serve q).1 = .ok set →
        ∀ listed : List Edge, listed.Perm set → ∃ o, s.overlay listed = .ok o ∧
          ∀ least order most, ∀ site ∈ s.graph.callSites,
            s.Bounded (base.view least) (o.view order) (full.view most) site := by
  have hattached : program.graph.attachSink.changed = .ok s.graph :=
    attachSink_of_ofProgram (s := { s with signatures := none, siteSignatures := none }) hloaded
  have hsink : s.graph.hasSink = true := by
    rw [(Graph.attachSink_changed hattached).2]
    exact Graph.hasSink_perform.mpr (Or.inr rfl)
  obtain ⟨i, hinputs, hgraph⟩ := exists_policyInputs hsink
  obtain ⟨base, hbase⟩ := PolicyInputs.exists_yields_of_untabled (i := i) (p := .baseline) rfl
  obtain ⟨full, hfull⟩ := PolicyInputs.exists_yields_of_untabled (i := i) (p := .unrestricted) rfl
  have htotal : s.totalSize = s.graph.blockCount := by
    rw [totalSize, hsize]
    rfl
  refine ⟨i, base, full, hinputs, hbase, hfull, htotal, ?_⟩
  intro history q set hset listed hperm
  rw [Resolver.serve_after] at hset
  have hedges := (PolicyInputs.answer_admitsAll hset).of_perm hperm
  rw [hgraph] at hedges
  obtain ⟨o, ho, -⟩ := Overlay.exists_of_admitsAll hedges
  refine ⟨o, mapError_eq_ok.mpr ho, ?_⟩
  intro least order most site hsite
  exact bounded_of_admitsAll htotal hgraph hbase hfull hedges ho hsite
    (Graph.sink_notMem_callSite hattached hsite)

/-- Block 18 was seen to call the function at 288 and to go on at 22. The function at 544 was never seen. -/
def unseenFunction : Program where
  graph :=
    { blocks := ⟨[(18, { size := 4, instrs := 1, terminator := some .callIndirect }),
        (22, { size := 4, instrs := 1 }), (288, { size := 2, instrs := 1, terminator := some .syscall }),
        (544, { size := 4, instrs := 2 })], by decide⟩
      flows := ⟨[(⟨.block 18, .block 288⟩, { kind := .callIndirect }),
        (⟨.block 18, .block 22⟩, { kind := .follow })], by decide⟩
      hasSink := false
      source_mem := by simp [Table.keys]
      target_mem := by simp [Table.keys] }
  functions := ⟨[(288, "seen"), (544, "unseen")], by decide⟩

def unseenCall : Session where
  graph := unseenFunction.graph.attachSink.2
  functions := unseenFunction.functions

/-- If every function may be called, two of the four blocks are targets. -/
theorem target_counts_within_program_unseenFunction :
    ofProgram unseenFunction unseenCall.settings =
        .ok { unseenCall with signatures := none, siteSignatures := none } ∧
      18 ∈ unseenCall.graph.callSites ∧
      ∃ base o full : Overlay, unseenCall.overlay [⟨.block 18, .hub .functions⟩,
          ⟨.hub .functions, .block 288⟩, ⟨.hub .functions, .block 544⟩] = .ok o ∧
        unseenCall.targetCount (o.view .ascending) 18 = 2 ∧
        unseenCall.Bounded (base.view .ascending) (o.view .ascending) (full.view .ascending) 18 := by
  obtain ⟨i, base, full, hinputs, -, -, -, hall⟩ :=
    target_counts_within_program unseenFunction unseenCall rfl rfl
  have hanswer : (unseenCall.policyInputs.bind fun i => i.answer .anyFunction) =
      .ok [⟨.block 18, .hub .functions⟩, ⟨.hub .functions, .block 288⟩,
        ⟨.hub .functions, .block 544⟩] := by
    decide +kernel
  rw [hinputs] at hanswer
  obtain ⟨o, ho, hbounded⟩ := hall [] ⟨.anyFunction, false⟩ _
    ((Resolver.serve_after i [] ⟨.anyFunction, false⟩).trans hanswer) _ (List.Perm.refl _)
  have hcount : (unseenCall.overlay [⟨.block 18, .hub .functions⟩, ⟨.hub .functions, .block 288⟩,
      ⟨.hub .functions, .block 544⟩]).map (fun o => unseenCall.targetCount (o.view .ascending) 18) =
      .ok 2 := by
    decide +kernel
  rw [ho] at hcount
  have hsite : 18 ∈ unseenCall.graph.callSites := by decide
  exact ⟨rfl, hsite, base, o, full, ho, Except.ok.inj hcount, hbounded _ _ _ 18 hsite⟩

end Session
end CfiSlack
