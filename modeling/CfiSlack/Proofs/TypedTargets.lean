import CfiSlack.Proofs.PolicyAnswers
import CfiSlack.Proofs.Widening

/-!
# Targets of the typed policy

The typed policy adds the edge from a call site to an address exactly if the signature of the address
widens one that was seen at the site: that of the compiler, or that of an observed callee.
-/
namespace CfiSlack

/-- The table lists the types under the binary and the address of the block. -/
def SiteSignatures.Expects (sites : SiteSignatures) (g : Graph) (site : Address)
    (types : List String) : Prop :=
  ∃ block, g.block? site = some block ∧ sites.find? ⟨block.binary, site⟩ = some types

/-- An indirect call from the one block to the other was observed. -/
def Graph.Calls (g : Graph) (site callee : Address) : Prop :=
  (g.flow? ⟨.block site, .block callee⟩).map Flow.kind = some .callIndirect

namespace PolicyInputs

variable {i : PolicyInputs} {site : Address}

theorem mem_calleeNodes {n : Node} :
    n ∈ i.calleeNodes site ↔
      (i.graph.flow? ⟨.block site, n⟩).map Flow.kind = some .callIndirect := by
  rw [Option.map_eq_some_iff]
  exact Ascending.mem_ofList.trans
    (Graph.mem_map_target_outFlows fun flow => flow.kind = .callIndirect)

theorem mem_calleeAddresses {c : Address} :
    c ∈ (i.calleeNodes site).filterMap Node.addr? ↔ i.graph.Calls site c := by
  rw [List.mem_filterMap, Graph.Calls, ← mem_calleeNodes]
  constructor
  · rintro ⟨n, hn, haddr⟩
    cases n with
    | block a =>
      cases haddr
      exact hn
    | _ => cases haddr
  · intro hn
    exact ⟨.block c, hn, rfl⟩

theorem mem_callees {callees : List Address} (h : i.callees site = .ok callees) {c : Address} :
    c ∈ callees ↔ i.graph.Calls site c := by
  rw [← mem_calleeAddresses, mem_of_mapM_eq_ok h]
  constructor
  · rintro ⟨a, ha, hok⟩
    split at hok
    · cases hok
      exact ha
    · cases hok
  · intro hc
    obtain ⟨b, -, hok⟩ := exists_of_mapM_eq_ok h hc
    refine ⟨c, hc, ?_⟩
    split at hok
    · next hmem => rw [if_pos hmem]
    · cases hok

theorem compilerTypes_eq_some {types : List String} :
    i.compilerTypes site = some types ↔
      ∃ sites, i.siteSignatures = some sites ∧ sites.Expects i.graph site types := by
  simp only [compilerTypes, SiteSignatures.Expects, Option.bind_eq_bind, Option.bind_eq_some_iff]
  constructor
  · rintro ⟨block, hblock, sites, hsites, hfind⟩
    exact ⟨sites, hsites, block, hblock, hfind⟩
  · rintro ⟨sites, hsites, block, hblock, hfind⟩
    exact ⟨block, hblock, sites, hsites, hfind⟩

theorem expects_of_compilerTypes {sites : SiteSignatures} (hsites : i.siteSignatures = some sites)
    {types : List String} (h : i.compilerTypes site = some types) :
    sites.Expects i.graph site types := by
  obtain ⟨_, hsites', hexpects⟩ := compilerTypes_eq_some.mp h
  cases hsites.symm.trans hsites'
  exact hexpects

/-- Signatures that speak of the calls at a site. -/
inductive SeenAt (i : PolicyInputs) (sites : SiteSignatures) (index : TypeIndex) (site : Address) :
    Signature → Prop
  | compiler {types : List String} (expects : sites.Expects i.graph site types) :
      SeenAt i sites index site (.params types)
  | callee {c : Address} {s : Signature} (calls : i.graph.Calls site c)
      (indexed : index.signatureOf c = some s) : SeenAt i sites index site s

theorem mem_permitted_typeFinding {sites : SiteSignatures} (hsites : i.siteSignatures = some sites)
    {index : TypeIndex} {finding : SiteFinding (List Edge)}
    (h : i.typeFinding index site = .ok finding) {e : Edge} :
    e ∈ finding.permitted ↔ ∃ target, e = ⟨.block site, .block target⟩ ∧
      ∃ s, i.SeenAt sites index site s ∧ target ∈ index.matching s := by
  obtain ⟨callees, hcallees, h⟩ := bind_eq_ok.mp h
  obtain ⟨signatures, hsignatures, h⟩ := bind_eq_ok.mp h
  cases h
  have hobserved {s : Signature} : s ∈ signatures ↔
      ∃ c, i.graph.Calls site c ∧ index.signatureOf c = some s := by
    rw [mem_of_mapM_eq_ok hsignatures]
    refine exists_congr fun c => ?_
    rw [mem_callees hcallees]
    refine and_congr_right fun _ => ?_
    cases index.signatureOf c <;> simp
  have hseen {s : Signature} : s ∈ signatures.eraseDups ++
      ((i.compilerTypes site).map Signature.params).toList ↔ i.SeenAt sites index site s := by
    rw [List.mem_append, List.mem_eraseDups, hobserved, Option.mem_toList,
      Option.map_eq_some_iff]
    constructor
    · rintro (⟨c, hcalls, hindexed⟩ | ⟨types, hknown, rfl⟩)
      · exact .callee hcalls hindexed
      · exact .compiler (expects_of_compilerTypes hsites hknown)
    · intro hs
      cases hs with
      | compiler hexpects => exact Or.inr ⟨_, compilerTypes_eq_some.mpr ⟨sites, hsites, hexpects⟩, rfl⟩
      | callee hcalls hindexed => exact Or.inl ⟨_, hcalls, hindexed⟩
  simp only [List.mem_map, Ascending.mem_ofList, List.mem_flatMap, hseen]
  constructor
  · rintro ⟨target, hs, rfl⟩
    exact ⟨target, rfl, hs⟩
  · rintro ⟨target, rfl, hs⟩
    exact ⟨target, hs, rfl⟩

theorem exists_siteSignatures {p : Policy} (h : i.missingTable? p = none)
    (hp : .callSites ∈ p.tables) : ∃ sites, i.siteSignatures = some sites := by
  have hgiven : i.hasTable .callSites = true := by
    simpa using List.find?_eq_none.mp h .callSites hp
  exact Option.isSome_iff_exists.mp hgiven

/-- An edge of the typed policy leaves a call site, is new, and enters an address whose signature
widens one seen at the site; and every such edge is one of the policy. -/
theorem typed_edges_exact (i : PolicyInputs) (history : List Resolver.Request) (taking : Bool)
    (set : List Edge) (h : ((Resolver.after i history).serve ⟨.typed, taking⟩).1 = .ok set) :
    ∃ table sites redirects, i.signatures = some table ∧ i.siteSignatures = some sites ∧
      i.graph.redirects = .ok redirects ∧
      ∀ u v, (⟨u, v⟩ : Edge) ∈ set ↔ ∃ site ∈ i.graph.callSites, ∃ target signature,
        u = .block site ∧ v = .block target ∧
        (TypeIndex.build table i.functions redirects).signatureOf target = some signature ∧
        (⟨u, v⟩ : Edge) ∉ i.graph.flows.keys ∧
        ∃ seen, i.SeenAt sites (TypeIndex.build table i.functions redirects) site seen ∧
          seen.Widens signature := by
  rw [Resolver.serve_after, answer_of_independent rfl] at h
  obtain ⟨raw, hraw, hadded⟩ := bind_eq_ok.mp h
  obtain ⟨index, hindex, hfindings⟩ := bind_eq_ok.mp hraw
  obtain ⟨hmissing, table, redirects, htable, hredirects, rfl⟩ := indexed_of_indexFor hindex
  obtain ⟨sites, hsites⟩ := exists_siteSignatures hmissing (by decide)
  refine ⟨table, sites, redirects, htable, hsites, hredirects, ?_⟩
  intro u v
  rw [mem_addedEdges hadded, mem_findings hfindings]
  constructor
  · rintro ⟨⟨site, hsite, finding, hfinding, hpermitted⟩, hfresh⟩
    obtain ⟨target, hedge, seen, hseen, hmatching⟩ :=
      (mem_permitted_typeFinding hsites hfinding).mp hpermitted
    obtain ⟨signature, hwidens, hsignature⟩ := TypeIndex.mem_matching.mp hmatching
    cases hedge
    exact ⟨site, hsite, target, signature, rfl, rfl, hsignature, hfresh, seen, hseen, hwidens⟩
  · rintro ⟨site, hsite, target, signature, rfl, rfl, hsignature, hfresh, seen, hseen, hwidens⟩
    refine ⟨⟨site, hsite, ?_⟩, hfresh⟩
    obtain ⟨finding, hfinding⟩ := exists_of_findings hfindings hsite
    refine ⟨finding, hfinding, (mem_permitted_typeFinding hsites hfinding).mpr ?_⟩
    exact ⟨target, rfl, seen, hseen, TypeIndex.mem_matching.mpr ⟨signature, hwidens, hsignature⟩⟩

/-- Block 16 calls the function at 256, where the compiler expected one that takes an `int`, as a function
with a `void` parameter does, such as that at 768. The stub at 1536 stands for the function at 512, and
nothing is known of the function at 2048. -/
def stubbedCall : PolicyInputs where
  graph :=
    { blocks := ⟨[(16, { size := 4, instrs := 1, binary := "main", terminator := some .callIndirect }),
        (256, { size := 4, instrs := 1, terminator := some .jumpDirect }),
        (512, { size := 4, instrs := 1, terminator := some .jumpDirect }),
        (768, { size := 4, instrs := 1, terminator := some .jumpDirect }),
        (1024, { size := 4, instrs := 1, terminator := some .syscall }),
        (1536, { size := 4, instrs := 1, inPlt := some true, terminator := some .jumpIndirect }),
        (2048, { size := 4, instrs := 1, terminator := some .jumpDirect })], by decide⟩
      flows := ⟨[(⟨.block 16, .block 256⟩, { kind := .callIndirect }),
        (⟨.block 256, .block 1024⟩, { kind := .jumpDirect }),
        (⟨.block 1536, .block 512⟩, { kind := .jumpIndirect }),
        (⟨.block 1024, .sink⟩, { kind := .syscall })], by decide⟩
      hasSink := true
      source_mem := by simp [Table.keys]
      target_mem := by simp [Table.keys] }
  hasSink := rfl
  functions := [256, 512, 768, 2048]
  functions_mem := by simp [Table.keys]
  signatures := some ⟨[(256, ["Pointer(char)", "int"]), (512, ["Pointer(void)", "void"]),
    (768, ["void"])], by decide⟩
  siteSignatures := some ⟨[(⟨"main", 16⟩, ["int"])], by decide⟩

theorem typed_edges_exact_stubbedCall :
    ∃ set, ((Resolver.after stubbedCall [⟨.typed, true⟩, ⟨.argCount, false⟩]).serve
        ⟨.typed, false⟩).1 = .ok set ∧
      (⟨.block 16, .block 1536⟩ : Edge) ∈ set ∧ (⟨.block 16, .block 768⟩ : Edge) ∈ set ∧
      (⟨.block 16, .block 256⟩ : Edge) ∉ set ∧ (⟨.block 16, .block 2048⟩ : Edge) ∉ set := by
  have hanswer : stubbedCall.answer .typed =
      .ok [⟨.block 16, .block 512⟩, ⟨.block 16, .block 768⟩, ⟨.block 16, .block 1536⟩] := by decide
  have hserve := (Resolver.serve_after stubbedCall [⟨.typed, true⟩, ⟨.argCount, false⟩]
    ⟨.typed, false⟩).trans hanswer
  obtain ⟨table, sites, redirects, htable, hsites, hredirects, hexact⟩ :=
    typed_edges_exact stubbedCall _ _ _ hserve
  cases htable
  cases hsites
  cases hredirects
  refine ⟨_, hserve, ?_, ?_, ?_, ?_⟩
  · -- the stub has the signature of the function behind it
    refine (hexact _ _).mpr ⟨16, by decide, 1536, .params ["Pointer(void)", "void"], rfl, rfl,
      by decide, by decide, .params ["Pointer(char)", "int"], ?_, ?_⟩
    · exact .callee (c := 256) rfl (by decide)
    · exact .params (.cons (.toVoidPointer (by decide)) (.cons (.toVoid _) .nil))
  · -- no callee of such a signature was observed
    refine (hexact _ _).mpr ⟨16, by decide, 768, .params ["void"], rfl, rfl, by decide, by decide,
      .params ["int"], ?_, ?_⟩
    · exact .compiler ⟨_, rfl, by decide⟩
    · exact .params (.cons (.toVoid _) .nil)
  · intro hmem
    obtain ⟨-, -, -, -, -, -, -, hfresh, -⟩ := (hexact _ _).mp hmem
    exact hfresh (by decide)
  · intro hmem
    obtain ⟨site, -, target, signature, hsite, htarget, hsignature, -, seen, hseen, hwidens⟩ :=
      (hexact _ _).mp hmem
    cases hsite
    cases htarget
    cases hsignature
    -- a stand-in widens nothing but itself, and both that were seen are parameter lists
    cases hwidens
    cases hseen with
    | callee hcalls hindexed =>
      have hcallees : stubbedCall.callees 16 = .ok [256] := rfl
      cases List.mem_singleton.mp ((mem_callees hcallees).mpr hcalls)
      cases hindexed

end PolicyInputs
end CfiSlack
