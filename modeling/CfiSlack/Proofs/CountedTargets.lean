import CfiSlack.Proofs.LaidEdges
import CfiSlack.Proofs.SignatureIndexes
import CfiSlack.Proofs.TypedTargets

/-!
# Targets of the argument-count policy

The argument-count policy leads from a site to the hub of every count that was seen there and that
some function has, and from the hub to these functions. Widening keeps the number of parameters, so
this leaves open whatever the typed policy leaves open, as far as parameters are known.
-/
namespace CfiSlack

theorem Signature.Widens.arity?_eq {s t : Signature} (h : s.Widens t) : t.arity? = s.arity? := by
  cases h with
  | untyped n => rfl
  | params h => exact congrArg some h.length_eq.symm

namespace PolicyInputs

variable {i : PolicyInputs} {sites : SiteSignatures} {site : Address} {set : List Edge}

/-- Argument counts that speak of the calls at a site. -/
inductive CountSeenAt (i : PolicyInputs) (sites : SiteSignatures) (index : ArityIndex)
    (site : Address) : ℕ → Prop
  | compiler {types : List String} (expects : sites.Expects i.graph site types) :
      CountSeenAt i sites index site types.length
  | callee {c : Address} {n : ℕ} (calls : i.graph.Calls site c) (indexed : index.arityOf c = some n) :
      CountSeenAt i sites index site n

/-- A count that was seen at a site and that some function has. -/
structure CountOffered (i : PolicyInputs) (sites : SiteSignatures) (index : ArityIndex)
    (site : Address) (n : ℕ) : Prop where
  site_mem : site ∈ i.sites
  seen : i.CountSeenAt sites index site n
  taken : ∃ f, index.arityOf f = some n

/-- The unknown count is dropped with those that no function has. -/
theorem functionsWith_nonempty {index : ArityIndex} {count : Option ℕ} :
    (!(index.functionsWith count).isEmpty) = true ↔
      ∃ n, count = some n ∧ ∃ f, index.arityOf f = some n := by
  rw [Bool.not_eq_true', List.isEmpty_eq_false_iff_exists_mem]
  cases count with
  | none => simp [ArityIndex.functionsWith_none]
  | some n => simp [ArityIndex.mem_functionsWith]

theorem mem_permitted_arityFinding (hsites : i.siteSignatures = some sites) {index : ArityIndex}
    {finding : SiteFinding (List (Address × Option ℕ))}
    (h : i.arityFinding index site = .ok finding) {a : Address} {count : Option ℕ} :
    (a, count) ∈ finding.permitted ↔ a = site ∧ ∃ n, count = some n ∧
      i.CountSeenAt sites index site n ∧ ∃ f, index.arityOf f = some n := by
  obtain ⟨callees, hcallees, h⟩ := bind_eq_ok.mp h
  cases h
  have hseen {n : ℕ} : some n ∈ ((i.compilerTypes site).map List.length ::
      (callees.map index.arityOf).eraseDups).eraseDups ↔ i.CountSeenAt sites index site n := by
    simp only [List.mem_eraseDups, List.mem_cons, List.mem_map, mem_callees hcallees]
    constructor
    · rintro (hcompiler | ⟨c, hcalls, hindexed⟩)
      · obtain ⟨types, hknown, rfl⟩ := Option.map_eq_some_iff.mp hcompiler.symm
        exact .compiler (expects_of_compilerTypes hsites hknown)
      · exact .callee hcalls hindexed
    · intro hn
      cases hn with
      | compiler hexpects =>
        rw [compilerTypes_eq_some.mpr ⟨sites, hsites, hexpects⟩]
        exact Or.inl rfl
      | callee hcalls hindexed => exact Or.inr ⟨_, hcalls, hindexed⟩
  simp only [List.mem_map, List.mem_filter, functionsWith_nonempty, Prod.mk.injEq]
  constructor
  · rintro ⟨_, ⟨hcount, n, rfl, htaken⟩, rfl, rfl⟩
    exact ⟨rfl, n, rfl, hseen.mp hcount, htaken⟩
  · rintro ⟨rfl, n, rfl, hn, htaken⟩
    exact ⟨some n, ⟨hseen.mpr hn, n, rfl, htaken⟩, rfl, rfl⟩

theorem mem_arityEdges {index : ArityIndex} {permitted : List (Address × Option ℕ)} {u v : Node} :
    (⟨u, v⟩ : Edge) ∈ arityEdges index permitted ↔
      (∃ site count, (site, count) ∈ permitted ∧ u = .block site ∧ v = arityHub count) ∨
      ∃ site count f, (site, count) ∈ permitted ∧ f ∈ index.functionsWith count ∧
        u = arityHub count ∧ v = .block f := by
  simp only [arityEdges, List.mem_append, List.mem_map, List.mem_flatMap, List.mem_eraseDups,
    Edge.mk.injEq]
  refine or_congr ⟨?_, ?_⟩ ⟨?_, ?_⟩
  · rintro ⟨⟨site, count⟩, hrow, rfl, rfl⟩
    exact ⟨site, count, hrow, rfl, rfl⟩
  · rintro ⟨site, count, hrow, rfl, rfl⟩
    exact ⟨(site, count), hrow, rfl, rfl⟩
  · rintro ⟨count, ⟨⟨site, _⟩, hrow, rfl⟩, f, hf, rfl, rfl⟩
    exact ⟨site, _, f, hrow, hf, rfl, rfl⟩
  · rintro ⟨site, count, f, hrow, hf, rfl, rfl⟩
    exact ⟨count, ⟨(site, count), hrow, rfl⟩, f, hf, rfl, rfl⟩

theorem mem_findings_arity (hsites : i.siteSignatures = some sites) {index : ArityIndex}
    {permitted : List (Address × Option ℕ)}
    (h : i.findings (i.arityFinding index) = .ok permitted) {a : Address} {count : Option ℕ} :
    (a, count) ∈ permitted ↔ ∃ n, count = some n ∧ i.CountOffered sites index a n := by
  rw [mem_findings h]
  constructor
  · rintro ⟨site, hsite, finding, hfinding, hrow⟩
    obtain ⟨rfl, n, rfl, hseen, htaken⟩ := (mem_permitted_arityFinding hsites hfinding).mp hrow
    exact ⟨n, rfl, hsite, hseen, htaken⟩
  · rintro ⟨n, rfl, hoffered⟩
    obtain ⟨finding, hfinding⟩ := exists_of_findings h hoffered.site_mem
    refine ⟨a, hoffered.site_mem, finding, hfinding, ?_⟩
    exact (mem_permitted_arityFinding hsites hfinding).mpr
      ⟨rfl, n, rfl, hoffered.seen, hoffered.taken⟩

/-- The set leads from sites to the hubs of the counts that are offered there, and from the hubs to the
functions. -/
def LaysCounts (i : PolicyInputs) (sites : SiteSignatures) (index : ArityIndex) (set : List Edge) :
    Prop :=
  ∀ u v, (⟨u, v⟩ : Edge) ∈ set ↔
    (∃ site n, i.CountOffered sites index site n ∧ u = .block site ∧ v = arityHub (some n)) ∨
    ∃ site n f, i.CountOffered sites index site n ∧ index.arityOf f = some n ∧
      u = arityHub (some n) ∧ v = .block f

theorem laysCounts_arityEdges (hsites : i.siteSignatures = some sites) {index : ArityIndex}
    {permitted : List (Address × Option ℕ)}
    (h : i.findings (i.arityFinding index) = .ok permitted) :
    i.LaysCounts sites index (arityEdges index permitted) := by
  intro u v
  simp only [mem_arityEdges, mem_findings_arity hsites h]
  refine or_congr ⟨?_, ?_⟩ ⟨?_, ?_⟩
  · rintro ⟨site, _, ⟨n, rfl, hn⟩, hu, hv⟩
    exact ⟨site, n, hn, hu, hv⟩
  · rintro ⟨site, n, hn, hu, hv⟩
    exact ⟨site, some n, ⟨n, rfl, hn⟩, hu, hv⟩
  · rintro ⟨site, _, f, ⟨n, rfl, hn⟩, hf, hu, hv⟩
    exact ⟨site, n, f, hn, ArityIndex.mem_functionsWith.mp hf, hu, hv⟩
  · rintro ⟨site, n, f, hn, hf, hu, hv⟩
    exact ⟨site, some n, f, ⟨n, rfl, hn⟩, ArityIndex.mem_functionsWith.mpr hf, hu, hv⟩

/-- None of the edges is an observed one, since each has a hub at one end. -/
theorem mem_answer_argCount (h : i.answer .argCount = .ok set) :
    ∃ sites index, i.siteSignatures = some sites ∧ i.Indexed ArityIndex.build index ∧
      i.LaysCounts sites index set := by
  rw [answer_of_independent rfl] at h
  obtain ⟨raw, hraw, hadded⟩ := bind_eq_ok.mp h
  obtain ⟨index, hindex, hraw⟩ := bind_eq_ok.mp hraw
  obtain ⟨permitted, hpermitted, hraw⟩ := bind_eq_ok.mp hraw
  cases hraw
  obtain ⟨hmissing, hindexed⟩ := indexed_of_indexFor hindex
  obtain ⟨sites, hsites⟩ := exists_siteSignatures hmissing (by decide)
  refine ⟨sites, index, hsites, hindexed, ?_⟩
  intro u v
  rw [mem_addedEdges hadded, laysCounts_arityEdges hsites hpermitted u v]
  refine and_iff_left_of_imp ?_
  rintro (⟨site, n, -, rfl, rfl⟩ | ⟨site, n, f, -, -, rfl, rfl⟩) hflow
  · cases (Graph.not_isHub_of_mem_flows hflow).2
  · cases (Graph.not_isHub_of_mem_flows hflow).1

/-- An edge of the typed policy leads to a function whose signature widens one seen at the site. -/
theorem exists_seen_of_mem_answer_typed (h : i.answer .typed = .ok set) :
    ∃ sites index, i.siteSignatures = some sites ∧ i.Indexed TypeIndex.build index ∧ ∀ site target,
      (⟨.block site, .block target⟩ : Edge) ∈ set → site ∈ i.sites ∧ ∃ seen s,
        i.SeenAt sites index site seen ∧ seen.Widens s ∧ index.signatureOf target = some s := by
  rw [answer_of_independent rfl] at h
  obtain ⟨raw, hraw, hadded⟩ := bind_eq_ok.mp h
  obtain ⟨index, hindex, hfindings⟩ := bind_eq_ok.mp hraw
  obtain ⟨hmissing, hindexed⟩ := indexed_of_indexFor hindex
  obtain ⟨sites, hsites⟩ := exists_siteSignatures hmissing (by decide)
  refine ⟨sites, index, hsites, hindexed, ?_⟩
  intro site target hmem
  have hraw := ((mem_addedEdges hadded).mp hmem).1
  obtain ⟨a, ha, finding, hfinding, hpermitted⟩ := (mem_findings hfindings).mp hraw
  obtain ⟨b, hedge, seen, hseen, hmatching⟩ := (mem_permitted_typeFinding hsites hfinding).mp hpermitted
  cases hedge
  obtain ⟨s, hwidens, hs⟩ := TypeIndex.mem_matching.mp hmatching
  exact ⟨ha, seen, s, hseen, hwidens, hs⟩

theorem SeenAt.count {table : SignatureTable} {redirects : Redirects} {s : Signature} {n : ℕ}
    (h : i.SeenAt sites (TypeIndex.build table i.functions redirects) site s)
    (hs : s.arity? = some n) :
    i.CountSeenAt sites (ArityIndex.build table i.functions redirects) site n := by
  cases h with
  | compiler hexpects =>
    cases hs
    exact .compiler hexpects
  | @callee c _ hcalls hindexed =>
    have hcount : (ArityIndex.build table i.functions redirects).arityOf c = some n := by
      rw [ArityIndex.arityOf_build, hindexed]
      exact hs
    exact .callee hcalls hcount

/-- Whatever was asked before, where the typed policy has an edge to a function of known parameters,
the argument-count policy has one to the hub of their number and one from there to the function. -/
theorem typed_edges_counted (i : PolicyInputs) (history history' : List Resolver.Request)
    (taking taking' : Bool) (typed counted : List Edge)
    (htyped : ((Resolver.after i history).serve ⟨.typed, taking⟩).1 = .ok typed)
    (hcounted : ((Resolver.after i history').serve ⟨.argCount, taking'⟩).1 = .ok counted) :
    ∃ table redirects, i.signatures = some table ∧ i.graph.redirects = .ok redirects ∧
      ∀ site target types, (⟨.block site, .block target⟩ : Edge) ∈ typed →
        (TypeIndex.build table i.functions redirects).signatureOf target = some (.params types) →
        (⟨.block site, .hub (.argCount (Int64.ofNat types.length))⟩ : Edge) ∈ counted ∧
          (⟨.hub (.argCount (Int64.ofNat types.length)), .block target⟩ : Edge) ∈ counted := by
  rw [Resolver.serve_after] at htyped hcounted
  obtain ⟨sites, _, hsites, ⟨table, redirects, htable, hredirects, rfl⟩, hseen⟩ :=
    exists_seen_of_mem_answer_typed htyped
  obtain ⟨sites', _, hsites', ⟨table', redirects', htable', hredirects', rfl⟩, hedges⟩ :=
    mem_answer_argCount hcounted
  obtain rfl : sites = sites' := Option.some.inj (hsites.symm.trans hsites')
  obtain rfl : table = table' := Option.some.inj (htable.symm.trans htable')
  obtain rfl : redirects = redirects' := Except.ok.inj (hredirects.symm.trans hredirects')
  refine ⟨table, redirects, htable, hredirects, ?_⟩
  intro site target types hmem htypes
  obtain ⟨hsite, seen, s, hseenAt, hwidens, hs⟩ := hseen site target hmem
  obtain rfl : s = .params types := Option.some.inj (hs.symm.trans htypes)
  have hcount : (ArityIndex.build table i.functions redirects).arityOf target =
      some types.length := by
    rw [ArityIndex.arityOf_build, hs]
    rfl
  have hoffered :
      i.CountOffered sites (ArityIndex.build table i.functions redirects) site types.length :=
    ⟨hsite, hseenAt.count hwidens.arity?_eq.symm, target, hcount⟩
  constructor
  · exact (hedges _ _).mpr (Or.inl ⟨site, types.length, hoffered, rfl, rfl⟩)
  · exact (hedges _ _).mpr (Or.inr ⟨site, types.length, target, hoffered, hcount, rfl, rfl⟩)

theorem typed_edges_counted_stubbedCall :
    ∃ typed counted,
      ((Resolver.after stubbedCall [⟨.argCount, true⟩]).serve ⟨.typed, false⟩).1 = .ok typed ∧
      ((Resolver.after stubbedCall []).serve ⟨.argCount, true⟩).1 = .ok counted ∧
      (⟨.block 16, .block 1536⟩ : Edge) ∈ typed ∧
      (⟨.block 16, .hub (.argCount 2)⟩ : Edge) ∈ counted ∧
      (⟨.hub (.argCount 2), .block 1536⟩ : Edge) ∈ counted := by
  have htyped : stubbedCall.answer .typed =
      .ok [⟨.block 16, .block 512⟩, ⟨.block 16, .block 768⟩, ⟨.block 16, .block 1536⟩] := by decide
  have hserve := (Resolver.serve_after stubbedCall [⟨.argCount, true⟩] ⟨.typed, false⟩).trans htyped
  obtain ⟨counted, hcounted⟩ :
      ∃ counted, ((Resolver.after stubbedCall []).serve ⟨.argCount, true⟩).1 = .ok counted := by
    rw [Resolver.serve_after]
    exact ⟨_, rfl⟩
  obtain ⟨table, redirects, htable, hredirects, hboth⟩ :=
    typed_edges_counted stubbedCall _ _ _ _ _ _ hserve hcounted
  cases htable
  cases hredirects
  have hmem : (⟨.block 16, .block 1536⟩ : Edge) ∈
      [⟨.block 16, .block 512⟩, ⟨.block 16, .block 768⟩, (⟨.block 16, .block 1536⟩ : Edge)] := by
    decide
  obtain ⟨hin, hout⟩ := hboth 16 1536 ["Pointer(void)", "void"] hmem (by decide)
  exact ⟨_, counted, hserve, hcounted, hmem, hin, hout⟩

end PolicyInputs
end CfiSlack
