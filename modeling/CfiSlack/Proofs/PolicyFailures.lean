import CfiSlack.Proofs.CountedTargets
import CfiSlack.Proofs.NumericForms
import CfiSlack.Proofs.StubRedirects

/-!
# When policies fail

No policy ever permits an edge that cannot be handed out, so a policy fails only where it reads type
information: a table is missing, a stub cannot be redirected, or an indirect call was seen to enter a
block that is no function. What stands in the way of one policy that reads types stands in the way of
all of them.
-/
namespace CfiSlack

namespace PolicyInputs

variable {i : PolicyInputs} {p : Policy} {site : Address}

theorem exists_callees :
    (∃ callees, i.callees site = .ok callees) ↔ ∀ c, i.graph.Calls site c → c ∈ i.functions := by
  rw [callees, exists_mapM_eq_ok]
  constructor
  · intro h c hcalls
    obtain ⟨b, hb⟩ := h c (mem_calleeAddresses.mpr hcalls)
    split at hb
    · next hc => simpa using hc
    · cases hb
  · intro h c hc
    have hmem := h c (mem_calleeAddresses.mp hc)
    exact ⟨c, if_pos (by simpa using hmem)⟩

theorem exists_typeFinding {table : SignatureTable} {redirects : Redirects} :
    (∃ finding, i.typeFinding (.build table i.functions redirects) site = .ok finding) ↔
      ∃ callees, i.callees site = .ok callees := by
  constructor
  · rintro ⟨finding, h⟩
    obtain ⟨callees, hcallees, -⟩ := bind_eq_ok.mp h
    exact ⟨callees, hcallees⟩
  · rintro ⟨callees, hcallees⟩
    refine (exists_mapM_eq_ok.mpr ?_).elim fun signatures hsignatures =>
      ⟨_, bind_eq_ok.mpr ⟨callees, hcallees, bind_eq_ok.mpr ⟨signatures, hsignatures, rfl⟩⟩⟩
    intro c hc
    have hfunction := exists_callees.mp ⟨callees, hcallees⟩ c ((mem_callees hcallees).mp hc)
    obtain ⟨signature, hsignature⟩ := TypeIndex.exists_signatureOf_build hfunction
    exact ⟨signature, by rw [hsignature]⟩

theorem exists_arityFinding {index : ArityIndex} :
    (∃ finding, i.arityFinding index site = .ok finding) ↔
      ∃ callees, i.callees site = .ok callees := by
  constructor
  · rintro ⟨finding, h⟩
    obtain ⟨callees, hcallees, -⟩ := bind_eq_ok.mp h
    exact ⟨callees, hcallees⟩
  · rintro ⟨callees, hcallees⟩
    exact ⟨_, bind_eq_ok.mpr ⟨callees, hcallees, rfl⟩⟩

/-- What a policy that reads types needs of the program. -/
structure Readable (i : PolicyInputs) : Prop where
  redirected : ¬ ∃ stub, i.graph.FaultyStub stub
  entered : ∀ site ∈ i.sites, ∀ c, i.graph.Calls site c → c ∈ i.functions

/-- With its tables at hand, an index is built and all sites are surveyed if the program can be read. -/
theorem exists_surveyed {α β : Type} {table : SignatureTable}
    (build : SignatureTable → List Address → Redirects → β)
    (find : β → Address → Except PolicyError (SiteFinding (List α)))
    (hp : i.missingTable? p = none) (htable : i.signatures = some table)
    (hfind : ∀ redirects site, (∃ finding, find (build table i.functions redirects) site = .ok finding) ↔
      ∃ callees, i.callees site = .ok callees) :
    (∃ index found, i.indexFor p build = .ok index ∧ i.findings (find index) = .ok found) ↔
      i.Readable := by
  have hsites (redirects : Redirects) :
      (∃ found, i.findings (find (build table i.functions redirects)) = .ok found) ↔
        ∀ site ∈ i.sites, ∀ c, i.graph.Calls site c → c ∈ i.functions := by
    simp only [← exists_callees, ← hfind redirects, ← exists_mapM_eq_ok]
    constructor
    · rintro ⟨found, h⟩
      obtain ⟨each, heach, -⟩ := map_eq_ok.mp h
      exact ⟨each, heach⟩
    · rintro ⟨each, heach⟩
      exact ⟨_, map_eq_ok.mpr ⟨each, heach, rfl⟩⟩
  constructor
  · rintro ⟨index, found, hindex, hfound⟩
    obtain ⟨-, table', redirects, htable', hredirects, rfl⟩ := indexed_of_indexFor hindex
    cases htable.symm.trans htable'
    exact ⟨Graph.exists_redirects.mp ⟨redirects, hredirects⟩, (hsites redirects).mp ⟨found, hfound⟩⟩
  · intro hreadable
    obtain ⟨redirects, hredirects⟩ := Graph.exists_redirects.mpr hreadable.redirected
    obtain ⟨found, hfound⟩ := (hsites redirects).mpr hreadable.entered
    have hindexed : i.Indexed build (build table i.functions redirects) :=
      ⟨table, redirects, htable, hredirects, rfl⟩
    exact ⟨_, found, hindexed.indexFor_eq hp, hfound⟩

/-- The table of signatures is one of those that are not missing. -/
theorem exists_signatures (h : i.missingTable? p = none) (hp : p.tables ≠ []) :
    ∃ table, i.signatures = some table := by
  have hfunctions : TypeTable.functions ∈ p.tables := by
    cases p with
    | typed | numericTyped | argCount => exact List.mem_cons_self
    | _ => exact absurd rfl hp
  have hgiven : i.hasTable .functions = true := by
    simpa using List.find?_eq_none.mp h .functions hfunctions
  exact Option.isSome_iff_exists.mp hgiven

theorem exists_ownEdges_typed (h : i.missingTable? .typed = none) :
    (∃ raw, i.ownEdges .typed = .ok raw) ↔ i.Readable := by
  obtain ⟨table, htable⟩ := exists_signatures h (by decide)
  have hsurveyed := exists_surveyed TypeIndex.build i.typeFinding h htable
    fun _ _ => exists_typeFinding
  rw [← hsurveyed]
  constructor
  · rintro ⟨raw, hraw⟩
    obtain ⟨index, hindex, hfound⟩ := bind_eq_ok.mp hraw
    exact ⟨index, raw, hindex, hfound⟩
  · rintro ⟨index, found, hindex, hfound⟩
    exact ⟨found, bind_eq_ok.mpr ⟨index, hindex, hfound⟩⟩

theorem exists_ownEdges_argCount (h : i.missingTable? .argCount = none) :
    (∃ raw, i.ownEdges .argCount = .ok raw) ↔ i.Readable := by
  obtain ⟨table, htable⟩ := exists_signatures h (by decide)
  have hsurveyed := exists_surveyed ArityIndex.build i.arityFinding h htable
    fun _ _ => exists_arityFinding
  rw [← hsurveyed]
  constructor
  · rintro ⟨raw, hraw⟩
    obtain ⟨index, hindex, hraw⟩ := bind_eq_ok.mp hraw
    obtain ⟨found, hfound, -⟩ := bind_eq_ok.mp hraw
    exact ⟨index, found, hindex, hfound⟩
  · rintro ⟨index, found, hindex, hfound⟩
    exact ⟨_, bind_eq_ok.mpr ⟨index, hindex, bind_eq_ok.mpr ⟨found, hfound, rfl⟩⟩⟩

/-- Every address with a signature is a block. -/
theorem contains_indexed {index : TypeIndex} (h : i.Indexed TypeIndex.build index) {a : Address}
    {s : Signature} (ha : index.signatureOf a = some s) : i.graph.contains (.block a) = true := by
  obtain ⟨table, redirects, -, hredirects, rfl⟩ := h
  rcases TypeIndex.mem_of_signatureOf_build ha with hfunction | ⟨pair, hpair, hend⟩
  · exact contains_entry hfunction
  · obtain ⟨hstub, htarget⟩ := Graph.mem_blocks_of_redirects hredirects hpair
    rcases hend with rfl | rfl
    · exact Graph.contains_block.mpr hstub
    · exact Graph.contains_block.mpr htarget

theorem contains_counted {index : ArityIndex} (h : i.Indexed ArityIndex.build index) {a : Address}
    {n : ℕ} (ha : index.arityOf a = some n) : i.graph.contains (.block a) = true := by
  obtain ⟨table, redirects, htable, hredirects, rfl⟩ := h
  rw [ArityIndex.arityOf_build] at ha
  obtain ⟨s, hs, -⟩ := Option.bind_eq_some_iff.mp ha
  exact contains_indexed ⟨table, redirects, htable, hredirects, rfl⟩ hs

/-- Whatever a policy permits can be laid over the graph. -/
theorem overlayFault?_of_mem_ownEdges {raw : List Edge} (h : i.ownEdges p = .ok raw) {e : Edge}
    (he : e ∈ raw) : i.graph.overlayFault? e = none := by
  rw [Graph.overlayFault?_eq_none]
  cases p with
  | baseline | numericTyped =>
    cases h
    cases he
  | numeric w =>
    cases h
    obtain ⟨site, entry, hnear, hsource, htarget⟩ := mem_numericEdges.mp he
    rw [hsource, htarget]
    exact ⟨⟨rfl, rfl⟩, Or.inr (contains_site hnear.site_mem), Or.inr (contains_entry hnear.entry_mem)⟩
  | numericHub w =>
    cases h
    rcases mem_numericHubEdges.mp he with
      ⟨site, entry, hnear, hsource, htarget⟩ | ⟨entry, hentry, hsource, htarget⟩
    · rw [hsource, htarget]
      exact ⟨⟨rfl, rfl⟩, Or.inr (contains_site hnear.site_mem), Or.inl rfl⟩
    · rw [hsource, htarget]
      exact ⟨⟨rfl, rfl⟩, Or.inl rfl, Or.inr (contains_entry hentry)⟩
  | anyFunction =>
    cases h
    simp only [anyFunctionEdges, List.mem_append, List.mem_map] at he
    rcases he with ⟨site, hsite, rfl⟩ | ⟨entry, hentry, rfl⟩
    · exact ⟨⟨rfl, rfl⟩, Or.inr (contains_site hsite), Or.inl rfl⟩
    · exact ⟨⟨rfl, rfl⟩, Or.inl rfl, Or.inr (contains_entry hentry)⟩
  | unrestricted =>
    cases h
    simp only [unrestrictedEdges, List.mem_append, List.mem_map, List.mem_filter,
      Bool.not_eq_true'] at he
    rcases he with ⟨site, hsite, rfl⟩ | ⟨n, ⟨hn, hsink⟩, rfl⟩
    · exact ⟨⟨rfl, rfl⟩, Or.inr (contains_site hsite), Or.inl rfl⟩
    · exact ⟨⟨rfl, hsink⟩, Or.inl rfl, Or.inr (Graph.contains_iff.mpr (Graph.mem_nodes_view.mp hn))⟩
  | typed =>
    obtain ⟨index, hindex, hfindings⟩ := bind_eq_ok.mp h
    obtain ⟨hmissing, hindexed⟩ := indexed_of_indexFor hindex
    obtain ⟨sites, hsites⟩ := exists_siteSignatures hmissing (by decide)
    obtain ⟨site, hsite, finding, hfinding, hpermitted⟩ := (mem_findings hfindings).mp he
    obtain ⟨target, rfl, seen, -, hmatching⟩ :=
      (mem_permitted_typeFinding hsites hfinding).mp hpermitted
    obtain ⟨signature, -, hsignature⟩ := TypeIndex.mem_matching.mp hmatching
    exact ⟨⟨rfl, rfl⟩, Or.inr (contains_site hsite), Or.inr (contains_indexed hindexed hsignature)⟩
  | argCount =>
    obtain ⟨index, hindex, h⟩ := bind_eq_ok.mp h
    obtain ⟨permitted, hpermitted, h⟩ := bind_eq_ok.mp h
    cases h
    obtain ⟨hmissing, hindexed⟩ := indexed_of_indexFor hindex
    obtain ⟨sites, hsites⟩ := exists_siteSignatures hmissing (by decide)
    rcases (laysCounts_arityEdges hsites hpermitted _ _).mp he with
      ⟨site, n, hoffered, hsource, htarget⟩ | ⟨site, n, f, -, hf, hsource, htarget⟩
    · rw [hsource, htarget]
      exact ⟨⟨rfl, rfl⟩, Or.inr (contains_site hoffered.site_mem), Or.inl rfl⟩
    · rw [hsource, htarget]
      exact ⟨⟨rfl, rfl⟩, Or.inl rfl, Or.inr (contains_counted hindexed hf)⟩

/-- So none of its edges is refused. -/
theorem ownAnswer_eq_map (i : PolicyInputs) (p : Policy) :
    i.ownAnswer p = (i.ownEdges p).map fun raw =>
      Ascending.ofList (raw.filter fun e => (i.graph.flow? e).isNone) := by
  unfold ownAnswer
  cases hraw : i.ownEdges p with
  | error e => rfl
  | ok raw => exact addedEdges_eq_ok fun e he => overlayFault?_of_mem_ownEdges hraw he

theorem ownEdges_of_missing {t : TypeTable} (h : i.missingTable? p = some t)
    (hp : p.dependencies = []) : i.ownEdges p = .error (.missingTable p t) := by
  cases p with
  | typed | argCount =>
    simp only [ownEdges, indexFor, h]
    rfl
  | numericTyped w => cases hp
  | _ => cases h

theorem indexFor_failsOnly {α : Type} {build : SignatureTable → List Address → Redirects → α}
    (h : i.missingTable? p = none) (hp : p.tables ≠ []) :
    FailsOnly PolicyError.OfProgram (i.indexFor p build) := by
  obtain ⟨table, htable⟩ := exists_signatures h hp
  simp only [indexFor, h, htable]
  exact i.graph.redirects_failsOnly.bind fun _ => .ok _

theorem ownEdges_failsOnly (h : i.missingTable? p = none) :
    FailsOnly PolicyError.OfProgram (i.ownEdges p) := by
  cases p with
  | typed =>
    refine (indexFor_failsOnly h (by decide)).bind fun index => ?_
    exact i.findings_failsOnly (i.typeFinding_failsOnly index)
  | argCount =>
    refine (indexFor_failsOnly h (by decide)).bind fun index => .bind ?_ fun _ => .ok _
    exact i.findings_failsOnly (i.arityFinding_failsOnly index)
  | _ => exact .ok _

theorem exists_ownAnswer : (∃ set, i.ownAnswer p = .ok set) ↔ ∃ raw, i.ownEdges p = .ok raw := by
  rw [ownAnswer_eq_map]
  cases i.ownEdges p with
  | error e => simp [Except.map]
  | ok raw => simp [Except.map]

theorem exists_answer_numeric (i : PolicyInputs) (w : Weighting) :
    ∃ set, i.answer (.numeric w) = .ok set := by
  rw [answer_of_independent rfl]
  exact exists_ownAnswer.mpr ⟨_, rfl⟩

/-- Beside its numeric half, which never fails, an intersection is as good as its typed half. -/
theorem exists_answer_numericTyped (i : PolicyInputs) (w : Weighting) :
    ∃ keep : List Edge → List Edge, i.answer (.numericTyped w) = (i.answer .typed).map keep := by
  obtain ⟨numeric, hnumeric⟩ := i.exists_answer_numeric w
  refine ⟨fun typed => numeric.filter fun e => e ∈ typed, ?_⟩
  rw [answer_numericTyped, hnumeric]
  rfl

theorem exists_answer_of_untabled (hp : p.tables = []) : ∃ set, i.answer p = .ok set := by
  cases p with
  | typed | numericTyped | argCount => cases hp
  | _ =>
    rw [answer_of_independent rfl]
    exact exists_ownAnswer.mpr ⟨_, rfl⟩

theorem answer_of_missing {t : TypeTable} (h : i.missingTable? p = some t) :
    ∃ q, i.answer p = .error (.missingTable q t) := by
  have hown {q : Policy} (hq : i.missingTable? q = some t) (hdeps : q.dependencies = []) :
      i.answer q = .error (.missingTable q t) := by
    rw [answer_of_independent hdeps, ownAnswer_eq_map, ownEdges_of_missing hq hdeps]
    rfl
  cases p with
  | numericTyped w =>
    obtain ⟨keep, hkeep⟩ := i.exists_answer_numericTyped w
    -- the failure is that of the typed half, which names itself
    refine ⟨.typed, ?_⟩
    rw [hkeep, hown (q := .typed) h rfl]
    rfl
  | _ => exact ⟨_, hown h rfl⟩

theorem answer_failsOnly (h : i.missingTable? p = none) :
    FailsOnly PolicyError.OfProgram (i.answer p) := by
  have hown {q : Policy} (hq : i.missingTable? q = none) :
      FailsOnly PolicyError.OfProgram (i.ownAnswer q) := by
    rw [ownAnswer_eq_map]
    exact (ownEdges_failsOnly hq).map _
  cases p with
  | numericTyped w =>
    obtain ⟨keep, hkeep⟩ := i.exists_answer_numericTyped w
    rw [hkeep, answer_of_independent rfl]
    exact (hown (q := .typed) h).map keep
  | _ => exact hown h

theorem exists_answer_of_tabled (hp : p.tables ≠ []) (h : i.missingTable? p = none) :
    (∃ set, i.answer p = .ok set) ↔ i.Readable := by
  have htyped (ht : i.missingTable? .typed = none) :
      (∃ set, i.answer .typed = .ok set) ↔ i.Readable := by
    rw [answer_of_independent rfl, exists_ownAnswer, exists_ownEdges_typed ht]
  cases p with
  | typed => exact htyped h
  | argCount => rw [answer_of_independent rfl, exists_ownAnswer, exists_ownEdges_argCount h]
  | numericTyped w =>
    obtain ⟨keep, hkeep⟩ := i.exists_answer_numericTyped w
    rw [hkeep, ← htyped h]
    cases i.answer .typed with
    | error e => simp [Except.map]
    | ok set => simp [Except.map]
  | _ => exact absurd rfl hp

theorem not_readable : ¬ i.Readable ↔ (∃ stub, i.graph.FaultyStub stub) ∨
    ∃ site ∈ i.sites, ∃ c, i.graph.Calls site c ∧ c ∉ i.functions := by
  constructor
  · intro h
    by_contra hneither
    rw [not_or] at hneither
    refine h ⟨hneither.1, fun site hsite c hcalls => ?_⟩
    by_contra hc
    exact hneither.2 ⟨site, hsite, c, hcalls, hc⟩
  · rintro (hfaulty | ⟨site, hsite, c, hcalls, hc⟩) h
    · exact h.redirected hfaulty
    · exact hc (h.entered site hsite c hcalls)

theorem missingTable?_eq_none :
    i.missingTable? p = none ↔ ∀ t ∈ p.tables, i.hasTable t = true := by
  simp [missingTable?]

/-- A failure is blamed on a table just if one is missing, and else on the program. -/
theorem kind_of_answer {e : PolicyError} (h : i.answer p = .error e) :
    e.OfProgram ∧ i.missingTable? p = none ∨
      ∃ q t, e = .missingTable q t ∧ i.missingTable? p ≠ none := by
  cases hmissing : i.missingTable? p with
  | none => exact Or.inl ⟨answer_failsOnly hmissing e h, rfl⟩
  | some t =>
    obtain ⟨q, hq⟩ := answer_of_missing hmissing
    rw [h] at hq
    cases hq
    exact Or.inr ⟨q, t, rfl, nofun⟩

theorem exists_missingTable :
    (∃ q t, i.answer p = .error (.missingTable q t)) ↔ i.missingTable? p ≠ none := by
  constructor
  · rintro ⟨q, t, h⟩
    rcases kind_of_answer h with ⟨hkind, -⟩ | ⟨-, -, -, hmissing⟩
    · cases hkind
    · exact hmissing
  · intro h
    obtain ⟨t, ht⟩ := Option.ne_none_iff_exists'.mp h
    obtain ⟨q, hq⟩ := answer_of_missing ht
    exact ⟨q, t, hq⟩

theorem exists_error (hp : p.tables ≠ []) :
    (∃ e, i.answer p = .error e) ↔ i.missingTable? p ≠ none ∨ ¬ i.Readable := by
  by_cases hmissing : i.missingTable? p = none
  · rw [← exists_answer_of_tabled hp hmissing]
    cases i.answer p with
    | error e => simp
    | ok set => simp [hmissing]
  · obtain ⟨q, t, h⟩ := exists_missingTable.mpr hmissing
    exact ⟨fun _ => Or.inl hmissing, fun _ => ⟨_, h⟩⟩

theorem missingTable?_ne_none (hp : p.tables ≠ []) :
    i.missingTable? p ≠ none ↔ i.signatures = none ∨ i.siteSignatures = none := by
  have htables : p.tables = [.functions, .callSites] := by
    cases p with
    | typed | numericTyped | argCount => rfl
    | _ => exact absurd rfl hp
  rw [Ne, missingTable?_eq_none, htables]
  simp only [List.forall_mem_cons, List.not_mem_nil, hasTable]
  cases i.signatures <;> cases i.siteSignatures <;> simp

end PolicyInputs

namespace Resolver

/-- Whatever was asked before, a request fails for no other reasons than these. Policies that read no
types never fail. Those that do all fail if a table is missing, which is then what they report, and else
if a stub cannot be redirected or a call was seen to enter a block that is no function. -/
theorem failures_exact (i : PolicyInputs) (history : List Request) (taking : Bool) :
    (∀ p e, ((after i history).serve ⟨p, taking⟩).1 = .error e →
      (∀ q edge, e ≠ .sinkEdge q edge) ∧ (∀ q n, e ≠ .unknownNode q n) ∧
        ∀ q, e ≠ .dependencyCycle q) ∧
    (∀ p ∈ [.baseline, .numeric .block, .numeric .instr, .numericHub .block, .numericHub .instr,
        .anyFunction, .unrestricted],
      ∃ edges, ((after i history).serve ⟨p, taking⟩).1 = .ok edges) ∧
    ∀ p ∈ [.typed, .argCount, .numericTyped .block, .numericTyped .instr],
      ((∃ e, ((after i history).serve ⟨p, taking⟩).1 = .error e) ↔
        (i.signatures = none ∨ i.siteSignatures = none) ∨ (∃ stub, i.graph.FaultyStub stub) ∨
          ∃ site ∈ i.sites, ∃ c, i.graph.Calls site c ∧ c ∉ i.functions) ∧
      ((∃ q t, ((after i history).serve ⟨p, taking⟩).1 = .error (.missingTable q t)) ↔
        i.signatures = none ∨ i.siteSignatures = none) := by
  simp only [serve_after]
  refine ⟨?_, ?_, ?_⟩
  · intro p e he
    rcases PolicyInputs.kind_of_answer he with ⟨hkind, -⟩ | ⟨q, t, rfl, -⟩
    · refine ⟨?_, ?_, ?_⟩
      · rintro q edge rfl
        exact hkind
      · rintro q n rfl
        exact hkind
      · rintro q rfl
        exact hkind
    · exact ⟨nofun, nofun, nofun⟩
  · intro p hp
    have hfree : ∀ p ∈ [Policy.baseline, .numeric .block, .numeric .instr, .numericHub .block,
        .numericHub .instr, .anyFunction, .unrestricted], p.tables = [] := by decide
    exact PolicyInputs.exists_answer_of_untabled (hfree p hp)
  · intro p hp
    have hbound : ∀ p ∈ [Policy.typed, .argCount, .numericTyped .block, .numericTyped .instr],
        p.tables ≠ [] := by decide
    have htables := PolicyInputs.missingTable?_ne_none (i := i) (hbound p hp)
    rw [PolicyInputs.exists_error (hbound p hp), PolicyInputs.exists_missingTable, htables,
      PolicyInputs.not_readable]
    exact ⟨Iff.rfl, Iff.rfl⟩

/-- Block 16 calls the function at 256. The run-time tool saw the stub at 1536 jump to two functions. -/
def crossedStub : PolicyInputs where
  graph :=
    { blocks := ⟨[(16, { size := 4, instrs := 1, binary := "main", terminator := some .callIndirect }),
        (256, { size := 4, instrs := 1, terminator := some .jumpDirect }),
        (512, { size := 4, instrs := 1, terminator := some .syscall }),
        (1536, { size := 4, instrs := 1, inPlt := some true, terminator := some .jumpIndirect })],
        by decide⟩
      flows := ⟨[(⟨.block 16, .block 256⟩, { kind := .callIndirect }),
        (⟨.block 1536, .block 256⟩, { kind := .jumpIndirect, seenBy := [Redirects.runtimeTool] }),
        (⟨.block 1536, .block 512⟩, { kind := .jumpIndirect, seenBy := [Redirects.runtimeTool] }),
        (⟨.block 512, .sink⟩, { kind := .syscall })], by decide⟩
      hasSink := true
      source_mem := by simp [Table.keys]
      target_mem := by simp [Table.keys] }
  hasSink := rfl
  functions := [256, 512]
  functions_mem := by simp [Table.keys]
  signatures := some ⟨[(256, ["int"])], by decide⟩
  siteSignatures := some ⟨[(⟨"main", 16⟩, ["long"])], by decide⟩

theorem failures_exact_crossedStub :
    (∃ e, ((after crossedStub [⟨.typed, true⟩, ⟨.numeric .instr, false⟩]).serve
        ⟨.numericTyped .instr, false⟩).1 = .error e) ∧
      (¬ ∃ q t, ((after crossedStub [⟨.typed, true⟩, ⟨.numeric .instr, false⟩]).serve
        ⟨.numericTyped .instr, false⟩).1 = .error (.missingTable q t)) ∧
      ∃ edges, ((after crossedStub [⟨.typed, true⟩, ⟨.numeric .instr, false⟩]).serve
        ⟨.anyFunction, false⟩).1 = .ok edges := by
  obtain ⟨-, hfree, hbound⟩ :=
    failures_exact crossedStub [⟨.typed, true⟩, ⟨.numeric .instr, false⟩] false
  obtain ⟨herror, htable⟩ := hbound (.numericTyped .instr) (by decide)
  have hfaulty : crossedStub.graph.FaultyStub 1536 := by
    refine .ambiguous rfl rfl (by decide) ?_
    rintro ⟨n, -, honly⟩
    have hfirst := honly (.block 256) ⟨_, rfl, rfl⟩
    have hsecond := honly (.block 512) ⟨_, rfl, rfl⟩
    cases hfirst.trans hsecond.symm
  refine ⟨herror.mpr (Or.inr (Or.inl ⟨1536, hfaulty⟩)), ?_, hfree .anyFunction (by decide)⟩
  rw [htable]
  exact nofun

end Resolver
end CfiSlack
