import CfiSlack.Proofs.CountedTargets
import CfiSlack.Proofs.StubSignatures

/-!
# Hubs of argument counts

A hub of the argument-count policy stands for one count, as long as counts fit into its label. Then a
site leads through the hubs to the addresses whose count was seen at the site and to no others, no hub
lacks callers or members, and none stands for the unknown count.
-/
namespace CfiSlack

/-- An edge of the set leads from the site to a hub and one from the hub to the target. -/
def LeadsThrough (set : List Edge) (site target : Address) : Prop :=
  ∃ label, (⟨.block site, .hub label⟩ : Edge) ∈ set ∧ (⟨.hub label, .block target⟩ : Edge) ∈ set

def UsesHub (set : List Edge) (label : HubLabel) : Prop :=
  ∃ e ∈ set, e.source = .hub label ∨ e.target = .hub label

/-- Every parameter list is short enough for its length to be a label, as every list that fits into memory
is. -/
def SignatureTable.Countable (table : SignatureTable) : Prop :=
  ∀ row ∈ table.rows, row.2.length < HubLabel.argCountLimit

/-- A stub has the count of a function of the table, so no count is longer than a parameter list. -/
theorem SignatureTable.Countable.arityOf_lt {table : SignatureTable} (h : table.Countable)
    {functions : List Address} {redirects : Redirects} {f : Address} {n : ℕ}
    (hn : (ArityIndex.build table functions redirects).arityOf f = some n) :
    n < HubLabel.argCountLimit := by
  rw [TypeIndex.arityOf_build_origin] at hn
  obtain ⟨types, hdeclared, rfl⟩ := Option.map_eq_some_iff.mp hn
  unfold TypeIndex.declared at hdeclared
  split at hdeclared
  · exact h _ (Table.find?_eq_some.mp hdeclared)
  · cases hdeclared

namespace PolicyInputs

variable {i : PolicyInputs} {set : List Edge} {sites : SiteSignatures} {index : ArityIndex}

theorem toInt_of_arityHub {n : ℕ} (hn : n < HubLabel.argCountLimit) {word : Int64}
    (h : arityHub (some n) = .hub (.argCount word)) : word.toInt = n := by
  injection h with hlabel
  injection hlabel with hword
  rw [← hword]
  exact Int64.toInt_ofNat_of_lt hn

theorem arityHub_inj {m n : ℕ} (hm : m < HubLabel.argCountLimit) (hn : n < HubLabel.argCountLimit)
    (h : arityHub (some m) = arityHub (some n)) : m = n :=
  Int.ofNat_inj.mp ((toInt_of_arityHub hm h).symm.trans (toInt_of_arityHub hn rfl))

namespace LaysCounts

theorem enter (h : i.LaysCounts sites index set) {site : Address} {n : ℕ}
    (hn : i.CountOffered sites index site n) : (⟨.block site, arityHub (some n)⟩ : Edge) ∈ set :=
  (h _ _).mpr (Or.inl ⟨site, n, hn, rfl, rfl⟩)

theorem leave (h : i.LaysCounts sites index set) {site f : Address} {n : ℕ}
    (hn : i.CountOffered sites index site n) (hf : index.arityOf f = some n) :
    (⟨arityHub (some n), .block f⟩ : Edge) ∈ set :=
  (h _ _).mpr (Or.inr ⟨site, n, f, hn, hf, rfl, rfl⟩)

theorem offered_of_enter (h : i.LaysCounts sites index set) {site : Address} {label : HubLabel}
    (hmem : (⟨.block site, .hub label⟩ : Edge) ∈ set) :
    ∃ n, i.CountOffered sites index site n ∧ .hub label = arityHub (some n) := by
  rcases (h _ _).mp hmem with ⟨_, n, hn, hsite, hhub⟩ | ⟨_, _, _, _, _, hsite, _⟩
  · cases hsite
    exact ⟨n, hn, hhub⟩
  · cases hsite

theorem arityOf_of_leave (h : i.LaysCounts sites index set) {target : Address} {label : HubLabel}
    (hmem : (⟨.hub label, .block target⟩ : Edge) ∈ set) :
    ∃ n, index.arityOf target = some n ∧ .hub label = arityHub (some n) := by
  rcases (h _ _).mp hmem with ⟨_, _, _, hhub, _⟩ | ⟨_, n, f, _, hf, hhub, htarget⟩
  · cases hhub
  · cases htarget
    exact ⟨n, hf, hhub⟩

theorem offered_of_usesHub (h : i.LaysCounts sites index set) {label : HubLabel}
    (huses : UsesHub set label) : ∃ site n, i.CountOffered sites index site n ∧ .hub label = arityHub (some n) := by
  obtain ⟨⟨u, v⟩, hmem, hend⟩ := huses
  rcases (h u v).mp hmem with ⟨site, n, hn, rfl, rfl⟩ | ⟨site, n, f, hn, -, rfl, rfl⟩
  · rcases hend with hsource | htarget
    · cases hsource
    · exact ⟨site, n, hn, htarget.symm⟩
  · rcases hend with hsource | htarget
    · exact ⟨site, n, hn, hsource.symm⟩
    · cases htarget

/-- Labels tell counts apart, so a way through a hub keeps the count. -/
theorem leadsThrough_iff (h : i.LaysCounts sites index set)
    (hfits : ∀ f n, index.arityOf f = some n → n < HubLabel.argCountLimit) {site target : Address} :
    LeadsThrough set site target ↔
      site ∈ i.graph.callSites ∧ ∃ n, index.arityOf target = some n ∧ i.CountSeenAt sites index site n := by
  constructor
  · rintro ⟨label, henter, hleave⟩
    obtain ⟨m, hm, hlabel⟩ := h.offered_of_enter henter
    obtain ⟨n, hn, hsame⟩ := h.arityOf_of_leave hleave
    obtain ⟨f, hf⟩ := hm.taken
    obtain rfl : m = n := arityHub_inj (hfits f m hf) (hfits target n hn) (hlabel.symm.trans hsame)
    exact ⟨hm.site_mem, m, hn, hm.seen⟩
  · rintro ⟨hsite, n, hn, hseen⟩
    have hoffered : i.CountOffered sites index site n := ⟨hsite, hseen, target, hn⟩
    exact ⟨_, h.enter hoffered, h.leave hoffered hn⟩

end LaysCounts

/-- Through its hubs the argument-count policy leads from a site to the addresses with a count that was
seen there, and to no others. Each edge has a hub at one end, each hub has callers and members, and no
hub stands for the unknown count. -/
theorem count_hubs_exact (i : PolicyInputs) (history : List Resolver.Request) (taking : Bool)
    (set : List Edge) (h : ((Resolver.after i history).serve ⟨.argCount, taking⟩).1 = .ok set)
    (hfits : ∀ table, i.signatures = some table → table.Countable) :
    ∃ table sites redirects, i.signatures = some table ∧ i.siteSignatures = some sites ∧
      i.graph.redirects = .ok redirects ∧
      (∀ site target, LeadsThrough set site target ↔ site ∈ i.graph.callSites ∧
        ∃ n, (ArityIndex.build table i.functions redirects).arityOf target = some n ∧
          i.CountSeenAt sites (ArityIndex.build table i.functions redirects) site n) ∧
      (∀ e ∈ set, (∃ site label, e = ⟨.block site, .hub label⟩) ∨
        ∃ label target, e = ⟨.hub label, .block target⟩) ∧
      ∀ label, UsesHub set label → label ≠ .argCount (-1) ∧
        (∃ site ∈ i.graph.callSites, (⟨.block site, .hub label⟩ : Edge) ∈ set) ∧
        ∃ target, (⟨.hub label, .block target⟩ : Edge) ∈ set := by
  rw [Resolver.serve_after] at h
  obtain ⟨sites, _, hsites, ⟨table, redirects, htable, hredirects, rfl⟩, hlays⟩ :=
    mem_answer_argCount h
  refine ⟨table, sites, redirects, htable, hsites, hredirects, ?_, ?_, ?_⟩
  · intro site target
    exact hlays.leadsThrough_iff fun f n => (hfits table htable).arityOf_lt
  · rintro ⟨u, v⟩ hmem
    rcases (hlays u v).mp hmem with ⟨site, n, -, rfl, rfl⟩ | ⟨-, n, f, -, -, rfl, rfl⟩
    · exact Or.inl ⟨site, _, rfl⟩
    · exact Or.inr ⟨_, f, rfl⟩
  · intro label huses
    obtain ⟨site, n, hoffered, hlabel⟩ := hlays.offered_of_usesHub huses
    obtain ⟨f, hf⟩ := hoffered.taken
    rw [hlabel]
    refine ⟨?_, ⟨site, hoffered.site_mem, hlays.enter hoffered⟩, f, hlays.leave hoffered hf⟩
    rintro rfl
    -- the unknown count has a negative label
    have hvalue := toInt_of_arityHub ((hfits table htable).arityOf_lt hf) hlabel.symm
    have hnegative : (-1 : Int64).toInt = -1 := by decide
    omega

/-- Block 16 calls the function at 256, which takes two parameters, where the compiler expected one.
Block 32 has no observed callee, and no function takes the three parameters that the compiler saw. The
stub at 1536 stands for the function at 512, and nothing is known of the function at 768. -/
def countedCalls : PolicyInputs where
  graph :=
    { blocks := ⟨[(16, { size := 8, instrs := 2, binary := "app", terminator := some .callIndirect }),
        (32, { size := 8, instrs := 2, binary := "app", terminator := some .callIndirect }),
        (256, { size := 8, instrs := 2, terminator := some .syscall }),
        (512, { size := 8, instrs := 2, terminator := some .syscall }),
        (768, { size := 8, instrs := 2, terminator := some .syscall }),
        (1536, { size := 8, instrs := 1, inPlt := some true, terminator := some .jumpIndirect })],
        by decide⟩
      flows := ⟨[(⟨.block 16, .block 256⟩, { kind := .callIndirect }),
        (⟨.block 1536, .block 512⟩, { kind := .jumpIndirect }),
        (⟨.block 256, .sink⟩, { kind := .syscall })], by decide⟩
      hasSink := true
      source_mem := by simp [Table.keys]
      target_mem := by simp [Table.keys] }
  hasSink := rfl
  functions := [256, 512, 768]
  functions_mem := by simp [Table.keys]
  signatures := some ⟨[(256, ["int", "int"]), (512, ["long"])], by decide⟩
  siteSignatures := some ⟨[(⟨"app", 16⟩, ["char"]), (⟨"app", 32⟩, ["char", "int", "long"])], by decide⟩

theorem count_hubs_exact_countedCalls :
    ∃ set, ((Resolver.after countedCalls [⟨.typed, true⟩]).serve ⟨.argCount, false⟩).1 = .ok set ∧
      (∀ table, countedCalls.signatures = some table → table.Countable) ∧
      LeadsThrough set 16 256 ∧ LeadsThrough set 16 1536 ∧ ¬ LeadsThrough set 16 768 ∧
      ¬ LeadsThrough set 32 512 := by
  obtain ⟨set, hset⟩ : ∃ set,
      ((Resolver.after countedCalls [⟨.typed, true⟩]).serve ⟨.argCount, false⟩).1 = .ok set := by
    rw [Resolver.serve_after]
    exact ⟨_, rfl⟩
  have hfits : ∀ table, countedCalls.signatures = some table → table.Countable := by
    intro table htable
    cases htable
    simp [SignatureTable.Countable, HubLabel.argCountLimit]
  obtain ⟨table, sites, redirects, htable, hsites, hredirects, hleads, -⟩ :=
    count_hubs_exact countedCalls _ _ set hset hfits
  have hexpects : sites.Expects countedCalls.graph 16 ["char"] := by
    cases hsites
    exact ⟨_, rfl, rfl⟩
  cases htable
  cases hsites
  cases hredirects
  refine ⟨set, hset, hfits, ?_, ?_, ?_, ?_⟩
  · exact (hleads 16 256).mpr ⟨by decide, 2, by decide, .callee (c := 256) rfl (by decide)⟩
  · exact (hleads 16 1536).mpr ⟨by decide, 1, by decide, .compiler hexpects⟩
  · intro h
    obtain ⟨-, n, hn, -⟩ := (hleads 16 768).mp h
    cases hn
  · intro h
    obtain ⟨-, n, hn, hseen⟩ := (hleads 32 512).mp h
    cases hseen with
    | compiler hexpects =>
      obtain ⟨_, hblock, hfind⟩ := hexpects
      cases hblock
      cases hfind
      revert hn
      decide
    | callee hcalls hindexed =>
      have hcallees : countedCalls.callees 32 = .ok [] := rfl
      cases (mem_callees hcallees).mpr hcalls

end PolicyInputs
end CfiSlack
