import CfiSlack.Proofs.Widening

/-!
# The two indexes over a table of signatures

The index of signatures and that of argument counts are built apart from each other, from the same
table and the same redirects. They agree on every address: the count is the number of parameters of
the signature, and it is unknown where there is no signature or only a stand-in.
-/
namespace CfiSlack

namespace Table

variable {κ α : Type} [DecidableEq κ]

/-- Rows decide about their own keys and leave the others alone. -/
theorem find?_insertAll_cases (t : Table κ α) (rows : List (κ × α)) (k : κ) :
    (∃ a, (k, a) ∈ rows ∧ (t.insertAll rows).find? k = some a) ∨
      (∀ a, (k, a) ∉ rows) ∧ (t.insertAll rows).find? k = t.find? k := by
  induction rows generalizing t with
  | nil => exact Or.inr ⟨by simp, rfl⟩
  | cons row rows ih =>
    obtain ⟨j, b⟩ := row
    have hstep : t.insertAll ((j, b) :: rows) = (t.insert j b).insertAll rows := rfl
    rw [hstep]
    rcases ih (t.insert j b) with ⟨a, ha, hfind⟩ | ⟨hnone, hfind⟩
    · exact Or.inl ⟨a, List.mem_cons_of_mem _ ha, hfind⟩
    · rw [find?_insert] at hfind
      by_cases hkj : k = j
      · subst hkj
        rw [if_pos rfl] at hfind
        exact Or.inl ⟨b, List.mem_cons_self, hfind⟩
      · rw [if_neg hkj] at hfind
        refine Or.inr ⟨?_, hfind⟩
        intro a ha
        rcases List.mem_cons.mp ha with heq | ha
        · exact hkj (congrArg Prod.fst heq)
        · exact hnone a ha

theorem find?_ofRows_of_lookup {rows : List (κ × α)} {k : κ} (h : rows.lookup k = none) :
    (ofRows rows).find? k = none := by
  rcases find?_insertAll_cases empty rows k with ⟨a, ha, -⟩ | ⟨-, hfind⟩
  · have hother := List.lookup_eq_none_iff.mp h (k, a) ha
    simp at hother
  · exact hfind

theorem isSome_find?_ofRows_of_lookup {rows : List (κ × α)} {k : κ} (h : rows.lookup k ≠ none) :
    ((ofRows rows).find? k).isSome = true := by
  rcases find?_insertAll_cases empty rows k with ⟨a, -, hfind⟩ | ⟨hnone, -⟩
  · rw [ofRows, hfind]
    rfl
  · refine absurd (List.lookup_eq_none_iff.mpr ?_) h
    rintro ⟨j, a⟩ ha
    simp only [bne_iff_ne, ne_eq]
    rintro rfl
    exact hnone a ha

theorem ofRows_append (rows more : List (κ × α)) :
    ofRows (rows ++ more) = (ofRows rows).insertAll more := List.foldl_append

/-- A table of the values that some keys have. -/
theorem find?_ofRows_filterMap (value : κ → Option α) (keys : List κ) (k : κ) :
    (ofRows (keys.filterMap fun j => (value j).map fun a => (j, a))).find? k =
      if k ∈ keys then value k else none := by
  have hrow (a : α) : (k, a) ∈ keys.filterMap (fun j => (value j).map fun a => (j, a)) ↔
      k ∈ keys ∧ value k = some a := by
    simp only [List.mem_filterMap, Option.map_eq_some_iff, Prod.mk.injEq]
    constructor
    · rintro ⟨j, hj, b, hb, rfl, rfl⟩
      exact ⟨hj, hb⟩
    · rintro ⟨hk, ha⟩
      exact ⟨k, hk, a, ha, rfl, rfl⟩
  rcases find?_insertAll_cases empty (keys.filterMap fun j => (value j).map fun a => (j, a)) k with
    ⟨a, ha, hfind⟩ | ⟨hnone, hfind⟩
  · obtain ⟨hk, hvalue⟩ := (hrow a).mp ha
    rw [ofRows, hfind, if_pos hk, hvalue]
  · rw [ofRows, hfind, find?_empty]
    split
    · next hk =>
      cases hvalue : value k with
      | none => rfl
      | some a => exact absurd ((hrow a).mpr ⟨hk, hvalue⟩) (hnone a)
    · rfl

end Table

variable {table : SignatureTable} {functions : List Address} {redirects : Redirects} {f : Address}

namespace TypeIndex

/-- Parameters that the table gives to a function. -/
def declared (table : SignatureTable) (functions : List Address) (f : Address) :
    Option (List String) :=
  if f ∈ functions then table.find? f else none

theorem mem_functions_of_declared {types : List String} (h : declared table functions f = some types) :
    f ∈ functions := by
  unfold declared at h
  split at h
  · next hf => exact hf
  · cases h

theorem find?_typedRows (table : SignatureTable) (functions : List Address) (f : Address) :
    (Table.ofRows (typedRows table functions)).find? f =
      (declared table functions f).map Signature.params := by
  have h := Table.find?_ofRows_filterMap (fun f => (table.find? f).map Signature.params) functions f
  simp only [Option.map_map, Function.comp_def] at h
  refine h.trans ?_
  rw [declared]
  split <;> rfl

theorem mem_untypedRows {typed : List (Address × Signature)} :
    (∃ s, (f, s) ∈ untypedRows typed functions redirects) ↔
      (f ∈ functions ∨ f ∈ redirects.pairs.map Prod.snd) ∧ typed.lookup f = none := by
  have hmissing : f ∈ (Ascending.ofList (functions ++ redirects.pairs.map Prod.snd)).filter
      (fun f => (typed.lookup f).isNone) ↔
      (f ∈ functions ∨ f ∈ redirects.pairs.map Prod.snd) ∧ typed.lookup f = none := by
    rw [List.mem_filter, Ascending.mem_ofList, List.mem_append, Option.isNone_iff_eq_none]
  rw [← hmissing, untypedRows]
  constructor
  · rintro ⟨s, hs⟩
    obtain ⟨⟨g, number⟩, hg, heq⟩ := List.mem_map.mp hs
    cases heq
    exact (List.mem_zipIdx hg).2.2 ▸ List.getElem_mem _
  · intro hf
    obtain ⟨number, hnumber, heq⟩ := List.mem_iff_getElem.mp hf
    refine ⟨.untyped number, List.mem_map.mpr ⟨(f, number), ?_, rfl⟩⟩
    rw [List.mem_zipIdx_iff_getElem?]
    exact List.getElem?_eq_some_iff.mpr ⟨hnumber, heq⟩

theorem arity?_of_mem_untypedRows {typed : List (Address × Signature)} {s : Signature}
    (h : (f, s) ∈ untypedRows typed functions redirects) : s.arity? = none := by
  obtain ⟨⟨g, number⟩, -, heq⟩ := List.mem_map.mp h
  cases heq
  rfl

/-- What functions and targets have before the stubs are gone through. -/
def firstEntries (table : SignatureTable) (functions : List Address) (redirects : Redirects) :
    Table Address Signature :=
  Table.ofRows (typedRows table functions ++
    untypedRows (typedRows table functions) functions redirects)

/-- To begin with, a function has its declared parameters, other functions and targets have stand-ins,
and nothing else has an entry. -/
theorem firstEntries_cases (table : SignatureTable) (functions : List Address)
    (redirects : Redirects) (f : Address) :
    (∃ types, declared table functions f = some types ∧
      (firstEntries table functions redirects).find? f = some (.params types)) ∨
    declared table functions f = none ∧
      ((∃ s, (f, s) ∈ untypedRows (typedRows table functions) functions redirects ∧
        (firstEntries table functions redirects).find? f = some s) ∨
      ¬(f ∈ functions ∨ f ∈ redirects.pairs.map Prod.snd) ∧
        (firstEntries table functions redirects).find? f = none) := by
  have htyped := find?_typedRows table functions f
  rw [firstEntries, Table.ofRows_append]
  rcases Table.find?_insertAll_cases (Table.ofRows (typedRows table functions))
      (untypedRows (typedRows table functions) functions redirects) f with
    ⟨s, hs, hfind⟩ | ⟨hnone, hfind⟩
  · have hlookup := (mem_untypedRows.mp ⟨s, hs⟩).2
    rw [Table.find?_ofRows_of_lookup hlookup] at htyped
    exact Or.inr ⟨Option.map_eq_none_iff.mp htyped.symm, Or.inl ⟨s, hs, hfind⟩⟩
  · rw [htyped] at hfind
    cases hdecl : declared table functions f with
    | some types => exact Or.inl ⟨types, rfl, by rw [hfind, hdecl, Option.map_some]⟩
    | none =>
      rw [hdecl, Option.map_none] at hfind htyped
      have hlookup : (typedRows table functions).lookup f = none := by
        by_contra hsome
        have hentry := Table.isSome_find?_ofRows_of_lookup hsome
        rw [htyped] at hentry
        cases hentry
      refine Or.inr ⟨rfl, Or.inr ⟨?_, hfind⟩⟩
      intro hf
      obtain ⟨s, hs⟩ := mem_untypedRows.mpr ⟨hf, hlookup⟩
      exact hnone s hs

/-- Every function and every target of a redirect has a signature, if only a stand-in, and no other
address has one before the stubs are gone through. -/
theorem isSome_find?_firstEntries :
    ((firstEntries table functions redirects).find? f).isSome = true ↔
      f ∈ functions ∨ f ∈ redirects.pairs.map Prod.snd := by
  rcases firstEntries_cases table functions redirects f with
    ⟨types, hdecl, hfind⟩ | ⟨-, ⟨s, hs, hfind⟩ | ⟨hother, hfind⟩⟩
  · simp [hfind, mem_functions_of_declared hdecl]
  · simp only [hfind, Option.isSome_some, (mem_untypedRows.mp ⟨s, hs⟩).1]
  · simp only [hfind, hother, Option.isSome_none, Bool.false_eq_true]

theorem bind_arity?_firstEntries (f : Address) :
    ((firstEntries table functions redirects).find? f).bind Signature.arity? =
      (declared table functions f).map List.length := by
  rcases firstEntries_cases table functions redirects f with
    ⟨types, hdecl, hfind⟩ | ⟨hdecl, ⟨s, hs, hfind⟩ | ⟨-, hfind⟩⟩
  · rw [hfind, hdecl]
    rfl
  · rw [hfind, hdecl, Option.bind_some, arity?_of_mem_untypedRows hs]
    rfl
  · rw [hfind, hdecl]
    rfl

end TypeIndex

/-- Each count is the number of parameters of the signature. -/
def CountsFit (signatures : Table Address Signature) (counts : Table Address (Option ℕ)) : Prop :=
  ∀ f, (counts.find? f).join = (signatures.find? f).bind Signature.arity?

/-- The rows fit that the indexes start with: stand-ins only stand where no count is known. -/
theorem countsFit_firstEntries (table : SignatureTable) (functions : List Address)
    (redirects : Redirects) :
    CountsFit (TypeIndex.firstEntries table functions redirects)
      (Table.ofRows (functions.filterMap fun f =>
        (table.find? f).map fun types => (f, some types.length))) := by
  intro f
  have hrows := Table.find?_ofRows_filterMap
    (fun f => (table.find? f).map fun types => some types.length) functions f
  simp only [Option.map_map, Function.comp_def] at hrows
  rw [hrows, TypeIndex.bind_arity?_firstEntries, TypeIndex.declared]
  split
  · cases table.find? f <;> rfl
  · rfl

/-- A stub takes signature and count of its target, so what fits stays fitting stub after stub. -/
theorem CountsFit.propagate {signatures : Table Address Signature}
    {counts : Table Address (Option ℕ)} (h : CountsFit signatures counts)
    (htargets : ∀ pair ∈ redirects.pairs, (signatures.find? pair.2).isSome = true) :
    CountsFit (redirects.propagate Table.find? signatures)
      (redirects.propagate (fun t target => some (t.find? target).join) counts) := by
  unfold Redirects.propagate
  generalize redirects.pairs = pairs at htargets ⊢
  induction pairs generalizing signatures counts with
  | nil => exact h
  | cons pair pairs ih =>
    obtain ⟨stub, target⟩ := pair
    obtain ⟨s, hs⟩ := Option.isSome_iff_exists.mp (htargets (stub, target) List.mem_cons_self)
    have hcount : (counts.find? target).join = s.arity? := by rw [h target, hs, Option.bind_some]
    have hfit : CountsFit (signatures.insert stub s) (counts.insert stub s.arity?) := by
      intro f
      rw [Table.find?_insert, Table.find?_insert]
      by_cases hf : f = stub
      · rw [if_pos hf, if_pos hf]
        rfl
      · rw [if_neg hf, if_neg hf]
        exact h f
    have hkept : ∀ pair ∈ pairs, ((signatures.insert stub s).find? pair.2).isSome = true := by
      intro pair hpair
      rw [Table.find?_insert]
      split
      · rfl
      · exact htargets pair (List.mem_cons_of_mem _ hpair)
    simp only [List.foldl_cons, hs, hcount]
    exact ih hfit hkept

namespace Redirects

variable {α : Type} {entry : Table Address α → Address → Option α} {t : Table Address α}

/-- What has an entry keeps one while the stubs are gone through. -/
theorem isSome_find?_propagate (h : (t.find? f).isSome = true) :
    ((redirects.propagate entry t).find? f).isSome = true := by
  unfold propagate
  generalize redirects.pairs = pairs
  induction pairs generalizing t with
  | nil => exact h
  | cons pair pairs ih =>
    obtain ⟨stub, target⟩ := pair
    refine ih ?_
    dsimp only
    split
    · rw [Table.find?_insert]
      split
      · rfl
      · exact h
    · exact h

/-- Going through the stubs, only stubs get new entries. -/
theorem isSome_of_find?_propagate (h : ((redirects.propagate entry t).find? f).isSome = true) :
    (t.find? f).isSome = true ∨ f ∈ redirects.pairs.map Prod.fst := by
  unfold propagate at h
  generalize redirects.pairs = pairs at h ⊢
  induction pairs generalizing t with
  | nil => exact Or.inl h
  | cons pair pairs ih =>
    obtain ⟨stub, target⟩ := pair
    rw [List.map_cons, List.mem_cons]
    rcases ih h with hentry | hstub
    · dsimp only at hentry
      split at hentry
      · rw [Table.find?_insert] at hentry
        split at hentry
        · next hf => exact Or.inr (Or.inl hf)
        · exact Or.inl hentry
      · exact Or.inl hentry
    · exact Or.inr (Or.inr hstub)

end Redirects

theorem TypeIndex.exists_signatureOf_build (h : f ∈ functions) :
    ∃ s, (TypeIndex.build table functions redirects).signatureOf f = some s :=
  Option.isSome_iff_exists.mp
    (Redirects.isSome_find?_propagate (TypeIndex.isSome_find?_firstEntries.mpr (Or.inl h)))

/-- Only functions, stubs and what stubs stand for have a signature. -/
theorem TypeIndex.mem_of_signatureOf_build {s : Signature}
    (h : (TypeIndex.build table functions redirects).signatureOf f = some s) :
    f ∈ functions ∨ ∃ pair ∈ redirects.pairs, f = pair.1 ∨ f = pair.2 := by
  have hsome : ((TypeIndex.build table functions redirects).signatureOf f).isSome = true := by
    rw [h]
    rfl
  rcases Redirects.isSome_of_find?_propagate hsome with hentry | hstub
  · rcases TypeIndex.isSome_find?_firstEntries.mp hentry with hf | htarget
    · exact Or.inl hf
    · obtain ⟨pair, hpair, rfl⟩ := List.mem_map.mp htarget
      exact Or.inr ⟨pair, hpair, Or.inr rfl⟩
  · obtain ⟨pair, hpair, rfl⟩ := List.mem_map.mp hstub
    exact Or.inr ⟨pair, hpair, Or.inl rfl⟩

theorem ArityIndex.arityOf_build (table : SignatureTable) (functions : List Address)
    (redirects : Redirects) (f : Address) :
    (ArityIndex.build table functions redirects).arityOf f =
      ((TypeIndex.build table functions redirects).signatureOf f).bind Signature.arity? := by
  have hfirst := countsFit_firstEntries table functions redirects
  refine hfirst.propagate ?_ f
  intro pair hpair
  exact TypeIndex.isSome_find?_firstEntries.mpr (Or.inr (List.mem_map_of_mem hpair))

theorem ArityIndex.mem_functionsWith {index : ArityIndex} {n : ℕ} :
    f ∈ index.functionsWith (some n) ↔ index.arityOf f = some n := by
  rw [ArityIndex.arityOf, Option.join_eq_some_iff]
  exact (index.mem_group (some n) f).trans (and_iff_right (Option.some_ne_none n))

theorem ArityIndex.functionsWith_none (index : ArityIndex) : index.functionsWith none = [] := by
  refine List.eq_nil_iff_forall_not_mem.mpr ?_
  intro f hf
  exact ((index.mem_group none f).mp hf).1 rfl

/-- Whatever the redirects, a function has a count of parameters just if it has a parameter list of that
length, and an unknown count just if it has a stand-in or nothing. The functions of a count are listed in
strictly ascending order, and none is listed for the unknown count. -/
theorem indexes_agree (table : SignatureTable) (functions : List Address) (redirects : Redirects) :
    (∀ f, (∀ n, (ArityIndex.build table functions redirects).arityOf f = some n ↔
        ∃ types, (TypeIndex.build table functions redirects).signatureOf f = some (.params types) ∧
          types.length = n) ∧
      ((ArityIndex.build table functions redirects).arityOf f = none ↔
        (TypeIndex.build table functions redirects).signatureOf f = none ∨
        ∃ number,
          (TypeIndex.build table functions redirects).signatureOf f = some (.untyped number))) ∧
    (∀ n, ((ArityIndex.build table functions redirects).functionsWith (some n)).Pairwise (· < ·) ∧
      ∀ f, f ∈ (ArityIndex.build table functions redirects).functionsWith (some n) ↔
        (ArityIndex.build table functions redirects).arityOf f = some n) ∧
    (ArityIndex.build table functions redirects).functionsWith none = [] := by
  refine ⟨?_, ?_, ?_⟩
  · intro f
    have hcount := ArityIndex.arityOf_build table functions redirects f
    cases hs : (TypeIndex.build table functions redirects).signatureOf f with
    | none => simp [hcount, hs]
    | some s => cases s <;> simp [hcount, hs, Signature.arity?]
  · intro n
    exact ⟨Table.pairwise_group_groupRows _ _ _, fun f => ArityIndex.mem_functionsWith⟩
  · exact ArityIndex.functionsWith_none _

end CfiSlack
