import CfiSlack.Proofs.StubRedirects

/-!
# Signatures of stubs

The stubs are gone through in ascending order, and each takes what its target has at that moment. A
target below the stub has been dealt with by then. A target above it still has what it started with, even
if it is a stub and takes something else later. So chains of stubs are followed as long as they fall, and
a rising step ends them: `Redirects.origin` is where they end.
-/
namespace CfiSlack

namespace Redirects

variable {r : Redirects} {stub target f : Address}

/-- The address that an address gets its entry from. -/
def origin (r : Redirects) (f : Address) : Address :=
  match r.find? f with
  | none => f
  | some target => if target < f then r.origin target else target
termination_by f.toNat
decreasing_by exact UInt64.lt_iff_toNat_lt.mp ‹target < f›

theorem origin_of_falls (hpair : (stub, target) ∈ r.pairs) (h : target < stub) :
    r.origin stub = r.origin target := by
  rw [origin, mem_pairs.mp hpair]
  exact if_pos h

theorem origin_of_rises (hpair : (stub, target) ∈ r.pairs) (h : ¬ target < stub) :
    r.origin stub = target := by
  rw [origin, mem_pairs.mp hpair]
  exact if_neg h

theorem origin_of_notMem (h : f ∉ r.pairs.map Prod.fst) : r.origin f = f := by
  have hnone : r.find? f = none := by
    cases hfind : r.find? f with
    | none => rfl
    | some target => exact absurd (List.mem_map_of_mem (mem_pairs.mpr hfind)) h
  rw [origin, hnone]

/-- A stub or target gets its entry from a target. -/
theorem origin_mem_targets (h : f ∈ r.pairs.map Prod.fst ∨ f ∈ r.pairs.map Prod.snd) :
    r.origin f ∈ r.pairs.map Prod.snd := by
  fun_induction origin r f with
  | case1 f hnone =>
    rcases h with hstub | htarget
    · obtain ⟨pair, hpair, rfl⟩ := List.mem_map.mp hstub
      rw [mem_pairs.mp hpair] at hnone
      cases hnone
    · exact htarget
  | case2 f target hfind hfalls ih => exact ih (Or.inr (List.mem_map_of_mem (mem_pairs.mpr hfind)))
  | case3 f target hfind hrises => exact List.mem_map_of_mem (mem_pairs.mpr hfind)

section Propagate

variable {α : Type} {t u : Table Address α} {passed rest : List (Address × Address)}

/-- The stubs gone through so far have what their origins had, and all others have what they had. -/
def Settled (r : Redirects) (t : Table Address α) (passed : List (Address × Address))
    (u : Table Address α) : Prop :=
  ∀ f, u.find? f = if f ∈ passed.map Prod.fst then t.find? (r.origin f) else t.find? f

/-- When a stub has its turn, the stubs below it have had theirs. -/
theorem mem_passed_iff (hsplit : r.pairs = passed ++ (stub, target) :: rest) :
    f ∈ passed.map Prod.fst ↔ f ∈ r.pairs.map Prod.fst ∧ f < stub := by
  have hsorted := r.pairwise_pairs
  rw [hsplit, List.pairwise_append, List.pairwise_cons] at hsorted
  obtain ⟨-, ⟨hrest, -⟩, hpassed⟩ := hsorted
  rw [hsplit, List.map_append, List.mem_append, List.map_cons, List.mem_cons]
  constructor
  · intro hf
    obtain ⟨p, hp, rfl⟩ := List.mem_map.mp hf
    exact ⟨Or.inl hf, hpassed p hp _ List.mem_cons_self⟩
  · rintro ⟨hf | rfl | hf, hlt⟩
    · exact hf
    · exact absurd hlt (UInt64.lt_irrefl f)
    · obtain ⟨p, hp, rfl⟩ := List.mem_map.mp hf
      exact absurd (UInt64.lt_trans hlt (hrest p hp)) (UInt64.lt_irrefl _)

theorem Settled.find?_target (h : Settled r t passed u)
    (hsplit : r.pairs = passed ++ (stub, target) :: rest) :
    u.find? target = t.find? (r.origin stub) := by
  have hpair : (stub, target) ∈ r.pairs := by simp [hsplit]
  rw [h target]
  by_cases hlt : target < stub
  · rw [origin_of_falls hpair hlt]
    by_cases hstub : target ∈ r.pairs.map Prod.fst
    · rw [if_pos ((mem_passed_iff hsplit).mpr ⟨hstub, hlt⟩)]
    · rw [origin_of_notMem hstub, ite_self]
  · rw [origin_of_rises hpair hlt, if_neg fun hmem => hlt ((mem_passed_iff hsplit).mp hmem).2]

theorem Settled.insert {a : α} (h : Settled r t passed u) (ha : t.find? (r.origin stub) = some a) :
    Settled r t (passed ++ [(stub, target)]) (u.insert stub a) := by
  intro f
  rw [Table.find?_insert, List.map_append, List.map_singleton]
  by_cases hf : f = stub
  · subst hf
    rw [if_pos rfl, if_pos (by simp), ha]
  · rw [if_neg hf, h f]
    simp only [List.mem_append, List.mem_singleton, hf, or_false]

theorem Settled.foldl (h : Settled r t passed u) (hsplit : r.pairs = passed ++ rest)
    (htargets : ∀ a ∈ r.pairs.map Prod.snd, (t.find? a).isSome = true) :
    Settled r t r.pairs (rest.foldl
      (fun u (stub, target) =>
        match u.find? target with
        | some a => u.insert stub a
        | none => u) u) := by
  induction rest generalizing passed u with
  | nil => simpa [hsplit] using h
  | cons pair rest ih =>
    obtain ⟨stub, target⟩ := pair
    have hpair : (stub, target) ∈ r.pairs := by simp [hsplit]
    have horigin := origin_mem_targets (Or.inl (List.mem_map_of_mem hpair))
    obtain ⟨a, ha⟩ := Option.isSome_iff_exists.mp (htargets _ horigin)
    have hnext : Settled r t (passed ++ [(stub, target)]) (u.insert stub a) := h.insert ha
    rw [List.foldl_cons]
    simp only [h.find?_target hsplit, ha]
    exact ih hnext (by simp [hsplit])

theorem find?_propagate (htargets : ∀ a ∈ r.pairs.map Prod.snd, (t.find? a).isSome = true)
    (f : Address) : (r.propagate Table.find? t).find? f = t.find? (r.origin f) := by
  have hstart : Settled r t [] t := fun f => rfl
  have hend := hstart.foldl rfl htargets f
  by_cases hf : f ∈ r.pairs.map Prod.fst
  · rw [if_pos hf] at hend
    exact hend
  · rw [if_neg hf] at hend
    rw [origin_of_notMem hf]
    exact hend

end Propagate
end Redirects

namespace TypeIndex

variable {table : SignatureTable} {functions : List Address} {redirects : Redirects} {f g : Address}

/-- A stand-in has a number of its own. -/
theorem eq_of_mem_untypedRows {typed : List (Address × Signature)} {s : Signature}
    (hf : (f, s) ∈ untypedRows typed functions redirects)
    (hg : (g, s) ∈ untypedRows typed functions redirects) : f = g := by
  obtain ⟨⟨a, i⟩, ha, heq⟩ := List.mem_map.mp hf
  cases heq
  obtain ⟨⟨b, j⟩, hb, heq⟩ := List.mem_map.mp hg
  cases heq
  rw [List.mem_zipIdx_iff_getElem?] at ha hb
  exact Option.some.inj (ha.symm.trans hb)

theorem firstEntries_eq_params {types : List String} :
    (firstEntries table functions redirects).find? f = some (.params types) ↔
      declared table functions f = some types := by
  rcases firstEntries_cases table functions redirects f with
    ⟨types', hdecl, hfirst⟩ | ⟨hdecl, ⟨s, hs, hfirst⟩ | ⟨-, hfirst⟩⟩
  · rw [hfirst, hdecl, Option.some_inj, Option.some_inj, Signature.params.injEq]
  · have hunknown := arity?_of_mem_untypedRows hs
    rw [hfirst, hdecl, Option.some_inj]
    constructor
    · rintro rfl
      cases hunknown
    · intro hnone
      cases hnone
  · simp [hfirst, hdecl]

/-- A target starts with the entry of another address just if the two are declared with the same
parameters. -/
theorem firstEntries_eq_iff (table : SignatureTable) (functions : List Address)
    (hf : f ∈ redirects.pairs.map Prod.snd) (g : Address) :
    (firstEntries table functions redirects).find? f =
        (firstEntries table functions redirects).find? g ↔
      f = g ∨ ∃ types, declared table functions f = some types ∧
        declared table functions g = some types := by
  constructor
  · intro heq
    rcases firstEntries_cases table functions redirects f with
      ⟨types, hdecl, hfirst⟩ | ⟨hdecl, ⟨s, hs, hfirst⟩ | ⟨hother, -⟩⟩
    · rw [hfirst] at heq
      exact Or.inr ⟨types, hdecl, firstEntries_eq_params.mp heq.symm⟩
    · rw [hfirst] at heq
      rcases firstEntries_cases table functions redirects g with
        ⟨types, -, hg⟩ | ⟨-, ⟨s', hs', hg⟩ | ⟨-, hg⟩⟩
      · have hparams := firstEntries_eq_params.mp (hfirst.trans (heq.trans hg))
        rw [hdecl] at hparams
        cases hparams
      · cases heq.trans hg
        exact Or.inl (eq_of_mem_untypedRows hs hs')
      · cases heq.trans hg
    · exact absurd (Or.inr hf) hother
  · rintro (rfl | ⟨types, hdecl, hother⟩)
    · rfl
    · rw [firstEntries_eq_params.mpr hdecl, firstEntries_eq_params.mpr hother]

theorem signatureOf_build (table : SignatureTable) (functions : List Address)
    (redirects : Redirects) (f : Address) :
    (build table functions redirects).signatureOf f =
      (firstEntries table functions redirects).find? (redirects.origin f) := by
  refine Redirects.find?_propagate ?_ f
  intro a ha
  exact isSome_find?_firstEntries.mpr (Or.inr ha)

theorem arityOf_build_origin (table : SignatureTable) (functions : List Address)
    (redirects : Redirects) (f : Address) :
    (ArityIndex.build table functions redirects).arityOf f =
      (declared table functions (redirects.origin f)).map List.length := by
  rw [ArityIndex.arityOf_build, signatureOf_build, bind_arity?_firstEntries]

end TypeIndex

namespace Redirects

open TypeIndex

/-- A stub below its target has what the target started with, so the two agree just if the target ends
with the like of it. A stub above its target always agrees with it. -/
theorem stub_agrees_with_target_iff (table : SignatureTable) (functions : List Address)
    (r : Redirects) (stub target : Address) (hpair : (stub, target) ∈ r.pairs) :
    ((TypeIndex.build table functions r).signatureOf stub =
        (TypeIndex.build table functions r).signatureOf target ↔
      (stub < target → r.origin target = target ∨
        ∃ types, declared table functions target = some types ∧
          declared table functions (r.origin target) = some types)) ∧
    ((ArityIndex.build table functions r).arityOf stub =
        (ArityIndex.build table functions r).arityOf target ↔
      (stub < target → (declared table functions target).map List.length =
        (declared table functions (r.origin target)).map List.length)) := by
  rw [signatureOf_build, signatureOf_build, arityOf_build_origin, arityOf_build_origin]
  by_cases hrises : stub < target
  · have horigin := origin_of_rises hpair (UInt64.lt_asymm hrises)
    have htarget : target ∈ r.pairs.map Prod.snd := List.mem_map_of_mem hpair
    have hsame := firstEntries_eq_iff table functions htarget (r.origin target)
    rw [horigin, hsame, eq_comm]
    simp only [hrises, true_imp_iff, and_self]
  · have hsame : r.origin stub = r.origin target := by
      by_cases hfalls : target < stub
      · exact origin_of_falls hpair hfalls
      · have hle := UInt64.not_lt.mp hrises
        have hge := UInt64.not_lt.mp hfalls
        rw [UInt64.le_antisymm hge hle]
    rw [hsame]
    exact ⟨iff_of_true rfl fun h => absurd h hrises, iff_of_true rfl fun h => absurd h hrises⟩

/-- Stub 32 leads to stub 48, and that one to function 256. -/
def risingStubs : Graph where
  blocks := ⟨[(32, { size := 16, instrs := 3, inPlt := some true, terminator := some .jumpIndirect }),
    (48, { size := 16, instrs := 3, inPlt := some true, terminator := some .jumpIndirect }),
    (256, { size := 9, instrs := 3, terminator := some .ret })], by decide⟩
  flows := ⟨[(⟨.block 32, .block 48⟩, { kind := .jumpIndirect }),
    (⟨.block 48, .block 256⟩, { kind := .jumpIndirect })], by decide⟩
  hasSink := false
  source_mem := by simp [Table.keys]
  target_mem := by simp [Table.keys]

def rising : Redirects := .ofRows [(32, 48), (48, 256)]

def intParameter : SignatureTable := .ofRows [(256, ["int"])]

/-- The lower stub is left with the stand-in of the upper one, which gets the function's signature. -/
theorem stub_disagrees_with_target_rising :
    risingStubs.redirects = .ok rising ∧ (32, 48) ∈ rising.pairs ∧
      (TypeIndex.build intParameter [256] rising).signatureOf 32 ≠
        (TypeIndex.build intParameter [256] rising).signatureOf 48 ∧
      (ArityIndex.build intParameter [256] rising).arityOf 32 ≠
        (ArityIndex.build intParameter [256] rising).arityOf 48 := by
  have hlower : (32, 48) ∈ rising.pairs := mem_pairs.mpr rfl
  have hupper : (48, 256) ∈ rising.pairs := mem_pairs.mpr rfl
  have hagree := stub_agrees_with_target_iff intParameter [256] rising 32 48 hlower
  rw [origin_of_rises hupper (by decide)] at hagree
  refine ⟨rfl, hlower, ?_, ?_⟩
  · rw [ne_eq, hagree.1]
    intro h
    rcases h (by decide) with hsame | ⟨types, hdeclared, -⟩
    · cases hsame
    · cases hdeclared
  · rw [ne_eq, hagree.2]
    decide

end Redirects
end CfiSlack
