import CfiSlack.Signature.Index
import Mathlib.Data.List.Forall2
import Mathlib.Tactic

/-!
# Widening of signatures

The relation that `Signature.supertypes` enumerates, parameter by parameter. Looking up all supertypes
of a signature in the groups of an index finds the addresses whose signature widens it.
-/
namespace CfiSlack

namespace Signature

/-- A parameter stays, a pointer loses what it points to, or nothing is said about the parameter. -/
inductive ParamWidens : String → String → Prop
  | keep (t : String) : ParamWidens t t
  | toVoidPointer {t : String} (pointer : "Pointer".toList <+: t.toList) :
      ParamWidens t "Pointer(void)"
  | toVoid (t : String) : ParamWidens t "void"

/-- A stand-in widens to itself only, and a list of parameters to lists of the same length. -/
inductive Widens : Signature → Signature → Prop
  | untyped (n : ℕ) : Widens (.untyped n) (.untyped n)
  | params {ts us : List String} (h : List.Forall₂ ParamWidens ts us) :
      Widens (.params ts) (.params us)

theorem isPointer_iff {t : String} : isPointer t = true ↔ "Pointer".toList <+: t.toList := by
  simp [isPointer, List.isPrefixOf_iff_prefix]

theorem mem_widenings {t u : String} : u ∈ widenings t ↔ ParamWidens t u := by
  constructor
  · intro h
    simp only [widenings, List.mem_cons, List.mem_append] at h
    rcases h with rfl | h | h
    · exact .keep u
    · split at h
      · next hpointer =>
        rw [List.mem_singleton.mp h]
        have hisPointer : isPointer t = true := by
          simp only [Bool.and_eq_true] at hpointer
          exact hpointer.1
        exact .toVoidPointer (isPointer_iff.mp hisPointer)
      · simp at h
    · split at h
      · rw [List.mem_singleton.mp h]
        exact .toVoid t
      · simp at h
  · intro h
    cases h with
    | keep => simp [widenings]
    | toVoidPointer hpointer =>
      have hisPointer := isPointer_iff.mpr hpointer
      change voidPointer ∈ widenings t
      by_cases ht : t = voidPointer
      · simp [widenings, ht]
      · simp [widenings, ht, hisPointer]
    | toVoid =>
      change voidType ∈ widenings t
      by_cases ht : t = voidType
      · simp [widenings, ht]
      · simp [widenings, ht]

theorem mem_widenAll {ts us : List String} :
    us ∈ widenAll ts ↔ List.Forall₂ ParamWidens ts us := by
  induction ts generalizing us with
  | nil => simp [widenAll]
  | cons t ts ih =>
    simp only [widenAll, List.mem_flatMap, List.mem_map, mem_widenings, ih,
      List.forall₂_cons_left_iff]
    constructor
    · rintro ⟨u, hu, us, hus, rfl⟩
      exact ⟨u, us, hu, hus, rfl⟩
    · rintro ⟨u, us, hu, hus, rfl⟩
      exact ⟨u, hu, us, hus, rfl⟩

theorem mem_supertypes {s t : Signature} : t ∈ s.supertypes ↔ s.Widens t := by
  cases s with
  | untyped n =>
    simp only [supertypes, List.mem_singleton]
    constructor
    · rintro rfl
      exact .untyped n
    · intro h
      cases h
      rfl
  | params ts =>
    simp only [supertypes, List.mem_map, mem_widenAll]
    constructor
    · rintro ⟨us, hus, rfl⟩
      exact .params hus
    · intro h
      cases h with
      | params hus => exact ⟨_, hus, rfl⟩

end Signature

namespace TypeIndex

variable {index : TypeIndex} {f : Address} {s : Signature}

theorem mem_members : f ∈ index.members s ↔ index.signatureOf f = some s := index.mem_group s f

theorem mem_matching :
    f ∈ index.matching s ↔ ∃ t, s.Widens t ∧ index.signatureOf f = some t := by
  simp only [matching, List.mem_flatMap, Signature.mem_supertypes, mem_members]

end TypeIndex
end CfiSlack
