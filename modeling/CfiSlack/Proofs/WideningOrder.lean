import CfiSlack.Proofs.Widening
import Mathlib.Data.List.Nodup
import Mathlib.Order.Defs.Unbundled

/-!
# The order of widening

Widening is a partial order on signatures, and the supertypes of a signature list everything above it
without repetition. So a wider call reaches no function that the narrower one does not reach, and no
function is reached twice.
-/
namespace CfiSlack

namespace Signature

variable {t u w : String} {ts us ws : List String} {r s : Signature}

theorem paramWidens_iff :
    ParamWidens t u ↔ u = t ∨ isPointer t = true ∧ u = voidPointer ∨ u = voidType := by
  constructor
  · intro h
    cases h with
    | keep => exact Or.inl rfl
    | toVoidPointer hpointer => exact Or.inr (Or.inl ⟨isPointer_iff.mpr hpointer, rfl⟩)
    | toVoid => exact Or.inr (Or.inr rfl)
  · rintro (rfl | ⟨hpointer, rfl⟩ | rfl)
    · exact .keep u
    · exact .toVoidPointer (isPointer_iff.mp hpointer)
    · exact .toVoid t

theorem not_isPointer_voidType : ¬ isPointer voidType = true := by decide

theorem ParamWidens.trans (h : ParamWidens t u) (h' : ParamWidens u w) : ParamWidens t w := by
  rcases paramWidens_iff.mp h' with rfl | ⟨hpointer, rfl⟩ | rfl
  · exact h
  · rcases paramWidens_iff.mp h with rfl | ⟨-, rfl⟩ | rfl
    · exact h'
    · exact h
    · exact absurd hpointer not_isPointer_voidType
  · exact .toVoid t

/-- Nothing is above `void`, and only `void` is above `Pointer(void)`. -/
theorem ParamWidens.antisymm (h : ParamWidens t u) (h' : ParamWidens u t) : t = u := by
  rcases paramWidens_iff.mp h with rfl | ⟨hpointer, rfl⟩ | rfl
  · rfl
  · rcases paramWidens_iff.mp h' with rfl | ⟨-, rfl⟩ | rfl
    · rfl
    · rfl
    · exact absurd hpointer not_isPointer_voidType
  · rcases paramWidens_iff.mp h' with rfl | ⟨hpointer, -⟩ | rfl
    · rfl
    · exact absurd hpointer not_isPointer_voidType
    · rfl

theorem forall₂_paramWidens_trans (h : List.Forall₂ ParamWidens ts us)
    (h' : List.Forall₂ ParamWidens us ws) : List.Forall₂ ParamWidens ts ws := by
  induction h generalizing ws with
  | nil => exact h'
  | cons hhead _ ih =>
    obtain ⟨w, ws, hhead', htail', rfl⟩ := List.forall₂_cons_left_iff.mp h'
    exact .cons (hhead.trans hhead') (ih htail')

theorem forall₂_paramWidens_antisymm (h : List.Forall₂ ParamWidens ts us)
    (h' : List.Forall₂ ParamWidens us ts) : ts = us := by
  induction h with
  | nil => rfl
  | cons hhead _ ih =>
    obtain ⟨hhead', htail'⟩ := List.forall₂_cons.mp h'
    rw [hhead.antisymm hhead', ih htail']

theorem Widens.refl (s : Signature) : s.Widens s := by
  cases s with
  | untyped n => exact .untyped n
  | params ts => exact .params (List.forall₂_same.mpr fun t _ => .keep t)

theorem Widens.trans {q : Signature} (h : q.Widens r) (h' : r.Widens s) : q.Widens s := by
  cases h with
  | untyped n => exact h'
  | params hfirst =>
    cases h' with
    | params hsecond => exact .params (forall₂_paramWidens_trans hfirst hsecond)

theorem Widens.antisymm (h : r.Widens s) (h' : s.Widens r) : r = s := by
  cases h with
  | untyped n => rfl
  | params hup =>
    cases h' with
    | params hdown => rw [forall₂_paramWidens_antisymm hup hdown]

theorem isPartialOrder_supertypes :
    IsPartialOrder Signature fun s t => t ∈ s.supertypes where
  refl s := mem_supertypes.mpr (.refl s)
  trans _ _ _ h h' := mem_supertypes.mpr ((mem_supertypes.mp h).trans (mem_supertypes.mp h'))
  antisymm _ _ h h' := (mem_supertypes.mp h).antisymm (mem_supertypes.mp h')

/-! ### Every supertype once -/

theorem nodup_widenings (t : String) : (widenings t).Nodup := by
  have hne : voidPointer ≠ voidType := by decide
  unfold widenings
  by_cases hvoid : t = voidType
  · subst hvoid
    simp [not_isPointer_voidType]
  · rw [if_pos hvoid]
    by_cases hpointer : (isPointer t && t ≠ voidPointer) = true
    · have hother : t ≠ voidPointer := by
        rw [Bool.and_eq_true, decide_eq_true_eq] at hpointer
        exact hpointer.2
      rw [if_pos hpointer]
      simp [hother, hvoid, hne]
    · rw [if_neg hpointer]
      simp [hvoid]

theorem nodup_widenAll (ts : List String) : (widenAll ts).Nodup := by
  induction ts with
  | nil => exact List.nodup_singleton []
  | cons t ts ih =>
    refine List.nodup_flatMap.mpr ⟨?_, ?_⟩
    · intro w _
      exact ih.map List.cons_injective
    · -- lists that start differently are different
      refine (nodup_widenings t).imp ?_
      intro w w' hne us hw hw'
      obtain ⟨_, -, rfl⟩ := List.mem_map.mp hw
      obtain ⟨_, -, heq⟩ := List.mem_map.mp hw'
      exact hne (List.cons.inj heq).1.symm

theorem nodup_supertypes (s : Signature) : s.supertypes.Nodup := by
  cases s with
  | untyped n => exact List.nodup_singleton _
  | params ts => exact (nodup_widenAll ts).map fun us us' heq => Signature.params.inj heq

end Signature

namespace TypeIndex

theorem matching_subset {index : TypeIndex} {s t : Signature} (h : t ∈ s.supertypes) :
    index.matching t ⊆ index.matching s := by
  intro f hf
  obtain ⟨u, hu, hfind⟩ := mem_matching.mp hf
  exact mem_matching.mpr ⟨u, (Signature.mem_supertypes.mp h).trans hu, hfind⟩

/-- A function has one signature, so it is a member for one supertype at most. -/
theorem nodup_matching {index : TypeIndex} (hmembers : ∀ s, (index.members s).Nodup)
    (s : Signature) : (index.matching s).Nodup := by
  refine List.nodup_flatMap.mpr ⟨fun t _ => hmembers t, ?_⟩
  refine s.nodup_supertypes.imp ?_
  intro t u hne f ht hu
  exact hne (Option.some.inj ((mem_members.mp ht).symm.trans (mem_members.mp hu)))

theorem nodup_members_build (table : SignatureTable) (functions : List Address)
    (redirects : Redirects) (s : Signature) :
    ((build table functions redirects).members s).Nodup :=
  Ascending.nodup_of_pairwise (Table.pairwise_group_groupRows _ _ s)

/-- The supertypes of a signature are what it widens to, each listed once. Widening is a partial order,
so the functions that a call reaches become fewer when its signature is widened. None of them is listed
twice. -/
theorem widening_order_exact (table : SignatureTable) (functions : List Address)
    (redirects : Redirects) :
    (∀ s : Signature, s.supertypes.Nodup ∧ ∀ t, t ∈ s.supertypes ↔ s.Widens t) ∧
    IsPartialOrder Signature (fun s t => t ∈ s.supertypes) ∧
    (∀ s t : Signature, t ∈ s.supertypes →
      (build table functions redirects).matching t ⊆
        (build table functions redirects).matching s) ∧
    ∀ s, ((build table functions redirects).matching s).Nodup := by
  refine ⟨?_, Signature.isPartialOrder_supertypes, ?_, ?_⟩
  · intro s
    exact ⟨s.nodup_supertypes, fun t => Signature.mem_supertypes⟩
  · intro s t h
    exact matching_subset h
  · intro s
    exact nodup_matching (nodup_members_build table functions redirects) s

/-- Function 16 takes a pointer of a known kind, and function 32 a pointer of any kind. -/
def pointerFunctions : SignatureTable :=
  .ofRows [(16, ["Pointer(char)"]), (32, ["Pointer(void)"])]

theorem widening_order_exact_pointerFunctions :
    Signature.params ["Pointer(void)"] ∈ (Signature.params ["Pointer(char)"]).supertypes ∧
      (build pointerFunctions [16, 32] .empty).matching (.params ["Pointer(void)"]) ⊆
        (build pointerFunctions [16, 32] .empty).matching (.params ["Pointer(char)"]) ∧
      (build pointerFunctions [16, 32] .empty).matching (.params ["Pointer(char)"]) = [16, 32] ∧
      Signature.params ["Pointer(char)"] ∉ (Signature.params ["Pointer(void)"]).supertypes := by
  obtain ⟨-, horder, hreach, -⟩ := widening_order_exact pointerFunctions [16, 32] .empty
  have hwider :
      Signature.params ["Pointer(void)"] ∈ (Signature.params ["Pointer(char)"]).supertypes := by
    decide
  refine ⟨hwider, hreach _ _ hwider, by decide, ?_⟩
  intro hback
  have heq := horder.antisymm _ _ hwider hback
  revert heq
  decide

end TypeIndex
end CfiSlack
