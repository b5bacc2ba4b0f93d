import Mathlib.Data.List.Basic
import Mathlib.Data.Set.Card
import Mathlib.Tactic

/-!
# Histories

A history is a list of events, oldest first. Proofs about what some events lead to go by the last event,
and count what happened by the lists that hold it.
-/
namespace CfiSlack

variable {α : Type}

/-- An event of a longer history is the new one or stands in the old history. -/
theorem concat_eq_append_cons {history earlier later : List α} {c x : α} :
    history ++ [c] = earlier ++ x :: later ↔
      (earlier = history ∧ x = c ∧ later = []) ∨
        ∃ rest, later = rest ++ [c] ∧ history = earlier ++ x :: rest := by
  rcases List.eq_nil_or_concat later with rfl | ⟨rest, d, rfl⟩
  · constructor
    · intro h
      obtain ⟨rfl, hlast⟩ := List.append_inj' h rfl
      exact Or.inl ⟨rfl, (List.singleton_inj.mp hlast).symm, rfl⟩
    · rintro (⟨rfl, rfl, -⟩ | ⟨rest, hrest, -⟩)
      · rfl
      · simp at hrest
  · rw [List.concat_eq_append, ← List.cons_append, ← List.append_assoc]
    constructor
    · intro h
      obtain ⟨rfl, hlast⟩ := List.append_inj' h rfl
      exact Or.inr ⟨rest, by rw [hlast], rfl⟩
    · rintro (⟨-, -, h⟩ | ⟨rest', hrest, rfl⟩)
      · simp at h
      · obtain ⟨rfl, hlast⟩ := List.append_inj' hrest rfl
        rw [hlast]

/-- A list without repetition counts what it holds. -/
theorem length_eq_ncard {P : α → Prop} {l : List α} (hl : l.Nodup) (h : ∀ a, a ∈ l ↔ P a) :
    l.length = {a | P a}.ncard := by
  classical
  have hset : {a | P a} = (l.toFinset : Set α) := by
    ext a
    simp [h]
  rw [hset, Set.ncard_coe_finset, List.toFinset_card_of_nodup hl]

end CfiSlack
