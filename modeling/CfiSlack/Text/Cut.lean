/-!
# Cutting texts at a mark
-/
namespace CfiSlack.Text

/-- The parts of a text between the marks; there is one more part than there are marks. -/
def cut (mark : Char) : List Char → List (List Char)
  | [] => [[]]
  | c :: cs =>
    if c = mark then [] :: cut mark cs
    else
      match cut mark cs with
      | [] => [[c]]
      | part :: parts => (c :: part) :: parts

theorem cut_ne_nil (mark : Char) (cs : List Char) : cut mark cs ≠ [] := by
  cases cs with
  | nil => simp [cut]
  | cons c cs =>
    unfold cut
    split
    · simp
    · split <;> simp

theorem cut_append_mark (mark : Char) (cs ds : List Char) :
    cut mark (cs ++ mark :: ds) = cut mark cs ++ cut mark ds := by
  induction cs with
  | nil => simp [cut]
  | cons c cs ih =>
    rw [List.cons_append, cut, cut, ih]
    by_cases hc : c = mark
    · simp [hc]
    · obtain ⟨part, parts, hcut⟩ := List.exists_cons_of_ne_nil (cut_ne_nil mark cs)
      simp [hc, hcut]

theorem cut_of_notMem {mark : Char} {cs : List Char} (h : mark ∉ cs) : cut mark cs = [cs] := by
  induction cs with
  | nil => rfl
  | cons c cs ih =>
    rw [List.mem_cons, not_or] at h
    rw [cut, if_neg (Ne.symm h.1), ih h.2]

/-- Parts without a mark are found again. -/
theorem cut_intercalate {mark : Char} {parts : List (List Char)} (hne : parts ≠ [])
    (h : ∀ part ∈ parts, mark ∉ part) : cut mark ([mark].intercalate parts) = parts := by
  induction parts with
  | nil => exact absurd rfl hne
  | cons part parts ih =>
    have hpart := cut_of_notMem (h part List.mem_cons_self)
    cases parts with
    | nil => simpa using hpart
    | cons next parts =>
      have hrest := ih (by simp) fun p hp => h p (List.mem_cons_of_mem part hp)
      rw [List.intercalate_cons_cons, List.append_assoc, List.singleton_append, cut_append_mark, hpart,
        hrest]
      rfl

end CfiSlack.Text
