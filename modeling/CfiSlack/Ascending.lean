/-!
# Ascending lists

A finite set of ordered elements is kept as a strictly ascending list, so a set has one form and is
written in one order. `mem_ofList` says that sorting loses and invents nothing, `pairwise_ofList`
that the result ascends strictly, `ofList_eq_ofList` that it depends on the elements alone. An element
is looked up by bisection, which `bisect_iff` ties to membership.
-/
namespace CfiSlack.Ascending

variable {α : Type} [LT α] [DecidableLT α]

/-- Put `a` into an ascending list at its place; an element that is there already stays single. -/
def insert (a : α) : List α → List α
  | [] => [a]
  | b :: l => if a < b then a :: b :: l else if b < a then b :: insert a l else b :: l

/-- The set of elements of a list. -/
def ofList (l : List α) : List α := l.foldr insert []

/-- Look for `a` in an ascending list: compare it with the element in the middle and go on in the half
that is left. -/
def bisect (a : α) (l : List α) : Bool :=
  match h : l.drop (l.length / 2) with
  | [] => false
  | b :: right =>
    if a < b then bisect a (l.take (l.length / 2))
    else if b < a then bisect a right
    else true
termination_by l.length
decreasing_by
  all_goals
    have hlength := congrArg List.length h
    simp only [List.length_drop, List.length_cons, List.length_take] at hlength ⊢
    omega

/-- An order given by an injective rank is linear. -/
theorem isLinearOrder_of_rank {β : Type} [LE β] (rank : β → Nat)
    (hle : ∀ a b : β, a ≤ b ↔ rank a ≤ rank b) (inj : ∀ a b : β, rank a = rank b → a = b) :
    Std.IsLinearOrder β where
  le_refl a := (hle a a).2 (Nat.le_refl _)
  le_trans a b c hab hbc := (hle a c).2 (Nat.le_trans ((hle a b).1 hab) ((hle b c).1 hbc))
  le_antisymm a b hab hba := inj a b (Nat.le_antisymm ((hle a b).1 hab) ((hle b a).1 hba))
  le_total a b := (Nat.le_total (rank a) (rank b)).imp (hle a b).2 (hle b a).2

variable [LE α] [Std.IsLinearOrder α] [Std.LawfulOrderLT α]

omit [DecidableLT α] in
theorem eq_of_not_lt {a b : α} (hab : ¬ a < b) (hba : ¬ b < a) : a = b :=
  Std.le_antisymm (Std.not_lt.1 hba) (Std.not_lt.1 hab)

@[simp]
theorem mem_insert {a x : α} {l : List α} : x ∈ insert a l ↔ x = a ∨ x ∈ l := by
  induction l with
  | nil => simp [insert]
  | cons b l ih =>
    unfold insert
    split
    · simp
    · split
      · simp only [List.mem_cons, ih]
        exact or_left_comm
      · next hab hba =>
        have : a = b := eq_of_not_lt hab hba
        subst this
        simp

@[simp]
theorem mem_ofList {x : α} {l : List α} : x ∈ ofList l ↔ x ∈ l := by
  induction l with
  | nil => simp [ofList]
  | cons a l ih =>
    rw [ofList, List.foldr_cons, mem_insert, List.mem_cons]
    exact or_congr Iff.rfl ih

theorem pairwise_insert {a : α} {l : List α} (h : l.Pairwise (· < ·)) :
    (insert a l).Pairwise (· < ·) := by
  induction l with
  | nil => simp [insert]
  | cons b l ih =>
    obtain ⟨hb, hl⟩ := List.pairwise_cons.1 h
    unfold insert
    split
    · next hab =>
      refine List.pairwise_cons.2 ⟨fun x hx => ?_, h⟩
      rcases List.mem_cons.1 hx with rfl | hx
      · exact hab
      · exact Std.lt_trans hab (hb x hx)
    · split
      · next hba =>
        refine List.pairwise_cons.2 ⟨fun x hx => ?_, ih hl⟩
        rcases mem_insert.1 hx with rfl | hx
        · exact hba
        · exact hb x hx
      · exact h

theorem pairwise_ofList (l : List α) : (ofList l).Pairwise (· < ·) := by
  induction l with
  | nil => simp [ofList]
  | cons a l ih => exact pairwise_insert ih

omit [DecidableLT α] [Std.IsLinearOrder α] in
theorem nodup_of_pairwise {l : List α} (h : l.Pairwise (· < ·)) : l.Nodup :=
  List.Pairwise.imp (fun {a b} hab => fun heq : a = b => Std.lt_irrefl (heq ▸ hab)) h

theorem nodup_ofList (l : List α) : (ofList l).Nodup := nodup_of_pairwise (pairwise_ofList l)

/-- A set has one form. -/
theorem ofList_eq_ofList {l l' : List α} : ofList l = ofList l' ↔ ∀ x, x ∈ l ↔ x ∈ l' := by
  constructor
  · intro h x
    rw [← mem_ofList, h, mem_ofList]
  · intro h
    have hperm : (ofList l).Perm (ofList l') :=
      (List.perm_ext_iff_of_nodup (nodup_ofList l) (nodup_ofList l')).2 fun x => by
        rw [mem_ofList, mem_ofList, h]
    exact hperm.eq_of_pairwise
      (fun _ _ _ _ hab hba => absurd (Std.lt_trans hab hba) Std.lt_irrefl)
      (pairwise_ofList l) (pairwise_ofList l')

omit [DecidableLT α] in
/-- What is below an element of an ascending list stands before it, and what is above it behind. -/
theorem mem_append_cons {a b : α} {left right : List α} (h : (left ++ b :: right).Pairwise (· < ·)) :
    (a < b → (a ∈ left ++ b :: right ↔ a ∈ left)) ∧
      (b < a → (a ∈ left ++ b :: right ↔ a ∈ right)) := by
  obtain ⟨-, hright, hacross⟩ := List.pairwise_append.1 h
  have habove (hlt : a < b) : a ∉ b :: right := by
    intro hmem
    rcases List.mem_cons.1 hmem with rfl | hmem
    · exact Std.lt_irrefl hlt
    · exact Std.lt_irrefl (Std.lt_trans hlt ((List.pairwise_cons.1 hright).1 a hmem))
  have hbelow (hlt : b < a) : a ∉ left := by
    intro hmem
    exact Std.lt_irrefl (Std.lt_trans hlt (hacross a hmem b List.mem_cons_self))
  constructor
  · intro hlt
    simp [habove hlt]
  · intro hlt
    have hne : a ≠ b := fun heq => Std.lt_irrefl (heq ▸ hlt)
    simp [hbelow hlt, hne]

theorem bisect_iff {a : α} {l : List α} (h : l.Pairwise (· < ·)) : bisect a l = true ↔ a ∈ l := by
  have hsplit {l : List α} {b : α} {right : List α} (hdrop : l.drop (l.length / 2) = b :: right) :
      l = l.take (l.length / 2) ++ b :: right := by
    rw [← hdrop, List.take_append_drop]
  fun_induction bisect a l with
  | case1 l hdrop =>
    have hlength := congrArg List.length hdrop
    simp only [List.length_drop, List.length_nil] at hlength
    have hempty : l = [] := List.length_eq_zero_iff.1 (by omega)
    simp [hempty]
  | case2 l b right hdrop hlt ih =>
    have hmem := (mem_append_cons (hsplit hdrop ▸ h)).1 hlt
    rw [← hsplit hdrop] at hmem
    exact (ih (h.sublist (List.take_sublist _ _))).trans hmem.symm
  | case3 l b right hdrop _ hgt ih =>
    have hmem := (mem_append_cons (hsplit hdrop ▸ h)).2 hgt
    rw [← hsplit hdrop] at hmem
    have hright : right.Pairwise (· < ·) := (hdrop ▸ h.sublist (List.drop_sublist _ _)).tail
    exact (ih hright).trans hmem.symm
  | case4 l b right hdrop hlt hgt =>
    have hmem : b ∈ l := by
      rw [hsplit hdrop]
      simp
    simp [eq_of_not_lt hlt hgt, hmem]

end CfiSlack.Ascending
