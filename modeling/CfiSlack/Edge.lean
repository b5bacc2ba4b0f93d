import CfiSlack.Node
import CfiSlack.Table

/-!
# Edges

An edge is ordered by its source and then by its target.
-/
namespace CfiSlack

@[ext]
structure Edge where
  source : Node
  target : Node
  deriving DecidableEq, Repr

namespace Edge

instance : LT Edge :=
  ⟨fun a b => a.source < b.source ∨ (a.source = b.source ∧ a.target < b.target)⟩

instance : LE Edge :=
  ⟨fun a b => a.source < b.source ∨ (a.source = b.source ∧ a.target ≤ b.target)⟩

instance : DecidableLT Edge := fun a b =>
  inferInstanceAs (Decidable (a.source < b.source ∨ (a.source = b.source ∧ a.target < b.target)))

instance : DecidableLE Edge := fun a b =>
  inferInstanceAs (Decidable (a.source < b.source ∨ (a.source = b.source ∧ a.target ≤ b.target)))

theorem le_def {a b : Edge} :
    a ≤ b ↔ a.source < b.source ∨ (a.source = b.source ∧ a.target ≤ b.target) := Iff.rfl

theorem lt_def {a b : Edge} :
    a < b ↔ a.source < b.source ∨ (a.source = b.source ∧ a.target < b.target) := Iff.rfl

instance : Std.IsLinearOrder Edge where
  le_refl a := Or.inr ⟨rfl, Std.le_refl _⟩
  le_trans a b c hab hbc := by
    rcases hab with h | ⟨h, h'⟩ <;> rcases hbc with k | ⟨k, k'⟩
    · exact Or.inl (Std.lt_trans h k)
    · exact Or.inl (k ▸ h)
    · exact Or.inl (h ▸ k)
    · exact Or.inr ⟨h.trans k, Std.le_trans h' k'⟩
  le_antisymm a b hab hba := by
    obtain ⟨s, t⟩ := a
    obtain ⟨u, v⟩ := b
    rcases hab with h | ⟨h, h'⟩ <;> rcases hba with k | ⟨k, k'⟩
    · exact absurd (Std.lt_trans h k) Std.lt_irrefl
    · exact absurd h (k ▸ Std.lt_irrefl)
    · exact absurd k (h ▸ Std.lt_irrefl)
    · have hs : s = u := h
      have ht : t = v := Std.le_antisymm h' k'
      rw [hs, ht]
  le_total a b := by
    by_cases h : a.source < b.source
    · exact Or.inl (Or.inl h)
    · by_cases k : b.source < a.source
      · exact Or.inr (Or.inl k)
      · have heq : a.source = b.source := Ascending.eq_of_not_lt h k
        rcases Std.le_total (a := a.target) (b := b.target) with ht | ht
        · exact Or.inl (Or.inr ⟨heq, ht⟩)
        · exact Or.inr (Or.inr ⟨heq.symm, ht⟩)

instance : Std.LawfulOrderLT Edge where
  lt_iff a b := by
    rw [lt_def, le_def, le_def]
    constructor
    · rintro (h | ⟨h, h'⟩)
      · refine ⟨Or.inl h, ?_⟩
        rintro (k | ⟨k, -⟩)
        · exact Std.lt_irrefl (Std.lt_trans h k)
        · exact Std.lt_irrefl (k ▸ h)
      · refine ⟨Or.inr ⟨h, Std.le_of_lt h'⟩, ?_⟩
        rintro (k | ⟨-, k⟩)
        · exact Std.lt_irrefl (h ▸ k)
        · exact Std.not_le.2 h' k
    · rintro ⟨h | ⟨h, h'⟩, k⟩
      · exact Or.inl h
      · exact Or.inr ⟨h, Std.not_le.1 fun hk => k (Or.inr ⟨h.symm, hk⟩)⟩

def ends (e : Edge) : List Node := [e.source, e.target]

theorem mem_ends {e : Edge} {n : Node} : n ∈ e.ends ↔ n = e.source ∨ n = e.target := by
  simp [ends]

theorem mem_targets {edges : List Edge} {m n : Node} :
    n ∈ (edges.filter fun e => e.source = m).map target ↔ (⟨m, n⟩ : Edge) ∈ edges := by
  simp only [List.mem_map, List.mem_filter, decide_eq_true_eq]
  constructor
  · rintro ⟨e, ⟨he, rfl⟩, rfl⟩
    exact he
  · intro h
    exact ⟨_, ⟨h, rfl⟩, rfl⟩

theorem mem_origins {edges : List Edge} {m n : Node} :
    m ∈ (edges.filter fun e => e.target = n).map source ↔ (⟨m, n⟩ : Edge) ∈ edges := by
  simp only [List.mem_map, List.mem_filter, decide_eq_true_eq]
  constructor
  · rintro ⟨e, ⟨he, rfl⟩, rfl⟩
    exact he
  · intro h
    exact ⟨_, ⟨h, rfl⟩, rfl⟩

theorem nodup_targets {edges : List Edge} (h : edges.Nodup) (n : Node) :
    ((edges.filter fun e => e.source = n).map target).Nodup := by
  refine List.pairwise_map.2 ((h.filter _).imp_of_mem ?_)
  intro d e hd he hne htarget
  simp only [List.mem_filter, decide_eq_true_eq] at hd he
  exact hne (Edge.ext (hd.2.trans he.2.symm) htarget)

theorem nodup_origins {edges : List Edge} (h : edges.Nodup) (n : Node) :
    ((edges.filter fun e => e.target = n).map source).Nodup := by
  refine List.pairwise_map.2 ((h.filter _).imp_of_mem ?_)
  intro d e hd he hne hsource
  simp only [List.mem_filter, decide_eq_true_eq] at hd he
  exact hne (Edge.ext hsource (hd.2.trans he.2.symm))

/-- The sources of the edges into each node, ascending. -/
def sources (edges : List Edge) : Table Node (List Node) :=
  edges.foldr (fun e groups => groups.enlist e.target e.source) .empty

theorem mem_sources {edges : List Edge} {m n : Node} :
    m ∈ (sources edges).group n ↔ (⟨m, n⟩ : Edge) ∈ edges := by
  induction edges with
  | nil => simp [sources]
  | cons e edges ih =>
    rw [sources, List.foldr_cons, Table.mem_group_enlist, List.mem_cons, Edge.ext_iff]
    exact or_congr Iff.rfl ih

theorem sources_ascend (edges : List Edge) (n : Node) :
    ((sources edges).group n).Pairwise (· < ·) := by
  induction edges with
  | nil => simp [sources]
  | cons e edges ih =>
    rw [sources, List.foldr_cons, Table.group_enlist]
    split
    · exact Ascending.pairwise_insert ih
    · exact ih

/-- The text form of an edge: `source,target`. -/
def chars (e : Edge) : List Char := e.source.chars ++ ',' :: e.target.chars

def text (e : Edge) : String := String.ofList e.chars

end Edge
end CfiSlack
