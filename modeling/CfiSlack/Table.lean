import CfiSlack.Ascending

/-!
# Tables

A finite map with one row for each key. The order of the rows means nothing: whoever lists a table
sorts the keys. `find?_insert` is the law of writing, `mem_keys` ties the keys to the look-up. A table
of lists groups elements by a label.
-/
namespace CfiSlack

structure Table (κ α : Type) where
  rows : List (κ × α)
  nodup : (rows.map Prod.fst).Nodup

namespace Table

variable {κ α : Type}

def empty : Table κ α := ⟨[], List.nodup_nil⟩

instance : Inhabited (Table κ α) := ⟨empty⟩

def keys (t : Table κ α) : List κ := t.rows.map Prod.fst

def size (t : Table κ α) : Nat := t.rows.length

variable [DecidableEq κ]

def find? (t : Table κ α) (k : κ) : Option α := t.rows.lookup k

/-- Write a row; an older row of the same key is dropped. -/
def insert (k : κ) (a : α) (t : Table κ α) : Table κ α where
  rows := (k, a) :: t.rows.filter fun row => row.1 ≠ k
  nodup := by
    rw [List.map_cons, List.nodup_cons]
    refine ⟨fun h => ?_, (List.filter_sublist.map Prod.fst).nodup t.nodup⟩
    obtain ⟨row, hrow, heq⟩ := List.mem_map.1 h
    simp [List.mem_filter, heq] at hrow

def erase (k : κ) (t : Table κ α) : Table κ α where
  rows := t.rows.filter fun row => row.1 ≠ k
  nodup := (List.filter_sublist.map Prod.fst).nodup t.nodup

/-- Rows written one after the other, so that the last row of a key wins. -/
def insertAll (t : Table κ α) (rows : List (κ × α)) : Table κ α :=
  rows.foldl (fun t row => t.insert row.1 row.2) t

def ofRows (rows : List (κ × α)) : Table κ α := empty.insertAll rows

theorem lookup_cons (i j : κ) (a : α) (rows : List (κ × α)) :
    ((i, a) :: rows).lookup j = if j = i then some a else rows.lookup j := by
  by_cases h : j = i
  · simp [h]
  · have hb : (j == i) = false := by simpa using h
    simp [List.lookup_cons, hb, h]

theorem lookup_filter_ne (k j : κ) (rows : List (κ × α)) :
    (rows.filter fun row => row.1 ≠ k).lookup j = if j = k then none else rows.lookup j := by
  induction rows with
  | nil => simp
  | cons row rows ih =>
    obtain ⟨i, a⟩ := row
    by_cases hik : i = k
    · subst hik
      rw [List.filter_cons_of_neg (by simp), ih, lookup_cons]
      split <;> rfl
    · rw [List.filter_cons_of_pos (by simpa using hik), lookup_cons, lookup_cons, ih]
      by_cases hji : j = i
      · subst hji
        simp [hik]
      · simp [hji]

@[simp]
theorem find?_empty (k : κ) : (empty : Table κ α).find? k = none := rfl

theorem find?_insert (t : Table κ α) (k j : κ) (a : α) :
    (t.insert k a).find? j = if j = k then some a else t.find? j := by
  unfold find? insert
  rw [lookup_cons, lookup_filter_ne]
  split <;> rfl

@[simp]
theorem find?_insert_self (t : Table κ α) (k : κ) (a : α) : (t.insert k a).find? k = some a := by
  simp [find?_insert]

theorem find?_erase (t : Table κ α) (k j : κ) :
    (t.erase k).find? j = if j = k then none else t.find? j :=
  lookup_filter_ne k j t.rows

theorem mem_keys {t : Table κ α} {k : κ} : k ∈ t.keys ↔ (t.find? k).isSome := by
  unfold keys find?
  induction t.rows with
  | nil => simp
  | cons row rows ih =>
    obtain ⟨i, a⟩ := row
    rw [lookup_cons, List.map_cons, List.mem_cons, ih]
    by_cases h : k = i <;> simp [h]

theorem find?_eq_some {t : Table κ α} {k : κ} {a : α} : t.find? k = some a ↔ (k, a) ∈ t.rows := by
  obtain ⟨rows, nodup⟩ := t
  change rows.lookup k = some a ↔ (k, a) ∈ rows
  induction rows with
  | nil => simp
  | cons row rows ih =>
    obtain ⟨i, b⟩ := row
    obtain ⟨hi, hrows⟩ := List.nodup_cons.1 nodup
    rw [lookup_cons, List.mem_cons, Prod.mk.injEq]
    by_cases h : k = i
    · subst h
      have hnot : (k, a) ∉ rows := fun hmem => hi (List.mem_map.2 ⟨_, hmem, rfl⟩)
      simp [hnot, eq_comm]
    · simp [h, ih hrows]

@[simp]
theorem mem_keys_insert {t : Table κ α} {k j : κ} {a : α} :
    j ∈ (t.insert k a).keys ↔ j = k ∨ j ∈ t.keys := by
  rw [mem_keys, mem_keys, find?_insert]
  by_cases h : j = k <;> simp [h]

theorem mem_keys_insertAll {t : Table κ α} {rows : List (κ × α)} {k : κ} :
    k ∈ (t.insertAll rows).keys ↔ k ∈ rows.map Prod.fst ∨ k ∈ t.keys := by
  induction rows generalizing t with
  | nil => simp [insertAll]
  | cons row rows ih =>
    rw [insertAll, List.foldl_cons]
    refine (ih (t := t.insert row.1 row.2)).trans ?_
    rw [mem_keys_insert, List.map_cons, List.mem_cons]
    exact or_left_comm.trans or_assoc.symm

theorem size_insert (t : Table κ α) (k : κ) (a : α) :
    (t.insert k a).size = if (t.find? k).isSome then t.size else t.size + 1 := by
  have hkeys : (t.rows.filter fun row => row.1 ≠ k).map Prod.fst = t.keys.erase k := by
    rw [keys, t.nodup.erase_eq_filter, List.filter_map]
    refine congrArg _ (List.filter_congr fun row _ => ?_)
    by_cases h : row.1 = k <;> simp [h]
  have hsize : (t.insert k a).size = (t.keys.erase k).length + 1 := by
    rw [← hkeys, List.length_map]
    rfl
  have hlength : t.keys.length = t.size := List.length_map _
  rw [hsize, List.length_erase, hlength]
  by_cases h : k ∈ t.keys
  · have hpos : 0 < t.size := hlength ▸ List.length_pos_of_mem h
    rw [if_pos h, if_pos (mem_keys.1 h)]
    omega
  · rw [if_neg h, if_neg fun hsome => h (mem_keys.2 hsome)]

/-! ## Groups -/

section Groups

variable {β γ : Type} [DecidableEq β]

/-- The group of a label; a label that nothing has is that of an empty group. -/
def group (groups : Table β (List γ)) (label : β) : List γ := (groups.find? label).getD []

/-- Put an element at the end of the group of a label. -/
def push (groups : Table β (List γ)) (label : β) (a : γ) : Table β (List γ) :=
  groups.insert label (groups.group label ++ [a])

@[simp]
theorem group_empty (label : β) : (empty : Table β (List γ)).group label = [] := rfl

theorem group_of_mem {groups : Table β (List γ)} {label : β} {l : List γ} (h : (label, l) ∈ groups.rows) :
    groups.group label = l := by
  rw [group, find?_eq_some.2 h, Option.getD_some]

theorem group_insert (groups : Table β (List γ)) (label other : β) (l : List γ) :
    (groups.insert label l).group other = if other = label then l else groups.group other := by
  rw [group, find?_insert]
  split <;> rfl

theorem group_push (groups : Table β (List γ)) (label other : β) (a : γ) :
    (groups.push label a).group other =
      if other = label then groups.group other ++ [a] else groups.group other := by
  rw [group, push, find?_insert]
  by_cases h : other = label
  · simp [h]
  · simp [h, group]

/-- The values of all elements by their labels, each group in the order of the elements. -/
def gather {α : Type} (label : α → β) (value : α → γ) (l : List α) : Table β (List γ) :=
  l.foldl (fun groups a => groups.push (label a) (value a)) .empty

theorem group_foldl_push {α : Type} (label : α → β) (value : α → γ) (groups : Table β (List γ))
    (l : List α) (k : β) :
    (l.foldl (fun groups a => groups.push (label a) (value a)) groups).group k =
      groups.group k ++ (l.filter fun a => label a = k).map value := by
  induction l generalizing groups with
  | nil => simp
  | cons a l ih =>
    rw [List.foldl_cons, ih, group_push]
    by_cases h : label a = k
    · simp [h]
    · simp [h, Ne.symm h]

theorem group_gather {α : Type} (label : α → β) (value : α → γ) (l : List α) (k : β) :
    (gather label value l).group k = (l.filter fun a => label a = k).map value := by
  rw [gather, group_foldl_push, group_empty, List.nil_append]

theorem mem_keys_foldl_push {α : Type} (label : α → β) (value : α → γ) (groups : Table β (List γ))
    (l : List α) {k : β} :
    k ∈ (l.foldl (fun groups a => groups.push (label a) (value a)) groups).keys ↔
      k ∈ groups.keys ∨ ∃ a ∈ l, label a = k := by
  induction l generalizing groups with
  | nil => simp
  | cons a l ih =>
    rw [List.foldl_cons, ih, push, mem_keys_insert]
    simp only [List.mem_cons, exists_eq_or_imp]
    rw [or_assoc, or_left_comm, eq_comm]

/-- A label has a row if some element has it. -/
theorem mem_keys_gather {α : Type} {label : α → β} {value : α → γ} {l : List α} {k : β} :
    k ∈ (gather label value l).keys ↔ ∃ a ∈ l, label a = k := by
  rw [gather, mem_keys_foldl_push]
  simp [keys, empty]

variable [LT γ] [DecidableLT γ]

/-- Put an element into the ascending group of a label. -/
def enlist (groups : Table β (List γ)) (label : β) (a : γ) : Table β (List γ) :=
  groups.insert label (Ascending.insert a (groups.group label))

theorem group_enlist (groups : Table β (List γ)) (label other : β) (a : γ) :
    (groups.enlist label a).group other =
      if other = label then Ascending.insert a (groups.group other) else groups.group other := by
  rw [group, enlist, find?_insert]
  by_cases h : other = label
  · simp [h]
  · simp [h, group]

variable [LE γ] [Std.IsLinearOrder γ] [Std.LawfulOrderLT γ]

theorem mem_group_enlist {groups : Table β (List γ)} {a b : γ} {label other : β} :
    b ∈ (groups.enlist label a).group other ↔ (b = a ∧ other = label) ∨ b ∈ groups.group other := by
  rw [group_enlist]
  by_cases h : other = label <;> simp [h]

end Groups

end Table
end CfiSlack
