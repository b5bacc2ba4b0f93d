import CfiSlack.Redirects
import CfiSlack.Signature

/-!
# Signature indexes

Which signature, and which number of parameters, each function and stub has. A stub takes what its
target has when the stubs are gone through in ascending order.
-/
namespace CfiSlack

/-- Let every stub take the entry of its target. -/
def Redirects.propagate {α : Type} (r : Redirects) (entry : Table Address α → Address → Option α)
    (t : Table Address α) : Table Address α :=
  r.pairs.foldl
    (fun t (stub, target) =>
      match entry t target with
      | some a => t.insert stub a
      | none => t)
    t

namespace Table

variable {α β : Type} [DecidableEq β]

/-- Addresses by the label of their entries, each group ascending. An entry without a label is in no
group. -/
def groupRows (label? : α → Option β) : List (Address × α) → Table β (List Address)
  | [] => .empty
  | (a, entry) :: rows =>
    match label? entry with
    | some label => (groupRows label? rows).enlist label a
    | none => groupRows label? rows

def groupBy (t : Table Address α) (label? : α → Option β) : Table β (List Address) :=
  groupRows label? t.rows

theorem mem_group_groupRows {label? : α → Option β} {rows : List (Address × α)} {a : Address}
    {label : β} : a ∈ (groupRows label? rows).group label ↔
      ∃ entry, (a, entry) ∈ rows ∧ label? entry = some label := by
  induction rows with
  | nil => simp [groupRows, group]
  | cons row rows ih =>
    obtain ⟨b, e⟩ := row
    have hhead (entry : α) : (a, entry) ∈ (b, e) :: rows ↔ (a = b ∧ entry = e) ∨ (a, entry) ∈ rows := by
      simp
    cases h : label? e with
    | none =>
      simp only [groupRows, h, ih, hhead]
      constructor
      · rintro ⟨entry, hmem, hlabel⟩
        exact ⟨entry, Or.inr hmem, hlabel⟩
      · rintro ⟨entry, ⟨rfl, rfl⟩ | hmem, hlabel⟩
        · simp [h] at hlabel
        · exact ⟨entry, hmem, hlabel⟩
    | some other =>
      simp only [groupRows, h, mem_group_enlist, ih, hhead]
      constructor
      · rintro (⟨rfl, rfl⟩ | ⟨entry, hmem, hlabel⟩)
        · exact ⟨e, Or.inl ⟨rfl, rfl⟩, h⟩
        · exact ⟨entry, Or.inr hmem, hlabel⟩
      · rintro ⟨entry, ⟨rfl, rfl⟩ | hmem, hlabel⟩
        · simp only [h, Option.some.injEq] at hlabel
          exact Or.inl ⟨rfl, hlabel.symm⟩
        · exact Or.inr ⟨entry, hmem, hlabel⟩

theorem mem_group_groupBy {t : Table Address α} {label? : α → Option β} {a : Address} {label : β} :
    a ∈ (t.groupBy label?).group label ↔
      ∃ entry, t.find? a = some entry ∧ label? entry = some label := by
  simp only [groupBy, mem_group_groupRows, find?_eq_some]

theorem pairwise_group_groupRows (label? : α → Option β) (rows : List (Address × α)) (label : β) :
    ((groupRows label? rows).group label).Pairwise (· < ·) := by
  induction rows with
  | nil => simp [groupRows]
  | cons row rows ih =>
    obtain ⟨a, entry⟩ := row
    cases h : label? entry with
    | none =>
      simp only [groupRows, h]
      exact ih
    | some other =>
      simp only [groupRows, h, group_enlist]
      split
      · exact Ascending.pairwise_insert ih
      · exact ih

end Table

/-- The signature of each function and stub, and the way back from a signature. -/
structure TypeIndex where
  entries : Table Address Signature
  groups : Table Signature (List Address)
  mem_group : ∀ s a, a ∈ groups.group s ↔ entries.find? a = some s

namespace TypeIndex

/-- Functions of the table with their parameters. -/
def typedRows (table : SignatureTable) (functions : List Address) : List (Address × Signature) :=
  functions.filterMap fun f => (table.find? f).map fun types => (f, .params types)

/-- Functions and stub targets without an entry get stand-ins, numbered in ascending order. -/
def untypedRows (typed : List (Address × Signature)) (functions : List Address)
    (redirects : Redirects) : List (Address × Signature) :=
  let candidates := functions ++ redirects.pairs.map Prod.snd
  let missing := (Ascending.ofList candidates).filter fun f => (typed.lookup f).isNone
  missing.zipIdx.map fun (f, i) => (f, .untyped i)

def build (table : SignatureTable) (functions : List Address) (redirects : Redirects) :
    TypeIndex :=
  let typed := typedRows table functions
  let entries := redirects.propagate Table.find?
    (Table.ofRows (typed ++ untypedRows typed functions redirects))
  { entries := entries
    groups := entries.groupBy some
    mem_group := fun s a => by simp [Table.mem_group_groupBy] }

def signatureOf (index : TypeIndex) (f : Address) : Option Signature := index.entries.find? f

/-- Functions with exactly this signature, ascending. -/
def members (index : TypeIndex) (s : Signature) : List Address := index.groups.group s

/-- Functions that a call with this signature may reach, by widening. -/
def matching (index : TypeIndex) (s : Signature) : List Address :=
  s.supertypes.flatMap index.members

end TypeIndex

/-- The number of parameters of each function and stub, where `none` is an unknown number, and the way
back from a number. What has an unknown number is not grouped. -/
structure ArityIndex where
  entries : Table Address (Option Nat)
  groups : Table (Option Nat) (List Address)
  mem_group : ∀ n a, a ∈ groups.group n ↔ n ≠ none ∧ entries.find? a = some n

namespace ArityIndex

def build (table : SignatureTable) (functions : List Address) (redirects : Redirects) :
    ArityIndex :=
  let known := functions.filterMap fun f => (table.find? f).map fun types => (f, some types.length)
  let entries := redirects.propagate (fun t target => some (t.find? target).join) (Table.ofRows known)
  { entries := entries
    groups := entries.groupBy fun arity => arity.map some
    mem_group := fun n a => by
      cases n <;> simp [Table.mem_group_groupBy, Option.map_eq_some_iff] }

def arityOf (index : ArityIndex) (f : Address) : Option Nat := (index.entries.find? f).join

/-- Functions with this number of parameters, ascending; an unknown number fits none. -/
def functionsWith (index : ArityIndex) (arity : Option Nat) : List Address :=
  index.groups.group arity

end ArityIndex
end CfiSlack
