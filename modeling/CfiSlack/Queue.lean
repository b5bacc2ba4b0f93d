/-!
# Queues

First in, first out. Elements are taken from the front and put at the back, which is turned around when
the front is used up. `toList_push` and `toList_of_pop?` say that the two parts behave as one list.
-/
namespace CfiSlack

structure Queue (α : Type) where
  front : List α
  /-- The latest element comes first. -/
  back : List α

namespace Queue

variable {α : Type}

def empty : Queue α := ⟨[], []⟩

def push (q : Queue α) (a : α) : Queue α := { q with back := a :: q.back }

/-- The oldest element, and the queue without it. -/
def pop? (q : Queue α) : Option (α × Queue α) :=
  match q.front with
  | a :: front => some (a, ⟨front, q.back⟩)
  | [] =>
    match q.back.reverse with
    | a :: front => some (a, ⟨front, []⟩)
    | [] => none

/-- All elements, the oldest first. -/
def toList (q : Queue α) : List α := q.front ++ q.back.reverse

@[simp]
theorem toList_empty : (empty : Queue α).toList = [] := rfl

@[simp]
theorem toList_push (q : Queue α) (a : α) : (q.push a).toList = q.toList ++ [a] := by
  simp [toList, push]

theorem toList_of_pop? {q rest : Queue α} {a : α} (h : q.pop? = some (a, rest)) :
    q.toList = a :: rest.toList := by
  obtain ⟨front, back⟩ := q
  unfold pop? at h
  cases front with
  | cons b front =>
    cases h
    rfl
  | nil =>
    cases hback : back.reverse with
    | nil => simp [hback] at h
    | cons b front =>
      simp only [hback, Option.some.injEq, Prod.mk.injEq] at h
      obtain ⟨rfl, rfl⟩ := h
      simp [toList, hback]

theorem toList_of_pop?_eq_none {q : Queue α} (h : q.pop? = none) : q.toList = [] := by
  obtain ⟨front, back⟩ := q
  unfold pop? at h
  cases front with
  | cons b front => cases h
  | nil =>
    cases hback : back.reverse with
    | nil => simp [toList, hback]
    | cons b front => simp [hback] at h

end Queue
end CfiSlack
