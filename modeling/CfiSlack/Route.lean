import CfiSlack.View

/-!
# Routes to the sink

A route is a path written farthest node first, so a route to the sink ends with the sink. Forbidden
routes are a finite set of exact routes, filed by their length. A filter decides about the routes of a
search.
-/
namespace CfiSlack

abbrev Route := List Node

namespace Route

/-- Shorter routes first, routes of one length by their nodes. -/
def le (a b : Route) : Bool :=
  a.length < b.length || (a.length == b.length && !decide (b < a))

end Route

/-- Routes of each length, stored with the goal first. A length has a group once a route has it, and no
route is stored twice. -/
structure ForbiddenRoutes where
  byLength : Table Nat (List Route)
  length_eq : ∀ n, ∀ s ∈ byLength.group n, s.length = n
  nodup : ∀ n, (byLength.group n).Nodup
  ne_nil : ∀ n ∈ byLength.keys, byLength.group n ≠ []

namespace ForbiddenRoutes

def empty : ForbiddenRoutes where
  byLength := .empty
  length_eq := by simp
  nodup := by simp
  ne_nil := by simp [Table.keys, Table.empty]

/-- Whether a route is forbidden that is written with the goal first. -/
def containsReversed (f : ForbiddenRoutes) (s : Route) : Bool :=
  (f.byLength.group s.length).contains s

def contains (f : ForbiddenRoutes) (r : Route) : Bool := f.containsReversed r.reverse

/-- Add a route; one that is there already changes nothing. -/
def add (f : ForbiddenRoutes) (r : Route) : ForbiddenRoutes where
  byLength := f.byLength.insert r.length ((f.byLength.group r.length).insert r.reverse)
  length_eq n s hs := by
    rw [Table.group_insert] at hs
    split at hs
    · next hn =>
      rcases List.mem_insert_iff.1 hs with rfl | hs
      · rw [List.length_reverse, hn]
      · rw [f.length_eq r.length s hs, hn]
    · exact f.length_eq n s hs
  nodup n := by
    rw [Table.group_insert]
    split
    · by_cases hmem : r.reverse ∈ f.byLength.group r.length
      · rw [List.insert_of_mem hmem]
        exact f.nodup r.length
      · rw [List.insert_of_not_mem hmem]
        exact List.nodup_cons.2 ⟨hmem, f.nodup r.length⟩
    · exact f.nodup n
  ne_nil n hn := by
    rw [Table.group_insert]
    split
    · exact List.ne_nil_of_mem List.mem_insert_self
    · next hne =>
      rcases Table.mem_keys_insert.1 hn with heq | hn
      · exact absurd heq hne
      · exact f.ne_nil n hn

def ofRoutes (rs : List Route) : ForbiddenRoutes := rs.foldl add empty

/-- Add a route under a declared length. The answer says whether it was new. -/
def insert (f : ForbiddenRoutes) (declared : Nat) (r : Route) :
    Except GraphError Bool × ForbiddenRoutes :=
  if r.length = declared then (.ok (!f.contains r), f.add r)
  else (.error (.routeLength declared r.length), f)

def routes (f : ForbiddenRoutes) : List Route :=
  (f.byLength.rows.flatMap Prod.snd).map List.reverse

def size (f : ForbiddenRoutes) : Nat := f.byLength.rows.foldr (fun row n => row.2.length + n) 0

/-- Length of the longest route, 0 when there is none. -/
def maxLength (f : ForbiddenRoutes) : Nat := f.byLength.keys.foldr max 0

def ofLength (f : ForbiddenRoutes) (n : Nat) : List Route :=
  ((f.byLength.group n).map List.reverse).mergeSort Route.le

def toList (f : ForbiddenRoutes) : List Route :=
  (Ascending.ofList f.byLength.keys).flatMap f.ofLength

end ForbiddenRoutes

inductive Verdict where
  /-- Record the route and grow it no further. -/
  | accept
  /-- Grow it no further. -/
  | reject
  /-- Grow it by one more predecessor. -/
  | extend
  deriving DecidableEq, Repr

end CfiSlack
