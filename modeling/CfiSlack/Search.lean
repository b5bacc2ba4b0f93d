import CfiSlack.Queue
import CfiSlack.Route

/-!
# Searching for routes

A search grows simple routes backward from a goal and asks a filter about each of them. Routes that are
to be grown further wait in a queue, each with the number of nodes that it may still grow by. `work` counts
how often a route is still to be taken from the queue, so it falls with every step.
-/
namespace CfiSlack

/-- The simple routes that are one node longer. -/
def View.extensions (v : View) : Route → List Route
  | [] => []
  | r@(n :: _) => ((v.pred n).filter (· ∉ r)).map (· :: r)

/-- A route to be grown, by one node and up to `room` of them. -/
structure WaitingRoute where
  route : Route
  room : Nat
  deriving DecidableEq, Repr

structure Search where
  queue : Queue WaitingRoute
  /-- The routes shown to the filter, the latest first. -/
  shown : List Route
  accepted : ForbiddenRoutes

namespace Search

def start (goal : Node) (limit : Nat) : Search where
  queue := Queue.empty.push ⟨[goal], limit⟩
  shown := []
  accepted := .empty

/-- Show the filter a route that was grown. A route that the filter extends waits, unless it has used
up its room. -/
def offer (filter : Route → Verdict) (room : Nat) (s : Search) (r : Route) : Search :=
  let s := { s with shown := r :: s.shown }
  match filter r with
  | .accept => { s with accepted := s.accepted.add r }
  | .reject => s
  | .extend => if 1 < room then { s with queue := s.queue.push ⟨r, room - 1⟩ } else s

def offerAll (filter : Route → Verdict) (room : Nat) (s : Search) (rs : List Route) : Search :=
  rs.foldl (offer filter room) s

/-- Grow the route that has waited longest. -/
def step? (v : View) (filter : Route → Verdict) (s : Search) : Option Search :=
  s.queue.pop?.map fun (w, queue) =>
    offerAll filter w.room { s with queue := queue } (v.extensions w.route)

/-- Of the routes grown with some room, those that wait. -/
def kept (filter : Route → Verdict) (room : Nat) (rs : List Route) : List WaitingRoute :=
  if 1 < room then (rs.filter fun r => filter r = .extend).map fun r => ⟨r, room - 1⟩ else []

/-- How often a route and the routes grown from it are taken from the queue. -/
def turns (v : View) (filter : Route → Verdict) : Nat → Route → Nat
  | 0, _ => 1
  | room + 1, r =>
    (kept filter (room + 1) (v.extensions r)).foldr (fun w n => turns v filter room w.route + n) 1

def workOf (v : View) (filter : Route → Verdict) (ws : List WaitingRoute) : Nat :=
  ws.foldr (fun w n => turns v filter w.room w.route + n) 0

/-- How often a route is still to be taken from the queue. -/
def work (v : View) (filter : Route → Verdict) (s : Search) : Nat := workOf v filter s.queue.toList

variable {v : View} {filter : Route → Verdict} {room : Nat}

theorem toList_queue_offer (s : Search) (r : Route) :
    (s.offer filter room r).queue.toList = s.queue.toList ++ kept filter room [r] := by
  unfold offer kept
  cases h : filter r with
  | accept => simp [h]
  | reject => simp [h]
  | extend => by_cases hroom : 1 < room <;> simp [h, hroom]

theorem kept_cons (r : Route) (rs : List Route) :
    kept filter room (r :: rs) = kept filter room [r] ++ kept filter room rs := by
  unfold kept
  by_cases hroom : 1 < room
  · by_cases h : filter r = .extend <;> simp [h, hroom]
  · simp [hroom]

theorem toList_queue_offerAll (s : Search) (rs : List Route) :
    (s.offerAll filter room rs).queue.toList = s.queue.toList ++ kept filter room rs := by
  induction rs generalizing s with
  | nil => simp [offerAll, kept]
  | cons r rs ih =>
    refine (ih (s.offer filter room r)).trans ?_
    rw [toList_queue_offer, kept_cons r rs, List.append_assoc]

theorem workOf_append (ws ws' : List WaitingRoute) :
    workOf v filter (ws ++ ws') = workOf v filter ws + workOf v filter ws' := by
  induction ws with
  | nil => simp [workOf]
  | cons w ws ih => exact (congrArg _ ih).trans (Nat.add_assoc _ _ _).symm

/-- A route is taken once itself, and then the routes that it leaves in the queue are. -/
theorem turns_eq (room : Nat) (r : Route) :
    turns v filter room r = workOf v filter (kept filter room (v.extensions r)) + 1 := by
  cases room with
  | zero => rfl
  | succ room =>
    have hroom : ∀ w ∈ kept filter (room + 1) (v.extensions r), w.room = room := by
      intro w hw
      unfold kept at hw
      split at hw
      · obtain ⟨q, -, rfl⟩ := List.mem_map.1 hw
        rfl
      · cases hw
    unfold turns workOf
    generalize kept filter (room + 1) (v.extensions r) = ws at hroom
    induction ws with
    | nil => rfl
    | cons w ws ih =>
      have htail := ih fun w' hw' => hroom w' (List.mem_cons_of_mem w hw')
      rw [List.foldr_cons, List.foldr_cons, htail, hroom w List.mem_cons_self, Nat.add_assoc]

theorem step?_eq_some {s next : Search} (h : s.step? v filter = some next) :
    ∃ w queue, s.queue.pop? = some (w, queue) ∧
      next = offerAll filter w.room { s with queue := queue } (v.extensions w.route) := by
  obtain ⟨⟨w, queue⟩, hpop, rfl⟩ := Option.map_eq_some_iff.1 h
  exact ⟨w, queue, hpop, rfl⟩

/-- A step takes one route from the queue. -/
theorem work_of_step? {s next : Search} (h : s.step? v filter = some next) :
    s.work v filter = next.work v filter + 1 := by
  obtain ⟨w, queue, hpop, rfl⟩ := step?_eq_some h
  have hwork : s.work v filter = turns v filter w.room w.route + workOf v filter queue.toList := by
    rw [work, Queue.toList_of_pop? hpop]
    rfl
  rw [hwork, work, toList_queue_offerAll, workOf_append, turns_eq]
  simp only [Nat.add_comm, Nat.add_left_comm]

def run (v : View) (filter : Route → Verdict) (s : Search) : Search :=
  match _ : s.step? v filter with
  | none => s
  | some next => run v filter next
termination_by s.work v filter
decreasing_by
  rw [work_of_step? ‹s.step? v filter = some next›]
  exact Nat.lt_succ_self _

end Search

namespace View

/-- The search for routes to a goal when it is over. Without a limit, routes may grow by as many nodes as
the view has. -/
def searched (v : View) (goal : Node) (filter : Route → Verdict) (limit : Option Nat) : Search :=
  (Search.start goal (limit.getD v.nodeCount)).run v filter

def offered (v : View) (goal : Node) (filter : Route → Verdict) (limit : Option Nat) :
    List Route :=
  (v.searched goal filter limit).shown.reverse

def search (v : View) (goal : Node) (filter : Route → Verdict) (limit : Option Nat) :
    ForbiddenRoutes :=
  (v.searched goal filter limit).accepted

end View
end CfiSlack
