import CfiSlack.Route

/-!
# Reachability

Ancestors of the sink, with forbidden routes left out, and descendants of a node up to a cap. Both
are depth-first walks that enter a node once; where routes are forbidden or a cap is set, the order
of enumeration decides what they find. The backward walk keeps one trail for all its frames.
-/
namespace CfiSlack.View

/-- Neighbours of an entered node that are still to be looked at. -/
structure Frame (v : View) where
  /-- While routes are tracked, the length of the route to the entered node: it is the end of that
  length of the trail. -/
  depth : Option Nat
  pending : List Node
  within : ∀ n ∈ pending, n ∈ v.nodes

namespace Frame

variable {v : View}

def ofPred (v : View) (n : Node) (depth : Option Nat) : Frame v where
  depth := depth
  pending := v.pred n
  within _ h := mem_nodes_of_mem_pred h

def ofSucc (v : View) (n : Node) : Frame v where
  depth := none
  pending := v.succ n
  within _ h := mem_nodes_of_mem_succ h

def work : List (Frame v) → Nat
  | [] => 0
  | f :: stack => f.pending.length + 1 + work stack

end Frame

/-- The trail when a frame looks at a node. A frame that tracks its route cuts off what later frames
have left on the trail. -/
def trailTo (trail : Route) (depth : Option Nat) (n : Node) : Route :=
  match depth with
  | none => trail
  | some d => n :: trail.drop (trail.length - d)

/-- How a node is entered from a frame: not at all if the trail to it is forbidden, with its exact
route as long as that is no longer than the longest forbidden one, and untracked beyond. -/
def entryMode? (forbidden : ForbiddenRoutes) (trail : Route) (depth : Option Nat) :
    Option (Option Nat) :=
  match depth with
  | none => some none
  | some _ =>
    if trail.length > forbidden.maxLength then some none
    else if forbidden.contains trail then none
    else some (some trail.length)

def climb (v : View) (forbidden : ForbiddenRoutes) :
    Route → List (Frame v) → List Node → List Node
  | _, [], visited => visited
  | trail, ⟨_, [], _⟩ :: stack, visited => v.climb forbidden trail stack visited
  | trail, ⟨depth, n :: rest, within⟩ :: stack, visited =>
    let frame : Frame v := ⟨depth, rest, fun m hm => within m (List.mem_cons_of_mem n hm)⟩
    if _ : n ∈ visited then v.climb forbidden trail (frame :: stack) visited
    else
      match entryMode? forbidden (trailTo trail depth n) depth with
      | none => v.climb forbidden (trailTo trail depth n) (frame :: stack) visited
      | some next =>
        v.climb forbidden (trailTo trail depth n) (.ofPred v n next :: frame :: stack)
          (n :: visited)
termination_by _ stack visited => (v.unvisited visited, Frame.work stack)
decreasing_by
  · exact Prod.Lex.right _ (by simp [Frame.work])
  · exact Prod.Lex.right _ (by simp [Frame.work])
  · exact Prod.Lex.right _ (by simp [Frame.work])
  · exact Prod.Lex.left _ _ (unvisited_cons_lt (within n List.mem_cons_self) ‹_›)

/-- Ancestors of a goal, itself included, without the routes that end in a forbidden one. -/
def ancestorsExcluding (v : View) (goal : Node) (forbidden : ForbiddenRoutes) : List Node :=
  v.climb forbidden [goal] [.ofPred v goal (some 1)] [goal]

def ancestors (v : View) (goal : Node) : List Node := v.ancestorsExcluding goal .empty

/-- Walk forward through nodes that `keep` admits, until no frame is left or `full` says that
enough nodes are held. -/
def descend (v : View) (keep : Node → Bool) (full : Nat → Bool) :
    List (Frame v) → List Node → List Node
  | [], visited => visited
  | ⟨_, [], _⟩ :: stack, visited =>
    if full visited.length then visited else v.descend keep full stack visited
  | ⟨depth, n :: rest, within⟩ :: stack, visited =>
    let frame : Frame v := ⟨depth, rest, fun m hm => within m (List.mem_cons_of_mem n hm)⟩
    if full visited.length then visited
    else if _ : n ∈ visited ∨ keep n = false then v.descend keep full (frame :: stack) visited
    else v.descend keep full (.ofSucc v n :: frame :: stack) (n :: visited)
termination_by stack visited => (v.unvisited visited, Frame.work stack)
decreasing_by
  · exact Prod.Lex.right _ (by simp [Frame.work])
  · exact Prod.Lex.right _ (by simp [Frame.work])
  · exact Prod.Lex.left _ _
      (unvisited_cons_lt (within n List.mem_cons_self) fun hn =>
        ‹¬(n ∈ visited ∨ keep n = false)› (Or.inl hn))

/-- Nodes reachable from `n` through nodes that `keep` admits, at most `cap` of them; `n` itself
is always held. -/
def descendantsWhere (v : View) (keep : Node → Bool) (n : Node) (cap : Option Nat) : List Node :=
  v.descend keep (fun held => cap.any (· ≤ held)) [.ofSucc v n] [n]

def descendants (v : View) (n : Node) (cap : Option Nat) : List Node :=
  v.descendantsWhere (fun _ => true) n cap

end CfiSlack.View
