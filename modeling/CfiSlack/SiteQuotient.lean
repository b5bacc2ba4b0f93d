import CfiSlack.Permitted
import CfiSlack.Queue

/-!
# Classes of call sites

Call sites that share a callee are in one class, and so are those that hang together through others. A
walk finds a class by going back and forth: from the site that has waited longest to its callees, and
from those that are new to their callers. Hubs are callees like other nodes. `work` counts the sites that
wait or have not been met, so it falls with every step.
-/
namespace CfiSlack

/-- The calls of some sites, each with a callee. -/
def View.calls (v : View) (sites : List Address) : List (Address × Node) :=
  sites.flatMap fun a => (v.callees (.block a)).map fun n => (a, n)

/-- The callees of sites, and the sites that callees are called from. -/
structure CallTable where
  callees : Table Address (List Node)
  callers : Table Node (List Address)
  mem_callers : ∀ n a, a ∈ callers.group n ↔ n ∈ callees.group a

namespace CallTable

def ofCalls (calls : List (Address × Node)) : CallTable where
  callees := .gather Prod.fst Prod.snd calls
  callers := .gather Prod.snd Prod.fst calls
  mem_callers n a := by simp [Table.group_gather]

/-- Sites with a callee. -/
def sites (t : CallTable) : List Address := t.callees.keys

theorem mem_sites_of_mem_callers {t : CallTable} {n : Node} {a : Address}
    (h : a ∈ t.callers.group n) : a ∈ t.sites := by
  rw [sites, Table.mem_keys]
  have hcallee := (t.mem_callers n a).1 h
  unfold Table.group at hcallee
  cases hfind : t.callees.find? a with
  | none => simp [hfind] at hcallee
  | some _ => rfl

/-- Sites with a callee that are not in `seen`. -/
def unseen (t : CallTable) (seen : List Address) : Nat :=
  t.sites.countP fun a => !seen.contains a

end CallTable

/-- A walk through a class of sites under way. -/
structure ClassWalk where
  queue : Queue Address
  /-- Sites met on this walk and on earlier ones. -/
  seen : List Address
  /-- Callees that were come to on this walk. -/
  visited : List Node
  /-- Whether a site of the class may go anywhere. -/
  free : Bool
  /-- What the sites of the class may reach, as an ascending list. -/
  targets : List Node

namespace ClassWalk

def start (seen : List Address) (site : Address) : ClassWalk where
  queue := Queue.empty.push site
  seen := site :: seen
  visited := []
  free := false
  targets := []

/-- Add what a site may reach. -/
def grant (w : ClassWalk) : Option Permitted → ClassWalk
  | some .everything => { w with free := true }
  | some (.only targets) => { w with targets := targets.foldr Ascending.insert w.targets }
  | none => w

/-- Come to a site, which has to wait if it is new. -/
def meet (w : ClassWalk) (site : Address) : ClassWalk :=
  if site ∈ w.seen then w
  else { w with seen := site :: w.seen, queue := w.queue.push site }

/-- Come to a callee, and go on to its callers if it is new. -/
def enter (t : CallTable) (w : ClassWalk) (n : Node) : ClassWalk :=
  let w := { w with free := w.free || n == .anywhere }
  if n ∈ w.visited then w
  else (t.callers.group n).foldl meet { w with visited := n :: w.visited }

/-- Go on from the site that has waited longest. -/
def step? (t : CallTable) (known : Address → Option Permitted) (w : ClassWalk) : Option ClassWalk :=
  w.queue.pop?.map fun (site, queue) =>
    (t.callees.group site).foldl (enter t) ({ w with queue := queue }.grant (known site))

/-- Sites that wait or have not been met. -/
def work (t : CallTable) (w : ClassWalk) : Nat := t.unseen w.seen + w.queue.toList.length

variable {t : CallTable} {w : ClassWalk}

theorem work_meet_le {site : Address} (h : site ∈ t.sites) : (w.meet site).work t ≤ w.work t := by
  unfold meet
  split
  · exact Nat.le_refl _
  · next hnew =>
    have hless : t.unseen (site :: w.seen) < t.unseen w.seen := countP_notMem_cons_lt h hnew
    simp only [work, Queue.toList_push, List.length_append, List.length_singleton]
    omega

theorem work_foldl_meet_le {sites : List Address} (h : ∀ a ∈ sites, a ∈ t.sites) :
    (sites.foldl meet w).work t ≤ w.work t := by
  induction sites generalizing w with
  | nil => exact Nat.le_refl _
  | cons a sites ih =>
    have hrest := ih (w := w.meet a) fun b hb => h b (List.mem_cons_of_mem a hb)
    exact Nat.le_trans hrest (work_meet_le (h a List.mem_cons_self))

theorem work_enter_le (n : Node) : (w.enter t n).work t ≤ w.work t := by
  unfold enter
  dsimp only
  split
  · exact Nat.le_refl _
  · exact work_foldl_meet_le fun a ha => CallTable.mem_sites_of_mem_callers ha

theorem work_foldl_enter_le (ns : List Node) : (ns.foldl (enter t) w).work t ≤ w.work t := by
  induction ns generalizing w with
  | nil => exact Nat.le_refl _
  | cons n ns ih => exact Nat.le_trans ih (work_enter_le n)

theorem work_grant (p : Option Permitted) : (w.grant p).work t = w.work t := by
  unfold grant
  split <;> rfl

theorem step?_eq_some {known : Address → Option Permitted} {next : ClassWalk}
    (h : w.step? t known = some next) :
    ∃ site queue, w.queue.pop? = some (site, queue) ∧
      next = (t.callees.group site).foldl (enter t) ({ w with queue := queue }.grant (known site)) := by
  obtain ⟨⟨site, queue⟩, hpop, rfl⟩ := Option.map_eq_some_iff.1 h
  exact ⟨site, queue, hpop, rfl⟩

/-- A step takes a site from the queue, and another one only gets there by being met. -/
theorem work_of_step? {known : Address → Option Permitted} {next : ClassWalk}
    (h : w.step? t known = some next) : next.work t < w.work t := by
  obtain ⟨site, queue, hpop, rfl⟩ := step?_eq_some h
  have hfold := work_foldl_enter_le (t := t) (w := { w with queue := queue }.grant (known site))
    (t.callees.group site)
  rw [work_grant] at hfold
  have hqueue := congrArg List.length (Queue.toList_of_pop? hpop)
  simp only [work, List.length_cons] at hfold hqueue ⊢
  omega

/-- Walk until no site waits. -/
def run (t : CallTable) (known : Address → Option Permitted) (w : ClassWalk) : ClassWalk :=
  match _ : w.step? t known with
  | none => w
  | some next => run t known next
termination_by w.work t
decreasing_by exact work_of_step? ‹w.step? t known = some next›

/-- Number of targets of the class in a program of `total` targets. -/
def size (total : Nat) (w : ClassWalk) : Nat := if w.free then total else w.targets.length

end ClassWalk

/-- Number of classes, and size of the largest. -/
structure SiteQuotient where
  classes : Nat
  largest : Nat
  deriving DecidableEq, Repr

/-- The classes counted so far, with the sites in them. -/
structure SiteCensus extends SiteQuotient where
  seen : List Address

namespace SiteCensus

def empty : SiteCensus := ⟨⟨0, 0⟩, []⟩

/-- Count the class of a site, unless that was done for another site of it. -/
def count (t : CallTable) (known : Address → Option Permitted) (total : Nat) (c : SiteCensus)
    (site : Address) : SiteCensus :=
  if site ∈ c.seen then c
  else
    let w := (ClassWalk.start c.seen site).run t known
    ⟨⟨c.classes + 1, max c.largest (w.size total)⟩, w.seen⟩

end SiteCensus

namespace SiteQuotient

def ofTable (t : CallTable) (known : Address → Option Permitted) (total : Nat) : SiteQuotient :=
  ((Ascending.ofList t.sites).foldl (SiteCensus.count t known total) .empty).toSiteQuotient

def ofSites (v : View) (sites : List Address) (known : Address → Option Permitted) (total : Nat) :
    SiteQuotient :=
  ofTable (.ofCalls (v.calls sites)) known total

def value? (q : SiteQuotient) : Option Float :=
  if q.classes = 0 ∨ q.largest = 0 then none
  else some ((UInt64.ofNat q.classes).toFloat / (UInt64.ofNat q.largest).toFloat)

end SiteQuotient
end CfiSlack
