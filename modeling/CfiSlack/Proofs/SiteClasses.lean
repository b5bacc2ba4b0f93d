import CfiSlack.SiteQuotient
import Mathlib.Data.Finset.Lattice.Fold
import Mathlib.Data.Finset.Union
import Mathlib.Logic.Relation
import Mathlib.Order.Lattice.Nat

/-!
# The classes of call sites

A walk that starts at a site nobody has met ends with the class of that site: the sites that are linked
to it by chains of shared callees, with all that they may reach. Walks from one site after the other
therefore count every class once.
-/
namespace CfiSlack

namespace SiteClass

variable {calls : Address → Node → Prop} {population : Finset Address} {a b : Address}

/-- Two sites are linked if a chain of shared callees joins them. -/
def Linked (calls : Address → Node → Prop) : Address → Address → Prop :=
  Relation.EqvGen fun a b => ∃ n, calls a n ∧ calls b n

open Classical in
/-- The sites of a population that are linked to one of them. -/
noncomputable def classOf (calls : Address → Node → Prop) (population : Finset Address)
    (a : Address) : Finset Address :=
  population.filter (Linked calls a)

noncomputable def classesOf (calls : Address → Node → Prop) (population : Finset Address) :
    Finset (Finset Address) :=
  population.image (classOf calls population)

/-- The targets that are listed for a site. -/
def listed : Option Permitted → Finset Node
  | some (.only targets) => targets.toFinset
  | _ => ∅

open Classical in
/-- Number of targets of a class: the whole program if a member may go anywhere, and else all that is
listed for some member. -/
noncomputable def size (calls : Address → Node → Prop) (known : Address → Option Permitted)
    (total : ℕ) (c : Finset Address) : ℕ :=
  if ∃ a ∈ c, known a = some .everything ∨ calls a .anywhere then total
  else (c.biUnion fun a => listed (known a)).card

theorem mem_classOf : b ∈ classOf calls population a ↔ b ∈ population ∧ Linked calls a b := by
  classical
  exact Finset.mem_filter

theorem self_mem_classOf (ha : a ∈ population) : a ∈ classOf calls population a :=
  mem_classOf.mpr ⟨ha, Relation.EqvGen.refl a⟩

theorem classOf_eq_of_linked (h : Linked calls a b) :
    classOf calls population a = classOf calls population b := by
  ext c
  rw [mem_classOf, mem_classOf]
  refine and_congr_right fun _ => ?_
  constructor
  · intro hc
    exact Relation.EqvGen.trans _ _ _ (Relation.EqvGen.symm _ _ h) hc
  · intro hc
    exact Relation.EqvGen.trans _ _ _ h hc

/-- A set of sites that holds all that share a callee with a member is made up of whole classes. -/
theorem mem_iff_of_linked {s : Address → Prop}
    (hclosed : ∀ a b n, calls a n → calls b n → s a → s b) (h : Linked calls a b) : s a ↔ s b := by
  induction h with
  | rel a b hshare =>
    obtain ⟨n, ha, hb⟩ := hshare
    exact ⟨hclosed a b n ha hb, hclosed b a n hb ha⟩
  | refl a => exact Iff.rfl
  | symm a b _ ih => exact ih.symm
  | trans a b c _ _ ih ih' => exact ih.trans ih'

end SiteClass

namespace CallTable

def Calls (t : CallTable) (a : Address) (n : Node) : Prop := n ∈ t.callees.group a

theorem mem_callers_iff {t : CallTable} {a : Address} {n : Node} :
    a ∈ t.callers.group n ↔ t.Calls a n := t.mem_callers n a

theorem Calls.mem_sites {t : CallTable} {a : Address} {n : Node} (h : t.Calls a n) : a ∈ t.sites :=
  mem_sites_of_mem_callers (mem_callers_iff.mpr h)

end CallTable

open SiteClass

namespace ClassWalk

variable {t : CallTable} {known : Address → Option Permitted} {earlier done : List Address}
  {first : Address} {pending : List Node} {w next : ClassWalk}

theorem exists_foldl_meet (w : ClassWalk) (sites : List Address) :
    ∃ seen queue, sites.foldl meet w = { w with seen := seen, queue := queue } ∧
      (∀ a, a ∈ seen ↔ a ∈ w.seen ∨ a ∈ sites) ∧
      ∀ a, a ∈ queue.toList ↔ a ∈ w.queue.toList ∨ a ∈ sites ∧ a ∉ w.seen := by
  induction sites generalizing w with
  | nil => exact ⟨w.seen, w.queue, rfl, by simp, by simp⟩
  | cons site sites ih =>
    obtain ⟨seen, queue, heq, hseen, hqueue⟩ := ih (w.meet site)
    rw [List.foldl_cons, heq]
    by_cases hmet : site ∈ w.seen
    · have hmeet : w.meet site = w := if_pos hmet
      rw [hmeet] at hseen hqueue ⊢
      refine ⟨seen, queue, rfl, ?_, ?_⟩
      · intro a
        rw [hseen]
        grind
      · intro a
        rw [hqueue]
        grind
    · have hmeet : w.meet site = { w with seen := site :: w.seen, queue := w.queue.push site } :=
        if_neg hmet
      rw [hmeet] at hseen hqueue ⊢
      refine ⟨seen, queue, rfl, ?_, ?_⟩
      · intro a
        simp only [hseen, List.mem_cons]
        grind
      · intro a
        simp only [hqueue, Queue.toList_push, List.mem_append, List.mem_cons]
        grind

theorem exists_grant (w : ClassWalk) (p : Option Permitted) (hw : w.targets.Pairwise (· < ·)) :
    ∃ free targets, w.grant p = { w with free := free, targets := targets } ∧
      (free = true ↔ w.free = true ∨ p = some .everything) ∧
      (∀ n, n ∈ targets ↔ n ∈ w.targets ∨ n ∈ listed p) ∧ targets.Pairwise (· < ·) := by
  cases p with
  | none => exact ⟨w.free, w.targets, rfl, by simp, by simp [listed], hw⟩
  | some p =>
    cases p with
    | everything => exact ⟨true, w.targets, rfl, by simp, by simp [listed], hw⟩
    | only targets =>
      refine ⟨w.free, targets.foldr Ascending.insert w.targets, rfl, by simp, ?_, ?_⟩
      · intro n
        induction targets with
        | nil => simp [listed]
        | cons m targets ih =>
          simp only [listed, List.mem_toFinset, List.foldr_cons, Ascending.mem_insert,
            List.mem_cons] at ih ⊢
          rw [ih]
          exact or_left_comm
      · induction targets with
        | nil => exact hw
        | cons m targets ih => exact Ascending.pairwise_insert ih

/-- What holds of a walk from `first` when it has gone on from the sites `done` and, of the callees of
the last of them, has still to come to those `pending`. -/
structure Walking (t : CallTable) (known : Address → Option Permitted) (earlier : List Address)
    (first : Address) (done : List Address) (pending : List Node) (w : ClassWalk) : Prop where
  mem_seen : ∀ a, a ∈ w.seen ↔ a ∈ earlier ∨ a ∈ done ∨ a ∈ w.queue.toList
  first_mem : first ∈ done ∨ first ∈ w.queue.toList
  linked : ∀ a, a ∈ done ∨ a ∈ w.queue.toList → Linked t.Calls first a
  called : ∀ n ∈ pending, ∃ a ∈ done, t.Calls a n
  entered : ∀ a ∈ done, ∀ n, t.Calls a n → n ∈ w.visited ∨ n ∈ pending
  met : ∀ n ∈ w.visited, ∀ a, t.Calls a n → a ∈ w.seen
  free_iff : w.free = true ∨ .anywhere ∈ pending ↔
    ∃ a ∈ done, known a = some .everything ∨ t.Calls a .anywhere
  mem_targets : ∀ n, n ∈ w.targets ↔ ∃ a ∈ done, n ∈ listed (known a)
  ascends : w.targets.Pairwise (· < ·)

theorem walking_start : Walking t known earlier first [] [] (start earlier first) where
  mem_seen a := by simp [start, or_comm]
  first_mem := by simp [start]
  linked a ha := by
    have haf : a = first := by simpa [start] using ha
    rw [haf]
    exact Relation.EqvGen.refl first
  called := by simp
  entered := by simp
  met := by simp [start]
  free_iff := by simp [start]
  mem_targets := by simp [start]
  ascends := List.Pairwise.nil

/-- The next site is taken from the queue, and its callees are ahead. -/
theorem Walking.take {site : Address} {queue : Queue Address}
    (h : Walking t known earlier first done [] w) (hpop : w.queue.pop? = some (site, queue)) :
    Walking t known earlier first (site :: done) (t.callees.group site)
      ({ w with queue := queue }.grant (known site)) := by
  have hqueue (a : Address) : a ∈ w.queue.toList ↔ a = site ∨ a ∈ queue.toList := by
    rw [Queue.toList_of_pop? hpop, List.mem_cons]
  obtain ⟨free, targets, heq, hfree, htargets, hascends⟩ :=
    exists_grant { w with queue := queue } (known site) h.ascends
  rw [heq]
  exact {
    mem_seen := by
      intro a
      rw [h.mem_seen, hqueue, List.mem_cons]
      grind
    first_mem := by
      have hfirst := h.first_mem
      rw [hqueue] at hfirst
      rw [List.mem_cons]
      grind
    linked := by
      intro a ha
      have hbefore : a ∈ done ∨ a ∈ w.queue.toList := by
        rw [hqueue]
        rw [List.mem_cons] at ha
        grind
      exact h.linked a hbefore
    called := fun n hn => ⟨site, List.mem_cons_self, hn⟩
    entered := by
      intro a ha n hn
      rcases List.mem_cons.mp ha with rfl | ha
      · exact Or.inr hn
      · left
        simpa using h.entered a ha n hn
    met := h.met
    free_iff := by
      have hbefore := h.free_iff
      simp only [List.not_mem_nil, or_false] at hbefore
      simp only [hfree, hbefore, List.exists_mem_cons_iff, CallTable.Calls]
      grind
    mem_targets := by
      intro n
      simp only [htargets, h.mem_targets, List.exists_mem_cons_iff]
      exact or_comm
    ascends := hascends }

/-- A callee is come to. The sites that are met there share it with one that the walk has gone on from. -/
theorem Walking.enter {n : Node} (h : Walking t known earlier first done (n :: pending) w) :
    Walking t known earlier first done pending (w.enter t n) := by
  obtain ⟨caller, hcaller, hcalls⟩ := h.called n List.mem_cons_self
  have hpending : ∀ m ∈ pending, ∃ a ∈ done, t.Calls a m :=
    fun m hm => h.called m (List.mem_cons_of_mem n hm)
  have hfree : (w.free || n == .anywhere) = true ∨ .anywhere ∈ pending ↔
      ∃ a ∈ done, known a = some .everything ∨ t.Calls a .anywhere := by
    rw [← h.free_iff, Bool.or_eq_true, beq_iff_eq, List.mem_cons, or_assoc,
      @eq_comm _ n]
  unfold ClassWalk.enter
  dsimp only
  split
  · next hvisited =>
    refine ⟨h.mem_seen, h.first_mem, h.linked, hpending, ?_, h.met, hfree, h.mem_targets, h.ascends⟩
    intro a ha m hm
    rcases h.entered a ha m hm with hold | hnew
    · exact Or.inl hold
    · rcases List.mem_cons.mp hnew with rfl | hnew
      · exact Or.inl hvisited
      · exact Or.inr hnew
  · obtain ⟨seen, queue, heq, hseen, hqueue⟩ := exists_foldl_meet
      { w with free := w.free || n == .anywhere, visited := n :: w.visited } (t.callers.group n)
    simp only [CallTable.mem_callers_iff] at hseen hqueue
    rw [heq]
    exact {
      mem_seen := by
        intro a
        have hold := h.mem_seen a
        rw [hseen, hqueue]
        grind
      first_mem := by
        have hfirst := h.first_mem
        rw [hqueue]
        grind
      linked := by
        intro a ha
        rw [hqueue] at ha
        by_cases hnew : t.Calls a n
        · have hshare : Linked t.Calls caller a := Relation.EqvGen.rel _ _ ⟨n, hcalls, hnew⟩
          exact Relation.EqvGen.trans _ _ _ (h.linked caller (Or.inl hcaller)) hshare
        · have hold : a ∈ done ∨ a ∈ w.queue.toList := by grind
          exact h.linked a hold
      called := hpending
      entered := by
        intro a ha m hm
        have hbefore := h.entered a ha m hm
        simp only [List.mem_cons] at hbefore ⊢
        grind
      met := by
        intro m hm a ha
        rw [hseen]
        rcases List.mem_cons.mp hm with rfl | hm
        · exact Or.inr ha
        · exact Or.inl (h.met m hm a ha)
      free_iff := hfree
      mem_targets := h.mem_targets
      ascends := h.ascends }

theorem Walking.foldl_enter (h : Walking t known earlier first done pending w) :
    Walking t known earlier first done [] (pending.foldl (ClassWalk.enter t) w) := by
  induction pending generalizing w with
  | nil => exact h
  | cons n pending ih => exact ih h.enter

theorem Walking.step (h : Walking t known earlier first done [] w)
    (hstep : w.step? t known = some next) :
    ∃ site, Walking t known earlier first (site :: done) [] next := by
  obtain ⟨site, queue, hpop, rfl⟩ := step?_eq_some hstep
  exact ⟨site, (h.take hpop).foldl_enter⟩

theorem toList_of_idle (h : w.step? t known = none) : w.queue.toList = [] :=
  Queue.toList_of_pop?_eq_none (Option.map_eq_none_iff.mp h)

theorem Walking.run (h : Walking t known earlier first done [] w) :
    ∃ found, Walking t known earlier first found [] (w.run t known) ∧
      (w.run t known).queue.toList = [] := by
  fun_induction ClassWalk.run t known w generalizing done with
  | case1 w hidle => exact ⟨done, h, toList_of_idle hidle⟩
  | case2 w next hstep ih =>
    obtain ⟨site, hnext⟩ := h.step hstep
    exact ih hnext

/-- When nothing waits any more, the walk has gone on from all sites that are linked to its first one. No
site of an earlier class is among them, since its first site would be one too. -/
theorem Walking.mem_done_iff (h : Walking t known earlier first done [] w)
    (hidle : w.queue.toList = []) (hnew : first ∉ earlier)
    (hearlier : ∀ a b, Linked t.Calls a b → a ∈ earlier → b ∈ earlier) (a : Address) :
    a ∈ done ↔ Linked t.Calls first a := by
  have hfirst : first ∈ done := by simpa [hidle] using h.first_mem
  have hclosed : ∀ a b n, t.Calls a n → t.Calls b n → a ∈ done → b ∈ done := by
    intro a b n ha hb hdone
    have hvisited : n ∈ w.visited := by simpa using h.entered a hdone n ha
    have hseen := (h.mem_seen b).mp (h.met n hvisited b hb)
    rw [hidle] at hseen
    rcases hseen with hold | hdone | hwaits
    · have hlinked : Linked t.Calls b a := Relation.EqvGen.rel _ _ ⟨n, hb, ha⟩
      have hback := Relation.EqvGen.symm _ _ (h.linked a (Or.inl hdone))
      exact absurd (hearlier a first hback (hearlier b a hlinked hold)) hnew
    · exact hdone
    · simp at hwaits
  constructor
  · intro ha
    exact h.linked a (Or.inl ha)
  · intro ha
    exact (mem_iff_of_linked hclosed ha).mp hfirst

/-- A walk from a site that was not met before finds its class and counts the targets of it. -/
theorem run_start (known : Address → Option Permitted) (hnew : first ∉ earlier)
    (hfirst : first ∈ t.sites) (hearlier : ∀ a b, Linked t.Calls a b → a ∈ earlier → b ∈ earlier)
    (total : ℕ) :
    (∀ a, a ∈ ((start earlier first).run t known).seen ↔ a ∈ earlier ∨ Linked t.Calls first a) ∧
      ((start earlier first).run t known).size total =
        SiteClass.size t.Calls known total (classOf t.Calls t.sites.toFinset first) := by
  have hstart : Walking t known earlier first [] [] (start earlier first) := walking_start
  obtain ⟨found, hwalk, hidle⟩ := hstart.run
  have hfound := hwalk.mem_done_iff hidle hnew hearlier
  generalize (start earlier first).run t known = w at hwalk hidle
  have hmember (a : Address) : a ∈ found ↔ a ∈ classOf t.Calls t.sites.toFinset first := by
    have hsite : Linked t.Calls first a → a ∈ t.sites := by
      intro ha
      exact (mem_iff_of_linked (fun _ _ _ _ hb _ => hb.mem_sites) ha).mp hfirst
    rw [hfound, mem_classOf, List.mem_toFinset]
    exact (and_iff_right_of_imp hsite).symm
  have hfree : w.free = true ↔ ∃ a ∈ classOf t.Calls t.sites.toFinset first,
      known a = some .everything ∨ t.Calls a .anywhere := by
    simpa [hmember] using hwalk.free_iff
  have htargets : w.targets.toFinset =
      (classOf t.Calls t.sites.toFinset first).biUnion fun a => listed (known a) := by
    ext n
    simp [hwalk.mem_targets, hmember]
  have hlength := List.toFinset_card_of_nodup (Ascending.nodup_of_pairwise hwalk.ascends)
  constructor
  · intro a
    rw [hwalk.mem_seen, hidle, hfound]
    simp
  · rw [ClassWalk.size, SiteClass.size, ← hlength, htargets]
    by_cases hf : w.free = true
    · rw [if_pos hf, if_pos (hfree.mp hf)]
    · rw [if_neg hf, if_neg (mt hfree.mpr hf)]

end ClassWalk

namespace SiteCensus

variable {t : CallTable} {known : Address → Option Permitted} {total : ℕ} {passed : List Address}
  {c : SiteCensus} {site : Address}

/-- The classes of the sites passed so far are counted. -/
structure Counted (t : CallTable) (known : Address → Option Permitted) (total : ℕ)
    (passed : List Address) (c : SiteCensus) : Prop where
  mem_seen : ∀ b, b ∈ c.seen ↔ ∃ a ∈ passed, Linked t.Calls a b
  classes_eq : c.classes = (passed.toFinset.image (classOf t.Calls t.sites.toFinset)).card
  largest_eq : c.largest = (passed.toFinset.image (classOf t.Calls t.sites.toFinset)).sup
    (SiteClass.size t.Calls known total)

theorem counted_empty : Counted t known total [] empty where
  mem_seen := by simp [empty]
  classes_eq := by simp [empty]
  largest_eq := by simp [empty]

theorem Counted.count (h : Counted t known total passed c) (hsite : site ∈ t.sites) :
    Counted t known total (site :: passed) (c.count t known total site) := by
  have himage : (site :: passed).toFinset.image (classOf t.Calls t.sites.toFinset) =
      insert (classOf t.Calls t.sites.toFinset site)
        (passed.toFinset.image (classOf t.Calls t.sites.toFinset)) := by
    rw [List.toFinset_cons, Finset.image_insert]
  unfold SiteCensus.count
  split
  · next hmet =>
    obtain ⟨a, ha, hlinked⟩ := (h.mem_seen site).mp hmet
    have hknown : classOf t.Calls t.sites.toFinset site ∈
        passed.toFinset.image (classOf t.Calls t.sites.toFinset) := by
      rw [← classOf_eq_of_linked hlinked]
      exact Finset.mem_image_of_mem _ (List.mem_toFinset.mpr ha)
    rw [Finset.insert_eq_of_mem hknown] at himage
    refine ⟨?_, himage ▸ h.classes_eq, himage ▸ h.largest_eq⟩
    intro b
    rw [h.mem_seen]
    constructor
    · rintro ⟨d, hd, hlink⟩
      exact ⟨d, List.mem_cons_of_mem site hd, hlink⟩
    · rintro ⟨d, hd, hlink⟩
      rcases List.mem_cons.mp hd with rfl | hd
      · exact ⟨a, ha, Relation.EqvGen.trans _ _ _ hlinked hlink⟩
      · exact ⟨d, hd, hlink⟩
  · next hnew =>
    dsimp only
    have hearlier : ∀ a b, Linked t.Calls a b → a ∈ c.seen → b ∈ c.seen := by
      intro a b hlink ha
      obtain ⟨d, hd, hda⟩ := (h.mem_seen a).mp ha
      exact (h.mem_seen b).mpr ⟨d, hd, Relation.EqvGen.trans _ _ _ hda hlink⟩
    obtain ⟨hseen, hsize⟩ := ClassWalk.run_start known hnew hsite hearlier total
    have hfresh : classOf t.Calls t.sites.toFinset site ∉
        passed.toFinset.image (classOf t.Calls t.sites.toFinset) := by
      intro hmem
      obtain ⟨a, ha, heq⟩ := Finset.mem_image.mp hmem
      have hself : site ∈ classOf t.Calls t.sites.toFinset a := by
        rw [heq]
        exact self_mem_classOf (List.mem_toFinset.mpr hsite)
      exact hnew ((h.mem_seen site).mpr ⟨a, List.mem_toFinset.mp ha, (mem_classOf.mp hself).2⟩)
    refine ⟨?_, ?_, ?_⟩
    · intro b
      rw [hseen, h.mem_seen, List.exists_mem_cons_iff, or_comm]
    · rw [himage, Finset.card_insert_of_notMem hfresh, h.classes_eq]
    · rw [himage, Finset.sup_insert, hsize, h.largest_eq]
      exact max_comm _ _

theorem Counted.foldl (sites : List Address) (h : Counted t known total passed c)
    (hsites : ∀ a ∈ sites, a ∈ t.sites) :
    Counted t known total (sites.reverse ++ passed) (sites.foldl (SiteCensus.count t known total) c) := by
  induction sites generalizing passed c with
  | nil => exact h
  | cons site sites ih =>
    have hnext := h.count (hsites site List.mem_cons_self)
    have hrest := ih hnext fun a ha => hsites a (List.mem_cons_of_mem site ha)
    simpa using hrest

end SiteCensus

namespace View

variable {v v' : View} {sites sites' : List Address} {a : Address} {n : Node}

/-- One of the sites leads to the node, other than by falling through. -/
def CallsFrom (v : View) (sites : List Address) (a : Address) (n : Node) : Prop :=
  a ∈ sites ∧ n ∈ v.succ (.block a) ∧ v.kind? (.block a) n ≠ some .follow

open Classical in
/-- The sites that lead anywhere. -/
noncomputable def callingSites (v : View) (sites : List Address) : Finset Address :=
  sites.toFinset.filter fun a => ∃ n, v.CallsFrom sites a n

/-- The sites that lead anywhere, in classes. -/
noncomputable def siteClasses (v : View) (sites : List Address) : Finset (Finset Address) :=
  classesOf (v.CallsFrom sites) (v.callingSites sites)

theorem mem_calls : (a, n) ∈ v.calls sites ↔ v.CallsFrom sites a n := by
  simp [calls, callees, CallsFrom]

theorem calls_ofCalls (v : View) (sites : List Address) :
    (CallTable.ofCalls (v.calls sites)).Calls = v.CallsFrom sites := by
  funext a n
  have hgroup : n ∈ (CallTable.ofCalls (v.calls sites)).callees.group a ↔ (a, n) ∈ v.calls sites := by
    simp [CallTable.ofCalls, Table.group_gather]
  exact propext (hgroup.trans mem_calls)

theorem mem_sites_ofCalls :
    a ∈ (CallTable.ofCalls (v.calls sites)).sites ↔ a ∈ v.callingSites sites := by
  classical
  have hkeys : a ∈ (CallTable.ofCalls (v.calls sites)).sites ↔ ∃ n, (a, n) ∈ v.calls sites := by
    simp [CallTable.ofCalls, CallTable.sites, Table.mem_keys_gather]
  have hlisted : (∃ n, v.CallsFrom sites a n) → a ∈ sites := by
    intro h
    obtain ⟨n, hcalls⟩ := h
    exact hcalls.1
  rw [hkeys, callingSites, Finset.mem_filter, List.mem_toFinset]
  simp only [mem_calls]
  exact (and_iff_right_of_imp hlisted).symm

end View

namespace SiteQuotient

theorem ofTable_eq (t : CallTable) (known : Address → Option Permitted) (total : ℕ) :
    ofTable t known total = ⟨(classesOf t.Calls t.sites.toFinset).card,
      (classesOf t.Calls t.sites.toFinset).sup (SiteClass.size t.Calls known total)⟩ := by
  have hsites : ∀ a ∈ Ascending.ofList t.sites, a ∈ t.sites := fun _ => Ascending.mem_ofList.mp
  have hempty : SiteCensus.Counted t known total [] .empty := SiteCensus.counted_empty
  have hcounted := hempty.foldl _ hsites
  have hpassed : ((Ascending.ofList t.sites).reverse ++ []).toFinset = t.sites.toFinset := by
    ext a
    simp
  have hclasses := hcounted.classes_eq
  have hlargest := hcounted.largest_eq
  rw [hpassed] at hclasses hlargest
  exact congrArg₂ SiteQuotient.mk hclasses hlargest

theorem ofSites_eq (v : View) (sites : List Address) (known : Address → Option Permitted)
    (total : ℕ) :
    ofSites v sites known total = ⟨(v.siteClasses sites).card,
      (v.siteClasses sites).sup (SiteClass.size (v.CallsFrom sites) known total)⟩ := by
  have hsites : (CallTable.ofCalls (v.calls sites)).sites.toFinset = v.callingSites sites := by
    ext a
    rw [List.mem_toFinset, View.mem_sites_ofCalls]
  rw [ofSites, ofTable_eq, View.calls_ofCalls, hsites]
  rfl

theorem value?_eq_none {q : SiteQuotient} : q.value? = none ↔ q.classes = 0 ∨ q.largest = 0 := by
  unfold value?
  split
  · next h => simp [h]
  · next h => simp [h]

/-- The quotient has the number of classes of sites that share callees, over the size of the largest of
them. It has no value just if there is no class or none has a target. Neither the order of the sites nor
that of their successors matters. -/
theorem quotient_exact (v : View) (sites : List Address) (known : Address → Option Permitted)
    (total : ℕ) :
    (ofSites v sites known total).classes = (v.siteClasses sites).card ∧
    (ofSites v sites known total).largest =
      (v.siteClasses sites).sup (SiteClass.size (v.CallsFrom sites) known total) ∧
    ((ofSites v sites known total).value? = none ↔ v.siteClasses sites = ∅ ∨
      ∀ c ∈ v.siteClasses sites, SiteClass.size (v.CallsFrom sites) known total c = 0) ∧
    ∀ (v' : View) (sites' : List Address), (∀ a, a ∈ sites' ↔ a ∈ sites) →
      (∀ m n, n ∈ v'.succ m ↔ n ∈ v.succ m) → (∀ m n, v'.kind? m n = v.kind? m n) →
      ofSites v' sites' known total = ofSites v sites known total := by
  have hquotient := ofSites_eq v sites known total
  refine ⟨by rw [hquotient], by rw [hquotient], ?_, ?_⟩
  · rw [value?_eq_none, hquotient, Finset.card_eq_zero, ← Nat.bot_eq_zero, Finset.sup_eq_bot_iff]
  · intro v' sites' hsites hsucc hkind
    have hcalls : v'.CallsFrom sites' = v.CallsFrom sites := by
      funext a n
      simp only [View.CallsFrom, hsites, hsucc, hkind]
    have hcalling : v'.callingSites sites' = v.callingSites sites := by
      ext a
      simp only [View.callingSites, Finset.mem_filter, List.mem_toFinset, hcalls, hsites]
    rw [ofSites_eq v', hquotient, View.siteClasses, View.siteClasses, hcalls, hcalling]

/-- Sites 1 and 2 share a callee and sites 2 and 3 a hub, so the three are in one class though 1 and 3
share nothing. Site 4 is alone, and site 5 only falls through. -/
def chainedCalls : Overlay where
  base :=
    { blocks := ⟨[(1, { size := 4, instrs := 1, terminator := some .callIndirect }),
        (2, { size := 4, instrs := 1, terminator := some .callIndirect }),
        (3, { size := 4, instrs := 1, terminator := some .callIndirect }),
        (4, { size := 4, instrs := 1, terminator := some .callIndirect }),
        (5, { size := 4, instrs := 1, terminator := some .callIndirect }),
        (16, { size := 8, instrs := 2 }), (17, { size := 8, instrs := 2 }),
        (18, { size := 8, instrs := 2 })], by decide⟩
      flows := ⟨[(⟨.block 1, .block 16⟩, { kind := .callIndirect }),
        (⟨.block 2, .block 16⟩, { kind := .callIndirect }),
        (⟨.block 4, .block 18⟩, { kind := .callIndirect }),
        (⟨.block 5, .block 16⟩, { kind := .follow })], by decide⟩
      hasSink := false
      source_mem := by simp [Table.keys]
      target_mem := by simp [Table.keys] }
  extra := [⟨.block 2, .hub .functions⟩, ⟨.block 3, .hub .functions⟩, ⟨.hub .functions, .block 16⟩,
    ⟨.hub .functions, .block 17⟩]
  extra_nodup := by decide
  extra_fresh := by decide
  extra_sound := by decide

theorem quotient_exact_chainedCalls :
    let v := chainedCalls.view .ascending
    let known := fun a => some (v.permitted (.block a))
    (v.siteClasses [5, 4, 3, 2, 1]).card = 2 ∧
      (v.siteClasses [5, 4, 3, 2, 1]).sup
        (SiteClass.size (v.CallsFrom [5, 4, 3, 2, 1]) known 10) = 2 ∧
      (∃ c ∈ v.siteClasses [5, 4, 3, 2, 1],
        SiteClass.size (v.CallsFrom [5, 4, 3, 2, 1]) known 10 c ≠ 0) ∧
      ofSites (chainedCalls.view .descending) [1, 3, 5, 2, 4, 1] known 10 = ⟨2, 2⟩ := by
  intro v known
  have hquotient : ofSites v [5, 4, 3, 2, 1] known 10 = ⟨2, 2⟩ := by decide +kernel
  obtain ⟨hclasses, hlargest, hvalue, horder⟩ := quotient_exact v [5, 4, 3, 2, 1] known 10
  have hsites : ∀ a, a ∈ [1, 3, 5, 2, 4, 1] ↔ a ∈ ([5, 4, 3, 2, 1] : List Address) := by
    intro a
    simp only [List.mem_cons, List.not_mem_nil]
    grind
  have hsome : (ofSites v [5, 4, 3, 2, 1] known 10).value? ≠ none := by
    rw [Ne, value?_eq_none, hquotient]
    simp
  rw [hquotient] at hclasses hlargest
  refine ⟨hclasses.symm, hlargest.symm, ?_, ?_⟩
  · have hpositive := (not_or.mp (mt hvalue.mpr hsome)).2
    push Not at hpositive
    exact hpositive
  · rw [horder (chainedCalls.view .descending) _ hsites (by simp [v, Overlay.view])
      fun _ _ => rfl, hquotient]

end SiteQuotient
end CfiSlack
