import CfiSlack.Proofs.PolicyFailures
import CfiSlack.Proofs.SiteSurveys

/-!
# Sites checked for anomalies

A resolver looks at all call sites whenever it works out a policy that reads types, and each time it
counts them as checked. A policy that is held is not worked out, so the count goes beyond the number of
sites just if a policy is needed again after it was taken. An anomaly is recorded once however often the
sites are looked at, so the reported rate shrinks with each further look.
-/
namespace CfiSlack

namespace Resolver

variable {α β : Type} {i : PolicyInputs} {r s t : Resolver} {p q : Policy} {ps qs : List Policy}

/-- Neither what is held nor the anomalies are touched. -/
structure Unmoved (r s : Resolver) : Prop where
  resolved : s.resolved = r.resolved
  anomalies : s.anomalies = r.anomalies

theorem Unmoved.refl (r : Resolver) : Unmoved r r := ⟨rfl, rfl⟩

theorem unmoved_stubRedirects (r : Resolver) : Unmoved r r.stubRedirects.2 := by
  unfold stubRedirects
  split
  · exact .refl r
  · split <;> exact ⟨rfl, rfl⟩

theorem unmoved_indexFor {shared : SharedIndex α} (r : Resolver) (p : Policy)
    (hkeep : ∀ index r, Unmoved r (shared.keep index r)) : Unmoved r (r.indexFor p shared).2 := by
  have hredirects := r.unmoved_stubRedirects
  unfold indexFor
  split
  · exact .refl r
  · split
    · exact .refl r
    · generalize r.stubRedirects = o at hredirects ⊢
      obtain ⟨result, after⟩ := o
      cases result with
      | error e => exact hredirects
      | ok redirects =>
        simp only [Outcome.andThen]
        split
        · exact ⟨(hkeep _ after).resolved.trans hredirects.resolved,
            (hkeep _ after).anomalies.trans hredirects.anomalies⟩
        · exact hredirects

/-- An outcome of work on a policy: what is held has not changed, and if the policy is that of a kind of
anomaly and the work did not fail, the sites were looked at once more. -/
structure Looks (i : PolicyInputs) (r : Resolver) (p : Policy) (o : Outcome α) : Prop where
  resolved : o.2.resolved = r.resolved
  rounds : ∀ kind n, i.Rounds kind n r.anomalies →
    i.Rounds kind (n + (p = kind.policy && o.1.isOk).toNat) o.2.anomalies

theorem Looks.congr {o : Outcome α} {o' : Outcome β} (h : Looks i r p o) (hafter : o'.2 = o.2)
    (hok : o'.1.isOk = o.1.isOk) : Looks i r p o' := by
  refine ⟨hafter ▸ h.resolved, ?_⟩
  rw [hafter, hok]
  exact h.rounds

/-- The last step of a computation does not count if it leaves the resolver alone and does not fail. -/
theorem Looks.andThen {o : Outcome α} {next : α → Resolver → Outcome β} (h : Looks i r p o)
    (hafter : ∀ a s, (next a s).2 = s) (hok : ∀ a, o.1 = .ok a → (next a o.2).1.isOk = true) :
    Looks i r p (o.andThen next) := by
  obtain ⟨result, after⟩ := o
  cases result with
  | error e => exact h.congr rfl rfl
  | ok a => exact h.congr (hafter a after) (hok a rfl)

theorem Unmoved.looks {o : Outcome α} (h : Unmoved r s) (ho : Looks i s p o) : Looks i r p o :=
  ⟨ho.resolved.trans h.resolved, fun kind n hr => ho.rounds kind n (h.anomalies ▸ hr)⟩

theorem looks_of_error {e : PolicyError} : Looks i r p ((.error e, r) : Outcome α) := by
  refine ⟨rfl, ?_⟩
  intro kind n hr
  simpa [Except.isOk, Except.toBool] using hr

theorem Faithful.looks_survey (h : r.Faithful i) (kind : Mismatch)
    {find : Address → Except PolicyError (PolicyInputs.SiteFinding (List α))}
    (hfind : ∀ site finding, find site = .ok finding →
      (finding.anomalous = true ↔ i.Anomalous site kind)) :
    Looks i r kind.policy (r.survey kind find) := by
  refine ⟨rfl, ?_⟩
  intro other n hr
  rw [(h.survey kind find).answer_eq]
  simp only [Resolver.survey, h.inputs]
  exact hr.survey hfind

/-- An index is sought first, which moves nothing. -/
theorem Faithful.looks_indexed {shared : SharedIndex β} (h : r.Faithful i) (hshared : shared.Lawful)
    (hkeep : ∀ index r, Unmoved r (shared.keep index r)) {next : β → Resolver → Outcome α}
    (hnext : ∀ index s, s.Faithful i → i.Indexed shared.build index → Looks i s q (next index s)) :
    Looks i r q ((r.indexFor p shared).andThen next) := by
  have hserves := h.indexFor p hshared
  have hunmoved := r.unmoved_indexFor p hkeep
  generalize r.indexFor p shared = o at hserves hunmoved ⊢
  obtain ⟨result, after⟩ := o
  have hanswer : result = i.indexFor p shared.build := hserves.answer_eq
  cases result with
  | error e => exact hunmoved.looks looks_of_error
  | ok index =>
    have hindexed := (PolicyInputs.indexed_of_indexFor hanswer.symm).2
    exact hunmoved.looks (hnext index after hserves.faithful hindexed)

theorem Faithful.looks_rawEdges (h : r.Faithful i) (p : Policy) : Looks i r p (r.rawEdges p) := by
  cases p with
  | typed =>
    refine h.looks_indexed typeIndex_lawful (fun _ _ => ⟨rfl, rfl⟩) ?_
    intro index s hs hindexed
    rw [hs.inputs]
    exact hs.looks_survey .types fun _ _ => PolicyInputs.anomalous_typeFinding hindexed
  | argCount =>
    refine h.looks_indexed arityIndex_lawful (fun _ _ => ⟨rfl, rfl⟩) ?_
    intro index s hs hindexed
    rw [hs.inputs]
    refine Looks.andThen ?_ (fun _ _ => rfl) fun _ _ => rfl
    exact hs.looks_survey .argCounts fun _ _ => PolicyInputs.anomalous_arityFinding hindexed
  | _ =>
    refine ⟨rfl, ?_⟩
    intro kind n hr
    rw [decide_eq_false (by cases kind <;> simp [Mismatch.policy])]
    exact hr

/-- The edges of a policy can always be handed out, so the last step never fails. -/
theorem Faithful.looks_compute (h : r.Faithful i) (hp : p.dependencies = []) :
    Looks i r p (r.compute p) := by
  have hraw := h.rawEdges p
  simp only [compute, hp]
  refine (h.looks_rawEdges p).andThen (fun _ _ => rfl) ?_
  intro raw hok
  rw [hraw.faithful.inputs]
  rw [hraw.answer_eq] at hok
  have hadded := PolicyInputs.ownAnswer_eq_map i p
  simp only [PolicyInputs.ownAnswer, hok] at hadded
  exact isOk_iff.mpr ⟨_, hadded⟩

/-- The edges of a policy are at hand. -/
def holds (r : Resolver) (p : Policy) : Bool := (r.resolved.find? p).isSome

theorem resolve_of_holds (h : r.holds p = true) : r.resolve p = (.ok (), r) := by
  rw [resolve]
  exact if_pos h

theorem resolve_of_not_holds (h : r.holds p = false) (hnot : p ∉ r.resolving) : r.resolve p =
    finish p (((r.begin p).resolveAll p.dependencies).andThen fun _ r => r.compute p) := by
  rw [resolve, if_neg hnot]
  exact if_neg (Bool.eq_false_iff.mp h)

/-- A request for the one policy leads to the other: they are the same, or the first depends on the
second and is not held. -/
def Meets (r : Resolver) (p q : Policy) : Prop := p = q ∨ q ∈ p.dependencies ∧ r.holds p = false

/-- The policies that are worked out when one is asked for: it and those that it depends on, as far as
they have an answer and are not held. For a policy that is held there is nothing to do. -/
def fresh (r : Resolver) (p : Policy) : List Policy :=
  if r.holds p then []
  else (p.dependencies ++ [p]).filter fun q => !r.holds q && (r.inputs.answer q).isOk

theorem mem_fresh : q ∈ r.fresh p ↔
    r.Meets p q ∧ r.holds q = false ∧ ∃ set, r.inputs.answer q = .ok set := by
  unfold fresh Meets
  cases hp : r.holds p with
  | true =>
    simp only [if_true, List.not_mem_nil, false_iff]
    rintro ⟨rfl | ⟨-, hfree⟩, hq, -⟩
    · rw [hp] at hq
      cases hq
    · cases hfree
  | false =>
    rw [if_neg Bool.false_ne_true]
    simp only [List.mem_filter, List.mem_append, List.mem_singleton, Bool.and_eq_true,
      Bool.not_eq_true', isOk_iff, and_true]
    tauto

theorem nodup_fresh (r : Resolver) (p : Policy) : (r.fresh p).Nodup := by
  unfold fresh
  split
  · exact List.nodup_nil
  · refine List.Nodup.filter _ ?_
    cases p with
    | numericTyped w => simp [Policy.dependencies]
    | _ => exact List.nodup_singleton _

theorem fresh_of_independent (hp : p.dependencies = []) :
    r.fresh p = [p].filter fun q => !r.holds q && (r.inputs.answer q).isOk := by
  unfold fresh
  split
  · next hheld => simp [hheld]
  · rw [hp]
    rfl

/-- The second resolver came from the first by working out the policies: all of them are held then, and
for each the sites were looked at once more. -/
structure WorksOut (i : PolicyInputs) (r s : Resolver) (ps : List Policy) : Prop where
  held : ∀ q, s.holds q = true ↔ r.holds q = true ∨ q ∈ ps
  rounds : ∀ kind n, i.Rounds kind n r.anomalies → i.Rounds kind (n + ps.count kind.policy) s.anomalies

theorem worksOut_nil (i : PolicyInputs) (r : Resolver) : WorksOut i r r [] :=
  ⟨by simp, fun _ _ hr => hr⟩

theorem WorksOut.trans (h : WorksOut i r s ps) (h' : WorksOut i s t qs) :
    WorksOut i r t (ps ++ qs) where
  held q := by rw [h'.held, h.held, List.mem_append, or_assoc]
  rounds kind n hr := by
    rw [List.count_append, ← Nat.add_assoc]
    exact h'.rounds kind _ (h.rounds kind n hr)

theorem isOk_finish (p : Policy) (o : Outcome (List Edge)) : (finish p o).1.isOk = o.1.isOk := by
  obtain ⟨result, after⟩ := o
  cases result <;> rfl

theorem anomalies_finish (p : Policy) (o : Outcome (List Edge)) :
    (finish p o).2.anomalies = o.2.anomalies := by
  obtain ⟨result, after⟩ := o
  cases result <;> rfl

theorem holds_finish (p q : Policy) (o : Outcome (List Edge)) :
    (finish p o).2.holds q = true ↔ o.2.holds q = true ∨ q ∈ if o.1.isOk then [p] else [] := by
  obtain ⟨result, after⟩ := o
  cases result with
  | error e => exact (or_iff_left List.not_mem_nil).symm
  | ok edges =>
    change ((after.resolved.insert p edges).find? q).isSome = true ↔
      (after.resolved.find? q).isSome = true ∨ q ∈ [p]
    rw [Table.find?_insert, List.mem_singleton]
    split <;> simp_all

theorem Faithful.worksOut_resolve_of_independent (h : r.Faithful i) (hp : p.dependencies = [])
    (hnot : p ∉ r.resolving) : WorksOut i r (r.resolve p).2 (r.fresh p) := by
  rw [fresh_of_independent hp, h.inputs]
  cases hheld : r.holds p with
  | true =>
    have hfresh : [p].filter (fun q => !r.holds q && (i.answer q).isOk) = [] := by simp [hheld]
    rw [resolve_of_holds hheld, hfresh]
    exact worksOut_nil i r
  | false =>
    have hlooks := (h.begin p).looks_compute hp
    have hanswer := ((h.begin p).compute_of_independent hp).answer_eq
    have hfresh : [p].filter (fun q => !r.holds q && (i.answer q).isOk) =
        if (i.answer p).isOk then [p] else [] := by
      simp [List.filter_cons, hheld]
    rw [resolve_of_not_holds hheld hnot, hp, Resolver.resolveAll, hfresh]
    change WorksOut i r (finish p ((r.begin p).compute p)).2 _
    refine ⟨?_, ?_⟩
    · intro q
      rw [holds_finish, holds, hlooks.resolved, hanswer]
      rfl
    · intro kind n hr
      have hcount : (if (i.answer p).isOk then [p] else []).count kind.policy =
          (p = kind.policy && (i.answer p).isOk).toNat := by
        cases (i.answer p).isOk with
        | false => simp
        | true => by_cases hkind : p = kind.policy <;> simp [hkind]
      rw [anomalies_finish, hcount, ← hanswer]
      exact hlooks.rounds kind n hr

theorem andThen_of_ok {o : Outcome α} {next : α → Resolver → Outcome β} {a : α} (h : o.1 = .ok a) :
    o.andThen next = next a o.2 := by
  obtain ⟨result, after⟩ := o
  cases h
  rfl

theorem andThen_snd {o : Outcome α} {next : α → Resolver → Outcome β}
    (h : ∀ a, (next a o.2).2 = o.2) : (o.andThen next).2 = o.2 := by
  obtain ⟨result, after⟩ := o
  cases result with
  | error e => rfl
  | ok a => exact h a

/-- Before an intersection its numeric half is worked out, which cannot fail, and then its typed half. -/
theorem Faithful.worksOut_halves (h : r.Faithful i) (hidle : r.resolving = []) (w : Weighting) :
    WorksOut i r (((r.begin (.numericTyped w)).resolveAll [.numeric w, .typed]).andThen
      fun _ r => r.compute (.numericTyped w)).2
      ([.numeric w, .typed].filter fun q => !r.holds q && (i.answer q).isOk) := by
  have hbegin := h.begin (.numericTyped w)
  have hfree : ∀ q ∈ [.numeric w, .typed], q ∉ (r.begin (.numericTyped w)).resolving := by
    simp [Resolver.begin, hidle]
  have hnumeric := hbegin.resolve_of_independent (p := .numeric w) rfl (hfree _ (by simp))
  have hfirst := hbegin.worksOut_resolve_of_independent (p := .numeric w) rfl (hfree _ (by simp))
  have hsecond := hnumeric.faithful.worksOut_resolve_of_independent (p := .typed) rfl
    (hnumeric.resolving ▸ hfree _ (by simp))
  have hfound : ((r.begin (.numericTyped w)).resolve (.numeric w)).1 = .ok () := by
    obtain ⟨set, hset⟩ := i.exists_answer_numeric w
    rw [hnumeric.answer_eq, hset]
    rfl
  -- the numeric half does not bring the typed one with it
  have hother : .typed ∉ (r.begin (.numericTyped w)).fresh (.numeric w) := by
    simp [mem_fresh, Meets, Policy.dependencies]
  have htyped := Bool.eq_iff_iff.mpr ((hfirst.held .typed).trans (or_iff_left hother))
  rw [fresh_of_independent rfl, hbegin.inputs] at hfirst
  have hfresh : ((r.begin (.numericTyped w)).resolve (.numeric w)).2.fresh .typed =
      [.typed].filter fun q => !r.holds q && (i.answer q).isOk := by
    rw [fresh_of_independent rfl, hnumeric.faithful.inputs]
    refine List.filter_congr ?_
    intro q hq
    rw [List.mem_singleton.mp hq, htyped]
    rfl
  rw [Resolver.resolveAll, andThen_of_ok hfound, Resolver.resolveAll, andThen_snd fun _ => rfl,
    andThen_snd fun _ => by rw [Resolver.resolveAll]]
  have hlist := List.filter_append (p := fun q => !r.holds q && (i.answer q).isOk) [.numeric w] [.typed]
  rw [hfresh] at hsecond
  exact { hlist ▸ hfirst.trans hsecond with }

/-- A policy that looks for no anomalies is kept without a look at the sites. -/
theorem WorksOut.finish {o : Outcome (List Edge)} (h : WorksOut i r o.2 ps)
    (hp : ∀ kind : Mismatch, p ≠ kind.policy) :
    WorksOut i r (Resolver.finish p o).2 (ps ++ if o.1.isOk then [p] else []) where
  held q := by rw [holds_finish, h.held, or_assoc, List.mem_append]
  rounds kind n hr := by
    have hcount : (if o.1.isOk then [p] else []).count kind.policy = 0 := by
      cases o.1.isOk <;> simp [hp kind]
    rw [anomalies_finish, List.count_append, hcount]
    exact h.rounds kind n hr

theorem Faithful.worksOut_resolve (h : r.Faithful i) (hidle : r.resolving = []) (p : Policy) :
    WorksOut i r (r.resolve p).2 (r.fresh p) := by
  cases p with
  | numericTyped w =>
    have hresolves := h.resolve_of_idle hidle (.numericTyped w)
    cases hheld : r.holds (.numericTyped w) with
    | true =>
      rw [resolve_of_holds hheld, fresh, if_pos hheld]
      exact worksOut_nil i r
    | false =>
      have hhalves := (h.worksOut_halves hidle w).finish (p := .numericTyped w)
        (by rintro (_ | _) <;> simp [Mismatch.policy])
      rw [resolve_of_not_holds hheld (by simp [hidle])] at hresolves ⊢
      have hok := congrArg Except.isOk hresolves.answer_eq
      rw [isOk_finish, isOk_map] at hok
      rw [fresh, hheld, if_neg Bool.false_ne_true, List.filter_append, h.inputs, List.filter_cons,
        List.filter_nil, hheld, ← hok]
      exact hhalves
  | _ => exact h.worksOut_resolve_of_independent rfl (by simp [hidle])

theorem edges_snd (r : Resolver) (p : Policy) : (r.edges p).2 = (r.resolve p).2 := andThen_snd fun _ => rfl

theorem Ready.rounds_serve (h : r.Ready i) (q : Request) {kind : Mismatch} {n : ℕ}
    (hr : i.Rounds kind n r.anomalies) :
    i.Rounds kind (n + (r.fresh q.policy).count kind.policy) (r.serve q).2.anomalies := by
  have hworks := (h.faithful.worksOut_resolve h.idle q.policy).rounds kind n hr
  rw [← edges_snd] at hworks
  unfold Resolver.serve
  split
  · obtain ⟨-, hafter | hafter⟩ := take_cases r q.policy
    · rw [hafter]
      exact hworks
    · rw [hafter]
      exact hworks
  · exact hworks

/-- A policy is held after a request if it was held before or has been worked out, and it was not taken. -/
theorem Ready.holds_serve (h : r.Ready i) (q : Request) (p : Policy) :
    (r.serve q).2.holds p = true ↔
      (r.holds p = true ∨ p ∈ r.fresh q.policy) ∧ q ≠ ⟨p, true⟩ := by
  obtain ⟨policy, taking⟩ := q
  have hresolves := h.faithful.resolve_of_idle h.idle policy
  rw [← (h.faithful.worksOut_resolve h.idle policy).held p]
  cases taking with
  | false =>
    rw [Resolver.serve, if_neg Bool.false_ne_true, edges_snd]
    simp
  | true =>
    rw [Resolver.serve, if_pos rfl, take]
    generalize r.resolve policy = o at hresolves ⊢
    obtain ⟨result, after⟩ := o
    have hne : (⟨policy, true⟩ : Request) ≠ ⟨p, true⟩ ↔ p ≠ policy := by simp [eq_comm]
    rw [hne]
    cases result with
    | error e =>
      -- a policy that fails is not held
      refine (and_iff_left_of_imp ?_).symm
      rintro hheld rfl
      obtain ⟨edges, hedges⟩ := Option.isSome_iff_exists.mp hheld
      have hanswer := hresolves.answer_eq
      rw [hresolves.faithful.resolved _ edges hedges] at hanswer
      cases hanswer
    | ok _ =>
      change ((after.resolved.erase policy).find? p).isSome = true ↔ _
      rw [Table.find?_erase]
      split
      · next hp => simp [hp]
      · next hp => simp [hp, holds]

theorem after_concat (i : PolicyInputs) (history : List Request) (q : Request) :
    after i (history ++ [q]) = ((after i history).serve q).2 := by
  simp [after]

theorem inputs_after (i : PolicyInputs) (history : List Request) : (after i history).inputs = i :=
  (ready_after i history).faithful.inputs

/-- The times at which a policy was worked out, each given by the requests before it. -/
def occasions (i : PolicyInputs) (p : Policy) (history : List Request) : Set (List Request) :=
  {earlier | ∃ q later, history = earlier ++ q :: later ∧ p ∈ (after i earlier).fresh q.policy}

variable {history earlier later : List Request} {x : Request}

theorem finite_occasions : (occasions i p history).Finite := by
  refine (List.finite_toSet history.inits).subset ?_
  rintro earlier ⟨q, later, rfl, -⟩
  exact (List.mem_inits _ _).mpr ⟨q :: later, rfl⟩

theorem occasions_concat : occasions i p (history ++ [x]) =
    {earlier | earlier = history ∧ p ∈ (after i history).fresh x.policy} ∪ occasions i p history := by
  ext earlier
  simp only [occasions, concat_eq_append_cons]
  constructor
  · rintro ⟨q, later, ⟨rfl, rfl, -⟩ | ⟨rest, -, hhistory⟩, hfresh⟩
    · exact Or.inl ⟨rfl, hfresh⟩
    · exact Or.inr ⟨q, rest, hhistory, hfresh⟩
  · rintro (⟨rfl, hfresh⟩ | ⟨q, later, hhistory, hfresh⟩)
    · exact ⟨x, [], Or.inl ⟨rfl, rfl, rfl⟩, hfresh⟩
    · exact ⟨q, later ++ [x], Or.inr ⟨later, rfl, hhistory⟩, hfresh⟩

theorem ncard_occasions_concat : (occasions i p (history ++ [x])).ncard =
    (occasions i p history).ncard + ((after i history).fresh x.policy).count p := by
  rw [occasions_concat]
  by_cases hfresh : p ∈ (after i history).fresh x.policy
  · have hnew : history ∉ occasions i p history := by
      rintro ⟨q, later, hhistory, -⟩
      simp at hhistory
    have hsingle : {earlier | earlier = history ∧ p ∈ (after i history).fresh x.policy} = {history} := by
      simp [hfresh]
    rw [hsingle, Set.singleton_union, Set.ncard_insert_of_notMem hnew finite_occasions,
      List.count_eq_one_of_mem (nodup_fresh _ _) hfresh]
  · have hnone : {earlier | earlier = history ∧ p ∈ (after i history).fresh x.policy} = ∅ := by
      simp [hfresh]
    rw [hnone, Set.empty_union, List.count_eq_zero.mpr hfresh, Nat.add_zero]

theorem occasions_nil : occasions i p [] = ∅ := by
  ext earlier
  simp [occasions]

theorem ncard_occasions_le : (occasions i p history).ncard ≤ history.length := by
  induction history using List.reverseRecOn with
  | nil => simp [occasions_nil]
  | append_singleton history x ih =>
    have hcount := List.nodup_iff_count_le_one.mp (nodup_fresh (after i history) x.policy) p
    rw [ncard_occasions_concat, List.length_append, List.length_singleton]
    exact Nat.add_le_add ih hcount

/-- The sites are looked at for a kind of anomaly each time its policy is worked out. -/
theorem rounds_after (i : PolicyInputs) (kind : Mismatch) (history : List Request) :
    i.Rounds kind (occasions i kind.policy history).ncard (after i history).anomalies := by
  induction history using List.reverseRecOn with
  | nil =>
    rw [occasions_nil, Set.ncard_empty]
    exact i.rounds_empty kind
  | append_singleton history q ih =>
    rw [ncard_occasions_concat, after_concat]
    exact (ready_after i history).rounds_serve q ih

/-- A policy that is held was worked out once, and not taken since. -/
theorem exists_of_holds_after (h : (after i history).holds p = true) :
    ∃ earlier q later, history = earlier ++ q :: later ∧ p ∈ (after i earlier).fresh q.policy ∧
      ⟨p, true⟩ ∉ q :: later := by
  induction history using List.reverseRecOn with
  | nil => cases h
  | append_singleton history x ih =>
    rw [after_concat, (ready_after i history).holds_serve] at h
    obtain ⟨hheld | hfresh, hx⟩ := h
    · obtain ⟨earlier, q, later, rfl, hfresh, hkept⟩ := ih hheld
      refine ⟨earlier, q, later ++ [x], by simp, hfresh, ?_⟩
      simp only [List.mem_cons, List.mem_append, List.not_mem_nil, or_false, not_or] at hkept ⊢
      exact ⟨hkept.1, hkept.2, hx.symm⟩
    · exact ⟨history, x, [], rfl, hfresh, by simpa using hx.symm⟩

theorem holds_after_append (h : (after i history).holds p = true) (hkept : ⟨p, true⟩ ∉ later) :
    (after i (history ++ later)).holds p = true := by
  induction later using List.reverseRecOn with
  | nil => rwa [List.append_nil]
  | append_singleton later x ih =>
    simp only [List.mem_append, List.mem_singleton, not_or] at hkept
    rw [← List.append_assoc, after_concat, (ready_after i _).holds_serve]
    exact ⟨Or.inl (ih hkept.1), Ne.symm hkept.2⟩

/-- Between the request and the last time at which the policy was worked out it was not taken. -/
theorem exists_occasion (hanswer : ∃ set, i.answer p = .ok set) (later : List Request)
    (hmeets : (after i earlier).Meets x.policy p) :
    ∃ first between, earlier = first ++ between ∧ ⟨p, true⟩ ∉ between ∧
      first ∈ occasions i p (earlier ++ x :: later) := by
  cases hheld : (after i earlier).holds p with
  | false =>
    have hfresh : p ∈ (after i earlier).fresh x.policy :=
      mem_fresh.mpr ⟨hmeets, hheld, (inputs_after i earlier).symm ▸ hanswer⟩
    exact ⟨earlier, [], by simp, List.not_mem_nil, x, later, rfl, hfresh⟩
  | true =>
    obtain ⟨first, q, rest, rfl, hfresh, hkept⟩ := exists_of_holds_after hheld
    exact ⟨first, q :: rest, rfl, hkept, q, rest ++ x :: later, by simp, hfresh⟩

/-- A policy that is worked out again was taken in between. -/
theorem taken_of_fresh_again {between : List Request} (hfresh : p ∈ (after i earlier).fresh x.policy)
    (hfree : (after i (earlier ++ x :: between)).holds p = false) : ⟨p, true⟩ ∈ x :: between := by
  by_contra hkept
  rw [List.mem_cons, not_or] at hkept
  have hheld : (after i (earlier ++ [x])).holds p = true := by
    rw [after_concat, (ready_after i earlier).holds_serve]
    exact ⟨Or.inr hfresh, Ne.symm hkept.1⟩
  have hstill := holds_after_append hheld hkept.2
  rw [List.append_assoc, List.singleton_append, hfree] at hstill
  cases hstill

/-- A policy is worked out more than once just if it is met again after it was taken. -/
theorem one_lt_ncard_occasions (hanswer : ∃ set, i.answer p = .ok set) :
    1 < (occasions i p history).ncard ↔ ∃ earlier q later, history = earlier ++ q :: later ∧
      ⟨p, true⟩ ∈ earlier ∧ (after i earlier).Meets q.policy p := by
  rw [Set.one_lt_ncard finite_occasions]
  constructor
  · -- of two occasions, the one with fewer requests before it is the first
    have hordered {first between later rest : List Request} {q x : Request}
        (hfresh : p ∈ (after i first).fresh q.policy)
        (hagain : p ∈ (after i (first ++ between)).fresh x.policy)
        (hbetween : q :: later = between ++ x :: rest) (hne : between ≠ []) :
        ∃ earlier y later', first ++ between ++ x :: rest = earlier ++ y :: later' ∧
          ⟨p, true⟩ ∈ earlier ∧ (after i earlier).Meets y.policy p := by
      obtain ⟨q', between, rfl⟩ := List.exists_cons_of_ne_nil hne
      obtain ⟨rfl, rfl⟩ := List.cons.inj hbetween
      obtain ⟨hmeets, hfree, -⟩ := mem_fresh.mp hagain
      exact ⟨_, x, rest, rfl, List.mem_append_right _ (taken_of_fresh_again hfresh hfree), hmeets⟩
    rintro ⟨first, ⟨q, later, rfl, hfresh⟩, second, ⟨x, rest, hhistory, hagain⟩, hne⟩
    rcases List.append_eq_append_iff.mp hhistory with ⟨between, rfl, hbetween⟩ | ⟨between, rfl, hbetween⟩
    · rw [hhistory]
      refine hordered hfresh hagain hbetween ?_
      rintro rfl
      exact hne (List.append_nil first).symm
    · refine hordered hagain hfresh hbetween ?_
      rintro rfl
      exact hne (List.append_nil second)
  · rintro ⟨earlier, q, later, rfl, htaken, hmeets⟩
    obtain ⟨before, rest, rfl⟩ := List.append_of_mem htaken
    have htake : (after i before).Meets p p := Or.inl rfl
    obtain ⟨first, between, hbefore, -, hfirst⟩ :=
      exists_occasion (x := ⟨p, true⟩) hanswer (rest ++ q :: later) htake
    obtain ⟨second, since, hearlier, hkept, hsecond⟩ := exists_occasion hanswer later hmeets
    refine ⟨first, by simpa using hfirst, second, hsecond, ?_⟩
    rintro rfl
    rw [hbefore, List.append_assoc, List.append_cancel_left_eq] at hearlier
    rw [← hearlier] at hkept
    simp at hkept

/-- A policy that fails is never worked out. -/
theorem occasions_of_error {e : PolicyError} (h : i.answer p = .error e) :
    occasions i p history = ∅ := by
  refine Set.eq_empty_iff_forall_notMem.mpr ?_
  rintro earlier ⟨q, later, -, hfresh⟩
  obtain ⟨-, -, set, hset⟩ := mem_fresh.mp hfresh
  rw [inputs_after, h] at hset
  cases hset

theorem mul_mem_pair_iff {n k : ℕ} : n * k ∈ [0, k] ↔ k = 0 ∨ n ≤ 1 := by
  rcases Nat.eq_zero_or_pos k with rfl | hk
  · simp
  · rw [List.mem_pair, Nat.mul_eq_right hk.ne', mul_eq_zero]
    omega

/-- The policy was asked for, and not taken then or since. -/
def Kept (history : List Request) (p : Policy) : Prop :=
  ∃ earlier later, history = earlier ++ ⟨p, false⟩ :: later ∧ ⟨p, true⟩ ∉ later

theorem holds_after_iff_kept (hanswer : ∃ set, i.answer p = .ok set)
    (hfinal : ∀ q : Policy, p ∉ q.dependencies) :
    (after i history).holds p = true ↔ Kept history p := by
  constructor
  · intro hheld
    obtain ⟨earlier, ⟨policy, taking⟩, later, rfl, hfresh, hkept⟩ := exists_of_holds_after hheld
    obtain ⟨rfl | ⟨hmem, -⟩, -⟩ := mem_fresh.mp hfresh
    · cases taking with
      | true => exact absurd List.mem_cons_self hkept
      | false => exact ⟨earlier, later, rfl, fun h => hkept (List.mem_cons_of_mem _ h)⟩
    · exact absurd hmem (hfinal _)
  · rintro ⟨earlier, later, rfl, hkept⟩
    have hheld : (after i (earlier ++ [⟨p, false⟩])).holds p = true := by
      rw [after_concat, (ready_after i earlier).holds_serve]
      refine ⟨?_, by simp⟩
      cases h : (after i earlier).holds p with
      | true => exact Or.inl rfl
      | false => exact Or.inr (mem_fresh.mpr ⟨Or.inl rfl, h, (inputs_after i earlier).symm ▸ hanswer⟩)
    simpa using holds_after_append hheld hkept

/-- Only an intersection can lead to a policy that looks for anomalies, and it has an answer if that
policy has one. -/
theorem meets_after_iff {kind : Mismatch} (hanswer : ∃ set, i.answer kind.policy = .ok set) :
    (after i earlier).Meets p kind.policy ↔
      p = kind.policy ∨ kind.policy ∈ p.dependencies ∧ ¬ Kept earlier p := by
  refine or_congr Iff.rfl (and_congr_right ?_)
  intro hmem
  cases p with
  | numericTyped w =>
    have htyped : kind.policy = .typed := by cases kind <;> simp_all [Mismatch.policy, Policy.dependencies]
    have hboth : ∃ set, i.answer (.numericTyped w) = .ok set := by
      obtain ⟨set, hset⟩ := hanswer
      obtain ⟨keep, hkeep⟩ := i.exists_answer_numericTyped w
      exact ⟨keep set, by rw [hkeep, ← htyped, hset]; rfl⟩
    have hfinal (q : Policy) : .numericTyped w ∉ q.dependencies := by
      cases q <;> simp [Policy.dependencies]
    rw [← holds_after_iff_kept hboth hfinal, Bool.not_eq_true]
  | _ => simp [Policy.dependencies] at hmem

/-- Whatever was asked, the sites checked for a kind of anomaly are as many as there are call sites, for
each time at which the policy of the kind was worked out, while an anomalous site is counted once. So the
count is that of the call sites just if the policy was never needed again after it was taken. -/
theorem checked_sites_exact (i : PolicyInputs) (history : List Request) (kind : Mismatch) :
    (∀ n, (after i history).anomalies.checked.find? kind = some n ↔
      (occasions i kind.policy history).Nonempty ∧
        n = (occasions i kind.policy history).ncard * i.sites.length) ∧
    (∀ s ∈ (after i history).anomalies.summary, s.kind = kind →
      s.anomalies = {site | site ∈ i.sites ∧ i.Anomalous site kind}.ncard ∧
      s.sites = (occasions i kind.policy history).ncard * i.sites.length ∧
      s.ratio = if s.sites = 0 then 0.0
        else (UInt64.ofNat s.anomalies).toFloat / (UInt64.ofNat s.sites).toFloat) ∧
    (((after i history).anomalies.checked.find? kind).getD 0 ∈ [0, i.sites.length] ↔
      i.sites = [] ∨ (∃ e, i.answer kind.policy = .error e) ∨
        ¬ ∃ earlier q later, history = earlier ++ q :: later ∧ ⟨kind.policy, true⟩ ∈ earlier ∧
          (q.policy = kind.policy ∨
            kind.policy ∈ q.policy.dependencies ∧ ¬ Kept earlier q.policy)) := by
  have hrounds := rounds_after i kind history
  refine ⟨?_, ?_, ?_⟩
  · intro n
    rw [hrounds.checked, ← Set.ncard_pos finite_occasions]
    split
    · next hzero => simp [hzero]
    · next hsome => simp [Nat.pos_of_ne_zero hsome, eq_comm]
  · rintro s hs rfl
    obtain ⟨hchecked, hcount, hratio⟩ := Anomalies.of_mem_summary hs
    rw [hrounds.checked] at hchecked
    split at hchecked
    · cases hchecked
    · next hsome => exact ⟨hcount.trans (hrounds.count_eq hsome), (Option.some.inj hchecked).symm, hratio⟩
  · have hchecked : ((after i history).anomalies.checked.find? kind).getD 0 =
        (occasions i kind.policy history).ncard * i.sites.length := by
      rw [hrounds.checked]
      split
      · next hzero => simp [hzero]
      · rfl
    rw [hchecked, mul_mem_pair_iff, List.length_eq_zero_iff]
    refine or_congr Iff.rfl ?_
    cases hanswer : i.answer kind.policy with
    | error e =>
      have hnone : occasions i kind.policy history = ∅ := occasions_of_error hanswer
      simp [hnone]
    | ok set =>
      have hrepeated : 1 < (occasions i kind.policy history).ncard ↔ _ :=
        one_lt_ncard_occasions ⟨set, hanswer⟩
      simp only [meets_after_iff ⟨set, hanswer⟩] at hrepeated
      rw [← hrepeated]
      simp

/-- Two sites call the function at 272, and at the second one alone the compiler expected it. -/
def twoCallers : PolicyInputs where
  graph :=
    { blocks := ⟨[(16, { size := 4, instrs := 1, binary := "main", terminator := some .callIndirect }),
        (32, { size := 4, instrs := 1, binary := "main", terminator := some .callIndirect }),
        (272, { size := 4, instrs := 1, terminator := some .syscall })], by decide⟩
      flows := ⟨[(⟨.block 16, .block 272⟩, { kind := .callIndirect }),
        (⟨.block 32, .block 272⟩, { kind := .callIndirect }),
        (⟨.block 272, .sink⟩, { kind := .syscall })], by decide⟩
      hasSink := true
      source_mem := by simp [Table.keys]
      target_mem := by simp [Table.keys] }
  hasSink := rfl
  functions := [272]
  functions_mem := by simp [Table.keys]
  signatures := some ⟨[(272, ["int", "char"])], by decide⟩
  siteSignatures := some ⟨[(⟨"main", 16⟩, ["long"]), (⟨"main", 32⟩, ["int", "char"])], by decide⟩

/-- The typed policy is taken, and then needed for an intersection. -/
def typedAgain : List Request := [⟨.typed, true⟩, ⟨.numericTyped .block, false⟩]

theorem checked_sites_exact_twoCallers :
    twoCallers.sites = [16, 32] ∧ (∀ q ∈ typedAgain, ∃ set, twoCallers.answer q.policy = .ok set) ∧
      (after twoCallers typedAgain).anomalies.checked.find? .types = some 4 := by
  have hsites : twoCallers.sites = [16, 32] := by decide
  have hanswer : twoCallers.answer .typed = .ok [] := by decide
  have hboth : ∃ set, twoCallers.answer (.numericTyped .block) = .ok set := by
    obtain ⟨keep, hkeep⟩ := twoCallers.exists_answer_numericTyped .block
    exact ⟨keep [], by rw [hkeep, hanswer]; rfl⟩
  refine ⟨hsites, by simp [typedAgain, hanswer, hboth], ?_⟩
  obtain ⟨hchecked, -, hlaw⟩ := checked_sites_exact twoCallers typedAgain .types
  have hkept : ¬ Kept [⟨.typed, true⟩] (.numericTyped .block) := by
    rintro ⟨earlier, later, hkept, -⟩
    have hmem : (⟨.numericTyped .block, false⟩ : Request) ∈ [⟨.typed, true⟩] := by simp [hkept]
    simp at hmem
  have hbroken : ((after twoCallers typedAgain).anomalies.checked.find? .types).getD 0 ∉ [0, 2] := by
    intro hmem
    rcases hlaw.mp (hsites ▸ hmem) with hnone | ⟨e, he⟩ | hnever
    · rw [hsites] at hnone
      cases hnone
    · cases hanswer.symm.trans he
    · exact hnever ⟨[⟨.typed, true⟩], ⟨.numericTyped .block, false⟩, [], rfl, by decide,
        Or.inr ⟨by decide, hkept⟩⟩
  have htwice : (occasions twoCallers .typed typedAgain).ncard ≤ 2 := ncard_occasions_le
  cases hfound : (after twoCallers typedAgain).anomalies.checked.find? .types with
  | none => simp [hfound] at hbroken
  | some n =>
    have hn : n = (occasions twoCallers .typed typedAgain).ncard * 2 := ((hchecked n).mp hfound).2
    have hother : ¬ n = 0 ∧ ¬ n = 2 := by simpa [hfound] using hbroken
    congr 1
    omega

end Resolver
end CfiSlack
