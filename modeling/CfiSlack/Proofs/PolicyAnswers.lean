import CfiSlack.Policy.Resolver
import CfiSlack.Proofs.Fallible

/-!
# Answers of a resolver

What a resolver answers depends on its inputs alone. `PolicyInputs.answer` is that answer, computed
without a memory. A faithful resolver holds nothing but such answers, and the redirects and indexes
that it would find again; every request keeps it faithful, ends with no policy under way, and is
answered as if it were the first one.
-/
namespace CfiSlack

namespace PolicyInputs

variable {α : Type} {i : PolicyInputs}

/-- The index that a policy reads, built anew. -/
def indexFor (i : PolicyInputs) (p : Policy)
    (build : SignatureTable → List Address → Redirects → α) : Except PolicyError α :=
  match i.missingTable? p with
  | some table => .error (.missingTable p table)
  | none => do
    let redirects ← i.graph.redirects
    match i.signatures with
    | some table => .ok (build table i.functions redirects)
    | none => .error (.missingTable p .functions)

/-- What is permitted at all call sites together. -/
def findings (i : PolicyInputs) (find : Address → Except PolicyError (SiteFinding (List α))) :
    Except PolicyError (List α) :=
  (i.sites.mapM find).map fun found => found.flatMap SiteFinding.permitted

/-- Edges that a policy permits by itself. -/
def ownEdges (i : PolicyInputs) : Policy → Except PolicyError (List Edge)
  | .baseline => .ok []
  | .numeric w => .ok (i.numericEdges w)
  | .numericHub w => .ok (i.numericHubEdges w)
  | .numericTyped _ => .ok []
  | .anyFunction => .ok i.anyFunctionEdges
  | .unrestricted => .ok i.unrestrictedEdges
  | .typed => do
    let index ← i.indexFor .typed TypeIndex.build
    i.findings (i.typeFinding index)
  | .argCount => do
    let index ← i.indexFor .argCount ArityIndex.build
    let permitted ← i.findings (i.arityFinding index)
    .ok (arityEdges index permitted)

/-- The edges that a policy without dependencies adds. -/
def ownAnswer (i : PolicyInputs) (p : Policy) : Except PolicyError (List Edge) := do
  let raw ← i.ownEdges p
  i.addedEdges p raw

/-- The edges that a policy adds. -/
def answer (i : PolicyInputs) (p : Policy) : Except PolicyError (List Edge) :=
  match p.dependencies with
  | [] => i.ownAnswer p
  | deps => (deps.mapM i.ownAnswer).map Resolver.common

/-- Anomalies that were recorded before have no influence on the findings. -/
theorem survey_fst (kind : Mismatch) (find : Address → Except PolicyError (SiteFinding (List α)))
    (sites : List Address) (checked : ℕ) (an : Anomalies) :
    (survey kind find sites checked an).1 =
      (sites.mapM find).map fun found => found.flatMap SiteFinding.permitted := by
  induction sites generalizing checked an with
  | nil => rfl
  | cons site sites ih =>
    rw [List.mapM_cons]
    cases hfind : find site with
    | error e => simp only [survey, hfind]; rfl
    | ok finding =>
      simp only [survey, hfind, ih]
      cases sites.mapM find with
      | error e => rfl
      | ok found => rfl

theorem mem_findings {find : Address → Except PolicyError (SiteFinding (List α))} {l : List α}
    (h : i.findings find = .ok l) {x : α} :
    x ∈ l ↔ ∃ site ∈ i.sites, ∃ finding, find site = .ok finding ∧ x ∈ finding.permitted := by
  obtain ⟨found, hfound, rfl⟩ := map_eq_ok.mp h
  simp only [List.mem_flatMap, mem_of_mapM_eq_ok hfound]
  constructor
  · rintro ⟨finding, ⟨site, hsite, hfind⟩, hx⟩
    exact ⟨site, hsite, finding, hfind, hx⟩
  · rintro ⟨site, hsite, finding, hfind, hx⟩
    exact ⟨finding, ⟨site, hsite, hfind⟩, hx⟩

theorem exists_of_findings {find : Address → Except PolicyError (SiteFinding (List α))} {l : List α}
    (h : i.findings find = .ok l) {site : Address} (hsite : site ∈ i.sites) :
    ∃ finding, find site = .ok finding := by
  obtain ⟨found, hfound, -⟩ := map_eq_ok.mp h
  obtain ⟨finding, -, hfind⟩ := exists_of_mapM_eq_ok hfound hsite
  exact ⟨finding, hfind⟩

theorem addedEdges_eq_ok_iff {p : Policy} {raw set : List Edge} :
    i.addedEdges p raw = .ok set ↔ (∀ e ∈ raw, i.edgeFault? p e = none) ∧
      Ascending.ofList (raw.filter fun e => (i.graph.flow? e).isNone) = set := by
  rw [← List.findSome?_eq_none_iff, addedEdges]
  cases raw.findSome? (i.edgeFault? p) with
  | some fault => simp
  | none => simp

theorem mem_addedEdges {p : Policy} {raw set : List Edge} (h : i.addedEdges p raw = .ok set)
    {e : Edge} : e ∈ set ↔ e ∈ raw ∧ e ∉ i.graph.flows.keys := by
  obtain ⟨-, rfl⟩ := addedEdges_eq_ok_iff.mp h
  simp [Graph.flow?, Table.mem_keys]

/-- The index is the one that these inputs give. -/
def Indexed (i : PolicyInputs) (build : SignatureTable → List Address → Redirects → α)
    (index : α) : Prop :=
  ∃ table redirects, i.signatures = some table ∧ i.graph.redirects = .ok redirects ∧
    build table i.functions redirects = index

theorem answer_of_independent {p : Policy} (hp : p.dependencies = []) :
    i.answer p = i.ownAnswer p := by
  simp only [answer, hp]

theorem answer_of_dependent {p : Policy} (hp : p.dependencies ≠ []) :
    i.answer p = (p.dependencies.mapM i.ownAnswer).map Resolver.common := by
  cases hdeps : p.dependencies with
  | nil => exact absurd hdeps hp
  | cons q deps => simp only [answer, hdeps]

theorem indexed_of_indexFor {p : Policy} {build : SignatureTable → List Address → Redirects → α}
    {index : α} (h : i.indexFor p build = .ok index) :
    i.missingTable? p = none ∧ i.Indexed build index := by
  unfold indexFor at h
  split at h
  · cases h
  · next hmissing =>
    obtain ⟨redirects, hredirects, h⟩ := bind_eq_ok.mp h
    split at h
    · next table htable =>
      cases h
      exact ⟨hmissing, table, redirects, htable, hredirects, rfl⟩
    · cases h

theorem Indexed.indexFor_eq {build : SignatureTable → List Address → Redirects → α} {index : α}
    (h : i.Indexed build index) {p : Policy} (hp : i.missingTable? p = none) :
    i.indexFor p build = .ok index := by
  obtain ⟨table, redirects, htable, hredirects, rfl⟩ := h
  simp only [indexFor, hp, hredirects, htable]
  rfl

end PolicyInputs

namespace Resolver

variable {α β : Type} {i : PolicyInputs} {r : Resolver} {p : Policy}

/-- All that a resolver remembers is what its inputs give. -/
structure Faithful (i : PolicyInputs) (r : Resolver) : Prop where
  inputs : r.inputs = i
  resolved : ∀ p edges, r.resolved.find? p = some edges → i.answer p = .ok edges
  redirects : ∀ redirects, r.redirects = some redirects → i.graph.redirects = .ok redirects
  types : ∀ index, r.types = some index → i.Indexed TypeIndex.build index
  arities : ∀ index, r.arities = some index → i.Indexed ArityIndex.build index

theorem faithful_ofInputs (i : PolicyInputs) : (ofInputs i).Faithful i where
  inputs := rfl
  resolved p edges h := by simp [ofInputs] at h
  redirects _ h := by simp [ofInputs] at h
  types _ h := by simp [ofInputs] at h
  arities _ h := by simp [ofInputs] at h

/-- An outcome gives the right answer, and its resolver is faithful, has lost nothing that was
resolved and has the same policies under way as before. -/
structure Serves (i : PolicyInputs) (r : Resolver) (o : Outcome α) (answer : Except PolicyError α) :
    Prop where
  answer_eq : o.1 = answer
  faithful : o.2.Faithful i
  keeps : ∀ p edges, r.resolved.find? p = some edges → o.2.resolved.find? p = some edges
  resolving : o.2.resolving = r.resolving

theorem Faithful.serves (h : r.Faithful i) (answer : Except PolicyError α) :
    Serves i r (answer, r) answer := ⟨rfl, h, fun _ _ hp => hp, rfl⟩

theorem Serves.andThen {o : Outcome α} {answer : Except PolicyError α}
    {next : α → Resolver → Outcome β} {f : α → Except PolicyError β} (h : Serves i r o answer)
    (hnext : ∀ a, answer = .ok a → Serves i o.2 (next a o.2) (f a)) :
    Serves i r (o.andThen next) (answer >>= f) := by
  obtain ⟨result, after⟩ := o
  obtain rfl : result = answer := h.answer_eq
  cases result with
  | error e => exact ⟨rfl, h.faithful, h.keeps, h.resolving⟩
  | ok a =>
    have ha := hnext a rfl
    exact ⟨ha.answer_eq, ha.faithful, fun p edges hp => ha.keeps p edges (h.keeps p edges hp),
      ha.resolving.trans h.resolving⟩

theorem Faithful.stubRedirects (h : r.Faithful i) :
    Serves i r r.stubRedirects i.graph.redirects := by
  obtain rfl := h.inputs
  cases hheld : r.redirects with
  | some redirects =>
    simp only [Resolver.stubRedirects, hheld, h.redirects redirects hheld]
    exact h.serves _
  | none =>
    cases heq : r.inputs.graph.redirects with
    | error e =>
      simp only [Resolver.stubRedirects, hheld, heq]
      exact h.serves _
    | ok redirects =>
      simp only [Resolver.stubRedirects, hheld, heq]
      refine ⟨rfl, { h with redirects := ?_ }, fun _ _ hp => hp, rfl⟩
      intro found hfound
      cases hfound
      exact heq

/-- A resolver holds the index only if it is the one of its inputs, and keeping it touches nothing
else. -/
structure SharedIndex.Lawful (shared : SharedIndex α) : Prop where
  held : ∀ {i r index}, Faithful i r → shared.held r = some index → i.Indexed shared.build index
  kept : ∀ {i r index}, Faithful i r → i.Indexed shared.build index →
    Serves i r (.ok index, shared.keep index r) (.ok index)

theorem typeIndex_lawful : typeIndex.Lawful where
  held h hheld := h.types _ hheld
  kept h hindex := by
    refine ⟨rfl, { h with types := ?_ }, fun _ _ hp => hp, rfl⟩
    intro found hfound
    cases hfound
    exact hindex

theorem arityIndex_lawful : arityIndex.Lawful where
  held h hheld := h.arities _ hheld
  kept h hindex := by
    refine ⟨rfl, { h with arities := ?_ }, fun _ _ hp => hp, rfl⟩
    intro found hfound
    cases hfound
    exact hindex

theorem Faithful.indexFor (h : r.Faithful i) (p : Policy) {shared : SharedIndex α}
    (hshared : shared.Lawful) :
    Serves i r (r.indexFor p shared) (i.indexFor p shared.build) := by
  unfold Resolver.indexFor
  rw [h.inputs]
  cases hmissing : i.missingTable? p with
  | some table =>
    simp only [PolicyInputs.indexFor, hmissing]
    exact h.serves _
  | none =>
    cases hheld : shared.held r with
    | some index =>
      rw [(hshared.held h hheld).indexFor_eq hmissing]
      exact h.serves _
    | none =>
      have hredirects := h.stubRedirects
      simp only [PolicyInputs.indexFor, hmissing]
      refine hredirects.andThen ?_
      intro redirects heq
      rw [hredirects.faithful.inputs]
      cases htable : i.signatures with
      | none => exact hredirects.faithful.serves _
      | some table =>
        exact hshared.kept hredirects.faithful ⟨table, redirects, htable, heq, rfl⟩

theorem Faithful.survey (h : r.Faithful i) (kind : Mismatch)
    (find : Address → Except PolicyError (PolicyInputs.SiteFinding (List α))) :
    Serves i r (r.survey kind find) (i.findings find) := by
  obtain rfl := h.inputs
  exact ⟨PolicyInputs.survey_fst kind find r.inputs.sites 0 r.anomalies, { h with },
    fun _ _ hp => hp, rfl⟩

theorem Faithful.rawEdges (h : r.Faithful i) (p : Policy) :
    Serves i r (r.rawEdges p) (i.ownEdges p) := by
  cases p with
  | baseline | numericTyped => exact h.serves _
  | numeric | numericHub | anyFunction | unrestricted =>
    simp only [Resolver.rawEdges, h.inputs]
    exact h.serves _
  | typed =>
    have hindex := h.indexFor .typed typeIndex_lawful
    refine hindex.andThen ?_
    intro index _
    rw [hindex.faithful.inputs]
    exact hindex.faithful.survey _ _
  | argCount =>
    have hindex := h.indexFor .argCount arityIndex_lawful
    refine hindex.andThen ?_
    intro index _
    rw [hindex.faithful.inputs]
    have hsurvey := hindex.faithful.survey .argCounts (i.arityFinding index)
    refine hsurvey.andThen ?_
    intro permitted _
    exact hsurvey.faithful.serves _

theorem Faithful.compute_of_independent (h : r.Faithful i) (hp : p.dependencies = []) :
    Serves i r (r.compute p) (i.answer p) := by
  have hraw := h.rawEdges p
  rw [PolicyInputs.answer_of_independent hp]
  simp only [compute, hp]
  refine hraw.andThen ?_
  intro raw _
  rw [hraw.faithful.inputs]
  exact hraw.faithful.serves _

theorem found_eq_ok {edges : List Edge} (h : r.resolved.find? p = some edges) :
    r.found p = .ok edges := by
  simp only [found, h]

/-- A policy was resolved: it is held if it has an answer. -/
structure Resolves (i : PolicyInputs) (r : Resolver) (p : Policy) (o : Outcome Unit) : Prop extends
    Serves i r o ((i.answer p).map fun _ => ()) where
  held : ∀ edges, i.answer p = .ok edges → o.2.resolved.find? p = some edges

theorem Faithful.begin (h : r.Faithful i) (p : Policy) : (r.begin p).Faithful i := { h with }

/-- Whatever became of a policy, it is under way no longer. -/
theorem Serves.finish {o : Outcome (List Edge)} (h : Serves i (r.begin p) o (i.answer p)) :
    Resolves i r p (finish p o) := by
  obtain ⟨result, after⟩ := o
  have hanswer : result = i.answer p := h.answer_eq
  have hresolving : after.resolving.erase p = r.resolving := by
    rw [h.resolving]
    simp [Resolver.begin]
  cases result with
  | error e =>
    refine ⟨⟨?_, { h.faithful with }, h.keeps, hresolving⟩, ?_⟩
    · rw [← hanswer]
      rfl
    · intro edges hedges
      rw [← hanswer] at hedges
      cases hedges
  | ok edges =>
    have hinsert (q : Policy) : (after.resolved.insert p edges).find? q =
        if q = p then some edges else after.resolved.find? q := Table.find?_insert _ _ _ _
    have hfaithful : ∀ q found, (after.resolved.insert p edges).find? q = some found →
        i.answer q = .ok found := by
      intro q found hfound
      rw [hinsert] at hfound
      split at hfound
      · next hq =>
        cases hfound
        rw [hq, hanswer]
      · exact h.faithful.resolved q found hfound
    refine ⟨⟨?_, { h.faithful with resolved := hfaithful }, ?_, hresolving⟩, ?_⟩
    · rw [← hanswer]
      rfl
    · intro q found hfound
      have hkept : after.resolved.find? q = some found := h.keeps q found hfound
      have heq := h.faithful.resolved q found hkept
      change (after.resolved.insert p edges).find? q = some found
      rw [hinsert]
      split
      · next hq =>
        rw [hq, ← hanswer] at heq
        cases heq
        rfl
      · exact hkept
    · intro found hfound
      rw [← hanswer] at hfound
      cases hfound
      exact Table.find?_insert_self _ _ _

theorem Faithful.resolve (h : r.Faithful i) (hnot : p ∉ r.resolving)
    (hcompute : Serves i (r.begin p)
      (((r.begin p).resolveAll p.dependencies).andThen fun _ r => r.compute p) (i.answer p)) :
    Resolves i r p (r.resolve p) := by
  rw [Resolver.resolve, if_neg hnot]
  split
  · next hsome =>
    obtain ⟨edges, hedges⟩ := Option.isSome_iff_exists.mp hsome
    have hanswer := h.resolved p edges hedges
    refine ⟨⟨by rw [hanswer]; rfl, h, fun _ _ hq => hq, rfl⟩, ?_⟩
    intro found hfound
    rw [hanswer] at hfound
    cases hfound
    exact hedges
  · exact hcompute.finish

theorem Faithful.resolve_of_independent (h : r.Faithful i) (hp : p.dependencies = [])
    (hnot : p ∉ r.resolving) : Resolves i r p (r.resolve p) := by
  refine h.resolve hnot ?_
  rw [hp, Resolver.resolveAll]
  exact (h.begin p).compute_of_independent hp

/-- Policies without dependencies are resolved one after the other; if all have answers, all of them
are held in the end. -/
theorem Faithful.resolveAll {ps : List Policy} (h : r.Faithful i)
    (hps : ∀ q ∈ ps, q.dependencies = [] ∧ q ∉ r.resolving) :
    Serves i r (r.resolveAll ps) ((ps.mapM i.ownAnswer).map fun _ => ()) ∧
      ∀ sets, ps.mapM i.ownAnswer = .ok sets →
        ps.mapM (r.resolveAll ps).2.found = .ok sets := by
  induction ps generalizing r with
  | nil =>
    rw [Resolver.resolveAll]
    exact ⟨h.serves _, fun sets hsets => hsets⟩
  | cons q ps ih =>
    obtain ⟨hq, hnot⟩ := hps q List.mem_cons_self
    have hfirst := h.resolve_of_independent hq hnot
    obtain ⟨hrest, hheld⟩ := ih hfirst.faithful (by
      intro k hk
      rw [hfirst.resolving]
      exact hps k (List.mem_cons_of_mem q hk))
    have hanswer := PolicyInputs.answer_of_independent (i := i) hq
    rw [Resolver.resolveAll, List.mapM_cons, ← hanswer]
    have hserves : Serves i r ((r.resolve q).andThen fun _ r => r.resolveAll ps)
        ((i.answer q).map (fun _ => ()) >>= fun _ => (ps.mapM i.ownAnswer).map fun _ => ()) :=
      hfirst.andThen fun _ _ => hrest
    cases hown : i.answer q with
    | error e =>
      rw [hown] at hserves
      refine ⟨hserves, ?_⟩
      intro sets hsets
      cases hsets
    | ok edges =>
      have hresult : (r.resolve q).1 = .ok () := by
        rw [hfirst.answer_eq, hown]
        rfl
      have hafter : ((r.resolve q).andThen fun _ r => r.resolveAll ps) =
          (r.resolve q).2.resolveAll ps := by
        rw [← Prod.eta (r.resolve q), hresult]
        rfl
      rw [hown] at hserves
      cases hothers : ps.mapM i.ownAnswer with
      | error e =>
        rw [hothers] at hserves
        refine ⟨hserves, ?_⟩
        intro sets hsets
        cases hsets
      | ok others =>
        rw [hothers] at hserves
        refine ⟨hserves, ?_⟩
        intro sets hsets
        cases hsets
        have hfound := found_eq_ok (hrest.keeps q edges (hfirst.held edges hown))
        rw [hafter, List.mapM_cons, hfound, hheld others hothers]
        rfl

theorem independent_of_mem_dependencies {q : Policy} (h : q ∈ p.dependencies) :
    q.dependencies = [] := by
  cases p with
  | numericTyped w =>
    rcases List.mem_pair.mp h with rfl | rfl
    · rfl
    · rfl
  | _ => simp [Policy.dependencies] at h

/-- With nothing under way, every policy can be resolved. -/
theorem Faithful.resolve_of_idle (h : r.Faithful i) (hidle : r.resolving = []) (p : Policy) :
    Resolves i r p (r.resolve p) := by
  refine h.resolve (by simp [hidle]) ?_
  by_cases hp : p.dependencies = []
  · rw [hp, Resolver.resolveAll]
    exact (h.begin p).compute_of_independent hp
  · -- a dependency has none of its own, so it is not the policy that waits for it
    have hdeps : ∀ q ∈ p.dependencies, q.dependencies = [] ∧ q ∉ (r.begin p).resolving := by
      intro q hq
      have hind := independent_of_mem_dependencies hq
      refine ⟨hind, ?_⟩
      simp only [Resolver.begin, hidle, List.mem_singleton]
      rintro rfl
      exact hp hind
    obtain ⟨hserves, hheld⟩ := (h.begin p).resolveAll hdeps
    have hcompute (s : Resolver) : s.compute p = ((p.dependencies.mapM s.found).map common, s) := by
      cases heq : p.dependencies with
      | nil => exact absurd heq hp
      | cons q deps => simp only [compute, heq]
    rw [PolicyInputs.answer_of_dependent hp]
    cases hsets : p.dependencies.mapM i.ownAnswer with
    | error e =>
      rw [hsets] at hserves
      exact hserves.andThen (f := fun _ => .error e) (by intro _ hok; cases hok)
    | ok sets =>
      rw [hsets] at hserves
      refine hserves.andThen (f := fun _ => .ok (common sets)) ?_
      intro _ _
      rw [hcompute, hheld sets hsets]
      exact hserves.faithful.serves _

/-- What holds of a resolver between two requests. -/
structure Ready (i : PolicyInputs) (r : Resolver) : Prop where
  faithful : r.Faithful i
  idle : r.resolving = []

theorem ready_ofInputs (i : PolicyInputs) : (ofInputs i).Ready i := ⟨faithful_ofInputs i, rfl⟩

/-- A request for the edges of a policy, which may be taken out of the resolver. -/
structure Request where
  policy : Policy
  taking : Bool
  deriving DecidableEq, Repr

def serve (r : Resolver) (q : Request) : Outcome (List Edge) :=
  if q.taking then r.take q.policy else r.edges q.policy

/-- The resolver after some requests. -/
def after (i : PolicyInputs) (history : List Request) : Resolver :=
  history.foldl (fun r q => (r.serve q).2) (ofInputs i)

theorem Ready.edges (h : r.Ready i) (p : Policy) :
    (r.edges p).1 = i.answer p ∧ (r.edges p).2.Ready i := by
  have hresolve := h.faithful.resolve_of_idle h.idle p
  have hserves : Serves i r (r.edges p) ((i.answer p).map (fun _ => ()) >>= fun _ => i.answer p) := by
    refine hresolve.andThen ?_
    intro _ hok
    cases hanswer : i.answer p with
    | error e =>
      rw [hanswer] at hok
      cases hok
    | ok edges =>
      rw [found_eq_ok (hresolve.held edges hanswer)]
      exact hresolve.faithful.serves _
  refine ⟨?_, hserves.faithful, hserves.resolving.trans h.idle⟩
  rw [hserves.answer_eq]
  cases i.answer p <;> rfl

/-- Taking a policy is asking for it and forgetting it. -/
theorem take_cases (r : Resolver) (p : Policy) :
    (r.take p).1 = (r.edges p).1 ∧ ((r.take p).2 = (r.edges p).2 ∨
      (r.take p).2 = { (r.edges p).2 with resolved := (r.edges p).2.resolved.erase p }) := by
  unfold take edges
  obtain ⟨result, after⟩ := r.resolve p
  cases result with
  | error e => exact ⟨rfl, Or.inl rfl⟩
  | ok _ => exact ⟨rfl, Or.inr rfl⟩

theorem Ready.forget (h : r.Ready i) (p : Policy) :
    Ready i { r with resolved := r.resolved.erase p } := by
  refine ⟨{ h.faithful with resolved := ?_ }, h.idle⟩
  intro q edges hq
  rw [Table.find?_erase] at hq
  split at hq
  · cases hq
  · exact h.faithful.resolved q edges hq

/-- A request is answered from the inputs, and leaves the resolver ready for the next. -/
theorem Ready.serve (h : r.Ready i) (q : Request) :
    (r.serve q).1 = i.answer q.policy ∧ (r.serve q).2.Ready i := by
  obtain ⟨hanswer, hready⟩ := h.edges q.policy
  unfold Resolver.serve
  split
  · obtain ⟨hsame, hafter | hafter⟩ := take_cases r q.policy
    · rw [hsame, hafter]
      exact ⟨hanswer, hready⟩
    · rw [hsame, hafter]
      exact ⟨hanswer, hready.forget q.policy⟩
  · exact ⟨hanswer, hready⟩

theorem Ready.foldl (h : r.Ready i) (history : List Request) :
    (history.foldl (fun r q => (r.serve q).2) r).Ready i := by
  induction history generalizing r with
  | nil => exact h
  | cons q history ih => exact ih (h.serve q).2

theorem ready_after (i : PolicyInputs) (history : List Request) : (after i history).Ready i :=
  (ready_ofInputs i).foldl history

theorem serve_after (i : PolicyInputs) (history : List Request) (q : Request) :
    ((after i history).serve q).1 = i.answer q.policy :=
  ((ready_after i history).serve q).1

end Resolver

/-- The failure lies with the program: a stub or a callee is not what it has to be. -/
def PolicyError.OfProgram : PolicyError → Prop
  | .ambiguousStub _ _ => True
  | .stubWithoutJump _ => True
  | .calleeNotFunction _ _ => True
  | _ => False

/-- The failure is not that of a cycle of dependencies. -/
def PolicyError.Acyclic (e : PolicyError) : Prop := ∀ p, e ≠ .dependencyCycle p

theorem PolicyError.OfProgram.acyclic (e : PolicyError) (h : e.OfProgram) : e.Acyclic := by
  rintro p rfl
  exact h

theorem Graph.redirects_failsOnly (g : Graph) : FailsOnly PolicyError.OfProgram g.redirects := by
  have hredirect (stub : Address) : FailsOnly PolicyError.OfProgram (g.redirect stub) := by
    unfold redirect
    split
    · exact .error trivial
    · split
      · exact .ok none
      · split
        · exact .ok _
        · exact .error trivial
  unfold redirects
  refine .bind (.mapM ?_ _) fun _ => .ok _
  intro stub
  exact (hredirect stub).bind fun _ => .ok _

namespace PolicyInputs

variable {α : Type} (i : PolicyInputs)

theorem indexFor_acyclic (p : Policy) (build : SignatureTable → List Address → Redirects → α) :
    FailsOnly PolicyError.Acyclic (i.indexFor p build) := by
  unfold indexFor
  split
  · exact .error nofun
  · refine .bind (i.graph.redirects_failsOnly.mono PolicyError.OfProgram.acyclic) ?_
    intro redirects
    split
    · exact .ok _
    · exact .error nofun

theorem callees_failsOnly (site : Address) : FailsOnly PolicyError.OfProgram (i.callees site) := by
  refine .mapM ?_ _
  intro callee
  split
  · exact .ok _
  · exact .error trivial

theorem typeFinding_failsOnly (index : TypeIndex) (site : Address) :
    FailsOnly PolicyError.OfProgram (i.typeFinding index site) := by
  refine .bind (i.callees_failsOnly site) fun callees => .bind (.mapM ?_ _) fun _ => .ok _
  intro callee
  split
  · exact .ok _
  · exact .error trivial

theorem arityFinding_failsOnly (index : ArityIndex) (site : Address) :
    FailsOnly PolicyError.OfProgram (i.arityFinding index site) :=
  .bind (i.callees_failsOnly site) fun _ => .ok _

theorem findings_failsOnly {find : Address → Except PolicyError (SiteFinding (List α))}
    (h : ∀ site, FailsOnly PolicyError.OfProgram (find site)) :
    FailsOnly PolicyError.OfProgram (i.findings find) :=
  (FailsOnly.mapM h _).map _

theorem addedEdges_acyclic (p : Policy) (raw : List Edge) :
    FailsOnly PolicyError.Acyclic (i.addedEdges p raw) := by
  unfold addedEdges
  split
  · next fault hfault =>
    obtain ⟨e, -, he⟩ := List.exists_of_findSome?_eq_some hfault
    refine .error ?_
    unfold edgeFault? at he
    split at he
    · cases he
    · split at he
      · cases he
        nofun
      · obtain ⟨n, -, rfl⟩ := Option.map_eq_some_iff.mp he
        nofun
  · exact .ok _

theorem ownAnswer_acyclic (p : Policy) : FailsOnly PolicyError.Acyclic (i.ownAnswer p) := by
  refine .bind ?_ (i.addedEdges_acyclic p)
  cases p with
  | typed =>
    refine .bind (i.indexFor_acyclic _ _) fun index => ?_
    exact (i.findings_failsOnly (i.typeFinding_failsOnly index)).mono PolicyError.OfProgram.acyclic
  | argCount =>
    refine .bind (i.indexFor_acyclic _ _) fun index => .bind ?_ fun _ => .ok _
    exact (i.findings_failsOnly (i.arityFinding_failsOnly index)).mono PolicyError.OfProgram.acyclic
  | _ => exact .ok _

theorem answer_acyclic (p : Policy) : FailsOnly PolicyError.Acyclic (i.answer p) := by
  unfold answer
  split
  · exact i.ownAnswer_acyclic p
  · exact (FailsOnly.mapM i.ownAnswer_acyclic _).map _

/-- An intersection has the edges that both of its policies have, and fails with the first of them
that fails. -/
theorem answer_numericTyped (w : Weighting) :
    i.answer (.numericTyped w) = (do
      let numeric ← i.answer (.numeric w)
      let typed ← i.answer .typed
      return numeric.filter fun e => e ∈ typed) := by
  have hnumeric : i.answer (.numeric w) = i.ownAnswer (.numeric w) := answer_of_independent rfl
  have htyped : i.answer .typed = i.ownAnswer .typed := answer_of_independent rfl
  have hboth : i.answer (.numericTyped w) =
      ([.numeric w, .typed].mapM i.ownAnswer).map Resolver.common := rfl
  rw [hnumeric, htyped, hboth, List.mapM_cons, List.mapM_cons, List.mapM_nil]
  cases i.ownAnswer (.numeric w) with
  | error e => rfl
  | ok numeric =>
    cases i.ownAnswer .typed with
    | error e => rfl
    | ok typed =>
      change Except.ok (Resolver.common [numeric, typed]) = Except.ok _
      simp [Resolver.common]

end PolicyInputs

namespace Resolver

/-- After any requests, whether they failed or not, a request is answered as by a new resolver, and
never by a cycle of dependencies. In particular an intersection is the intersection of what its
policies are answered with at any time, also when they were taken out before. -/
theorem answers_independent_of_history (i : PolicyInputs) (history : List Request) :
    (∀ q : Request, ((after i history).serve q).1 = ((ofInputs i).serve q).1 ∧
      ∀ p, ((after i history).serve q).1 ≠ .error (.dependencyCycle p)) ∧
    ∀ (w : Weighting) (taking taking₁ taking₂ : Bool) (history₁ history₂ : List Request),
      ((after i history).serve ⟨.numericTyped w, taking⟩).1 = (do
        let numeric ← ((after i history₁).serve ⟨.numeric w, taking₁⟩).1
        let typed ← ((after i history₂).serve ⟨.typed, taking₂⟩).1
        return numeric.filter fun e => e ∈ typed) := by
  constructor
  · intro q
    rw [serve_after, ((ready_ofInputs i).serve q).1]
    refine ⟨rfl, ?_⟩
    intro p hcycle
    exact i.answer_acyclic q.policy _ hcycle p rfl
  · intro w taking taking₁ taking₂ history₁ history₂
    rw [serve_after, serve_after, serve_after]
    exact i.answer_numericTyped w

end Resolver
end CfiSlack
