import CfiSlack.Proofs.GraphHistory
import CfiSlack.Proofs.StubRedirects

/-!
# Tables of redirects

When the stubs of a graph can be redirected, which redirects are found, and what is reported otherwise.
No edge to the sink was seen at run time, whatever calls a graph went through, so a stub that leads to a
block is redirected to a block. The order in which blocks and edges are listed has no influence.
-/
namespace CfiSlack.Graph

variable {g : Graph} {stub : Address} {e : PolicyError}

/-- The failure that a faulty stub is reported with. A missing jump is noticed first. -/
inductive StubFault (g : Graph) (stub : Address) : PolicyError → Prop
  | noJump {b : Block} (block : g.block? stub = some b) (plt : b.isPlt = true)
      (ends : b.endsWith .jumpIndirect = false) : StubFault g stub (.stubWithoutJump stub)
  | ambiguous {b : Block} (block : g.block? stub = some b) (plt : b.isPlt = true)
      (ends : b.endsWith .jumpIndirect = true) (several : 1 < (g.successors (.block stub)).length)
      (unclear : ¬ ∃! n, g.SeenFrom stub n) :
      StubFault g stub (.ambiguousStub stub {n | g.SeenFrom stub n}.ncard)

theorem StubFault.faulty (h : g.StubFault stub e) : g.FaultyStub stub := by
  cases h with
  | noJump hblock hplt hends => exact .noJump hblock hplt hends
  | ambiguous hblock hplt _ hseveral hunclear => exact .ambiguous hblock hplt hseveral hunclear

theorem length_stubTargets (h : 1 < (g.successors (.block stub)).length) :
    (g.stubTargets stub).length = {n | g.SeenFrom stub n}.ncard :=
  length_eq_ncard (g.nodup_stubTargets stub) fun _ => mem_stubTargets_of_several h

theorem redirect_of_noJump (h : (g.block? stub).any (·.endsWith .jumpIndirect) = false) :
    g.redirect stub = .error (.stubWithoutJump stub) := by
  rw [redirect, if_pos (by simp [h])]

/-- A stub that ends in an indirect jump can only be ambiguous. -/
theorem redirect_of_jump (h : (g.block? stub).any (·.endsWith .jumpIndirect) = true)
    (he : g.redirect stub = .error e) : e = .ambiguousStub stub (g.stubTargets stub).length := by
  rw [redirect, if_neg (by simp [h])] at he
  split at he
  · cases he
  · split at he
    · cases he
    · cases he
      rfl

theorem redirect_eq_error (h : stub ∈ g.stubs) : g.redirect stub = .error e ↔ g.StubFault stub e := by
  obtain ⟨b, hblock, hplt⟩ := mem_stubs.mp h
  have hany : (g.block? stub).any (·.endsWith .jumpIndirect) = b.endsWith .jumpIndirect := by
    rw [hblock, Option.any_some]
  constructor
  · intro he
    have hfaulty : g.FaultyStub stub := by
      by_contra hsound
      obtain ⟨target, htarget⟩ := (exists_redirect h).mpr hsound
      rw [htarget] at he
      cases he
    cases hends : b.endsWith .jumpIndirect with
    | false =>
      rw [redirect_of_noJump (hany.trans hends)] at he
      cases he
      exact .noJump hblock hplt hends
    | true =>
      rw [redirect_of_jump (hany.trans hends) he]
      cases hfaulty with
      | noJump hblock' _ hno =>
        rw [hblock] at hblock'
        cases hblock'
        rw [hends] at hno
        cases hno
      | ambiguous _ _ hseveral hunclear =>
        rw [length_stubTargets hseveral]
        exact .ambiguous hblock hplt hends hseveral hunclear
  · intro hfault
    obtain ⟨e', he'⟩ : ∃ e', g.redirect stub = .error e' := by
      cases hredirect : g.redirect stub with
      | error e' => exact ⟨e', rfl⟩
      | ok target => exact absurd hfault.faulty ((exists_redirect h).mp ⟨target, hredirect⟩)
    rw [he']
    cases hfault with
    | noJump hblock' _ hends =>
      rw [redirect_of_noJump (by rw [hblock', Option.any_some, hends])] at he'
      exact he'.symm
    | ambiguous hblock' _ hends hseveral _ =>
      rw [redirect_of_jump (by rw [hblock', Option.any_some, hends]) he', length_stubTargets hseveral]

/-- The stubs are gone through in ascending order, so the lowest faulty one is reported. -/
theorem redirects_eq_error :
    g.redirects = .error e ↔
      ∃ stub, g.StubFault stub e ∧ ∀ other, g.FaultyStub other → stub ≤ other := by
  have hstep (stub : Address) : (do
      let target ← g.redirect stub
      return (target.bind Node.addr?).map fun a => (stub, a)) = Except.error e ↔
        g.redirect stub = .error e := by
    rw [bind_eq_error]
    simp [pure, Except.pure]
  have hsorted : g.stubs.Pairwise (· < ·) := Ascending.pairwise_ofList _
  constructor
  · intro h
    rcases bind_eq_error.mp h with h | ⟨rows, -, h⟩
    · obtain ⟨before, stub, rest, hstubs, hbefore, hstub⟩ := mapM_eq_error.mp h
      have hmem : stub ∈ g.stubs := by simp [hstubs]
      refine ⟨stub, (redirect_eq_error hmem).mp ((hstep stub).mp hstub), ?_⟩
      intro other hfaulty
      rw [hstubs, List.pairwise_append, List.pairwise_cons] at hsorted
      obtain ⟨-, ⟨hrest, -⟩, -⟩ := hsorted
      have hother := hfaulty.mem_stubs
      rw [hstubs, List.mem_append, List.mem_cons] at hother
      rcases hother with hother | rfl | hother
      · obtain ⟨row, hrow⟩ := hbefore other hother
        obtain ⟨target, htarget, -⟩ := bind_eq_ok.mp hrow
        exact absurd hfaulty ((exists_redirect hfaulty.mem_stubs).mp ⟨target, htarget⟩)
      · exact UInt64.le_refl _
      · exact UInt64.le_of_lt (hrest other hother)
    · cases h
  · rintro ⟨stub, hfault, hlowest⟩
    have hmem := hfault.faulty.mem_stubs
    obtain ⟨before, rest, hstubs⟩ := List.append_of_mem hmem
    refine bind_eq_error.mpr (Or.inl (mapM_eq_error.mpr ⟨before, stub, rest, hstubs, ?_, ?_⟩))
    · intro other hother
      rw [hstubs, List.pairwise_append] at hsorted
      have hlt : other < stub := hsorted.2.2 other hother stub List.mem_cons_self
      have hsound : ¬ g.FaultyStub other := fun hfaulty =>
        UInt64.not_lt.mpr (hlowest other hfaulty) hlt
      have hstub : other ∈ g.stubs := by simp [hstubs, hother]
      obtain ⟨target, htarget⟩ := (exists_redirect hstub).mpr hsound
      exact ⟨_, bind_eq_ok.mpr ⟨target, htarget, rfl⟩⟩
    · exact (hstep stub).mpr ((redirect_eq_error hmem).mpr hfault)

/-! ### The redirects that are found -/

variable {r : Redirects} {target : Address}

theorem find?_redirects (h : g.redirects = .ok r) :
    r.find? stub = some target ↔ stub ∈ g.stubs ∧ g.redirect stub = .ok (some (.block target)) := by
  constructor
  · intro hfind
    exact redirect_of_mem_pairs h (Redirects.mem_pairs.mpr hfind)
  · rintro ⟨hstub, hredirect⟩
    obtain ⟨rows, hrows, hr⟩ := bind_eq_ok.mp h
    cases hr
    have hrow : some (stub, target) ∈ rows :=
      (mem_of_mapM_eq_ok hrows).mpr ⟨stub, hstub, bind_eq_ok.mpr ⟨_, hredirect, rfl⟩⟩
    rcases Table.find?_insertAll_cases .empty (rows.filterMap id) stub with
      ⟨other, -, hfind⟩ | ⟨hnone, -⟩
    · -- whatever row the table has for the stub, it was found from the same redirect
      have hother := redirect_of_mem_pairs h (Redirects.mem_pairs.mpr hfind)
      rw [hredirect] at hother
      cases hother.2
      exact hfind
    · have hkept : (stub, target) ∈ rows.filterMap id := List.mem_filterMap.mpr ⟨_, hrow, rfl⟩
      exact absurd hkept (hnone target)

/-- A redirect leads to the only successor, or to the only one that was seen. -/
theorem redirect_eq_some {n : Node} (h : g.redirect stub = .ok (some n)) :
    g.successors (.block stub) = [n] ∨
      1 < (g.successors (.block stub)).length ∧ ∀ m, g.SeenFrom stub m ↔ m = n := by
  rcases (redirect_eq_ok h).2 with ⟨-, hnone⟩ | ⟨n', hn, heq⟩
  · cases hnone
  · cases heq
    by_cases hseveral : 1 < (g.successors (.block stub)).length
    · refine Or.inr ⟨hseveral, fun m => ?_⟩
      rw [← mem_stubTargets_of_several hseveral, hn, List.mem_singleton]
    · refine Or.inl ?_
      rw [← map_target_outFlows, List.length_map] at hseveral
      rw [← map_target_outFlows, ← hn, stubTargets, if_neg hseveral]

theorem mem_successors_of_redirect {n : Node} (h : g.redirect stub = .ok (some n)) :
    n ∈ g.successors (.block stub) := by
  rcases (redirect_eq_ok h).2 with ⟨-, hnone⟩ | ⟨n', hn, heq⟩
  · cases hnone
  · cases heq
    exact (g.stubTargets_sublist stub).mem (hn ▸ List.mem_singleton_self _)

/-! ### The sink is never seen -/

/-- No edge to the sink was seen at run time. -/
def SinkUnseen (g : Graph) : Prop := ∀ stub, ¬ g.SeenFrom stub .sink

theorem sinkUnseen_of_flow? {g' : Graph} (h : g.SinkUnseen)
    (hflow : ∀ stub, g'.flow? ⟨.block stub, .sink⟩ = g.flow? ⟨.block stub, .sink⟩) :
    g'.SinkUnseen := by
  rintro stub ⟨flow, hfind, hseen⟩
  rw [hflow] at hfind
  exact h stub ⟨flow, hfind, hseen⟩

theorem SinkUnseen.perform (h : g.SinkUnseen) (c : Call) : (g.perform c).2.SinkUnseen := by
  by_cases hcan : g.CanPerform c
  · cases c with
    | addBlock a b => exact sinkUnseen_of_flow? h fun _ => rfl
    | addEdge source target flow =>
      refine sinkUnseen_of_flow? h fun stub => ?_
      rw [flow?, Graph.perform, flows_addEdge hcan.1 hcan.2, Table.find?_insert, if_neg (by simp)]
      rfl
    | attachSink =>
      rintro stub ⟨flow, hfind, hseen⟩
      rw [flow?, Graph.perform, flows_attachSink hcan] at hfind
      rcases Table.find?_insertAll_cases g.flows
          (g.gates.map fun a => (⟨.block a, .sink⟩, { kind := .syscall })) ⟨.block stub, .sink⟩ with
        ⟨gate, hgate, hfound⟩ | ⟨-, hkept⟩
      · -- the edges that come with the sink name no tool
        rw [hfound] at hfind
        cases hfind
        obtain ⟨a, -, heq⟩ := List.mem_map.mp hgate
        cases heq
        cases hseen
      · rw [hkept] at hfind
        exact h stub ⟨flow, hfind, hseen⟩
  · obtain ⟨err, herr⟩ := perform_of_cannot hcan
    rw [herr]
    exact h

theorem sinkUnseen_after (calls : List Call) : (after calls).SinkUnseen := by
  induction calls using List.reverseRecOn with
  | nil =>
    rintro stub ⟨flow, hfind, -⟩
    cases hfind
  | append_singleton calls c ih =>
    rw [after, List.foldl_append]
    exact ih.perform c

/-- Where the sink was not seen, a stub with a successor that is a block is redirected to a block. -/
theorem exists_redirect_block (hsink : g.SinkUnseen) {a : Address}
    (ha : .block a ∈ g.successors (.block stub)) (h : ∃ n, g.redirect stub = .ok n) :
    ∃ target, g.redirect stub = .ok (some (.block target)) := by
  obtain ⟨_ | n, hn⟩ := h
  · rcases (redirect_eq_ok hn).2 with ⟨hnone, -⟩ | ⟨_, -, hsome⟩
    · rw [hnone] at ha
      cases ha
    · cases hsome
  · rcases g.target_mem _ (mem_successors.mp (mem_successors_of_redirect hn)) with
      ⟨target, htarget, -⟩ | ⟨hgoal, -⟩
    · cases htarget
      exact ⟨target, hn⟩
    · cases hgoal
      rcases redirect_eq_some hn with honly | ⟨-, hseen⟩
      · rw [honly] at ha
        simp at ha
      · exact absurd ((hseen .sink).mpr rfl) (hsink stub)

/-- The same blocks and edges, listed in any order. -/
structure Relists (g h : Graph) : Prop where
  blocks : g.blocks.rows.Perm h.blocks.rows
  flows : g.flows.rows.Perm h.flows.rows

theorem Relists.sinkUnseen {h : Graph} (hg : g.Relists h) (hsink : h.SinkUnseen) : g.SinkUnseen := by
  refine sinkUnseen_of_flow? hsink fun stub => Option.ext fun flow => ?_
  rw [flow?, flow?, Table.find?_eq_some, Table.find?_eq_some, hg.flows.mem_iff]

/-- For the graph of any calls, listed in any order: there are redirects unless a stub is faulty; they
are those of the stubs that lead to a block, to the only successor or the only one that was seen, which
is a block; and otherwise the lowest faulty stub is reported, with the number of successors seen if it is
ambiguous. -/
theorem redirects_exact (calls : List Call) (g : Graph) (hg : g.Relists (after calls)) :
    ((∃ r, g.redirects = .ok r) ↔ ¬ ∃ stub, g.FaultyStub stub) ∧
    (∀ r, g.redirects = .ok r →
      (∀ stub, (r.find? stub).isSome = true ↔
        (∃ b, g.block? stub = some b ∧ b.isPlt = true) ∧
          ∃ a, .block a ∈ g.successors (.block stub)) ∧
      ∀ stub target, r.find? stub = some target → g.hasBlock target = true ∧
        (g.successors (.block stub) = [.block target] ∨
          1 < (g.successors (.block stub)).length ∧
            ∀ n, g.SeenFrom stub n ↔ n = .block target)) ∧
    ∀ e, g.redirects = .error e ↔
      ∃ stub, g.StubFault stub e ∧ ∀ other, g.FaultyStub other → stub ≤ other := by
  refine ⟨exists_redirects, ?_, fun e => redirects_eq_error⟩
  intro r hr
  refine ⟨?_, ?_⟩
  · intro stub
    rw [Option.isSome_iff_exists, ← mem_stubs]
    simp only [find?_redirects hr]
    constructor
    · rintro ⟨target, hstub, hredirect⟩
      exact ⟨hstub, target, mem_successors_of_redirect hredirect⟩
    · rintro ⟨hstub, a, ha⟩
      have hsound : ¬ g.FaultyStub stub := fun hfaulty => exists_redirects.mp ⟨r, hr⟩ ⟨stub, hfaulty⟩
      obtain ⟨target, htarget⟩ := exists_redirect_block (hg.sinkUnseen (sinkUnseen_after calls)) ha
        ((exists_redirect hstub).mpr hsound)
      exact ⟨target, hstub, htarget⟩
  · intro stub target hfind
    have hpair := Redirects.mem_pairs.mpr hfind
    exact ⟨hasBlock_iff.mpr (mem_blocks_of_redirects hr hpair).2,
      redirect_eq_some ((find?_redirects hr).mp hfind).2⟩

/-- Block 16 leads to the sink and becomes a stub later. Two blocks follow it, and one of them was seen at
run time. -/
def lateStub : List Call :=
  [.addBlock 16 { size := 2, instrs := 1, terminator := some .syscall },
    .addBlock 256 { size := 8, instrs := 2 }, .addBlock 512 { size := 8, instrs := 3 }, .attachSink,
    .addBlock 16 { size := 6, instrs := 1, inPlt := some true, terminator := some .jumpIndirect },
    .addEdge 16 512 { kind := .jumpIndirect, seenBy := ["angr"] },
    .addEdge 16 256 { kind := .jumpIndirect, seenBy := ["angr", "cfggrind"] }]

theorem redirects_exact_lateStub :
    (after lateStub).Relists (after lateStub) ∧
      (after lateStub).redirects = .ok (.ofRows [(16, 256)]) ∧
      Node.sink ∈ (after lateStub).successors (.block 16) ∧
      (¬ ∃ stub, (after lateStub).FaultyStub stub) ∧
      ∀ n, (after lateStub).SeenFrom 16 n ↔ n = .block 256 := by
  have hlists : (after lateStub).Relists (after lateStub) := ⟨.refl _, .refl _⟩
  have hredirects : (after lateStub).redirects = .ok (.ofRows [(16, 256)]) := rfl
  have hsink : Node.sink ∈ (after lateStub).successors (.block 16) := by decide
  obtain ⟨hsound, hfound, -⟩ := redirects_exact lateStub _ hlists
  refine ⟨hlists, hredirects, hsink, hsound.mp ⟨_, hredirects⟩, ?_⟩
  rcases ((hfound _ hredirects).2 16 256 rfl).2 with honly | ⟨-, hseen⟩
  · rw [honly] at hsink
    simp at hsink
  · exact hseen

end CfiSlack.Graph
