import CfiSlack.Proofs.LaidEdges
import CfiSlack.Proofs.SignatureIndexes

/-!
# Redirects of stubs

The stubs of a graph can be redirected unless one of them is faulty, and a redirect leads from a block to
a block.
-/
namespace CfiSlack

namespace Graph

variable {g : Graph} {stub : Address}

/-- The run-time tool saw control pass from the stub to the node. -/
def SeenFrom (g : Graph) (stub : Address) (n : Node) : Prop :=
  ∃ flow, g.flow? ⟨.block stub, n⟩ = some flow ∧ flow.observedBy Redirects.runtimeTool = true

/-- A stub that cannot be redirected: it does not end in an indirect jump, or it has several successors
and not just one of them was seen at run time. -/
inductive FaultyStub (g : Graph) (stub : Address) : Prop
  | noJump {b : Block} (block : g.block? stub = some b) (plt : b.isPlt = true)
      (ends : b.endsWith .jumpIndirect = false)
  | ambiguous {b : Block} (block : g.block? stub = some b) (plt : b.isPlt = true)
      (several : 1 < (g.successors (.block stub)).length) (unclear : ¬ ∃! n, g.SeenFrom stub n)

theorem mem_stubs : stub ∈ g.stubs ↔ ∃ b, g.block? stub = some b ∧ b.isPlt = true := by
  simp only [stubs, Ascending.mem_ofList, List.mem_map, List.mem_filter, block?, Table.find?_eq_some]
  constructor
  · rintro ⟨⟨a, b⟩, ⟨hrow, hplt⟩, rfl⟩
    exact ⟨b, hrow, hplt⟩
  · rintro ⟨b, hrow, hplt⟩
    exact ⟨(stub, b), ⟨hrow, hplt⟩, rfl⟩

theorem mem_outFlows {m : Node} {row : Edge × Flow} :
    row ∈ g.outFlows m ↔ g.flow? row.1 = some row.2 ∧ row.1.source = m := by
  simp only [outFlows, List.mem_filter, decide_eq_true_eq, flow?, Table.find?_eq_some]

theorem map_target_outFlows (g : Graph) (m : Node) :
    (g.outFlows m).map (fun row => row.1.target) = g.successors m := by
  simp [outFlows, successors, Table.keys, List.filter_map, Function.comp_def]

theorem stubTargets_sublist (g : Graph) (stub : Address) :
    (g.stubTargets stub).Sublist (g.successors (.block stub)) := by
  rw [← map_target_outFlows]
  refine List.Sublist.map _ ?_
  split
  · exact List.filter_sublist
  · exact List.Sublist.refl _

theorem nodup_stubTargets (g : Graph) (stub : Address) : (g.stubTargets stub).Nodup :=
  (g.nodup_successors _).sublist (g.stubTargets_sublist stub)

theorem mem_stubTargets_of_several (h : 1 < (g.successors (.block stub)).length) {n : Node} :
    n ∈ g.stubTargets stub ↔ g.SeenFrom stub n := by
  have hseveral : (g.outFlows (.block stub)).length > 1 := by rwa [← outDegree_eq] at h
  simp only [stubTargets, if_pos hseveral, List.mem_map, List.mem_filter, mem_outFlows]
  constructor
  · rintro ⟨⟨⟨m, k⟩, flow⟩, ⟨⟨hflow, rfl⟩, hseen⟩, rfl⟩
    exact ⟨flow, hflow, hseen⟩
  · rintro ⟨flow, hflow, hseen⟩
    exact ⟨(⟨_, n⟩, flow), ⟨⟨hflow, rfl⟩, hseen⟩, rfl⟩

/-- A list without repetition is a single element if it has just one. -/
theorem exists_eq_singleton {α : Type} {l : List α} (h : l.Nodup) :
    (∃ a, l = [a]) ↔ ∃! a, a ∈ l := by
  constructor
  · rintro ⟨a, rfl⟩
    exact ⟨a, List.mem_singleton_self a, fun b hb => List.mem_singleton.mp hb⟩
  · rintro ⟨a, ha, honly⟩
    have hperm : l.Perm [a] := by
      rw [List.perm_ext_iff_of_nodup h (List.nodup_singleton a)]
      intro b
      rw [List.mem_singleton]
      exact ⟨honly b, fun hb => hb ▸ ha⟩
    exact ⟨a, List.perm_singleton.mp hperm⟩

theorem redirect_eq_ok {target : Option Node} (h : g.redirect stub = .ok target) :
    (g.block? stub).any (·.endsWith .jumpIndirect) = true ∧
      (g.successors (.block stub) = [] ∧ target = none ∨
        ∃ n, g.stubTargets stub = [n] ∧ target = some n) := by
  unfold redirect at h
  split at h
  · cases h
  · next hends =>
    refine ⟨by simpa using hends, ?_⟩
    split at h
    · next hempty =>
      cases h
      rw [← map_target_outFlows, List.isEmpty_iff.mp hempty]
      exact Or.inl ⟨rfl, rfl⟩
    · split at h
      · next n hn =>
        cases h
        exact Or.inr ⟨n, hn, rfl⟩
      · cases h

theorem exists_redirect (h : stub ∈ g.stubs) :
    (∃ target, g.redirect stub = .ok target) ↔ ¬ g.FaultyStub stub := by
  obtain ⟨b, hblock, hplt⟩ := mem_stubs.mp h
  constructor
  · rintro ⟨target, htarget⟩ hfaulty
    obtain ⟨hends, hcases⟩ := redirect_eq_ok htarget
    cases hfaulty with
    | noJump hblock' _ hno =>
      rw [hblock', Option.any_some, hno] at hends
      cases hends
    | ambiguous _ _ hseveral hunclear =>
      rcases hcases with ⟨hnone, -⟩ | ⟨n, hn, -⟩
      · rw [hnone] at hseveral
        simp at hseveral
      · refine hunclear ?_
        simp only [← mem_stubTargets_of_several hseveral]
        exact (exists_eq_singleton (g.nodup_stubTargets stub)).mp ⟨n, hn⟩
  · intro hsound
    have hends : b.endsWith .jumpIndirect = true := by
      by_contra hno
      exact hsound (.noJump hblock hplt (Bool.not_eq_true _ ▸ hno))
    have hjump : ¬(!(g.block? stub).any (·.endsWith .jumpIndirect)) = true := by simp [hblock, hends]
    rw [redirect, if_neg hjump]
    split
    · exact ⟨none, rfl⟩
    · next hsome =>
      have hsingle : ∃ n, g.stubTargets stub = [n] := by
        by_cases hseveral : 1 < (g.successors (.block stub)).length
        · refine (exists_eq_singleton (g.nodup_stubTargets stub)).mpr ?_
          simp only [mem_stubTargets_of_several hseveral]
          by_contra hunclear
          exact hsound (.ambiguous hblock hplt hseveral hunclear)
        · -- a single successor counts whether or not it was seen
          rw [← map_target_outFlows, List.length_map] at hseveral
          obtain ⟨row, hrow⟩ : ∃ row, g.outFlows (.block stub) = [row] := by
            rw [← List.length_eq_one_iff]
            have hpos := List.length_pos_iff.mpr (mt List.isEmpty_iff.mpr hsome)
            omega
          exact ⟨row.1.target, by simp [stubTargets, hrow]⟩
      obtain ⟨n, hn⟩ := hsingle
      exact ⟨some n, by rw [hn]⟩

theorem FaultyStub.mem_stubs (h : g.FaultyStub stub) : stub ∈ g.stubs := by
  cases h with
  | noJump hblock hplt _ => exact Graph.mem_stubs.mpr ⟨_, hblock, hplt⟩
  | ambiguous hblock hplt _ _ => exact Graph.mem_stubs.mpr ⟨_, hblock, hplt⟩

theorem exists_redirects : (∃ r, g.redirects = .ok r) ↔ ¬ ∃ stub, g.FaultyStub stub := by
  constructor
  · rintro ⟨r, h⟩ ⟨stub, hfaulty⟩
    obtain ⟨rows, hrows, -⟩ := bind_eq_ok.mp h
    obtain ⟨row, -, hrow⟩ := exists_of_mapM_eq_ok hrows hfaulty.mem_stubs
    obtain ⟨target, htarget, -⟩ := bind_eq_ok.mp hrow
    exact (exists_redirect hfaulty.mem_stubs).mp ⟨target, htarget⟩ hfaulty
  · intro h
    obtain ⟨rows, hrows⟩ : ∃ rows, g.stubs.mapM (fun stub => do
        let target ← g.redirect stub
        return (target.bind Node.addr?).map fun a => (stub, a)) = Except.ok rows := by
      refine exists_mapM_eq_ok.mpr fun stub hstub => ?_
      obtain ⟨target, htarget⟩ := (exists_redirect hstub).mpr fun hfaulty => h ⟨stub, hfaulty⟩
      exact ⟨_, bind_eq_ok.mpr ⟨target, htarget, rfl⟩⟩
    exact ⟨_, bind_eq_ok.mpr ⟨rows, hrows, rfl⟩⟩

theorem redirect_of_mem_pairs {r : Redirects} (h : g.redirects = .ok r) {target : Address}
    (hpair : (stub, target) ∈ r.pairs) :
    stub ∈ g.stubs ∧ g.redirect stub = .ok (some (.block target)) := by
  obtain ⟨rows, hrows, h⟩ := bind_eq_ok.mp h
  cases h
  have hfind := Redirects.mem_pairs.mp hpair
  have hrow : some (stub, target) ∈ rows := by
    rcases Table.find?_insertAll_cases .empty (rows.filterMap id) stub with ⟨a, ha, heq⟩ | ⟨-, heq⟩
    · rw [Table.ofRows, heq] at hfind
      cases hfind
      simpa using ha
    · rw [Table.ofRows, heq] at hfind
      cases hfind
  obtain ⟨origin, horigin, hredirect⟩ := (mem_of_mapM_eq_ok hrows).mp hrow
  obtain ⟨found, hfound, hpure⟩ := bind_eq_ok.mp hredirect
  obtain ⟨a, haddr, heq⟩ := Option.map_eq_some_iff.mp (Except.ok.inj hpure)
  cases heq
  obtain ⟨n, rfl, hn⟩ := Option.bind_eq_some_iff.mp haddr
  cases n with
  | block b =>
    cases hn
    exact ⟨horigin, hfound⟩
  | _ => cases hn

/-- Stubs and what they stand for are blocks. -/
theorem mem_blocks_of_redirects {r : Redirects} (h : g.redirects = .ok r)
    {pair : Address × Address} (hpair : pair ∈ r.pairs) :
    pair.1 ∈ g.blocks.keys ∧ pair.2 ∈ g.blocks.keys := by
  obtain ⟨hstub, hredirect⟩ := redirect_of_mem_pairs h hpair
  obtain ⟨b, hblock, -⟩ := mem_stubs.mp hstub
  refine ⟨Table.mem_keys.mpr (Option.isSome_iff_exists.mpr ⟨b, hblock⟩), ?_⟩
  rcases (redirect_eq_ok hredirect).2 with ⟨-, hnone⟩ | ⟨n, hn, heq⟩
  · cases hnone
  · cases heq
    have hsucc := (g.stubTargets_sublist pair.1).mem (hn ▸ List.mem_singleton_self _)
    rcases g.target_mem _ (mem_successors.mp hsucc) with ⟨a, ha, hmem⟩ | ⟨hsink, -⟩
    · cases ha
      exact hmem
    · cases hsink

end Graph
end CfiSlack
