import CfiSlack.Proofs.Histories
import CfiSlack.Proofs.TypedTargets

/-!
# Surveys of the call sites

What a look at all call sites records. It notes the sites at which a callee differs from what the compiler
knew, each once however often the sites are looked at, and counts the sites as checked unless it fails at one
of them.
-/
namespace CfiSlack

/-- The policy that looks for a kind of anomaly. -/
def Mismatch.policy : Mismatch → Policy
  | .types => .typed
  | .argCounts => .argCount

theorem Mismatch.policy_inj {kind other : Mismatch} : kind.policy = other.policy ↔ kind = other := by
  cases kind <;> cases other <;> simp [policy]

namespace Anomalies

variable {an : Anomalies} {kind : Mismatch} {sites : List Address} {a b : Anomaly}

theorem contains_iff : an.contains a = true ↔ a ∈ an.seen := by simp [contains]

theorem mem_seen_record : b ∈ (an.record a).seen ↔ b ∈ an.seen ∨ b = a := by
  unfold record
  split
  · next ha =>
    refine (or_iff_left_of_imp ?_).symm
    rintro rfl
    exact contains_iff.mp ha
  · simp

theorem nodup_seen_record (h : an.seen.Nodup) : (an.record a).seen.Nodup := by
  unfold record
  split
  · exact h
  · next ha =>
    rw [← List.concat_eq_append]
    exact .concat (mt contains_iff.mpr ha) h

theorem checked_record : (an.record a).checked = an.checked := by
  unfold record
  split <;> rfl

/-- Record several sites. -/
def recordAll (an : Anomalies) (kind : Mismatch) (sites : List Address) : Anomalies :=
  sites.foldl (fun an site => an.record ⟨site, kind⟩) an

theorem mem_seen_recordAll :
    b ∈ (an.recordAll kind sites).seen ↔ b ∈ an.seen ∨ b.kind = kind ∧ b.site ∈ sites := by
  induction sites generalizing an with
  | nil => simp [recordAll]
  | cons site sites ih =>
    have hsite : b = ⟨site, kind⟩ ↔ b.kind = kind ∧ b.site = site := by
      obtain ⟨s, k⟩ := b
      simp [and_comm]
    change b ∈ ((an.record ⟨site, kind⟩).recordAll kind sites).seen ↔ _
    rw [ih, mem_seen_record, hsite, List.mem_cons]
    tauto

theorem nodup_seen_recordAll (h : an.seen.Nodup) : (an.recordAll kind sites).seen.Nodup := by
  induction sites generalizing an with
  | nil => exact h
  | cons site sites ih => exact ih (nodup_seen_record h)

theorem checked_recordAll : (an.recordAll kind sites).checked = an.checked := by
  induction sites generalizing an with
  | nil => rfl
  | cons site sites ih => exact ih.trans checked_record

theorem of_mem_summary {s : Summary} (h : s ∈ an.summary) :
    an.checked.find? s.kind = some s.sites ∧ s.anomalies = an.count s.kind ∧
      s.ratio = if s.sites = 0 then 0.0
        else (UInt64.ofNat s.anomalies).toFloat / (UInt64.ofNat s.sites).toFloat := by
  obtain ⟨kind, -, hkind⟩ := List.mem_filterMap.mp h
  obtain ⟨sites, hsites, rfl⟩ := Option.map_eq_some_iff.mp hkind
  refine ⟨hsites, rfl, ?_⟩
  simp only [ratio?, hsites, Option.getD_some]
  split <;> rfl

end Anomalies

namespace PolicyInputs

variable {α : Type} {i : PolicyInputs} {site : Address} {kind : Mismatch} {n : ℕ} {an : Anomalies}

/-- The finding at a site shows an anomaly. -/
def flagged (find : Address → Except PolicyError (SiteFinding (List α))) (site : Address) : Bool :=
  (find site).toOption.any SiteFinding.anomalous

/-- A survey records the flagged sites up to the first that fails. -/
theorem survey_snd (kind : Mismatch) (find : Address → Except PolicyError (SiteFinding (List α)))
    (sites : List Address) (checked : ℕ) (an : Anomalies) :
    (survey kind find sites checked an).2 =
      if (sites.mapM find).isOk then
        (an.recordAll kind (sites.filter (flagged find))).addChecked kind (checked + sites.length)
      else an.recordAll kind ((sites.takeWhile fun site => (find site).isOk).filter (flagged find)) := by
  induction sites generalizing checked an with
  | nil => rfl
  | cons site sites ih =>
    rw [List.mapM_cons]
    cases hfind : find site with
    | error e =>
      simp only [survey, hfind]
      rw [List.takeWhile_cons_of_neg (by simp [hfind, Except.isOk, Except.toBool])]
      rfl
    | ok finding =>
      have hflagged : flagged find site = finding.anomalous := by
        simp [flagged, hfind, Except.toOption]
      have hrecord (l : List Address) : an.recordAll kind ((site :: l).filter (flagged find)) =
          (if finding.anomalous then an.record ⟨site, kind⟩ else an).recordAll kind
            (l.filter (flagged find)) := by
        rw [List.filter_cons, hflagged]
        split <;> rfl
      rw [List.takeWhile_cons_of_pos (by simp [hfind, Except.isOk, Except.toBool]), hrecord, hrecord]
      simp only [survey, hfind, ih, List.length_cons, Nat.add_assoc, Nat.add_comm 1]
      cases sites.mapM find <;> rfl

/-- Of several different values at least one differs from the known one, so it is enough to look for a
value that does. -/
theorem disagrees_eraseDups {β : Type} [DecidableEq β] [BEq β] [LawfulBEq β] {l : List β}
    {known : Option β} :
    disagrees l.eraseDups known = true ↔ ∃ k, known = some k ∧ ∃ b ∈ l, b ≠ k := by
  cases known with
  | none => simp [disagrees]
  | some k =>
    cases l with
    | nil => simp [disagrees]
    | cons a l =>
      have hmany : 1 < (a :: l).eraseDups.length ↔ ∃ b ∈ l, b ≠ a := by
        rw [List.eraseDups_cons, List.length_cons, Nat.lt_add_left_iff_pos, List.length_pos_iff_exists_mem]
        simp
      have hdisagrees : disagrees (a :: l).eraseDups (some k) = true ↔
          (∃ b ∈ l, b ≠ a) ∨ k ∉ a :: l := by
        have hnonempty : (a :: l).eraseDups.isEmpty = false := by simp [List.eraseDups_cons]
        rw [← hmany, ← List.mem_eraseDups]
        simp [disagrees, hnonempty]
      rw [hdisagrees]
      constructor
      · rintro (⟨b, hb, hne⟩ | hk)
        · by_cases ha : a = k
          · exact ⟨k, rfl, b, List.mem_cons_of_mem a hb, ha ▸ hne⟩
          · exact ⟨k, rfl, a, List.mem_cons_self, ha⟩
        · exact ⟨k, rfl, a, List.mem_cons_self, fun ha => hk (ha ▸ List.mem_cons_self)⟩
      · rintro ⟨_, hk, b, hb, hne⟩
        cases hk
        by_cases hk : k ∈ a :: l
        · left
          by_contra hsame
          have hall : ∀ c ∈ a :: l, c = a := by simpa using hsame
          exact hne ((hall b hb).trans (hall k hk).symm)
        · exact Or.inr hk

/-- The compiler knew what is called at a site, and a callee of another kind was observed there. -/
inductive Anomalous (i : PolicyInputs) (site : Address) : Mismatch → Prop
  | types {sites : SiteSignatures} {index : TypeIndex} {types : List String} {callee : Address}
      {s : Signature} (given : i.siteSignatures = some sites)
      (indexed : i.Indexed TypeIndex.build index) (expects : sites.Expects i.graph site types)
      (calls : i.graph.Calls site callee) (signature : index.signatureOf callee = some s)
      (differs : s ≠ .params types) : Anomalous i site .types
  | argCounts {sites : SiteSignatures} {index : ArityIndex} {types : List String} {callee : Address}
      (given : i.siteSignatures = some sites) (indexed : i.Indexed ArityIndex.build index)
      (expects : sites.Expects i.graph site types) (calls : i.graph.Calls site callee)
      (differs : index.arityOf callee ≠ some types.length) : Anomalous i site .argCounts

theorem Indexed.unique {build : SignatureTable → List Address → Redirects → α} {index index' : α}
    (h : i.Indexed build index) (h' : i.Indexed build index') : index = index' := by
  obtain ⟨table, redirects, htable, hredirects, rfl⟩ := h
  obtain ⟨table', redirects', htable', hredirects', rfl⟩ := h'
  cases htable.symm.trans htable'
  cases hredirects.symm.trans hredirects'
  rfl

theorem anomalous_typeFinding {index : TypeIndex} {finding : SiteFinding (List Edge)}
    (hindex : i.Indexed TypeIndex.build index) (h : i.typeFinding index site = .ok finding) :
    finding.anomalous = true ↔ i.Anomalous site .types := by
  obtain ⟨callees, hcallees, h⟩ := bind_eq_ok.mp h
  obtain ⟨signatures, hsignatures, h⟩ := bind_eq_ok.mp h
  cases h
  refine disagrees_eraseDups.trans ⟨?_, ?_⟩
  · rintro ⟨_, hparams, s, hs, hdiffers⟩
    obtain ⟨types, hknown, rfl⟩ := Option.map_eq_some_iff.mp hparams
    obtain ⟨c, hc, hs⟩ := (mem_of_mapM_eq_ok hsignatures).mp hs
    have hsignature : index.signatureOf c = some s := by
      split at hs
      · next hsome => exact hsome.trans (congrArg some (Except.ok.inj hs))
      · cases hs
    obtain ⟨sites, hsites, hexpects⟩ := compilerTypes_eq_some.mp hknown
    exact .types hsites hindex hexpects ((mem_callees hcallees).mp hc) hsignature hdiffers
  · intro hanomalous
    cases hanomalous with
    | types hsites hindexed hexpects hcalls hsignature hdiffers =>
      cases hindex.unique hindexed
      have hknown := compilerTypes_eq_some.mpr ⟨_, hsites, hexpects⟩
      refine ⟨_, Option.map_eq_some_iff.mpr ⟨_, hknown, rfl⟩, _, ?_, hdiffers⟩
      refine (mem_of_mapM_eq_ok hsignatures).mpr ⟨_, (mem_callees hcallees).mpr hcalls, ?_⟩
      rw [hsignature]

theorem anomalous_arityFinding {index : ArityIndex} {finding : SiteFinding (List (Address × Option ℕ))}
    (hindex : i.Indexed ArityIndex.build index) (h : i.arityFinding index site = .ok finding) :
    finding.anomalous = true ↔ i.Anomalous site .argCounts := by
  obtain ⟨callees, hcallees, h⟩ := bind_eq_ok.mp h
  cases h
  refine disagrees_eraseDups.trans ⟨?_, ?_⟩
  · rintro ⟨_, hcounted, count, hcount, hdiffers⟩
    obtain ⟨_, hlength, rfl⟩ := Option.map_eq_some_iff.mp hcounted
    obtain ⟨types, hknown, rfl⟩ := Option.map_eq_some_iff.mp hlength
    obtain ⟨c, hc, rfl⟩ := List.mem_map.mp hcount
    obtain ⟨sites, hsites, hexpects⟩ := compilerTypes_eq_some.mp hknown
    exact .argCounts hsites hindex hexpects ((mem_callees hcallees).mp hc) hdiffers
  · intro hanomalous
    cases hanomalous with
    | argCounts hsites hindexed hexpects hcalls hdiffers =>
      cases hindex.unique hindexed
      have hknown := compilerTypes_eq_some.mpr ⟨_, hsites, hexpects⟩
      refine ⟨_, by rw [hknown]; rfl, _, ?_, hdiffers⟩
      exact List.mem_map_of_mem ((mem_callees hcallees).mpr hcalls)

/-- The call sites were looked at this many times for anomalies of a kind. -/
structure Rounds (i : PolicyInputs) (kind : Mismatch) (n : ℕ) (an : Anomalies) : Prop where
  nodup : an.seen.Nodup
  checked : an.checked.find? kind = if n = 0 then none else some (n * i.sites.length)
  sound : ∀ site, ⟨site, kind⟩ ∈ an.seen → site ∈ i.sites ∧ i.Anomalous site kind
  complete : n ≠ 0 → ∀ site ∈ i.sites, i.Anomalous site kind → ⟨site, kind⟩ ∈ an.seen

theorem rounds_empty (i : PolicyInputs) (kind : Mismatch) : i.Rounds kind 0 .empty where
  nodup := List.nodup_nil
  checked := rfl
  sound _ h := by simp [Anomalies.empty] at h
  complete h := absurd rfl h

/-- Each anomalous site was recorded, and only once. -/
theorem Rounds.count_eq (h : i.Rounds kind n an) (hn : n ≠ 0) :
    an.count kind = {site | site ∈ i.sites ∧ i.Anomalous site kind}.ncard := by
  have hnodup : ((an.seen.filter fun a => a.kind = kind).map Anomaly.site).Nodup := by
    refine (h.nodup.filter _).map_on ?_
    rintro ⟨a, k⟩ ha ⟨b, k'⟩ hb rfl
    simp only [List.mem_filter, decide_eq_true_eq] at ha hb
    rw [ha.2, hb.2]
  have hmem (site : Address) : site ∈ (an.seen.filter fun a => a.kind = kind).map Anomaly.site ↔
      site ∈ i.sites ∧ i.Anomalous site kind := by
    rw [List.mem_map]
    constructor
    · rintro ⟨⟨a, k⟩, ha, rfl⟩
      obtain ⟨hseen, hkind⟩ := List.mem_filter.mp ha
      obtain rfl : k = kind := of_decide_eq_true hkind
      exact h.sound a hseen
    · rintro ⟨hsite, hanomalous⟩
      exact ⟨⟨site, kind⟩, List.mem_filter.mpr ⟨h.complete hn site hsite hanomalous, by simp⟩, rfl⟩
  rw [← length_eq_ncard hnodup hmem, List.length_map, Anomalies.count, List.countP_eq_length_filter]

theorem flagged_iff {find : Address → Except PolicyError (SiteFinding (List α))} :
    flagged find site = true ↔ ∃ finding, find site = .ok finding ∧ finding.anomalous = true := by
  unfold flagged
  cases find site <;> simp [Except.toOption]

section Survey

variable {other : Mismatch} {find : Address → Except PolicyError (SiteFinding (List α))}

/-- Recording sites that are anomalous leaves the number of looks as it is. -/
theorem Rounds.recordAll (h : i.Rounds kind n an) {sites : List Address}
    (hsites : ∀ site ∈ sites, site ∈ i.sites ∧ i.Anomalous site other) :
    i.Rounds kind n (an.recordAll other sites) where
  nodup := Anomalies.nodup_seen_recordAll h.nodup
  checked := by rw [Anomalies.checked_recordAll, h.checked]
  sound site hseen := by
    rcases Anomalies.mem_seen_recordAll.mp hseen with hseen | ⟨rfl, hsite⟩
    · exact h.sound site hseen
    · exact hsites site hsite
  complete hn site hsite hanomalous :=
    Anomalies.mem_seen_recordAll.mpr (Or.inl (h.complete hn site hsite hanomalous))

/-- The sites are counted once more when all anomalous ones are recorded. -/
theorem Rounds.addChecked (h : i.Rounds kind n an)
    (hall : ∀ site ∈ i.sites, i.Anomalous site kind → ⟨site, kind⟩ ∈ an.seen) :
    i.Rounds kind (n + 1) (an.addChecked kind i.sites.length) where
  nodup := h.nodup
  checked := by
    rw [Anomalies.addChecked, Table.find?_insert_self, h.checked, if_neg n.succ_ne_zero]
    cases n with
    | zero => simp
    | succ n => simp [Nat.succ_mul]
  sound := h.sound
  complete _ := hall

theorem Rounds.addChecked_of_ne (h : i.Rounds kind n an) (hne : kind ≠ other) (m : ℕ) :
    i.Rounds kind n (an.addChecked other m) where
  nodup := h.nodup
  checked := by rw [Anomalies.addChecked, Table.find?_insert, if_neg hne, h.checked]
  sound := h.sound
  complete := h.complete

/-- A look at all sites is one more for the kind that it is made for, and none for another kind. A look
that fails at a site does not count. -/
theorem Rounds.survey (h : i.Rounds kind n an)
    (hfind : ∀ site finding, find site = .ok finding →
      (finding.anomalous = true ↔ i.Anomalous site other)) :
    i.Rounds kind (n + (other.policy = kind.policy && (i.findings find).isOk).toNat)
      (survey other find i.sites 0 an).2 := by
  have hrecorded {sites : List Address} (hsites : sites ⊆ i.sites) :
      i.Rounds kind n (an.recordAll other (sites.filter (flagged find))) := by
    refine h.recordAll ?_
    intro site hsite
    obtain ⟨hsite, hflag⟩ := List.mem_filter.mp hsite
    obtain ⟨finding, hfinding, hanomalous⟩ := flagged_iff.mp hflag
    exact ⟨hsites hsite, (hfind site finding hfinding).mp hanomalous⟩
  rw [survey_snd, findings, isOk_map]
  cases hok : (i.sites.mapM find).isOk with
  | false =>
    rw [if_neg Bool.false_ne_true, Bool.and_false]
    exact hrecorded (List.takeWhile_sublist _).subset
  | true =>
    rw [if_pos rfl, Bool.and_true, Nat.zero_add]
    by_cases hkind : other = kind
    · subst hkind
      rw [decide_eq_true rfl]
      refine (hrecorded (List.Subset.refl _)).addChecked ?_
      intro site hsite hanomalous
      obtain ⟨found, hfound⟩ := isOk_iff.mp hok
      obtain ⟨finding, -, hfinding⟩ := exists_of_mapM_eq_ok hfound hsite
      have hflag := flagged_iff.mpr ⟨finding, hfinding, (hfind site finding hfinding).mpr hanomalous⟩
      exact Anomalies.mem_seen_recordAll.mpr (Or.inr ⟨rfl, List.mem_filter.mpr ⟨hsite, hflag⟩⟩)
    · rw [decide_eq_false (mt Mismatch.policy_inj.mp hkind)]
      exact (hrecorded (List.Subset.refl _)).addChecked_of_ne (Ne.symm hkind) _

end Survey

end PolicyInputs
end CfiSlack
