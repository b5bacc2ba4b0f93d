import CfiSlack.Proofs.DirectoryFiles
import CfiSlack.Proofs.EdgeFiles
import CfiSlack.Proofs.PolicyFailures
import CfiSlack.Session

/-!
# Generating policies

A run writes a file for each policy that was asked for and has its tables, and reports the others. What
it writes for a policy is what it would write if no other policy had been asked for: the resolver that all
of them share answers each from the inputs alone, and files of different names do not touch each other.
-/
namespace CfiSlack.Session

variable {s : Session} {t placed : FileTree} {directory : String} {i : PolicyInputs} {r : Resolver}
  {p q : Policy} {edges : List Edge}

/-! ## Writing -/

theorem isName_edgeName (p : Policy) : Path.IsName (p.name ++ ".csv") := by
  have hall : ∀ p ∈ Policy.all, (p.name ++ ".csv").toList ≠ [] ∧ '/' ∉ (p.name ++ ".csv").toList ∧
      p.name ++ ".csv" ≠ "." ∧ p.name ++ ".csv" ≠ ".." ∧
      (p.name ++ ".csv").utf8ByteSize ≤ FileTree.maxPart := by decide
  obtain ⟨hnonempty, hslash, hhere, hup, hshort⟩ := hall p (Policy.mem_all p)
  exact ⟨hnonempty, hslash, hhere, hup, hshort⟩

theorem edgeName_inj (h : p.name ++ ".csv" = q.name ++ ".csv") : p = q := by
  have hall : ∀ p ∈ Policy.all, ∀ q ∈ Policy.all, p.name ++ ".csv" = q.name ++ ".csv" → p = q := by
    decide
  exact hall p (Policy.mem_all p) q (Policy.mem_all q) h

/-- The edges of a policy can be written at this moment. -/
def Writes (directory : String) (t : FileTree) (p : Policy) (edges : List Edge) (t' : FileTree) :
    Prop :=
  t.writeFile (edgeFile directory p) (EdgeList.text edges) = .ok t'

/-- The file of a policy holds these edges. -/
def Holds (directory : String) (t : FileTree) (p : Policy) (edges : List Edge) : Prop :=
  t.find (edgeFile directory p) = .ok (.file (Text.toBytes (EdgeList.text edges)))

theorem Writes.holds {t' : FileTree} (h : Writes directory t p edges t') :
    Holds directory t' p edges := FileTree.find_writeFile h

theorem Holds.writes {t' : FileTree} {more : List Edge} (h : Holds directory t p edges)
    (hne : q ≠ p) (hwrites : Writes directory t q more t') : Holds directory t' p edges :=
  FileTree.find_writeFile_other (isName_edgeName p) (isName_edgeName q)
    (fun heq => hne (edgeName_inj heq)) h hwrites

theorem Writes.before {t' t'' : FileTree} {more : List Edge} (h : Writes directory t p edges t')
    (hne : q ≠ p) (hnext : Writes directory t' q more t'') :
    ∃ alone, Writes directory t q more alone :=
  FileTree.exists_writeFile_before (isName_edgeName p) (isName_edgeName q)
    (fun heq => hne (edgeName_inj heq)) h hnext

theorem saveEdges_eq_ok {path : String} {t' : FileTree} {n : ℕ} :
    saveEdges t path edges = .ok (t', n) ↔
      t.writeFile path (EdgeList.text edges) = .ok t' ∧ n = edges.length := by
  unfold saveEdges
  rw [bind_eq_ok]
  simp only [mapError_eq_ok, (EdgeList.perm_sorted edges).length_eq, pure, Except.pure,
    Except.ok.injEq, Prod.mk.injEq]
  constructor
  · rintro ⟨a, hwrite, rfl, rfl⟩
    exact ⟨hwrite, rfl⟩
  · rintro ⟨hwrite, rfl⟩
    exact ⟨t', hwrite, rfl, rfl⟩

/-- What a run reports about a policy whose edges it wrote. -/
def entryOf (directory : String) (row : Policy × List Edge) : Written :=
  ⟨row.1, edgeFile directory row.1, row.2.length⟩

theorem writeAll_cons {t' : FileTree} (h : Writes directory t p edges t')
    (rows : List (Policy × List Edge)) :
    (writeAll directory t ((p, edges) :: rows)).files = (writeAll directory t' rows).files ∧
      (writeAll directory t ((p, edges) :: rows)).result =
        (writeAll directory t' rows).result.map (entryOf directory (p, edges) :: ·) := by
  have hsave : saveEdges t (edgeFile directory p) edges = .ok (t', edges.length) :=
    saveEdges_eq_ok.mpr ⟨h, rfl⟩
  simp only [writeAll, hsave, entryOf, and_self]

theorem exists_writes {rows : List (Policy × List Edge)} {written : List Written}
    (h : (writeAll directory t ((p, edges) :: rows)).result = .ok written) :
    ∃ t', Writes directory t p edges t' := by
  cases hsave : saveEdges t (edgeFile directory p) edges with
  | ok saved => exact ⟨saved.1, (saveEdges_eq_ok.mp hsave).1⟩
  | error e =>
    simp only [writeAll, hsave] at h
    cases h

/-- What holds when all files of a run were written. -/
structure AllWritten (directory : String) (t : FileTree) (rows : List (Policy × List Edge))
    (written : List Written) : Prop where
  written_eq : written = rows.map (entryOf directory)
  holds : ∀ row ∈ rows, Holds directory (writeAll directory t rows).files row.1 row.2
  alone : ∀ row ∈ rows, ∃ t', Writes directory t row.1 row.2 t'
  kept : ∀ p edges, p ∉ rows.map Prod.fst → Holds directory t p edges →
    Holds directory (writeAll directory t rows).files p edges

theorem allWritten {rows : List (Policy × List Edge)} {written : List Written}
    (hnodup : (rows.map Prod.fst).Nodup) (h : (writeAll directory t rows).result = .ok written) :
    AllWritten directory t rows written := by
  induction rows generalizing t written with
  | nil =>
    cases h
    exact ⟨rfl, nofun, nofun, fun _ _ _ hholds => hholds⟩
  | cons row rows ih =>
    obtain ⟨p, edges⟩ := row
    obtain ⟨t', hwrites⟩ := exists_writes h
    have hfiles := (writeAll_cons hwrites rows).1
    rw [(writeAll_cons hwrites rows).2] at h
    obtain ⟨more, hmore, rfl⟩ := map_eq_ok.mp h
    obtain ⟨hfresh, hrest⟩ := List.nodup_cons.mp hnodup
    have hall := ih hrest hmore
    have hne {q : Policy} (hq : q ∈ rows.map Prod.fst) : q ≠ p := by
      rintro rfl
      exact hfresh hq
    -- the first file is kept by all later ones, which could have been written without it
    refine ⟨by rw [hall.written_eq, List.map_cons], ?_, ?_, ?_⟩
    · intro row hrow
      rw [hfiles]
      rcases List.mem_cons.mp hrow with rfl | hrow
      · exact hall.kept p edges hfresh hwrites.holds
      · exact hall.holds row hrow
    · intro row hrow
      rcases List.mem_cons.mp hrow with rfl | hrow
      · exact ⟨t', hwrites⟩
      · obtain ⟨t'', hwrites'⟩ := hall.alone row hrow
        exact hwrites.before (hne (List.mem_map_of_mem hrow)) hwrites'
    · intro q found hq hholds
      rw [List.map_cons, List.mem_cons, not_or] at hq
      rw [hfiles]
      exact hall.kept q found hq.2 (hholds.writes (Ne.symm hq.1) hwrites)

theorem writeAll_failsOnly (directory : String) (t : FileTree) (rows : List (Policy × List Edge)) :
    FailsOnly (fun e => ∃ fault, e = .file fault) (writeAll directory t rows).result := by
  induction rows generalizing t with
  | nil => exact .ok _
  | cons row rows ih =>
    obtain ⟨p, edges⟩ := row
    cases hsave : saveEdges t (edgeFile directory p) edges with
    | ok saved =>
      rw [(writeAll_cons (saveEdges_eq_ok.mp hsave).1 rows).2]
      exact (ih saved.1).map _
    | error e =>
      have hfile : FailsOnly (fun e => ∃ fault, e = .file fault)
          (saveEdges t (edgeFile directory p) edges) := (FailsOnly.mapError _ _).bind fun _ => .ok _
      simp only [writeAll, hsave]
      exact .error (hfile e hsave)

/-! ## Resolving -/

theorem edges_ofInputs (i : PolicyInputs) (p : Policy) :
    ((Resolver.ofInputs i).edges p).1 = i.answer p := ((Resolver.ready_ofInputs i).edges p).1

/-- Policies are sorted by whether their tables are there, and those that are ready have answers. -/
structure SortedOut (i : PolicyInputs) (ps : List Policy) (res : Resolution) : Prop where
  ready_eq : res.ready = ps.filter fun p => (i.missingTable? p).isNone
  failed_eq : res.failed.map Prod.fst = ps.filter fun p => (i.missingTable? p).isSome
  answered : ∀ p ∈ res.ready, ∃ edges, i.answer p = .ok edges

theorem SortedOut.ready_cons {ps : List Policy} {res : Resolution} (h : SortedOut i ps res)
    (hp : i.answer p = .ok edges) : SortedOut i (p :: ps) { res with ready := p :: res.ready } := by
  have hgiven : i.missingTable? p = none := by
    by_contra hmissing
    obtain ⟨q, table, herror⟩ := PolicyInputs.exists_missingTable.mpr hmissing
    rw [hp] at herror
    cases herror
  refine ⟨?_, ?_, ?_⟩
  · simp [hgiven, h.ready_eq]
  · simp [hgiven, h.failed_eq]
  · intro q hq
    rcases List.mem_cons.mp hq with rfl | hq
    · exact ⟨edges, hp⟩
    · exact h.answered q hq

theorem SortedOut.failed_cons {ps : List Policy} {res : Resolution} {table : TypeTable}
    (h : SortedOut i ps res) (hp : i.answer p = .error (.missingTable q table)) (e : PolicyError) :
    SortedOut i (p :: ps) { res with failed := (p, e) :: res.failed } := by
  have hmissing := Option.isSome_iff_ne_none.mpr
    (PolicyInputs.exists_missingTable.mp ⟨q, table, hp⟩)
  refine ⟨?_, ?_, h.answered⟩
  · simp [h.ready_eq, Option.isNone_eq_false_iff.mpr hmissing]
  · simp [hmissing, h.failed_eq]

/-- A failure of one of the policies that ends a run, as a missing table does not. -/
def Fatal (i : PolicyInputs) (ps : List Policy) (e : PolicyError) : Prop :=
  ∃ p ∈ ps, i.answer p = .error e ∧ ∀ q table, e ≠ .missingTable q table

theorem Fatal.cons {ps : List Policy} {e : PolicyError} (h : Fatal i ps e) : Fatal i (p :: ps) e := by
  obtain ⟨q, hq, herror⟩ := h
  exact ⟨q, List.mem_cons_of_mem p hq, herror⟩

theorem exists_edges (h : r.Ready i) (p : Policy) :
    ∃ next : Resolver, r.edges p = (i.answer p, next) ∧ next.Ready i :=
  ⟨(r.edges p).2, Prod.ext (h.edges p).1 rfl, (h.edges p).2⟩

theorem resolveAll_ok (h : r.Ready i) (hp : i.answer p = .ok edges) (ps : List Policy) :
    ∃ next : Resolver, next.Ready i ∧
      (resolveAll r (p :: ps)).resolver = (resolveAll next ps).resolver ∧
      (resolveAll r (p :: ps)).result =
        (resolveAll next ps).result.map fun res => { res with ready := p :: res.ready } := by
  obtain ⟨next, hedges, hready⟩ := exists_edges h p
  rw [hp] at hedges
  refine ⟨next, hready, ?_⟩
  simp only [resolveAll, hedges, and_self]

theorem resolveAll_missing {table : TypeTable} (h : r.Ready i)
    (hp : i.answer p = .error (.missingTable q table)) (ps : List Policy) :
    ∃ next : Resolver, next.Ready i ∧
      (resolveAll r (p :: ps)).resolver = (resolveAll next ps).resolver ∧
      (resolveAll r (p :: ps)).result = (resolveAll next ps).result.map fun res =>
        { res with failed := (p, .missingTable q table) :: res.failed } := by
  obtain ⟨next, hedges, hready⟩ := exists_edges h p
  rw [hp] at hedges
  refine ⟨next, hready, ?_⟩
  simp only [resolveAll, hedges, and_self]

theorem resolveAll_fatal {e : PolicyError} (h : r.Ready i) (hp : i.answer p = .error e)
    (hfatal : ∀ q table, e ≠ .missingTable q table) (ps : List Policy) :
    (resolveAll r (p :: ps)).resolver.Ready i ∧ (resolveAll r (p :: ps)).result = .error e := by
  obtain ⟨next, hedges, hready⟩ := exists_edges h p
  rw [hp] at hedges
  cases e with
  | missingTable q table => exact absurd rfl (hfatal q table)
  | _ =>
    simp only [resolveAll, hedges, and_true]
    exact hready

theorem resolveAll_sorts (h : r.Ready i) (ps : List Policy) :
    (resolveAll r ps).resolver.Ready i ∧
      (∀ res, (resolveAll r ps).result = .ok res → SortedOut i ps res) ∧
      FailsOnly (Fatal i ps) (resolveAll r ps).result := by
  induction ps generalizing r with
  | nil =>
    refine ⟨h, ?_, .ok _⟩
    intro res hres
    cases hres
    exact ⟨rfl, rfl, nofun⟩
  | cons p ps ih =>
    rcases hp : i.answer p with e | edges
    · by_cases hmissing : ∃ q table, e = .missingTable q table
      · obtain ⟨q, table, rfl⟩ := hmissing
        obtain ⟨next, hready, hresolver, hresult⟩ := resolveAll_missing h hp ps
        obtain ⟨hlast, hrest, hfails⟩ := ih hready
        rw [hresolver, hresult]
        refine ⟨hlast, ?_, (hfails.mono fun _ => Fatal.cons).map _⟩
        intro res hres
        obtain ⟨others, hothers, rfl⟩ := map_eq_ok.mp hres
        exact (hrest others hothers).failed_cons hp _
      · have hfatal : ∀ q table, e ≠ .missingTable q table := fun q table he =>
          hmissing ⟨q, table, he⟩
        obtain ⟨hready, hresult⟩ := resolveAll_fatal h hp hfatal ps
        rw [hresult]
        exact ⟨hready, nofun, .error ⟨p, List.mem_cons_self, hp, hfatal⟩⟩
    · obtain ⟨next, hready, hresolver, hresult⟩ := resolveAll_ok h hp ps
      obtain ⟨hlast, hrest, hfails⟩ := ih hready
      rw [hresolver, hresult]
      refine ⟨hlast, ?_, (hfails.mono fun _ => Fatal.cons).map _⟩
      intro res hres
      obtain ⟨others, hothers, rfl⟩ := map_eq_ok.mp hres
      exact (hrest others hothers).ready_cons hp

theorem resolveAll_single (h : r.Ready i) (hp : i.answer p = .ok edges) :
    (resolveAll r [p]).result = .ok ⟨[p], []⟩ := by
  obtain ⟨next, -, -, hresult⟩ := resolveAll_ok h hp []
  exact hresult

/-- Taking policies one after the other gives what the inputs say about each. -/
theorem takeAll_result (h : r.Ready i) (ps : List Policy) :
    (takeAll r ps).result = ps.mapM fun p => (i.answer p).map fun edges => (p, edges) := by
  induction ps generalizing r with
  | nil => rfl
  | cons p ps ih =>
    obtain ⟨hanswer, hready⟩ : (r.take p).1 = i.answer p ∧ (r.take p).2.Ready i := h.serve ⟨p, true⟩
    rcases htake : r.take p with ⟨answer, next⟩
    rw [htake] at hanswer hready
    rw [List.mapM_cons, ← ih hready, ← hanswer]
    simp only [takeAll, htake]
    cases answer with
    | error e => rfl
    | ok edges => cases (takeAll next ps).result <;> rfl

theorem rows_of_takeAll {ps : List Policy} {rows : List (Policy × List Edge)} (h : r.Ready i)
    (hrows : (takeAll r ps).result = .ok rows) :
    rows.map Prod.fst = ps ∧ ∀ row ∈ rows, i.answer row.1 = .ok row.2 := by
  rw [takeAll_result h, mapM_eq_ok] at hrows
  induction hrows with
  | nil => exact ⟨rfl, nofun⟩
  | cons hrow _ ih =>
    obtain ⟨edges, hanswer, rfl⟩ := map_eq_ok.mp hrow
    refine ⟨by rw [List.map_cons, ih.1], ?_⟩
    intro row hmem
    rcases List.mem_cons.mp hmem with rfl | hmem
    · exact hanswer
    · exact ih.2 row hmem

theorem exists_takeAll {ps : List Policy} (h : r.Ready i)
    (hanswered : ∀ p ∈ ps, ∃ edges, i.answer p = .ok edges) :
    ∃ rows, (takeAll r ps).result = .ok rows := by
  rw [takeAll_result h, exists_mapM_eq_ok]
  intro p hp
  obtain ⟨edges, hanswer⟩ := hanswered p hp
  exact ⟨(p, edges), map_eq_ok.mpr ⟨edges, hanswer, rfl⟩⟩

/-! ## The whole run -/

/-- A run that has got as far as writing. -/
structure Stages (s : Session) (t : FileTree) (policies : List Policy) (directory : String)
    (i : PolicyInputs) (res : Resolution) (rows : List (Policy × List Edge)) (placed : FileTree) :
    Prop where
  inputs : s.policyInputs = .ok i
  resolved : (resolveAll (.ofInputs i) (requested policies)).result = .ok res
  taken : (takeAll (resolveAll (.ofInputs i) (requested policies)).resolver res.ready).result = .ok rows
  placed : t.makeDirectories directory = (placed, none)

variable {policies : List Policy} {res : Resolution} {rows : List (Policy × List Edge)}
  {report : GenerateReport}

theorem Stages.generate (h : Stages s t policies directory i res rows placed) :
    (s.generate t policies directory).files = (writeAll directory placed rows).files ∧
      (s.generate t policies directory).result =
        (writeAll directory placed rows).result.map fun written => ⟨written, res.failed⟩ := by
  simp only [Session.generate, h.inputs, h.resolved, h.taken, h.placed, and_self]

/-- What ends a run before it writes: the program is unfit for policies, or one of them fails. -/
def Stops (s : Session) (policies : List Policy) (e : PolicyError) : Prop :=
  s.policyInputs = .error e ∨ ∃ i, s.policyInputs = .ok i ∧ Fatal i (requested policies) e

/-- How a run goes: it is stopped before it touches a file, or fails over the directory, or gets as far as
writing. -/
theorem generate_cases (s : Session) (t : FileTree) (policies : List Policy) (directory : String) :
    (∃ e, Stops s policies e ∧ (s.generate t policies directory).result = .error (.policy e) ∧
      (s.generate t policies directory).files = t) ∨
    (∃ fault, (s.generate t policies directory).result = .error (.file fault)) ∨
    ∃ i res rows placed, Stages s t policies directory i res rows placed := by
  cases hinputs : s.policyInputs with
  | error e =>
    refine Or.inl ⟨e, Or.inl hinputs, ?_⟩
    simp only [Session.generate, hinputs, and_self]
  | ok i =>
    obtain ⟨hready, hsorts, hfails⟩ :=
      resolveAll_sorts (Resolver.ready_ofInputs i) (requested policies)
    cases hresolved : (resolveAll (.ofInputs i) (requested policies)).result with
    | error e =>
      refine Or.inl ⟨e, Or.inr ⟨i, hinputs, hfails e hresolved⟩, ?_⟩
      simp only [Session.generate, hinputs, hresolved, and_self]
    | ok res =>
      obtain ⟨rows, htaken⟩ := exists_takeAll hready (hsorts res hresolved).answered
      rcases hplaced : t.makeDirectories directory with ⟨placed, _ | fault⟩
      · exact Or.inr (Or.inr ⟨i, res, rows, placed, hinputs, hresolved, htaken, hplaced⟩)
      · refine Or.inr (Or.inl ⟨fault, ?_⟩)
        simp only [Session.generate, hinputs, hresolved, htaken, hplaced]

theorem exists_stages (h : (s.generate t policies directory).result = .ok report) :
    ∃ i res rows placed, Stages s t policies directory i res rows placed := by
  rcases s.generate_cases t policies directory with ⟨e, -, herror, -⟩ | ⟨fault, herror⟩ | hstages
  · rw [h] at herror
    cases herror
  · rw [h] at herror
    cases herror
  · exact hstages

theorem stops_of_policy_error {e : PolicyError}
    (h : (s.generate t policies directory).result = .error (.policy e)) :
    Stops s policies e ∧ (s.generate t policies directory).files = t := by
  rcases s.generate_cases t policies directory with
    ⟨e', hstops, herror, hfiles⟩ | ⟨fault, herror⟩ | ⟨i, res, rows, placed, hstages⟩
  · rw [h] at herror
    cases herror
    exact ⟨hstops, hfiles⟩
  · rw [h] at herror
    cases herror
  · -- a run that writes can only fail over a file
    have hfile := (writeAll_failsOnly directory placed rows).map fun written =>
      GenerateReport.mk written res.failed
    rw [← hstages.generate.2] at hfile
    obtain ⟨fault, hfault⟩ := hfile _ h
    cases hfault

def hasTable (s : Session) : TypeTable → Bool
  | .functions => s.signatures.isSome
  | .callSites => s.siteSignatures.isSome

theorem isNone_missingTable? (h : s.policyInputs = .ok i) :
    (i.missingTable? p).isNone = true ↔ ∀ table ∈ p.tables, s.hasTable table = true := by
  obtain ⟨given, -, heq⟩ := bind_eq_ok.mp h
  cases heq
  rw [Option.isNone_iff_eq_none, PolicyInputs.missingTable?_eq_none]
  refine forall_congr' fun table => forall_congr' fun _ => ?_
  cases table <;> rfl

theorem requested_ascends (policies : List Policy) : (requested policies).Pairwise (· < ·) :=
  Ascending.pairwise_ofList policies

theorem Stages.sortedOut (h : Stages s t policies directory i res rows placed) :
    SortedOut i (requested policies) res :=
  (resolveAll_sorts (Resolver.ready_ofInputs i) _).2.1 res h.resolved

theorem Stages.rows_eq (h : Stages s t policies directory i res rows placed) :
    rows.map Prod.fst = (requested policies).filter fun p => (i.missingTable? p).isNone := by
  rw [← h.sortedOut.ready_eq]
  exact (rows_of_takeAll (resolveAll_sorts (Resolver.ready_ofInputs i) _).1 h.taken).1

theorem Stages.answer_of_mem (h : Stages s t policies directory i res rows placed)
    (hrow : (p, edges) ∈ rows) : i.answer p = .ok edges :=
  (rows_of_takeAll (resolveAll_sorts (Resolver.ready_ofInputs i) _).1 h.taken).2 _ hrow

theorem Stages.mem_rows (h : Stages s t policies directory i res rows placed) :
    p ∈ rows.map Prod.fst ↔ p ∈ policies ∧ ∀ table ∈ p.tables, s.hasTable table = true := by
  rw [h.rows_eq, List.mem_filter, isNone_missingTable? h.inputs, requested, Ascending.mem_ofList]

theorem Stages.mem_failed (h : Stages s t policies directory i res rows placed) :
    p ∈ res.failed.map Prod.fst ↔ p ∈ policies ∧ ∃ table ∈ p.tables, s.hasTable table = false := by
  rw [h.sortedOut.failed_eq, List.mem_filter, requested, Ascending.mem_ofList]
  refine and_congr_right fun _ => ?_
  rw [← Option.isNone_eq_false_iff, ← Bool.not_eq_true, isNone_missingTable? h.inputs]
  simp

theorem Stages.allWritten {written : List Written}
    (h : Stages s t policies directory i res rows placed)
    (hwritten : (writeAll directory placed rows).result = .ok written) :
    AllWritten directory placed rows written := by
  refine Session.allWritten ?_ hwritten
  rw [h.rows_eq]
  exact Ascending.nodup_of_pairwise ((requested_ascends policies).filter _)

/-- If nothing but one of its policies is asked for, a run takes the same way to the same edges. -/
theorem Stages.alone (h : Stages s t policies directory i res rows placed)
    (hp : i.answer p = .ok edges) : Stages s t [p] directory i ⟨[p], []⟩ [(p, edges)] placed where
  inputs := h.inputs
  resolved := resolveAll_single (Resolver.ready_ofInputs i) hp
  taken := by
    rw [takeAll_result (resolveAll_sorts (Resolver.ready_ofInputs i) _).1, mapM_eq_ok]
    exact .cons (map_eq_ok.mpr ⟨edges, hp, rfl⟩) .nil
  placed := h.placed

theorem Stages.generate_alone {t' : FileTree} (h : Stages s t policies directory i res rows placed)
    (hp : i.answer p = .ok edges) (hwrites : Writes directory placed p edges t') :
    (s.generate t [p] directory).result = .ok ⟨[entryOf directory (p, edges)], []⟩ ∧
      Holds directory (s.generate t [p] directory).files p edges := by
  obtain ⟨hfiles, hresult⟩ := (h.alone hp).generate
  obtain ⟨hwritten, hentry⟩ := writeAll_cons hwrites []
  rw [hwritten] at hfiles
  rw [hentry] at hresult
  refine ⟨hresult, ?_⟩
  rw [hfiles]
  exact hwrites.holds

/-- What a run reports is what was asked for, split by whether the tables are there, in the order of
reports; and what it wrote for a policy is what a run for that policy alone reports and writes. A run that
fails over a policy has not touched a file, and its reason is not that a table is missing. -/
theorem generate_exact (s : Session) (t : FileTree) (policies : List Policy) (directory : String) :
    (∀ report, (s.generate t policies directory).result = .ok report →
      (report.written.map Written.policy).Pairwise (· < ·) ∧
      (report.failed.map Prod.fst).Pairwise (· < ·) ∧
      (∀ p, p ∈ report.written.map Written.policy ↔
        p ∈ policies ∧ ∀ table ∈ p.tables, s.hasTable table = true) ∧
      (∀ p, p ∈ report.failed.map Prod.fst ↔
        p ∈ policies ∧ ∃ table ∈ p.tables, s.hasTable table = false) ∧
      ∀ w ∈ report.written, (s.generate t [w.policy] directory).result = .ok ⟨[w], []⟩ ∧
        ∃ i edges, s.policyInputs = .ok i ∧
          ((Resolver.ofInputs i).edges w.policy).1 = .ok edges ∧ w.edges = edges.length ∧
          w.path = edgeFile directory w.policy ∧
          (s.generate t policies directory).files.find w.path =
            .ok (.file (Text.toBytes (EdgeList.text edges))) ∧
          (s.generate t [w.policy] directory).files.find w.path =
            .ok (.file (Text.toBytes (EdgeList.text edges)))) ∧
    ∀ e, (s.generate t policies directory).result = .error (.policy e) →
      (s.generate t policies directory).files = t ∧
      (s.policyInputs = .error e ∨ ∃ i p, s.policyInputs = .ok i ∧ p ∈ policies ∧
        ((Resolver.ofInputs i).edges p).1 = .error e ∧ ∀ q table, e ≠ .missingTable q table) := by
  constructor
  · intro report hreport
    obtain ⟨i, res, rows, placed, hstages⟩ := exists_stages hreport
    obtain ⟨hfiles, hresult⟩ := hstages.generate
    rw [hresult] at hreport
    obtain ⟨written, hwritten, rfl⟩ := map_eq_ok.mp hreport
    have hall := hstages.allWritten hwritten
    have hpolicies : written.map Written.policy = rows.map Prod.fst := by
      rw [hall.written_eq, List.map_map]
      rfl
    refine ⟨?_, ?_, ?_, fun p => hstages.mem_failed, ?_⟩
    · rw [hpolicies, hstages.rows_eq]
      exact (requested_ascends policies).filter _
    · rw [hstages.sortedOut.failed_eq]
      exact (requested_ascends policies).filter _
    · intro p
      rw [hpolicies]
      exact hstages.mem_rows
    · intro w hw
      rw [hall.written_eq] at hw
      obtain ⟨⟨p, edges⟩, hrow, rfl⟩ := List.mem_map.mp hw
      have hanswer := hstages.answer_of_mem hrow
      obtain ⟨t', hwrites⟩ := hall.alone _ hrow
      obtain ⟨hsingle, hheld⟩ := hstages.generate_alone hanswer hwrites
      refine ⟨hsingle, i, edges, hstages.inputs, ?_, rfl, rfl, ?_, hheld⟩
      · exact (edges_ofInputs i p).trans hanswer
      · rw [hfiles]
        exact hall.holds _ hrow
  · intro e he
    obtain ⟨hstops, hfiles⟩ := stops_of_policy_error he
    refine ⟨hfiles, hstops.imp_right ?_⟩
    rintro ⟨i, hinputs, p, hp, herror, hfatal⟩
    exact ⟨i, p, hinputs, Ascending.mem_ofList.mp hp, (edges_ofInputs i p).trans herror, hfatal⟩

/-- Block 16 calls the function at 256. The signatures of call sites are missing. -/
def oneCaller : Session where
  graph :=
    { blocks := ⟨[(16, { size := 4, instrs := 1, binary := "main", terminator := some .callIndirect }),
        (256, { size := 4, instrs := 1, terminator := some .syscall })], by decide⟩
      flows := ⟨[(⟨.block 16, .block 256⟩, { kind := .callIndirect }),
        (⟨.block 256, .sink⟩, { kind := .syscall })], by decide⟩
      hasSink := true
      source_mem := by simp [Table.keys]
      target_mem := by simp [Table.keys] }
  functions := ⟨[(256, "main")], by decide⟩
  signatures := some ⟨[(256, ["long"])], by decide⟩

/-- A machine with nothing but the directory of a first run. -/
def madeOut : FileTree := ⟨.empty, [["home", "out"]], ["home"]⟩

theorem generate_exact_oneCaller :
    (oneCaller.generate (.empty ["home"]) [.anyFunction, .typed, .baseline, .anyFunction] "out").result =
        .ok ⟨[⟨.baseline, "out/baseline.csv", 0⟩, ⟨.anyFunction, "out/sof_cfi.csv", 2⟩],
          [(.typed, .missingTable .typed .callSites)]⟩ ∧
      (oneCaller.generate (.empty ["home"]) [.anyFunction] "out").result =
        .ok ⟨[⟨.anyFunction, "out/sof_cfi.csv", 2⟩], []⟩ := by
  obtain ⟨i, hinputs⟩ : ∃ i, oneCaller.policyInputs = .ok i := ⟨_, rfl⟩
  have hanswers : (oneCaller.policyInputs.bind fun i => i.answer .baseline) = .ok [] ∧
      (oneCaller.policyInputs.bind fun i => i.answer .anyFunction) =
        .ok [⟨.block 16, .hub .functions⟩, ⟨.hub .functions, .block 256⟩] ∧
      (oneCaller.policyInputs.bind fun i => i.answer .typed) =
        .error (.missingTable .typed .callSites) := by
    decide +kernel
  simp only [hinputs, Except.bind] at hanswers
  obtain ⟨hbaseline, hanyFunction, htyped⟩ := hanswers
  have hready := Resolver.ready_ofInputs i
  have hresolved : (resolveAll (.ofInputs i)
      (requested [.anyFunction, .typed, .baseline, .anyFunction])).result =
      .ok ⟨[.baseline, .anyFunction], [(.typed, .missingTable .typed .callSites)]⟩ := by
    have hrequested : requested [.anyFunction, .typed, .baseline, .anyFunction] =
        [.baseline, .typed, .anyFunction] := by decide
    obtain ⟨first, hfirst, -, hone⟩ := resolveAll_ok hready hbaseline [.typed, .anyFunction]
    obtain ⟨second, hsecond, -, htwo⟩ := resolveAll_missing hfirst htyped [.anyFunction]
    rw [hrequested, hone, htwo, resolveAll_single hsecond hanyFunction]
    rfl
  have htaken : (takeAll (resolveAll (.ofInputs i)
      (requested [.anyFunction, .typed, .baseline, .anyFunction])).resolver
      [.baseline, .anyFunction]).result = .ok [(.baseline, []), (.anyFunction,
        [⟨.block 16, .hub .functions⟩, ⟨.hub .functions, .block 256⟩])] := by
    rw [takeAll_result (resolveAll_sorts hready _).1]
    simp only [List.mapM_cons, List.mapM_nil, hbaseline, hanyFunction]
    rfl
  have hstages : Stages oneCaller (.empty ["home"]) [.anyFunction, .typed, .baseline, .anyFunction]
      "out" i _ _ madeOut := ⟨hinputs, hresolved, htaken, rfl⟩
  have hfirst : Writes "out" madeOut .baseline []
      (madeOut.put ["home", "out", "baseline.csv"] (Text.toBytes (EdgeList.text []))) := rfl
  obtain ⟨t', hlast⟩ : ∃ t', Writes "out" (madeOut.put ["home", "out", "baseline.csv"]
      (Text.toBytes (EdgeList.text []))) .anyFunction
      [⟨.block 16, .hub .functions⟩, ⟨.hub .functions, .block 256⟩] t' := ⟨_, rfl⟩
  have hresult := hstages.generate.2
  rw [(writeAll_cons hfirst _).2, (writeAll_cons hlast _).2] at hresult
  refine ⟨hresult, ?_⟩
  obtain ⟨-, -, -, -, hwritten⟩ := (generate_exact _ _ _ _).1 _ hresult
  exact (hwritten ⟨.anyFunction, "out/sof_cfi.csv", 2⟩ (by decide)).1

end CfiSlack.Session
