import CfiSlack.Proofs.Fallible
import CfiSlack.Proofs.GraphHistory

/-!
# Graphs of listings

A listing declares blocks and edges in any order. Its graph depends on the blocks in their order and on
the edges in theirs, and on nothing else of the order: the first edge with an undeclared end is refused,
and without such an edge every block and every edge has the attributes of its last declaration.
-/
namespace CfiSlack

namespace Declaration

def block? : Declaration → Option (Address × Block)
  | .block a b => some (a, b)
  | .edge .. => none

def edge? : Declaration → Option DeclaredEdge
  | .block .. => none
  | .edge source target flow => some ⟨source, target, flow⟩

/-- The attributes of the last declaration of a block. -/
def lastBlock? (listing : List Declaration) (a : Address) : Option Block :=
  ((listing.filterMap block?).filter fun row => row.1 = a).getLast?.map Prod.snd

def lastFlow? (listing : List Declaration) (source target : Address) : Option Flow :=
  ((listing.filterMap edge?).filter fun e => e.source = source ∧ e.target = target).getLast?.map
    DeclaredEdge.flow

def Declares (listing : List Declaration) (a : Address) : Prop := ∃ b, .block a b ∈ listing

def Joins (listing : List Declaration) (e : Edge) : Prop :=
  ∃ source target flow, .edge source target flow ∈ listing ∧ e = ⟨.block source, .block target⟩

/-- The end of an edge that is reported: its source if that is undeclared, and else its target. -/
inductive Lacks (listing : List Declaration) (source target : Address) : Address → Prop
  | source (h : ¬ Declares listing source) : Lacks listing source target source
  | target (hs : Declares listing source) (h : ¬ Declares listing target) :
      Lacks listing source target target

variable {listing : List Declaration}

theorem mem_filterMap_block? {row : Address × Block} :
    row ∈ listing.filterMap block? ↔ .block row.1 row.2 ∈ listing := by
  rw [List.mem_filterMap]
  constructor
  · rintro ⟨d, hd, h⟩
    cases d with
    | block a b =>
      cases h
      exact hd
    | edge source target flow => cases h
  · intro h
    exact ⟨_, h, rfl⟩

theorem mem_filterMap_edge? {e : DeclaredEdge} :
    e ∈ listing.filterMap edge? ↔ .edge e.source e.target e.flow ∈ listing := by
  rw [List.mem_filterMap]
  constructor
  · rintro ⟨d, hd, h⟩
    cases d with
    | block a b => cases h
    | edge source target flow =>
      cases h
      exact hd
  · intro h
    exact ⟨_, h, rfl⟩

theorem isSome_lastBlock? {a : Address} :
    (lastBlock? listing a).isSome = true ↔ Declares listing a := by
  rw [lastBlock?, Option.isSome_map, List.getLast?_isSome, Ne, List.filter_eq_nil_iff]
  simp only [mem_filterMap_block?, Declares, decide_eq_true_eq]
  constructor
  · intro h
    by_contra hnone
    refine h ?_
    rintro row hrow rfl
    exact hnone ⟨_, hrow⟩
  · rintro ⟨b, hb⟩ h
    exact h (a, b) hb rfl

end Declaration

def DeclaredEdge.edge (e : DeclaredEdge) : Edge := ⟨.block e.source, .block e.target⟩

/-- The last element of a longer list that passes a test is the new one, or is found in the old list. -/
theorem getLast?_filter_concat {α : Type} (p : α → Bool) (l : List α) (a : α) :
    ((l ++ [a]).filter p).getLast? = if p a then some a else (l.filter p).getLast? := by
  rw [List.filter_append, List.getLast?_append]
  cases h : p a <;> simp [h]

namespace Graph

open Declaration (lastBlock? lastFlow? Declares Joins Lacks isSome_lastBlock? mem_filterMap_edge?)

variable {g g' : Graph} {listing : List Declaration}

/-! ### Blocks first, edges later -/

def ofBlocks (rows : List (Address × Block)) : Graph :=
  rows.foldl (fun g row => (g.addBlock row.1 row.2).2) .empty

theorem ofBlocks_concat (rows : List (Address × Block)) (row : Address × Block) :
    ofBlocks (rows ++ [row]) = ((ofBlocks rows).addBlock row.1 row.2).2 := by
  simp [ofBlocks]

/-- The builder keeps the blocks and the edges of a listing apart. -/
theorem foldl_declare (listing : List Declaration) :
    listing.foldl GraphBuilder.declare .empty =
      ⟨ofBlocks (listing.filterMap Declaration.block?),
        (listing.filterMap Declaration.edge?).reverse⟩ := by
  induction listing using List.reverseRecOn with
  | nil => rfl
  | append_singleton listing d ih =>
    rw [List.foldl_append, ih, List.filterMap_append, List.filterMap_append]
    cases d with
    | block a b =>
      simp only [List.foldl_cons, List.foldl_nil, GraphBuilder.declare, List.filterMap_cons,
        List.filterMap_nil, Declaration.block?, Declaration.edge?, ofBlocks_concat, List.append_nil]
    | edge source target flow =>
      simp only [List.foldl_cons, List.foldl_nil, GraphBuilder.declare, List.filterMap_cons,
        List.filterMap_nil, Declaration.block?, Declaration.edge?, List.append_nil,
        List.reverse_append, List.reverse_singleton, List.singleton_append]

theorem build_eq (listing : List Declaration) :
    build listing = (listing.filterMap Declaration.edge?).foldlM join
      (ofBlocks (listing.filterMap Declaration.block?)) := by
  rw [build, foldl_declare, ofBuilder, List.reverse_reverse]

/-- A graph of blocks alone, in which the last attributes count. -/
structure Bare (g : Graph) (rows : List (Address × Block)) : Prop where
  hasSink : g.hasSink = false
  flows : g.flows = .empty
  block : ∀ a, g.block? a = (rows.filter fun row => row.1 = a).getLast?.map Prod.snd

theorem bare_ofBlocks (rows : List (Address × Block)) : (ofBlocks rows).Bare rows := by
  induction rows using List.reverseRecOn with
  | nil => exact ⟨rfl, rfl, fun a => rfl⟩
  | append_singleton rows row ih =>
    rw [ofBlocks_concat]
    refine ⟨ih.hasSink, ih.flows, ?_⟩
    intro a
    rw [getLast?_filter_concat]
    refine (Table.find?_insert _ row.1 a row.2).trans ?_
    by_cases h : a = row.1
    · simp [h]
    · rw [if_neg h, if_neg (by simpa using Ne.symm h)]
      exact ih.block a

/-! ### Joining the blocks -/

def joinFault? (g : Graph) (e : DeclaredEdge) : Option GraphError :=
  if g.hasBlock e.source then
    if g.hasBlock e.target then none else some (.danglingEdge e.edge e.edge.target)
  else some (.danglingEdge e.edge e.edge.source)

theorem join_of_fault {e : DeclaredEdge} {err : GraphError} (h : g.joinFault? e = some err) :
    g.join e = .error err := by
  unfold joinFault? at h
  unfold join addEdge
  split_ifs at h with hs ht
  · cases h
    rw [dif_pos hs, dif_neg ht]
    rfl
  · cases h
    rw [dif_neg hs]
    rfl

theorem joinFault?_eq_none {e : DeclaredEdge} :
    g.joinFault? e = none ↔ g.hasBlock e.source = true ∧ g.hasBlock e.target = true := by
  unfold joinFault?
  split_ifs with hs ht
  · simp [hs, ht]
  · simp [ht]
  · simp [hs]

theorem join_of_sound {e : DeclaredEdge} (h : g.joinFault? e = none) :
    g.join e = .ok (g.addEdge e.source e.target e.flow).2 := by
  obtain ⟨hs, ht⟩ := joinFault?_eq_none.mp h
  have hok : (g.addEdge e.source e.target e.flow).1 = .ok () :=
    perform_of_can (c := .addEdge e.source e.target e.flow) ⟨hs, ht⟩
  rw [join, Outcome.changed, hok]
  rfl

theorem block?_addEdge (source target : Address) (flow : Flow) (a : Address) :
    (g.addEdge source target flow).2.block? a = g.block? a :=
  block?_perform (c := .addEdge source target flow) a

theorem joinFault?_congr (h : ∀ a, g'.block? a = g.block? a) : g'.joinFault? = g.joinFault? := by
  have hhas (a : Address) : g'.hasBlock a = g.hasBlock a := congrArg Option.isSome (h a)
  funext e
  simp only [joinFault?, hhas]

/-- Edges are joined one after the other until the first that is refused. -/
theorem foldlM_join_eq_error {edges : List DeclaredEdge} {err : GraphError} :
    edges.foldlM join g = .error err ↔ edges.findSome? g.joinFault? = some err := by
  induction edges generalizing g with
  | nil => simp [pure, Except.pure]
  | cons e edges ih =>
    rw [List.foldlM_cons, List.findSome?_cons]
    cases hfault : g.joinFault? e with
    | some fault =>
      rw [join_of_fault hfault]
      simp [bind, Except.bind]
    | none =>
      -- the edge that is joined changes no block, and so no fault of the others
      rw [join_of_sound hfault, ← joinFault?_congr (block?_addEdge e.source e.target e.flow)]
      exact ih

/-- The second graph has the edges of a list besides those of the first, each with the attributes of
its last declaration. -/
structure Joined (g : Graph) (edges : List DeclaredEdge) (g' : Graph) : Prop where
  hasSink : g'.hasSink = g.hasSink
  block : ∀ a, g'.block? a = g.block? a
  mem_flows : ∀ e, e ∈ g'.flows.keys ↔ e ∈ g.flows.keys ∨ ∃ d ∈ edges, e = d.edge
  flow : ∀ source target, g'.flow? ⟨.block source, .block target⟩ =
    ((edges.filter fun d => d.source = source ∧ d.target = target).getLast?.map fun d =>
      { d.flow with kind := g.flowKind source target d.flow.kind }).or
        (g.flow? ⟨.block source, .block target⟩)

theorem join_eq_ok {e : DeclaredEdge} (h : g.join e = .ok g') :
    g.joinFault? e = none ∧ g' = (g.addEdge e.source e.target e.flow).2 := by
  cases hfault : g.joinFault? e with
  | some err =>
    rw [join_of_fault hfault] at h
    cases h
  | none =>
    rw [join_of_sound hfault] at h
    cases h
    exact ⟨rfl, rfl⟩

/-- One more edge is written over an older declaration of the same edge. -/
theorem Joined.join {mid : Graph} {edges : List DeclaredEdge} (h : Joined g edges mid)
    {d : DeclaredEdge} (hd : mid.join d = .ok g') : Joined g (edges ++ [d]) g' := by
  obtain ⟨hfault, rfl⟩ := join_eq_ok hd
  obtain ⟨hsource, htarget⟩ := joinFault?_eq_none.mp hfault
  have hflows : (mid.addEdge d.source d.target d.flow).2.flows =
      mid.flows.insert d.edge
        { d.flow with kind := mid.flowKind d.source d.target d.flow.kind } :=
    flows_addEdge hsource htarget
  refine ⟨?_, fun a => (block?_addEdge _ _ _ a).trans (h.block a), ?_, ?_⟩
  · rw [addEdge, dif_pos hsource, dif_pos htarget]
    exact h.hasSink
  · intro e
    rw [hflows, Table.mem_keys_insert, h.mem_flows]
    simp only [List.mem_append, List.mem_singleton, or_and_right, exists_or, exists_eq_left]
    exact or_comm.trans or_assoc
  · intro source target
    rw [flow?, hflows, Table.find?_insert, getLast?_filter_concat]
    by_cases hsame : d.source = source ∧ d.target = target
    · obtain ⟨rfl, rfl⟩ := hsame
      simp [DeclaredEdge.edge, flowKind, h.block]
    · have hother : (⟨.block source, .block target⟩ : Edge) ≠ d.edge := by
        rintro heq
        cases heq
        exact hsame ⟨rfl, rfl⟩
      rw [if_neg hother, if_neg (by simpa using hsame)]
      exact h.flow source target

theorem joined_of_foldlM {edges : List DeclaredEdge} (h : edges.foldlM Graph.join g = .ok g') :
    Joined g edges g' := by
  induction edges using List.reverseRecOn generalizing g' with
  | nil =>
    cases h
    exact ⟨rfl, fun _ => rfl, by simp, by simp⟩
  | append_singleton edges d ih =>
    rw [List.foldlM_append] at h
    obtain ⟨mid, hmid, hlast⟩ := bind_eq_ok.mp h
    rw [List.foldlM_cons] at hlast
    obtain ⟨last, hjoin, hlast⟩ := bind_eq_ok.mp hlast
    cases hlast
    exact (ih hmid).join hjoin

/-! ### The graph of a listing -/

/-- The graph holds what a listing declares: every block and every edge with its last attributes, save
that a repeated instruction that jumps to itself jumps directly, and nothing else. -/
structure Renders (g : Graph) (listing : List Declaration) : Prop where
  hasSink : g.hasSink = false
  mem_nodes : ∀ n, n ∈ g.nodes ↔ ∃ a, n = .block a ∧ Declares listing a
  block : ∀ a, g.block? a = lastBlock? listing a
  mem_successors : ∀ m n, n ∈ g.successors m ↔ Joins listing ⟨m, n⟩
  mem_predecessors : ∀ m n, m ∈ g.predecessors n ↔ Joins listing ⟨m, n⟩
  edgeCount : g.edgeCount = {e | Joins listing e}.ncard
  flow : ∀ source target, g.flow? ⟨.block source, .block target⟩ =
    (lastFlow? listing source target).map fun flow =>
      if source = target ∧ (lastBlock? listing source).any (·.endsWith .rep) then
        { flow with kind := .jumpDirect }
      else flow

theorem hasBlock_ofBlocks {a : Address} :
    (ofBlocks (listing.filterMap Declaration.block?)).hasBlock a = true ↔ Declares listing a := by
  rw [hasBlock, (bare_ofBlocks _).block, ← isSome_lastBlock?, lastBlock?]

theorem renders_of_build (h : build listing = .ok g) : g.Renders listing := by
  rw [build_eq] at h
  have hbare := bare_ofBlocks (listing.filterMap Declaration.block?)
  have hjoined := joined_of_foldlM h
  have hblock (a : Address) : g.block? a = lastBlock? listing a :=
    (hjoined.block a).trans (hbare.block a)
  have hsink : g.hasSink = false := hjoined.hasSink.trans hbare.hasSink
  have hedge (e : Edge) : e ∈ g.flows.keys ↔ Joins listing e := by
    rw [hjoined.mem_flows, hbare.flows]
    simp only [Table.keys, Table.empty, List.map_nil, List.not_mem_nil, false_or,
      mem_filterMap_edge?]
    constructor
    · rintro ⟨d, hd, rfl⟩
      exact ⟨_, _, _, hd, rfl⟩
    · rintro ⟨source, target, flow, hd, rfl⟩
      exact ⟨⟨source, target, flow⟩, hd, rfl⟩
  refine ⟨hsink, ?_, hblock, ?_, ?_, edgeCount_eq_ncard hedge, ?_⟩
  · intro n
    rw [← contains_iff]
    cases n with
    | block a => simp [contains, hasBlock, hblock, isSome_lastBlock?]
    | sink => simp [contains, hsink]
    | anywhere => simp [contains]
    | hub label => simp [contains]
  · intro m n
    rw [mem_successors, hedge]
  · intro m n
    rw [mem_predecessors, hedge]
  · intro source target
    have hnone : (ofBlocks (listing.filterMap Declaration.block?)).flow?
        ⟨.block source, .block target⟩ = none := by
      rw [flow?, hbare.flows, Table.find?_empty]
    rw [hjoined.flow, hnone, Option.or_none, lastFlow?, Option.map_map]
    refine congrArg (Option.map · _) ?_
    funext d
    simp only [flowKind, Function.comp_apply, ← hjoined.block, hblock]
    split <;> rfl

theorem joinFault?_ofBlocks {source target : Address} {flow : Flow} {err : GraphError} :
    (ofBlocks (listing.filterMap Declaration.block?)).joinFault? ⟨source, target, flow⟩ = some err ↔
      ∃ missing, Lacks listing source target missing ∧
        err = .danglingEdge ⟨.block source, .block target⟩ (.block missing) := by
  constructor
  · intro h
    unfold joinFault? at h
    split_ifs at h with hs ht
    · cases h
      exact ⟨target, .target (hasBlock_ofBlocks.mp hs) (mt hasBlock_ofBlocks.mpr ht), rfl⟩
    · cases h
      exact ⟨source, .source (mt hasBlock_ofBlocks.mpr hs), rfl⟩
  · rintro ⟨missing, hlacks, rfl⟩
    unfold joinFault?
    cases hlacks with
    | source hs => rw [if_neg (mt hasBlock_ofBlocks.mp hs)]; rfl
    | target hs ht =>
      rw [if_pos (hasBlock_ofBlocks.mpr hs), if_neg (mt hasBlock_ofBlocks.mp ht)]
      rfl

theorem joinFault?_ofBlocks_eq_none {source target : Address} {flow : Flow} :
    (ofBlocks (listing.filterMap Declaration.block?)).joinFault? ⟨source, target, flow⟩ = none ↔
      Declares listing source ∧ Declares listing target := by
  rw [joinFault?_eq_none, hasBlock_ofBlocks, hasBlock_ofBlocks]

/-- The first edge of a listing with an undeclared end is reported, and nothing else is. -/
theorem build_eq_error_iff {err : GraphError} :
    build listing = .error err ↔ ∃ earlier source target flow later missing,
      listing = earlier ++ .edge source target flow :: later ∧
      (∀ s t f, .edge s t f ∈ earlier → Declares listing s ∧ Declares listing t) ∧
      Lacks listing source target missing ∧
      err = .danglingEdge ⟨.block source, .block target⟩ (.block missing) := by
  rw [build_eq, foldlM_join_eq_error, ← List.head?_filterMap, List.filterMap_filterMap,
    List.head?_filterMap, List.findSome?_eq_some_iff]
  constructor
  · rintro ⟨earlier, d, later, hlisting, hfault, hclear⟩
    cases d with
    | block a b => cases hfault
    | edge source target flow =>
      obtain ⟨missing, hlacks, rfl⟩ := joinFault?_ofBlocks.mp hfault
      refine ⟨earlier, source, target, flow, later, missing, hlisting, ?_, hlacks, rfl⟩
      intro s t f hmem
      exact joinFault?_ofBlocks_eq_none.mp (hclear _ hmem)
  · rintro ⟨earlier, source, target, flow, later, missing, hlisting, hclear, hlacks, rfl⟩
    refine ⟨earlier, .edge source target flow, later, hlisting,
      joinFault?_ofBlocks.mpr ⟨missing, hlacks, rfl⟩, ?_⟩
    intro d hd
    cases d with
    | block a b => rfl
    | edge s t f => exact joinFault?_ofBlocks_eq_none.mpr (hclear s t f hd)

theorem exists_build_iff :
    (∃ g, build listing = .ok g) ↔
      ∀ s t f, .edge s t f ∈ listing → Declares listing s ∧ Declares listing t := by
  have hnone : (∃ g, build listing = .ok g) ↔ (listing.filterMap Declaration.edge?).findSome?
      (ofBlocks (listing.filterMap Declaration.block?)).joinFault? = none := by
    rw [Option.eq_none_iff_forall_ne_some]
    simp only [Ne, ← foldlM_join_eq_error, ← build_eq]
    cases build listing <;> simp
  rw [hnone, List.findSome?_eq_none_iff]
  constructor
  · intro h s t f hmem
    exact joinFault?_ofBlocks_eq_none.mp (h ⟨s, t, f⟩ (mem_filterMap_edge?.mpr hmem))
  · intro h d hd
    exact joinFault?_ofBlocks_eq_none.mpr (h _ _ _ (mem_filterMap_edge?.mp hd))

/-- What a listing builds: when it fails and what it then reports, what the graph holds otherwise, and
that the blocks and the edges may be interleaved in any way. -/
theorem listing_exact (listing : List Declaration) :
    ((∃ g, build listing = .ok g) ↔
      ∀ s t f, .edge s t f ∈ listing → Declares listing s ∧ Declares listing t) ∧
    (∀ err, build listing = .error err ↔ ∃ earlier source target flow later missing,
      listing = earlier ++ .edge source target flow :: later ∧
      (∀ s t f, .edge s t f ∈ earlier → Declares listing s ∧ Declares listing t) ∧
      Lacks listing source target missing ∧
      err = .danglingEdge ⟨.block source, .block target⟩ (.block missing)) ∧
    (∀ g, build listing = .ok g → g.Renders listing) ∧
    ∀ other : List Declaration,
      other.filterMap Declaration.block? = listing.filterMap Declaration.block? →
      other.filterMap Declaration.edge? = listing.filterMap Declaration.edge? →
      build other = build listing := by
  refine ⟨exists_build_iff, fun err => build_eq_error_iff, fun g => renders_of_build, ?_⟩
  intro other hblocks hedges
  rw [build_eq, build_eq, hblocks, hedges]

/-- Edges come before their blocks, one of them twice, and block 1 turns out to repeat an instruction. -/
def scattered : List Declaration :=
  [.edge 1 2 { kind := .follow }, .block 1 { size := 4, instrs := 1 }, .edge 1 1 { kind := .follow },
    .block 2 { size := 4, instrs := 1 }, .edge 1 2 { kind := .jumpDirect },
    .block 1 { size := 2, instrs := 1, terminator := some .rep }]

theorem listing_exact_scattered :
    (∃ g, build scattered = .ok g ∧ g.block? 1 =
      some { size := 2, instrs := 1, terminator := some .rep } ∧
      g.flow? ⟨.block 1, .block 1⟩ = some { kind := .jumpDirect } ∧
      g.flow? ⟨.block 1, .block 2⟩ = some { kind := .jumpDirect }) ∧
    build [.block 1 { size := 4, instrs := 1 }, .block 2 { size := 4, instrs := 1 },
      .block 1 { size := 2, instrs := 1, terminator := some .rep }, .edge 1 2 { kind := .follow },
      .edge 1 1 { kind := .follow }, .edge 1 2 { kind := .jumpDirect }] = build scattered ∧
    build (.edge 2 1 { kind := .ret } :: .edge 3 4 { kind := .ret } :: scattered) =
      .error (.danglingEdge ⟨.block 3, .block 4⟩ (.block 3)) := by
  obtain ⟨hok, -, hholds, hinterleaved⟩ := listing_exact scattered
  obtain ⟨-, hreports, -, -⟩ :=
    listing_exact (.edge 2 1 { kind := .ret } :: .edge 3 4 { kind := .ret } :: scattered)
  refine ⟨?_, hinterleaved _ rfl rfl, ?_⟩
  · have hdeclared : ∀ s t f, .edge s t f ∈ scattered →
        Declares scattered s ∧ Declares scattered t := by
      intro s t f h
      simp only [scattered, List.mem_cons, Declaration.edge.injEq, reduceCtorEq, false_or,
        List.not_mem_nil, or_false] at h
      obtain ⟨rfl, rfl, -⟩ | ⟨rfl, rfl, -⟩ | ⟨rfl, rfl, -⟩ := h <;> simp [scattered, Declares]
    obtain ⟨g, hg⟩ := hok.mpr hdeclared
    refine ⟨g, hg, ?_, ?_, ?_⟩
    · exact (hholds g hg).block 1
    · exact (hholds g hg).flow 1 1
    · exact (hholds g hg).flow 1 2
  · refine (hreports _).mpr ⟨[.edge 2 1 { kind := .ret }], 3, 4, _, scattered, 3, rfl, ?_, ?_, rfl⟩
    · intro s t f h
      obtain ⟨rfl, rfl, -⟩ := Declaration.edge.inj (List.mem_singleton.mp h)
      simp [scattered, Declares]
    · exact .source (by simp [scattered, Declares])

end Graph
end CfiSlack
