import CfiSlack.Proofs.Histories
import CfiSlack.View

/-!
# Histories of a graph

A graph is changed by calls that may be refused. Which calls are accepted and which edges they add is
said here of the list of calls alone; a graph reflects its history when it holds just these edges, the
blocks with the attributes that they were given last, and the sink once it was asked for. One call
keeps this, so it holds after every history.
-/
namespace CfiSlack.Graph

inductive Call where
  | addBlock (a : Address) (b : Block)
  | addEdge (source target : Address) (flow : Flow)
  | attachSink

/-- Make a call. Of its answer only a refusal is kept. -/
def perform (g : Graph) : Call → Outcome Unit
  | .addBlock a b => (.ok (), (g.addBlock a b).2)
  | .addEdge source target flow => g.addEdge source target flow
  | .attachSink => (g.attachSink.1.map fun _ => (), g.attachSink.2)

/-- The graph after some calls on an empty one, oldest first. -/
def after (calls : List Call) : Graph := calls.foldl (fun g c => (g.perform c).2) empty

namespace Call

/-- The attributes that a block was given last. -/
def LastGiven (calls : List Call) (a : Address) (b : Block) : Prop :=
  ∃ earlier later, calls = earlier ++ addBlock a b :: later ∧ ∀ b', addBlock a b' ∉ later

/-- After these calls the next one is accepted. -/
def Accepts (calls : List Call) : Call → Prop
  | addBlock _ _ => True
  | addEdge source target _ => (∃ b, addBlock source b ∈ calls) ∧ ∃ b, addBlock target b ∈ calls
  | attachSink => attachSink ∉ calls

/-- The edges that the next call stands for. -/
def Adds (calls : List Call) : Call → Edge → Prop
  | addBlock _ _, _ => False
  | addEdge source target _, e => e = ⟨.block source, .block target⟩
  | attachSink, e => ∃ a b, LastGiven calls a b ∧ b.endsWith .syscall = true ∧ e = ⟨.block a, .sink⟩

/-- One of the calls was accepted and added the edge. -/
def Recorded (calls : List Call) (e : Edge) : Prop :=
  ∃ earlier c later, calls = earlier ++ c :: later ∧ Accepts earlier c ∧ Adds earlier c e

variable {calls : List Call} {c : Call} {e : Edge}

theorem lastGiven_concat {a : Address} {b : Block} :
    LastGiven (calls ++ [c]) a b ↔
      c = addBlock a b ∨ LastGiven calls a b ∧ ∀ b', c ≠ addBlock a b' := by
  simp only [LastGiven, concat_eq_append_cons]
  constructor
  · rintro ⟨earlier, later, ⟨-, hc, -⟩ | ⟨rest, rfl, hcalls⟩, hlast⟩
    · exact Or.inl hc.symm
    · refine Or.inr ⟨⟨earlier, rest, hcalls, fun b' h => hlast b' (by simp [h])⟩, ?_⟩
      rintro b' rfl
      exact hlast b' (by simp)
  · rintro (rfl | ⟨⟨earlier, later, hcalls, hlast⟩, hc⟩)
    · exact ⟨calls, [], Or.inl ⟨rfl, rfl, rfl⟩, by simp⟩
    · refine ⟨earlier, later ++ [c], Or.inr ⟨later, rfl, hcalls⟩, ?_⟩
      intro b' h
      rcases List.mem_append.mp h with h | h
      · exact hlast b' h
      · exact hc b' (List.mem_singleton.mp h).symm

theorem recorded_concat :
    Recorded (calls ++ [c]) e ↔ Recorded calls e ∨ Accepts calls c ∧ Adds calls c e := by
  simp only [Recorded, concat_eq_append_cons]
  constructor
  · rintro ⟨earlier, x, later, ⟨rfl, rfl, -⟩ | ⟨rest, -, hcalls⟩, haccepts, hadds⟩
    · exact Or.inr ⟨haccepts, hadds⟩
    · exact Or.inl ⟨earlier, x, rest, hcalls, haccepts, hadds⟩
  · rintro (⟨earlier, x, later, hcalls, haccepts, hadds⟩ | ⟨haccepts, hadds⟩)
    · exact ⟨earlier, x, later ++ [c], Or.inr ⟨later, rfl, hcalls⟩, haccepts, hadds⟩
    · exact ⟨calls, c, [], Or.inl ⟨rfl, rfl, rfl⟩, haccepts, hadds⟩

end Call

open Call

variable {g : Graph} {calls : List Call} {c : Call}

section Effects

/-! ### What one call does -/

def CanPerform (g : Graph) : Call → Prop
  | .addBlock _ _ => True
  | .addEdge source target _ => g.hasBlock source = true ∧ g.hasBlock target = true
  | .attachSink => g.hasSink = false

theorem perform_of_can (h : g.CanPerform c) : (g.perform c).1 = .ok () := by
  cases c with
  | addBlock a b => rfl
  | addEdge source target flow => simp [perform, addEdge, h.1, h.2]
  | attachSink =>
    have h : g.hasSink = false := h
    simp [perform, attachSink, h, Except.map]

theorem perform_of_cannot (h : ¬ g.CanPerform c) : ∃ e, g.perform c = (.error e, g) := by
  cases c with
  | addBlock a b => exact absurd trivial h
  | addEdge source target flow =>
    by_cases hs : g.hasBlock source = true
    · have ht : ¬ g.hasBlock target = true := fun ht => h ⟨hs, ht⟩
      exact ⟨_, by rw [perform, addEdge, dif_pos hs, dif_neg ht]⟩
    · exact ⟨_, by rw [perform, addEdge, dif_neg hs]⟩
  | attachSink =>
    have h : g.hasSink = true := by simpa [CanPerform] using h
    exact ⟨.sinkAttached, by simp [perform, attachSink, h, Except.map]⟩

theorem perform_eq_ok_iff : (g.perform c).1 = .ok () ↔ g.CanPerform c := by
  refine ⟨fun hok => ?_, perform_of_can⟩
  by_contra h
  obtain ⟨e, he⟩ := perform_of_cannot h
  simp [he] at hok

theorem perform_of_error {e : GraphError} (h : (g.perform c).1 = .error e) :
    (g.perform c).2 = g := by
  have hnot : ¬ g.CanPerform c := fun hcan => by simp [perform_of_can hcan] at h
  obtain ⟨_, he⟩ := perform_of_cannot hnot
  rw [he]

theorem mem_blocksEnding_iff {t : Transfer} {a : Address} :
    a ∈ g.blocksEnding t ↔ ∃ b, g.block? a = some b ∧ b.endsWith t = true := by
  simp only [blocksEnding, Ascending.mem_ofList, List.mem_map, List.mem_filter, block?,
    Table.find?_eq_some]
  constructor
  · rintro ⟨⟨a, b⟩, ⟨hrow, hb⟩, rfl⟩
    exact ⟨b, hrow, hb⟩
  · rintro ⟨b, hrow, hb⟩
    exact ⟨(a, b), ⟨hrow, hb⟩, rfl⟩

theorem block?_perform (a : Address) :
    (g.perform c).2.block? a =
      match c with
      | .addBlock x b => if a = x then some b else g.block? a
      | _ => g.block? a := by
  cases c with
  | addBlock x b => exact Table.find?_insert g.blocks x a b
  | addEdge source target flow =>
    simp only [perform, addEdge]
    split_ifs <;> rfl
  | attachSink =>
    simp only [perform, attachSink]
    split_ifs <;> rfl

theorem hasSink_perform :
    (g.perform c).2.hasSink = true ↔ g.hasSink = true ∨ c = .attachSink := by
  cases c with
  | addBlock x b => simp [perform, addBlock]
  | addEdge source target flow =>
    simp only [perform, addEdge]
    split_ifs <;> simp
  | attachSink =>
    simp only [perform, attachSink]
    split_ifs with h <;> simp [h]

theorem flows_addEdge {source target : Address} {flow : Flow} (hsource : g.hasBlock source = true)
    (htarget : g.hasBlock target = true) :
    (g.addEdge source target flow).2.flows =
      g.flows.insert ⟨.block source, .block target⟩
        { flow with kind := g.flowKind source target flow.kind } := by
  rw [addEdge, dif_pos hsource, dif_pos htarget]
  rfl

theorem flows_attachSink (hsink : g.hasSink = false) :
    g.attachSink.2.flows =
      g.flows.insertAll (g.gates.map fun a => (⟨.block a, .sink⟩, { kind := .syscall })) := by
  rw [attachSink, if_neg (by simp [hsink])]
  exact Adjacency.flows_insertAll _ _

theorem mem_flows_perform {e : Edge} :
    e ∈ (g.perform c).2.flows.keys ↔ e ∈ g.flows.keys ∨ g.CanPerform c ∧
      match c with
      | .addBlock _ _ => False
      | .addEdge source target _ => e = ⟨.block source, .block target⟩
      | .attachSink => ∃ a b, g.block? a = some b ∧ b.endsWith .syscall = true ∧
          e = ⟨.block a, .sink⟩ := by
  cases c with
  | addBlock x b => simp [perform, addBlock]
  | addEdge source target flow =>
    by_cases hcan : g.CanPerform (.addEdge source target flow)
    · rw [perform, flows_addEdge hcan.1 hcan.2, Table.mem_keys_insert, or_comm]
      simp [hcan]
    · obtain ⟨_, he⟩ := perform_of_cannot hcan
      simp [he, hcan]
  | attachSink =>
    by_cases hcan : g.CanPerform .attachSink
    · have hgates : e ∈ (g.gates.map fun a => ((⟨.block a, .sink⟩ : Edge),
          ({ kind := .syscall } : Flow))).map Prod.fst ↔
          ∃ a b, g.block? a = some b ∧ b.endsWith .syscall = true ∧ e = ⟨.block a, .sink⟩ := by
        simp only [List.map_map, List.mem_map, Function.comp_apply, gates, mem_blocksEnding_iff]
        grind
      rw [perform, flows_attachSink hcan, Table.mem_keys_insertAll, or_comm, hgates]
      simp [hcan]
    · obtain ⟨_, he⟩ := perform_of_cannot hcan
      simp [he, hcan]

end Effects

/-- The graph holds what its history says. -/
structure Reflects (g : Graph) (calls : List Call) : Prop where
  block : ∀ a b, g.block? a = some b ↔ LastGiven calls a b
  hasBlock : ∀ a, g.hasBlock a = true ↔ ∃ b, .addBlock a b ∈ calls
  hasSink : g.hasSink = true ↔ .attachSink ∈ calls
  edge : ∀ e, e ∈ g.flows.keys ↔ Recorded calls e

theorem reflects_empty : empty.Reflects [] where
  block a b := by simp [LastGiven, empty, block?]
  hasBlock a := by simp [Graph.hasBlock, empty, block?]
  hasSink := by simp [empty]
  edge e := by simp [Recorded, empty, Adjacency.empty, Table.keys, Table.empty]

theorem Reflects.canPerform_iff (h : g.Reflects calls) : g.CanPerform c ↔ Accepts calls c := by
  cases c with
  | addBlock a b => rfl
  | addEdge source target flow => exact and_congr (h.hasBlock source) (h.hasBlock target)
  | attachSink => rw [CanPerform, Accepts, ← h.hasSink, Bool.not_eq_true]

/-- One more call, accepted or refused, keeps a graph and its history together. -/
theorem Reflects.perform (h : g.Reflects calls) (c : Call) :
    (g.perform c).2.Reflects (calls ++ [c]) where
  block a b := by
    rw [block?_perform, lastGiven_concat, ← h.block]
    cases c with
    | addBlock x y =>
      by_cases hx : a = x
      · simp [hx]
      · simp [hx, Ne.symm hx]
    | addEdge source target flow => simp
    | attachSink => simp
  hasBlock a := by
    rw [Graph.hasBlock, block?_perform]
    cases c with
    | addBlock x y =>
      by_cases hx : a = x
      · simp [hx]
      · simpa [hx, Graph.hasBlock] using h.hasBlock a
    | addEdge source target flow => simpa [Graph.hasBlock] using h.hasBlock a
    | attachSink => simpa [Graph.hasBlock] using h.hasBlock a
  hasSink := by
    rw [hasSink_perform, h.hasSink, List.mem_append, List.mem_singleton, eq_comm (a := c)]
  edge e := by
    rw [mem_flows_perform, recorded_concat, h.edge, h.canPerform_iff]
    cases c with
    | addBlock x y => simp [Adds]
    | addEdge source target flow => simp [Adds]
    | attachSink => simp only [Adds, h.block]

theorem reflects_after (calls : List Call) : (after calls).Reflects calls := by
  induction calls using List.reverseRecOn with
  | nil => exact reflects_empty
  | append_singleton calls c ih =>
    rw [after, List.foldl_append]
    exact ih.perform c

theorem Reflects.contains_iff (h : g.Reflects calls) {n : Node} :
    g.contains n = true ↔
      (∃ a b, n = .block a ∧ .addBlock a b ∈ calls) ∨ n = .sink ∧ .attachSink ∈ calls := by
  cases n with
  | block a => simp [contains, h.hasBlock]
  | sink => simp [contains, h.hasSink]
  | anywhere => simp [contains]
  | hub label => simp [contains]

theorem edgeCount_eq_ncard {P : Edge → Prop} (h : ∀ e, e ∈ g.flows.keys ↔ P e) :
    g.edgeCount = {e | P e}.ncard := by
  calc g.edgeCount = g.flows.keys.length := by rw [g.toAdjacency.edgeCount_eq, Table.size, Table.keys,
        List.length_map]
    _ = {e | P e}.ncard := length_eq_ncard g.flows.nodup h

theorem contains_of_mem_successors {m n : Node} (h : n ∈ g.successors m) :
    g.contains m = true ∧ g.contains n = true := by
  obtain ⟨hm, hn⟩ := (g.view .ascending).mem_nodes m n (mem_succ_view.mpr h)
  exact ⟨contains_iff.mpr (mem_nodes_view.mp hm), contains_iff.mpr (mem_nodes_view.mp hn)⟩

theorem successors_sink (g : Graph) : g.successors .sink = [] := by
  refine List.eq_nil_iff_forall_not_mem.mpr ?_
  intro n hn
  obtain ⟨a, ha, -⟩ := g.source_mem _ (mem_successors.mp hn)
  cases ha

/-- The edges into the sink are those that were added when it was attached. -/
theorem mem_predecessors_sink {n : Node} :
    n ∈ (after calls).predecessors .sink ↔
      ∃ earlier later, calls = earlier ++ .attachSink :: later ∧
        ((after earlier).perform .attachSink).1 = .ok () ∧
        ∃ a b, n = .block a ∧ (after earlier).block? a = some b ∧ b.endsWith .syscall = true := by
  rw [mem_predecessors, (reflects_after calls).edge]
  simp only [perform_eq_ok_iff, (reflects_after _).canPerform_iff, (reflects_after _).block]
  constructor
  · rintro ⟨earlier, c, later, hcalls, haccepts, hadds⟩
    cases c with
    | addBlock a b => exact absurd hadds id
    | addEdge source target flow => cases hadds
    | attachSink =>
      obtain ⟨a, b, hlast, hb, he⟩ := hadds
      cases he
      exact ⟨earlier, later, hcalls, haccepts, a, b, rfl, hlast, hb⟩
  · rintro ⟨earlier, later, hcalls, haccepts, a, b, rfl, hlast, hb⟩
    exact ⟨earlier, .attachSink, later, hcalls, haccepts, a, b, hlast, hb, rfl⟩

/-- The graph after any calls, accepted or refused: its edges in both directions, their number and
their ends, the edges of the sink, and what a further call does. -/
theorem history_exact (calls : List Call) :
    (∀ m n, n ∈ (after calls).successors m ↔ Recorded calls ⟨m, n⟩) ∧
    (∀ m n, m ∈ (after calls).predecessors n ↔ n ∈ (after calls).successors m) ∧
    (after calls).edgeCount = {e | Recorded calls e}.ncard ∧
    (∀ n, (after calls).contains n = true ↔
      (∃ a b, n = .block a ∧ .addBlock a b ∈ calls) ∨ n = .sink ∧ .attachSink ∈ calls) ∧
    (∀ m n, n ∈ (after calls).successors m →
      (after calls).contains m = true ∧ (after calls).contains n = true) ∧
    (after calls).successors .sink = [] ∧
    (∀ n, n ∈ (after calls).predecessors .sink ↔
      ∃ earlier later, calls = earlier ++ .attachSink :: later ∧
        ((after earlier).perform .attachSink).1 = .ok () ∧
        ∃ a b, n = .block a ∧ (after earlier).block? a = some b ∧ b.endsWith .syscall = true) ∧
    (∀ c, ((after calls).perform c).1 = .ok () ↔ Accepts calls c) ∧
    ∀ c e, ((after calls).perform c).1 = .error e → ((after calls).perform c).2 = after calls := by
  have hreflects := reflects_after calls
  refine ⟨?_, ?_, edgeCount_eq_ncard hreflects.edge, fun n => hreflects.contains_iff, ?_,
    successors_sink _, fun n => mem_predecessors_sink, ?_, ?_⟩
  · intro m n
    rw [mem_successors, hreflects.edge]
  · intro m n
    rw [mem_predecessors, mem_successors]
  · intro m n hn
    exact contains_of_mem_successors hn
  · intro c
    rw [perform_eq_ok_iff, hreflects.canPerform_iff]
  · intro c e he
    exact perform_of_error he

/-- An edge is seen twice and another leads nowhere; block 2 ends in a system call only once the sink
is attached. -/
def lateGate : List Call :=
  [.addBlock 1 { size := 2, instrs := 1, terminator := some .syscall },
    .addBlock 2 { size := 4, instrs := 1 },
    .addEdge 1 2 { kind := .follow }, .addEdge 1 2 { kind := .jumpDirect },
    .addEdge 1 9 { kind := .follow }, .attachSink,
    .addBlock 2 { size := 2, instrs := 1, terminator := some .syscall }, .attachSink]

theorem history_exact_lateGate :
    (after lateGate).edgeCount = 2 ∧
    Recorded lateGate ⟨.block 1, .sink⟩ ∧ ¬ Recorded lateGate ⟨.block 2, .sink⟩ ∧
    (Node.block 2 ∈ (after lateGate).successors (.block 1) ∧
      (after lateGate).contains (.block 2) = true) ∧
    ((after lateGate).perform .attachSink).1 = .error .sinkAttached ∧
      ((after lateGate).perform .attachSink).2 = after lateGate := by
  obtain ⟨hrecorded, -, -, -, hends, -, -, -, hkept⟩ := history_exact lateGate
  have hedge : Node.block 2 ∈ (after lateGate).successors (.block 1) := by decide
  have hrefused : ((after lateGate).perform .attachSink).1 = .error .sinkAttached := rfl
  refine ⟨rfl, (hrecorded _ _).mp (by decide), fun h => ?_, ⟨hedge, (hends _ _ hedge).2⟩, hrefused,
    hkept _ _ hrefused⟩
  exact absurd ((hrecorded _ _).mpr h) (by decide)

end CfiSlack.Graph
