import CfiSlack.Block
import CfiSlack.Edge
import CfiSlack.Table

/-!
# Ground-truth graphs

A graph holds the blocks of a program, the flows observed between them, and the sink once it is
attached. The flows can be followed in both directions and are counted; the types record that the two
directions and the count agree, that every flow leaves a block, and that it ends in a block or the
sink.
-/
namespace CfiSlack

inductive GraphError where
  | missingNode (n : Node)
  | danglingEdge (e : Edge) (missing : Node)
  | sinkEdge (e : Edge)
  | sinkAttached
  /-- The sink is needed before `purpose`. -/
  | sinkMissing (purpose : String)
  | routeLength (declared actual : Nat)
  deriving DecidableEq, Repr

def GraphError.message : GraphError → String
  | .missingNode n => "Node " ++ n.text ++ " not in graph"
  | .danglingEdge e missing =>
    "Edge " ++ e.source.text ++ " -> " ++ e.target.text ++ " references missing node " ++
      missing.text
  | .sinkEdge e => "Edge " ++ e.source.text ++ " -> " ++ e.target.text ++ " touches the sink"
  | .sinkAttached => "Sink already attached"
  | .sinkMissing purpose => "Sink not attached: call attach_sink before " ++ purpose
  | .routeLength declared actual =>
    "Forbidden path declared with length " ++ toString declared ++ " has " ++ toString actual ++
      " nodes"

/-- Edges with their flows, the sources of the edges into each node, and the number of edges. -/
structure Adjacency where
  flows : Table Edge Flow
  /-- Ascending lists. -/
  sources : Table Node (List Node) := Edge.sources flows.keys
  edgeCount : Nat := flows.size
  mem_sources : ∀ m n, m ∈ sources.group n ↔ (⟨m, n⟩ : Edge) ∈ flows.keys := by
    exact fun _ _ => Edge.mem_sources
  sources_ascend : ∀ n, (sources.group n).Pairwise (· < ·) := by exact Edge.sources_ascend _
  edgeCount_eq : edgeCount = flows.size := by rfl

namespace Adjacency

def empty : Adjacency where
  flows := .empty

/-- Add an edge; one that is there already gets the new flow and counts once. -/
def insert (adj : Adjacency) (e : Edge) (flow : Flow) : Adjacency where
  flows := adj.flows.insert e flow
  sources := adj.sources.enlist e.target e.source
  edgeCount := if (adj.flows.find? e).isSome then adj.edgeCount else adj.edgeCount + 1
  mem_sources m n := by
    rw [Table.mem_group_enlist, Table.mem_keys_insert, adj.mem_sources, Edge.ext_iff]
  sources_ascend n := by
    rw [Table.group_enlist]
    split
    · exact Ascending.pairwise_insert (adj.sources_ascend n)
    · exact adj.sources_ascend n
  edgeCount_eq := by rw [Table.size_insert, adj.edgeCount_eq]

def insertAll (adj : Adjacency) (rows : List (Edge × Flow)) : Adjacency :=
  rows.foldl (fun adj row => adj.insert row.1 row.2) adj

theorem flows_insertAll (adj : Adjacency) (rows : List (Edge × Flow)) :
    (adj.insertAll rows).flows = adj.flows.insertAll rows := by
  induction rows generalizing adj with
  | nil => rfl
  | cons row rows ih => exact ih (adj.insert row.1 row.2)

end Adjacency

structure Graph extends Adjacency where
  blocks : Table Address Block
  hasSink : Bool
  source_mem : ∀ e ∈ flows.keys, ∃ a, e.source = .block a ∧ a ∈ blocks.keys
  target_mem : ∀ e ∈ flows.keys,
    (∃ a, e.target = .block a ∧ a ∈ blocks.keys) ∨ (e.target = .sink ∧ hasSink = true)

namespace Graph

def empty : Graph where
  toAdjacency := .empty
  blocks := .empty
  hasSink := false
  source_mem := by simp [Adjacency.empty, Table.keys, Table.empty]
  target_mem := by simp [Adjacency.empty, Table.keys, Table.empty]

instance : Inhabited Graph := ⟨empty⟩

def block? (g : Graph) (a : Address) : Option Block := g.blocks.find? a

def hasBlock (g : Graph) (a : Address) : Bool := (g.block? a).isSome

def flow? (g : Graph) (e : Edge) : Option Flow := g.flows.find? e

def blockCount (g : Graph) : Nat := g.blocks.size

def contains (g : Graph) : Node → Bool
  | .block a => g.hasBlock a
  | .sink => g.hasSink
  | .anywhere => false
  | .hub _ => false

/-- The blocks and the sink, in no order that matters. -/
def nodes (g : Graph) : List Node :=
  g.blocks.keys.map .block ++ if g.hasSink then [.sink] else []

def nodeCount (g : Graph) : Nat := g.blockCount + if g.hasSink then 1 else 0

/-- Edges out of a node. -/
def outFlows (g : Graph) (n : Node) : List (Edge × Flow) :=
  g.flows.rows.filter fun row => row.1.source = n

def successors (g : Graph) (n : Node) : List Node :=
  (g.flows.keys.filter fun e => e.source = n).map Edge.target

def predecessors (g : Graph) (n : Node) : List Node := g.sources.group n

def outDegree (g : Graph) (n : Node) : Nat := (g.outFlows n).length

def inDegree (g : Graph) (n : Node) : Nat := (g.predecessors n).length

/-- Instructions of a block; the sink and hubs have none. -/
def instrs (g : Graph) (n : Node) : UInt64 :=
  ((n.addr?.bind g.block?).map Block.instrs).getD 0

/-- Blocks that end with a given kind of transfer, ascending. -/
def blocksEnding (g : Graph) (t : Transfer) : List Address :=
  Ascending.ofList ((g.blocks.rows.filter fun row => row.2.endsWith t).map Prod.fst)

/-- Blocks that end in an indirect call. -/
def callSites (g : Graph) : List Address := g.blocksEnding .callIndirect

/-- Blocks that end in a system call: the gates to the sink. -/
def gates (g : Graph) : List Address := g.blocksEnding .syscall

theorem mem_successors {g : Graph} {m n : Node} :
    n ∈ g.successors m ↔ (⟨m, n⟩ : Edge) ∈ g.flows.keys :=
  Edge.mem_targets

/-- The targets that are listed under a node, as far as their flows pass a test. -/
theorem mem_map_target_outFlows {g : Graph} {m n : Node} (keep : Flow → Prop)
    [DecidablePred keep] :
    n ∈ ((g.outFlows m).filter fun row => keep row.2).map (fun row => row.1.target) ↔
      ∃ flow, g.flow? ⟨m, n⟩ = some flow ∧ keep flow := by
  simp only [outFlows, flow?, List.mem_map, List.mem_filter, decide_eq_true_eq,
    Table.find?_eq_some]
  constructor
  · rintro ⟨⟨e, flow⟩, ⟨⟨hrow, hsource⟩, hkeep⟩, rfl⟩
    obtain ⟨source, target⟩ := e
    cases hsource
    exact ⟨flow, hrow, hkeep⟩
  · rintro ⟨flow, hrow, hkeep⟩
    exact ⟨(_, flow), ⟨⟨hrow, rfl⟩, hkeep⟩, rfl⟩

theorem mem_predecessors {g : Graph} {m n : Node} :
    m ∈ g.predecessors n ↔ (⟨m, n⟩ : Edge) ∈ g.flows.keys :=
  g.mem_sources m n

theorem hasBlock_iff {g : Graph} {a : Address} : g.hasBlock a = true ↔ a ∈ g.blocks.keys :=
  Table.mem_keys.symm

theorem contains_iff {g : Graph} {n : Node} : g.contains n = true ↔ n ∈ g.nodes := by
  cases n with
  | block a => simp [contains, nodes, hasBlock_iff]
  | sink => simp [contains, nodes]
  | anywhere => simp [contains, nodes]
  | hub label => simp [contains, nodes]

theorem isHub_eq_false_of_mem_nodes {g : Graph} {n : Node} (h : n ∈ g.nodes) : n.isHub = false := by
  rcases List.mem_append.1 h with h | h
  · obtain ⟨a, -, rfl⟩ := List.mem_map.1 h
    rfl
  · split at h
    · rw [List.mem_singleton.1 h]
      rfl
    · cases h

theorem nodup_nodes (g : Graph) : g.nodes.Nodup := by
  have hblocks : (g.blocks.keys.map Node.block).Nodup :=
    List.pairwise_map.2 (g.blocks.nodup.imp fun hne heq => hne (Node.block.inj heq))
  unfold nodes
  split
  · refine List.nodup_append.2 ⟨hblocks, by simp, ?_⟩
    simp
  · simpa using hblocks

theorem nodeCount_eq (g : Graph) : g.nodeCount = g.nodes.length := by
  unfold nodeCount nodes blockCount Table.keys Table.size
  split <;> simp

theorem nodup_successors (g : Graph) (n : Node) : (g.successors n).Nodup :=
  Edge.nodup_targets g.flows.nodup n

theorem nodup_predecessors (g : Graph) (n : Node) : (g.predecessors n).Nodup :=
  Ascending.nodup_of_pairwise (g.sources_ascend n)

theorem outDegree_eq (g : Graph) (n : Node) : g.outDegree n = (g.successors n).length := by
  simp [outDegree, outFlows, successors, Table.keys, List.filter_map, Function.comp_def]

/-- The answer to a call, and the graph that it leaves. -/
abbrev Outcome (α : Type) := Except GraphError α × Graph

/-- The changed graph, unless the call was refused. -/
def Outcome.changed {α : Type} (o : Outcome α) : Except GraphError Graph := o.1.map fun _ => o.2

/-- Add a block; a block that is already there gets the new attributes and keeps its edges. The
answer is the attributes that are replaced. -/
def addBlock (g : Graph) (a : Address) (b : Block) : Option Block × Graph :=
  (g.block? a,
    { toAdjacency := g.toAdjacency
      blocks := g.blocks.insert a b
      hasSink := g.hasSink
      source_mem := fun e he => by
        obtain ⟨x, hx, hmem⟩ := g.source_mem e he
        exact ⟨x, hx, Table.mem_keys_insert.2 (Or.inr hmem)⟩
      target_mem := fun e he => by
        rcases g.target_mem e he with ⟨x, hx, hmem⟩ | h
        · exact Or.inl ⟨x, hx, Table.mem_keys_insert.2 (Or.inr hmem)⟩
        · exact Or.inr h })

/-- A repeated instruction that jumps back to itself is recorded as a direct jump. -/
def flowKind (g : Graph) (source target : Address) (kind : Transfer) : Transfer :=
  if source = target ∧ (g.block? source).any (·.endsWith .rep) then .jumpDirect else kind

/-- Add an observed edge between two blocks; seen again, it takes the new attributes. -/
def addEdge (g : Graph) (source target : Address) (flow : Flow) : Outcome Unit :=
  let e : Edge := ⟨.block source, .block target⟩
  if hs : g.hasBlock source then
    if ht : g.hasBlock target then
      (.ok (),
        { toAdjacency :=
            g.insert e { flow with kind := g.flowKind source target flow.kind }
          blocks := g.blocks
          hasSink := g.hasSink
          source_mem := fun x hx => by
            rcases Table.mem_keys_insert.1 hx with rfl | hx
            · exact ⟨source, rfl, hasBlock_iff.1 hs⟩
            · exact g.source_mem x hx
          target_mem := fun x hx => by
            rcases Table.mem_keys_insert.1 hx with rfl | hx
            · exact Or.inl ⟨target, rfl, hasBlock_iff.1 ht⟩
            · exact g.target_mem x hx })
    else (.error (.danglingEdge e e.target), g)
  else (.error (.danglingEdge e e.source), g)

theorem mem_blocksEnding {g : Graph} {t : Transfer} {a : Address} (h : a ∈ g.blocksEnding t) :
    a ∈ g.blocks.keys := by
  obtain ⟨row, hrow, rfl⟩ := List.mem_map.1 (Ascending.mem_ofList.1 h)
  exact List.mem_map.2 ⟨row, (List.mem_filter.1 hrow).1, rfl⟩

/-- Add the sink and an edge to it from every gate. The answer is the number of gates. -/
def attachSink (g : Graph) : Outcome Nat :=
  if g.hasSink then (.error .sinkAttached, g)
  else
    (.ok g.gates.length,
      { toAdjacency :=
          g.insertAll (g.gates.map fun a => (⟨.block a, .sink⟩, { kind := .syscall }))
        blocks := g.blocks
        hasSink := true
        source_mem := fun e he => by
          rw [Adjacency.flows_insertAll] at he
          rcases Table.mem_keys_insertAll.1 he with h | h
          · simp only [List.map_map, List.mem_map, Function.comp_apply] at h
            obtain ⟨a, ha, rfl⟩ := h
            exact ⟨a, rfl, mem_blocksEnding ha⟩
          · exact g.source_mem e h
        target_mem := fun e he => by
          rw [Adjacency.flows_insertAll] at he
          rcases Table.mem_keys_insertAll.1 he with h | h
          · simp only [List.map_map, List.mem_map, Function.comp_apply] at h
            obtain ⟨a, -, rfl⟩ := h
            exact Or.inr ⟨rfl, rfl⟩
          · rcases g.target_mem e h with h | ⟨h, -⟩
            · exact Or.inl h
            · exact Or.inr ⟨h, rfl⟩ })

end Graph

/-- One statement of a program listing. -/
inductive Declaration where
  | block (addr : Address) (b : Block)
  | edge (source target : Address) (flow : Flow)

/-- An edge that was declared. -/
structure DeclaredEdge where
  source : Address
  target : Address
  flow : Flow

/-- A graph that is being put together. A block is in the graph at once; an edge waits until all
blocks are known. -/
structure GraphBuilder where
  graph : Graph
  /-- The latest edge comes first. -/
  waiting : List DeclaredEdge

namespace GraphBuilder

def empty : GraphBuilder := ⟨.empty, []⟩

def declare (b : GraphBuilder) : Declaration → GraphBuilder
  | .block a attributes => { b with graph := (b.graph.addBlock a attributes).2 }
  | .edge source target flow => { b with waiting := ⟨source, target, flow⟩ :: b.waiting }

end GraphBuilder

namespace Graph

/-- Add a declared edge. -/
def join (g : Graph) (e : DeclaredEdge) : Except GraphError Graph :=
  (g.addEdge e.source e.target e.flow).changed

/-- Add the edges that wait, oldest first, up to the first that is refused. -/
def ofBuilder (b : GraphBuilder) : Except GraphError Graph := b.waiting.reverse.foldlM join b.graph

/-- The graph of a listing. -/
def build (listing : List Declaration) : Except GraphError Graph :=
  ofBuilder (listing.foldl GraphBuilder.declare .empty)

end Graph
end CfiSlack
