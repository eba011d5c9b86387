import R2Sleigh.Flow.DiGraph
import R2Sleigh.Flow.Dfs
import R2Sleigh.Ssa.Var

/-!
Contract: the control-flow graph of a function, built from r2il blocks.

Owns `Consistent`.

`Consistent` does not ask for distinct block addresses. Of several blocks with
one address only the last is in the address map; the others stay in the graph
without edges.
-/

namespace R2Sleigh.Ssa

open Il Flow Lib List Option

/-- How a basic block ends. -/
inductive BlockTerminator where
  | Fallthrough (next : Nat)
  | Branch (target : Nat)
  | ConditionalBranch (trueTarget falseTarget : Nat)
  | IndirectBranch
  | Switch (cases : List (Nat × Nat)) (default : Option Nat)
  | Call (target : Nat) (fallthrough : Option Nat)
  | IndirectCall (fallthrough : Option Nat)
  | Return
  | None
deriving DecidableEq, Repr

structure BasicBlock where
  addr : Nat
  size : Nat
  ops : List R2ILOp
  terminator : BlockTerminator
deriving DecidableEq, Repr

namespace BasicBlock

/-- Constant address of a branch target in the constant or RAM space. -/
def extractConstAddr (vn : Varnode) : Option Nat :=
  match vn.space with
  | .Const | .Ram => some vn.offset
  | _ => none

def controlTerminator (fallthroughAddr : Nat) : R2ILOp → Option BlockTerminator
  | .Branch target =>
    match extractConstAddr target with
    | some addr => some (.Branch addr)
    | none => some .IndirectBranch
  | .CBranch target _ =>
    match extractConstAddr target with
    | some trueTarget => some (.ConditionalBranch trueTarget fallthroughAddr)
    | none => some .IndirectBranch
  | .BranchInd _ => some .IndirectBranch
  | .Call target =>
    match extractConstAddr target with
    | some addr => some (.Call addr (some fallthroughAddr))
    | none => some (.IndirectCall (some fallthroughAddr))
  | .CallInd _ => some (.IndirectCall (some fallthroughAddr))
  | .Return _ => some .Return
  | _ => none

/-- The last control-flow operation decides; without one the block falls
through. -/
def analyzeTerminator (ops : List R2ILOp) (fallthroughAddr : Nat) : BlockTerminator :=
  (ops.reverse.findSome? (controlTerminator fallthroughAddr)).getD (.Fallthrough fallthroughAddr)

/-- `block.addr + block.size` is a `u64` sum. -/
def fromR2il (block : R2ILBlock) : BasicBlock where
  addr := block.addr
  size := block.size
  ops := block.ops
  terminator :=
    match block.switchInfo with
    | some info => .Switch info.cases info.defaultTarget
    | none => analyzeTerminator block.ops ((block.addr + block.size) % 2 ^ 64)

end BasicBlock

inductive CFGEdge where
  | Normal
  | True
  | False
  | Back
deriving DecidableEq, Repr

structure CFG where
  graph : DiGraph BasicBlock CFGEdge
  addrToNode : HashMap Nat Nat
  entry : Nat

namespace CFG

def edgeSortRank : CFGEdge → Nat
  | .True => 0
  | .False => 1
  | .Normal => 2
  | .Back => 3

def new (entry : Nat) : CFG := ⟨.empty, ∅, entry⟩

def addBlock (cfg : CFG) (block : BasicBlock) : CFG :=
  { cfg with
    graph := cfg.graph.addNode block
    addrToNode := cfg.addrToNode.insert block.addr cfg.graph.nodes.length }

def terminatorTargets : BlockTerminator → List (Nat × CFGEdge)
  | .Fallthrough next | .Branch next => [(next, .Normal)]
  | .ConditionalBranch trueTarget falseTarget => [(trueTarget, .True), (falseTarget, .False)]
  | .Call _ fallthrough | .IndirectCall fallthrough =>
    fallthrough.toList.map fun next => (next, .Normal)
  | .Switch cases default =>
    cases.map (fun case => (case.2, .Normal)) ++ default.toList.map fun next => (next, .Normal)
  | .IndirectBranch | .Return | .None => []

/-- One edge to `target`, if the function has a block there. -/
def addEdgeTo (node : Nat) (cfg : CFG) (target : Nat × CFGEdge) : CFG :=
  match cfg.addrToNode.lookup target.1 with
  | none => cfg
  | some index => { cfg with graph := cfg.graph.addEdge node index target.2 }

def getNode (cfg : CFG) (addr : Nat) : Option Nat := cfg.addrToNode.lookup addr

def getBlock (cfg : CFG) (addr : Nat) : Option BasicBlock :=
  (cfg.getNode addr).bind fun index => cfg.graph.nodes[index]?.map DiGraph.Node.weight

def addEdgesForBlock (cfg : CFG) (addr : Nat) : CFG :=
  match cfg.getNode addr with
  | none => cfg
  | some node =>
    match cfg.graph.nodes[node]? with
    | none => cfg
    | some n => (terminatorTargets n.weight.terminator).foldl (addEdgeTo node) cfg

/-- All block addresses in ascending order. -/
def blockAddrs (cfg : CFG) : List Nat := cfg.addrToNode.keys.insertionSort (· ≤ ·)

def fromBlocks (blocks : List R2ILBlock) : Option CFG :=
  match blocks with
  | [] => none
  | first :: _ =>
    let withNodes := blocks.foldl (fun cfg block => cfg.addBlock (.fromR2il block))
      (CFG.new first.addr)
    some (withNodes.blockAddrs.foldl addEdgesForBlock withNodes)

/-- Sources of the edges into a block, ascending, one for each edge. -/
def predecessors (cfg : CFG) (addr : Nat) : List Nat :=
  match cfg.getNode addr with
  | none => []
  | some node =>
    ((cfg.graph.edgesDirected node .Incoming).filterMap fun entry =>
      cfg.graph.nodes[entry.2.source]?.map fun n => n.weight.addr).insertionSort (· ≤ ·)

/-- Order on `(rank, address)` pairs. -/
def rankedLe (x y : Nat × Nat) : Prop := x.1 < y.1 ∨ (x.1 = y.1 ∧ x.2 ≤ y.2)

instance (x y : Nat × Nat) : Decidable (rankedLe x y) := by
  unfold rankedLe
  infer_instance

/-- Targets of the edges out of a block: by kind of edge, then by address. -/
def successors (cfg : CFG) (addr : Nat) : List Nat :=
  match cfg.getNode addr with
  | none => []
  | some node =>
    (((cfg.graph.edgesDirected node .Outgoing).filterMap fun entry =>
      cfg.graph.nodes[entry.2.target]?.map fun n =>
        (edgeSortRank entry.2.weight, n.weight.addr)).insertionSort rankedLe).map Prod.snd

/-- Blocks reachable from the entry in reverse postorder. The source marks
visited blocks by node index, which the address determines. The search recurses
at most once below each block, which bounds the fuel. -/
def reversePostorder (cfg : CFG) : List Nat :=
  match cfg.getNode cfg.entry with
  | none => []
  | some _ => Flow.reversePostorder cfg.successors (cfg.addrToNode.keys.length + 1) cfg.entry

/-! ## Consistency -/

/-- The address map leads to nodes carrying the address, and only such nodes
have edges. -/
structure Consistent (cfg : CFG) : Prop where
  valid : cfg.graph.Valid
  node : ∀ (addr index : Nat), cfg.addrToNode.lookup addr = some index →
    ∃ n, cfg.graph.nodes[index]? = some n ∧ n.weight.addr = addr
  source : ∀ (e : Nat) (edge : DiGraph.Edge CFGEdge), cfg.graph.edges[e]? = some edge →
    ∃ addr, cfg.addrToNode.lookup addr = some edge.source
  target : ∀ (e : Nat) (edge : DiGraph.Edge CFGEdge), cfg.graph.edges[e]? = some edge →
    ∃ addr, cfg.addrToNode.lookup addr = some edge.target

/-- Some edge leads from the block at `p` to the block at `b`. -/
def Edge (cfg : CFG) (p b : Nat) : Prop :=
  ∃ (e : Nat) (edge : DiGraph.Edge CFGEdge), cfg.graph.edges[e]? = some edge ∧
    cfg.addrToNode.lookup p = some edge.source ∧ cfg.addrToNode.lookup b = some edge.target

/-- The control-flow graph as a rooted graph over addresses. -/
def flow (cfg : CFG) : Graph Nat where
  root := cfg.entry
  edge := cfg.Edge

variable {cfg : CFG}

section

variable (consistent : cfg.Consistent)
include consistent

theorem Consistent.lt_length {addr index : Nat}
    (found : cfg.addrToNode.lookup addr = some index) : index < cfg.graph.nodes.length := by
  obtain ⟨n, present, _⟩ := consistent.node addr index found
  exact (List.getElem?_eq_some_iff.mp present).1

theorem Consistent.addr_unique {addr addr' index : Nat}
    (found : cfg.addrToNode.lookup addr = some index)
    (found' : cfg.addrToNode.lookup addr' = some index) : addr = addr' := by
  obtain ⟨n, present, carries⟩ := consistent.node addr index found
  obtain ⟨n', present', carries'⟩ := consistent.node addr' index found'
  rw [present] at present'
  rw [← carries, ← carries', some.inj present']

theorem Consistent.mem_predecessors {p b : Nat} :
    p ∈ cfg.predecessors b ↔ cfg.Edge p b := by
  unfold predecessors getNode
  cases found : cfg.addrToNode.lookup b with
  | none => simp [Edge, found]
  | some node =>
    simp only [mem_insertionSort, mem_filterMap, Prod.exists,
      consistent.valid.mem_edgesDirected (consistent.lt_length found) .Incoming]
    constructor
    · rintro ⟨e, edge, ⟨present, rfl⟩, mapped⟩
      obtain ⟨addr, lookup⟩ := consistent.source e edge present
      obtain ⟨n, atSource, carries⟩ := consistent.node addr _ lookup
      rw [atSource, map_some, Option.some.injEq] at mapped
      rw [← mapped, carries]
      exact ⟨e, edge, present, lookup, found⟩
    · rintro ⟨e, edge, present, lookup, target⟩
      obtain ⟨n, atSource, carries⟩ := consistent.node p _ lookup
      rw [found, Option.some.injEq] at target
      exact ⟨e, edge, ⟨present, target.symm⟩, by rw [atSource, map_some, carries]⟩

theorem Consistent.mem_successors {p b : Nat} :
    b ∈ cfg.successors p ↔ cfg.Edge p b := by
  unfold successors getNode
  cases found : cfg.addrToNode.lookup p with
  | none => simp [Edge, found]
  | some node =>
    simp only [List.mem_map, mem_insertionSort, mem_filterMap, Prod.exists,
      consistent.valid.mem_edgesDirected (consistent.lt_length found) .Outgoing]
    constructor
    · rintro ⟨rank, addr, ⟨e, edge, ⟨present, rfl⟩, mapped⟩, rfl⟩
      obtain ⟨addr', lookup⟩ := consistent.target e edge present
      obtain ⟨n, atTarget, carries⟩ := consistent.node addr' _ lookup
      rw [atTarget, map_some, Option.some.injEq, Prod.mk.injEq] at mapped
      rw [← mapped.2, carries]
      exact ⟨e, edge, present, found, lookup⟩
    · rintro ⟨e, edge, present, source, lookup⟩
      obtain ⟨n, atTarget, carries⟩ := consistent.node b _ lookup
      rw [found, Option.some.injEq] at source
      exact ⟨_, b, ⟨e, edge, ⟨present, source.symm⟩, by
        rw [atTarget, map_some, carries]⟩, rfl⟩

end

theorem Edge.source_mapped {p b : Nat} (edge : cfg.Edge p b) : p ∈ cfg.addrToNode := by
  obtain ⟨_, _, _, lookup, _⟩ := edge
  exact AList.lookup_isSome.mp (by rw [lookup]; rfl)

theorem Edge.target_mapped {p b : Nat} (edge : cfg.Edge p b) : b ∈ cfg.addrToNode := by
  obtain ⟨_, _, _, _, lookup⟩ := edge
  exact AList.lookup_isSome.mp (by rw [lookup]; rfl)

theorem mem_blockAddrs {addr : Nat} : addr ∈ cfg.blockAddrs ↔ addr ∈ cfg.addrToNode := by
  rw [blockAddrs, mem_insertionSort, AList.mem_keys]

section

variable (consistent : cfg.Consistent)
include consistent

theorem Consistent.getBlock_isSome {addr : Nat} :
    (cfg.getBlock addr).isSome ↔ addr ∈ cfg.addrToNode := by
  rw [← AList.lookup_isSome]
  unfold getBlock getNode
  cases found : cfg.addrToNode.lookup addr with
  | none => simp
  | some index =>
    obtain ⟨n, present, _⟩ := consistent.node addr index found
    simp [present]

private theorem Consistent.flow_eq :
    succGraph cfg.successors cfg.entry = cfg.flow := by
  unfold succGraph flow
  congr
  funext p b
  exact propext consistent.mem_successors

theorem Consistent.not_edge_of_nil {b : Nat}
    (empty : cfg.predecessors b = []) (p : Nat) : ¬ cfg.flow.edge p b := by
  intro edge
  have mem := consistent.mem_predecessors.mpr edge
  rw [empty] at mem
  exact absurd mem (not_mem_nil)

theorem Consistent.getBlock_addr {addr : Nat} {block : BasicBlock}
    (found : cfg.getBlock addr = some block) : block.addr = addr := by
  unfold getBlock getNode at found
  rw [bind_eq_some_iff] at found
  obtain ⟨index, mapped, found⟩ := found
  obtain ⟨n, stored, same⟩ := consistent.node addr index mapped
  rw [stored, map_some, Option.some.injEq] at found
  rw [← found]
  exact same

theorem Consistent.isReversePostorder
    (present : cfg.entry ∈ cfg.addrToNode) :
    IsReversePostorder cfg.flow cfg.reversePostorder := by
  have order : cfg.reversePostorder =
      Flow.reversePostorder cfg.successors (cfg.addrToNode.keys.length + 1) cfg.entry := by
    obtain ⟨index, found⟩ := isSome_iff_exists.mp (AList.lookup_isSome.mpr present)
    simp [reversePostorder, getNode, found]
  rw [order, ← consistent.flow_eq]
  refine reversePostorder_isReversePostorder cfg.addrToNode.keys ?_
    (AList.mem_keys.mp present) (Nat.lt_succ_self _)
  intro p _ b successor
  exact AList.mem_keys.mp (consistent.mem_successors.mp successor).target_mapped

end

theorem reach_mapped (present : cfg.entry ∈ cfg.addrToNode) {v : Nat} (reach : cfg.flow.Reach v) :
    v ∈ cfg.addrToNode := by
  obtain ⟨l, path⟩ := reach
  cases path with
  | root => exact present
  | snoc _ edge => exact Edge.target_mapped edge

theorem reversePostorder_eq_nil (absent : cfg.entry ∉ cfg.addrToNode) :
    cfg.reversePostorder = [] := by
  unfold reversePostorder getNode
  rw [AList.lookup_eq_none.mpr absent]

/-! ## Construction keeps consistency -/

theorem new_consistent (entry : Nat) : (CFG.new entry).Consistent where
  valid := DiGraph.empty_valid
  node := by simp [CFG.new]
  source := by simp [CFG.new, DiGraph.empty]
  target := by simp [CFG.new, DiGraph.empty]

theorem Consistent.addBlock (consistent : cfg.Consistent) (noEdges : cfg.graph.edges = [])
    (block : BasicBlock) : (cfg.addBlock block).Consistent where
  valid := consistent.valid.addNode block
  node addr index found := by
    simp only [CFG.addBlock, DiGraph.addNode] at found ⊢
    by_cases here : addr = block.addr
    · subst here
      rw [AList.lookup_insert] at found
      cases found
      exact ⟨⟨block, [], []⟩, by simp, rfl⟩
    · rw [AList.lookup_insert_ne here] at found
      obtain ⟨n, present, carries⟩ := consistent.node addr index found
      refine ⟨n, ?_, carries⟩
      rw [List.getElem?_append_left (consistent.lt_length found)]
      exact present
  source e edge present := by
    simp [CFG.addBlock, DiGraph.addNode, noEdges] at present
  target e edge present := by
    simp [CFG.addBlock, DiGraph.addNode, noEdges] at present

theorem Consistent.addEdgeTo (consistent : cfg.Consistent) {addr node : Nat}
    (found : cfg.addrToNode.lookup addr = some node) (target : Nat × CFGEdge) :
    (CFG.addEdgeTo node cfg target).Consistent := by
  unfold CFG.addEdgeTo
  cases lookup : cfg.addrToNode.lookup target.1 with
  | none => exact consistent
  | some index =>
    refine ⟨consistent.valid.addEdge target.2 (consistent.lt_length found)
      (consistent.lt_length lookup), fun addr' index' found' => ?_,
      fun e edge present => ?_, fun e edge present => ?_⟩
    · obtain ⟨n, present, carries⟩ := consistent.node addr' index' found'
      rw [DiGraph.addEdge_nodes_getElem?, present]
      exact ⟨_, rfl, carries⟩
    · rcases (DiGraph.addEdge_edges_getElem? ..).mp present with old | ⟨_, rfl⟩
      · exact consistent.source e edge old
      · exact ⟨addr, found⟩
    · rcases (DiGraph.addEdge_edges_getElem? ..).mp present with old | ⟨_, rfl⟩
      · exact consistent.target e edge old
      · exact ⟨target.1, lookup⟩

@[simp] theorem addEdgeTo_addrToNode (node : Nat) (cfg : CFG) (target : Nat × CFGEdge) :
    (CFG.addEdgeTo node cfg target).addrToNode = cfg.addrToNode := by
  unfold CFG.addEdgeTo
  cases cfg.addrToNode.lookup target.1 <;> rfl

@[simp] theorem addEdgeTo_entry (node : Nat) (cfg : CFG) (target : Nat × CFGEdge) :
    (CFG.addEdgeTo node cfg target).entry = cfg.entry := by
  unfold CFG.addEdgeTo
  cases cfg.addrToNode.lookup target.1 <;> rfl

theorem Consistent.addEdges (consistent : cfg.Consistent) {addr node : Nat}
    (found : cfg.addrToNode.lookup addr = some node) (targets : List (Nat × CFGEdge)) :
    (targets.foldl (CFG.addEdgeTo node) cfg).Consistent ∧
      (targets.foldl (CFG.addEdgeTo node) cfg).addrToNode = cfg.addrToNode ∧
      (targets.foldl (CFG.addEdgeTo node) cfg).entry = cfg.entry := by
  induction targets generalizing cfg with
  | nil => exact ⟨consistent, rfl, rfl⟩
  | cons target rest ih =>
    have step := ih (consistent.addEdgeTo found target) (by simpa using found)
    simpa using step

theorem Consistent.addEdgesForBlock (consistent : cfg.Consistent) (addr : Nat) :
    (cfg.addEdgesForBlock addr).Consistent ∧
      (cfg.addEdgesForBlock addr).addrToNode = cfg.addrToNode ∧
      (cfg.addEdgesForBlock addr).entry = cfg.entry := by
  unfold CFG.addEdgesForBlock getNode
  cases found : cfg.addrToNode.lookup addr with
  | none => exact ⟨consistent, rfl, rfl⟩
  | some node =>
    dsimp only
    cases cfg.graph.nodes[node]? with
    | none => exact ⟨consistent, rfl, rfl⟩
    | some n => exact consistent.addEdges found _

theorem Consistent.addAllEdges (consistent : cfg.Consistent) (addrs : List Nat) :
    (addrs.foldl CFG.addEdgesForBlock cfg).Consistent ∧
      (addrs.foldl CFG.addEdgesForBlock cfg).addrToNode = cfg.addrToNode ∧
      (addrs.foldl CFG.addEdgesForBlock cfg).entry = cfg.entry := by
  induction addrs generalizing cfg with
  | nil => exact ⟨consistent, rfl, rfl⟩
  | cons addr rest ih =>
    obtain ⟨stepConsistent, stepMap, stepEntry⟩ := consistent.addEdgesForBlock addr
    obtain ⟨restConsistent, restMap, restEntry⟩ := ih stepConsistent
    exact ⟨restConsistent, restMap.trans stepMap, restEntry.trans stepEntry⟩

theorem Consistent.addBlocks (blocks : List R2ILBlock) :
    ∀ {cfg : CFG}, cfg.Consistent → cfg.graph.edges = [] →
      (blocks.foldl (fun cfg block => cfg.addBlock (.fromR2il block)) cfg).Consistent ∧
        (blocks.foldl (fun cfg block => cfg.addBlock (.fromR2il block)) cfg).entry = cfg.entry ∧
        ∀ addr, addr ∈ (blocks.foldl (fun cfg block => cfg.addBlock (.fromR2il block))
          cfg).addrToNode ↔ addr ∈ cfg.addrToNode ∨ addr ∈ blocks.map R2ILBlock.addr := by
  induction blocks with
  | nil => exact fun consistent _ => ⟨consistent, rfl, by simp⟩
  | cons block rest ih =>
    intro cfg consistent noEdges
    obtain ⟨restConsistent, restEntry, restMem⟩ := ih
      (consistent.addBlock noEdges (.fromR2il block)) noEdges
    refine ⟨restConsistent, restEntry, fun addr => ?_⟩
    rw [foldl_cons, restMem]
    simp only [CFG.addBlock, AList.mem_insert, BasicBlock.fromR2il, map_cons, mem_cons]
    tauto

/-- The graph built from blocks is consistent and has a node for each of their addresses. -/
theorem fromBlocks_spec {blocks : List R2ILBlock} {cfg : CFG}
    (built : CFG.fromBlocks blocks = some cfg) :
    cfg.Consistent ∧ cfg.entry ∈ cfg.addrToNode ∧
      (∀ addr, addr ∈ cfg.addrToNode ↔ addr ∈ blocks.map R2ILBlock.addr) := by
  cases blocks with
  | nil => simp [fromBlocks] at built
  | cons first rest =>
    simp only [fromBlocks, Option.some.injEq] at built
    obtain ⟨nodesConsistent, nodesEntry, nodesMem⟩ :=
      Consistent.addBlocks (first :: rest) (new_consistent first.addr) rfl
    obtain ⟨consistent, sameMap, sameEntry⟩ := nodesConsistent.addAllEdges
      ((first :: rest).foldl (fun cfg block => cfg.addBlock (.fromR2il block))
        (CFG.new first.addr)).blockAddrs
    rw [built] at consistent sameMap sameEntry
    have membership : ∀ addr, addr ∈ cfg.addrToNode ↔
        addr ∈ (first :: rest).map R2ILBlock.addr := by
      intro addr
      rw [sameMap, nodesMem]
      simp [CFG.new]
    refine ⟨consistent, ?_, membership⟩
    rw [sameEntry, nodesEntry, membership]
    simp [CFG.new]

theorem fromBlocks_entry {first : R2ILBlock} {rest : List R2ILBlock} {cfg : CFG}
    (built : CFG.fromBlocks (first :: rest) = some cfg) : cfg.entry = first.addr := by
  simp only [fromBlocks, Option.some.injEq] at built
  obtain ⟨nodesConsistent, nodesEntry, _⟩ :=
    Consistent.addBlocks (first :: rest) (new_consistent first.addr) rfl
  obtain ⟨_, _, sameEntry⟩ := nodesConsistent.addAllEdges
    ((first :: rest).foldl (fun cfg block => cfg.addBlock (.fromR2il block))
      (CFG.new first.addr)).blockAddrs
  rw [built] at sameEntry
  exact sameEntry.trans nodesEntry

theorem fromBlocks_cons_eq (first : R2ILBlock) (rest : List R2ILBlock) (default : CFG) :
    CFG.fromBlocks (first :: rest) = some ((CFG.fromBlocks (first :: rest)).getD default) := rfl

end CFG

end R2Sleigh.Ssa
