import R2Sleigh.Flow.Removal
import R2Sleigh.Ssa.Cfg

/-!
Contract: mutation of the control-flow graph.

Owns `removeEdge`, `removeBlock`, `setTerminator` and `Bijective`.
-/

namespace R2Sleigh.Ssa

open Il Flow Lib List

namespace CFG

variable {addr node index k : Nat} {graph : DiGraph BasicBlock CFGEdge} {cfg : CFG}

/-! ## The mutations -/

/-- All edges between two blocks. The loop of the source runs at most once for
each edge of the graph. -/
def removeEdge (cfg : CFG) (source target : Nat) : CFG :=
  match cfg.getNode source, cfg.getNode target with
  | some i, some j => { cfg with graph := cfg.graph.removeBetween i j }
  | _, _ => cfg

def rebuildAddrMap (cfg : CFG) : CFG :=
  { cfg with
    addrToNode := cfg.graph.nodes.zipIdx.foldl
      (fun map entry => map.insert entry.1.weight.addr entry.2) ∅ }

def removeBlock (cfg : CFG) (addr : Nat) : CFG :=
  match cfg.getNode addr with
  | none => cfg
  | some index => rebuildAddrMap { cfg with graph := cfg.graph.removeNode index }

/-- The indices of the edges that leave a block, in adjacency order. -/
def outgoingIds (cfg : CFG) (node : Nat) : List Nat :=
  (cfg.graph.edgesDirected node .Outgoing).map Prod.fst

def writeTerminator (cfg : CFG) (node : Nat) (terminator : BlockTerminator) : CFG :=
  { cfg with
    graph := { cfg.graph with
      nodes := cfg.graph.nodes.modify node fun n =>
        { n with weight := { n.weight with terminator := terminator } } } }

/-- Remove the outgoing edges by the indices they have at the start, then add
those of the new terminator. -/
def setTerminator (cfg : CFG) (addr : Nat) (terminator : BlockTerminator) : CFG :=
  match cfg.getNode addr with
  | none => cfg
  | some node =>
    let cleared := { cfg with graph := cfg.graph.removeListed (cfg.outgoingIds node) }
    (cleared.writeTerminator node terminator).addEdgesForBlock addr

/-- The graph without the outgoing edges of a node. -/
abbrev clearedAt (cfg : CFG) (node : Nat) : CFG :=
  { cfg with graph := cfg.graph.removeListed (cfg.outgoingIds node) }

inductive Mutation where
  | removeEdge (source target : Nat)
  | removeBlock (addr : Nat)
  | setTerminator (addr : Nat) (terminator : BlockTerminator)

def mutate (cfg : CFG) : Mutation → CFG
  | .removeEdge source target => cfg.removeEdge source target
  | .removeBlock addr => cfg.removeBlock addr
  | .setTerminator addr terminator => cfg.setTerminator addr terminator

/-! ## Addresses and nodes -/

/-- The addresses of the nodes, by index. -/
def addrs (cfg : CFG) : List Nat := cfg.graph.nodes.map fun n => n.weight.addr

/-- The address map inverts the list of addresses. -/
structure Bijective (cfg : CFG) : Prop where
  valid : cfg.graph.Valid
  node : ∀ addr index, cfg.addrToNode.lookup addr = some index ↔ cfg.addrs[index]? = some addr

variable {cfg : CFG}

theorem Bijective.mem_iff (bijective : cfg.Bijective) :
    addr ∈ cfg.addrToNode ↔ addr ∈ cfg.addrs := by
  rw [HashMap.mem_iff_exists_lookup, mem_iff_getElem?]
  exact exists_congr fun index => bijective.node addr index

theorem Bijective.nodup (bijective : cfg.Bijective) : cfg.addrs.Nodup := by
  refine nodup_iff_getElem?_ne_getElem?.mpr fun i j less bound same => ?_
  have first := List.getElem?_eq_getElem (Nat.lt_trans less bound)
  have second := List.getElem?_eq_getElem bound
  rw [first, second, Option.some.injEq] at same
  have lookups := (bijective.node _ i).mpr first
  rw [same, (bijective.node _ j).mpr second, Option.some.injEq] at lookups
  exact absurd lookups.symm (Nat.ne_of_lt less)

theorem addrs_of_weights {graph' : DiGraph BasicBlock CFGEdge} {map map' : HashMap Nat Nat}
    {entry entry' : Nat}
    (weights : graph'.nodes.map DiGraph.Node.weight = graph.nodes.map DiGraph.Node.weight) :
    (⟨graph', map', entry'⟩ : CFG).addrs = (⟨graph, map, entry⟩ : CFG).addrs := by
  have mapped := congrArg (List.map BasicBlock.addr) weights
  rw [map_map, map_map] at mapped
  exact mapped

theorem Bijective.addBlock (bijective : cfg.Bijective) {block : BasicBlock}
    (fresh : block.addr ∉ cfg.addrToNode) : (cfg.addBlock block).Bijective := by
  refine ⟨bijective.valid.addNode block, fun addr index => ?_⟩
  have same : (cfg.addBlock block).addrs = cfg.addrs ++ [block.addr] := by
    simp [addrs, CFG.addBlock, DiGraph.addNode]
  have length : cfg.addrs.length = cfg.graph.nodes.length := by simp [addrs]
  rw [same]
  simp only [CFG.addBlock]
  by_cases here : addr = block.addr
  · subst here
    rw [AList.lookup_insert, Option.some.injEq, ← length]
    constructor
    · rintro rfl
      simp
    · intro stored
      by_cases inside : index < cfg.addrs.length
      · rw [List.getElem?_append_left inside] at stored
        exact absurd (bijective.mem_iff.mpr (mem_of_getElem? stored)) fresh
      · have bound := (List.getElem?_eq_some_iff.mp stored).1
        simp at bound
        omega
  · rw [AList.lookup_insert_ne here, bijective.node]
    by_cases inside : index < cfg.addrs.length
    · rw [List.getElem?_append_left inside]
    · rw [List.getElem?_append_right (Nat.le_of_not_lt inside),
        List.getElem?_eq_none (Nat.le_of_not_lt inside)]
      refine iff_of_false (by simp) fun stored => ?_
      have mem := mem_of_getElem? stored
      exact here (mem_singleton.mp mem)

theorem addEdgeTo_addrs (node : Nat) (cfg : CFG) (target : Nat × CFGEdge) :
    (CFG.addEdgeTo node cfg target).addrs = cfg.addrs := by
  unfold CFG.addEdgeTo
  cases cfg.addrToNode.lookup target.1 with
  | none => rfl
  | some index =>
    refine ext_getElem? fun i => ?_
    simp only [addrs, List.getElem?_map, DiGraph.addEdge_nodes_getElem?, Option.map_map]
    rfl

theorem Bijective.addEdgeTo (bijective : cfg.Bijective)
    (found : cfg.addrToNode.lookup addr = some node) (target : Nat × CFGEdge) :
    (CFG.addEdgeTo node cfg target).Bijective := by
  refine ⟨?_, fun addr index => ?_⟩
  · have inRange : ∀ {addr index}, cfg.addrToNode.lookup addr = some index →
        index < cfg.graph.nodes.length := by
      intro addr index lookup
      have bound := (List.getElem?_eq_some_iff.mp ((bijective.node addr index).mp lookup)).1
      simpa [addrs] using bound
    unfold CFG.addEdgeTo
    cases lookup : cfg.addrToNode.lookup target.1 with
    | none => exact bijective.valid
    | some index => exact bijective.valid.addEdge target.2 (inRange found) (inRange lookup)
  · rw [addEdgeTo_addrToNode, addEdgeTo_addrs]
    exact bijective.node addr index

theorem Bijective.addEdges (targets : List (Nat × CFGEdge)) : ∀ {cfg : CFG}, cfg.Bijective →
    ∀ {addr node : Nat}, cfg.addrToNode.lookup addr = some node →
      (targets.foldl (CFG.addEdgeTo node) cfg).Bijective := by
  induction targets with
  | nil => exact fun bijective _ _ _ => bijective
  | cons target rest ih =>
    intro cfg bijective addr node found
    exact ih (bijective.addEdgeTo found target) (by simpa using found)

theorem Bijective.addEdgesForBlock (bijective : cfg.Bijective) (addr : Nat) :
    (cfg.addEdgesForBlock addr).Bijective := by
  unfold CFG.addEdgesForBlock getNode
  cases found : cfg.addrToNode.lookup addr with
  | none => exact bijective
  | some node =>
    dsimp only
    cases cfg.graph.nodes[node]? with
    | none => exact bijective
    | some n => exact .addEdges _ bijective found

theorem new_bijective (entry : Nat) : (CFG.new entry).Bijective :=
  ⟨DiGraph.empty_valid, by simp [CFG.new, addrs, DiGraph.empty]⟩

theorem Bijective.addBlocks (blocks : List R2ILBlock) : ∀ {cfg : CFG}, cfg.Bijective →
    (blocks.map R2ILBlock.addr).Nodup → (∀ block ∈ blocks, block.addr ∉ cfg.addrToNode) →
    (blocks.foldl (fun cfg block => cfg.addBlock (.fromR2il block)) cfg).Bijective := by
  induction blocks with
  | nil => exact fun bijective _ _ => bijective
  | cons block rest ih =>
    intro cfg bijective distinct fresh
    rw [map_cons, nodup_cons] at distinct
    refine ih (bijective.addBlock (fresh block mem_cons_self)) distinct.2 fun other mem => ?_
    simp only [CFG.addBlock, AList.mem_insert, BasicBlock.fromR2il, not_or]
    exact ⟨fun same => distinct.1 (same ▸ mem_map_of_mem mem), fresh other (mem_cons_of_mem _ mem)⟩

theorem Bijective.addAllEdges (list : List Nat) : ∀ {cfg : CFG}, cfg.Bijective →
    (list.foldl CFG.addEdgesForBlock cfg).Bijective := by
  induction list with
  | nil => exact fun bijective => bijective
  | cons addr rest ih =>
    exact fun bijective => ih (bijective.addEdgesForBlock addr)

/-- With distinct addresses it holds of the graph built from blocks. -/
theorem fromBlocks_bijective {blocks : List R2ILBlock} (built : CFG.fromBlocks blocks = some cfg)
    (distinct : (blocks.map R2ILBlock.addr).Nodup) : cfg.Bijective := by
  cases blocks with
  | nil => simp [fromBlocks] at built
  | cons first rest =>
    simp only [fromBlocks, Option.some.injEq] at built
    rw [← built]
    exact .addAllEdges _ (.addBlocks _ (new_bijective first.addr) distinct (by simp [CFG.new]))

/-! ## Mutations keep the bijection -/

theorem Bijective.of_weights (bijective : cfg.Bijective) (valid : graph.Valid)
    (weights : graph.nodes.map DiGraph.Node.weight = cfg.graph.nodes.map DiGraph.Node.weight) :
    ({ cfg with graph := graph } : CFG).Bijective := by
  refine ⟨valid, fun addr index => ?_⟩
  rw [show ({ cfg with graph := graph } : CFG).addrs = cfg.addrs from addrs_of_weights weights]
  exact bijective.node addr index

theorem Bijective.removeEdge (bijective : cfg.Bijective) (source target : Nat) :
    (cfg.removeEdge source target).Bijective := by
  unfold CFG.removeEdge
  split
  next i j _ _ =>
    have keeps := bijective.valid.removeBetween i j
    exact bijective.of_weights keeps.valid keeps.weights
  next => exact bijective

private theorem rebuild_lookup (nodes : List (DiGraph.Node BasicBlock)) :
    ∀ (start : Nat) (map : HashMap Nat Nat), (nodes.map fun n => n.weight.addr).Nodup →
      ∀ addr index, ((nodes.zipIdx start).foldl
        (fun map entry => map.insert entry.1.weight.addr entry.2) map).lookup addr = some index ↔
        (∃ i, (nodes.map fun n => n.weight.addr)[i]? = some addr ∧ index = start + i) ∨
        (addr ∉ (nodes.map fun n => n.weight.addr) ∧ map.lookup addr = some index) := by
  induction nodes with
  | nil => simp
  | cons n rest ih =>
    intro start map nodup addr index
    rw [map_cons, nodup_cons] at nodup
    rw [zipIdx_cons, foldl_cons, ih _ _ nodup.2]
    by_cases here : addr = n.weight.addr
    · subst here
      have absent : ∀ i, (rest.map fun n => n.weight.addr)[i]? ≠ some n.weight.addr :=
        fun i stored => nodup.1 (mem_of_getElem? stored)
      simp only [map_cons, mem_cons, not_true_eq_false, false_and, or_false,
        AList.lookup_insert, Option.some.injEq, nodup.1, not_false_eq_true, true_and, absent,
        exists_false, false_or]
      constructor
      · rintro rfl
        exact ⟨0, by simp⟩
      · rintro ⟨i, stored, rfl⟩
        cases i with
        | zero => rfl
        | succ i => exact absurd (by simpa using stored) (absent i)
    · rw [AList.lookup_insert_ne here]
      simp only [map_cons, mem_cons, here, false_or]
      refine or_congr_left ⟨?_, ?_⟩
      · rintro ⟨i, stored, rfl⟩
        exact ⟨i + 1, by simpa using stored, by omega⟩
      · rintro ⟨i, stored, rfl⟩
        cases i with
        | zero => exact absurd (by simpa using stored.symm) here
        | succ i => exact ⟨i, by simpa using stored, by omega⟩

private theorem rebuildAddrMap_bijective (valid : cfg.graph.Valid)
    (nodup : cfg.addrs.Nodup) : cfg.rebuildAddrMap.Bijective := by
  refine ⟨valid, fun addr index => ?_⟩
  have lookup := rebuild_lookup cfg.graph.nodes 0 ∅ nodup addr index
  refine lookup.trans ?_
  simp only [Nat.zero_add, AList.lookup_empty, reduceCtorEq, and_false, or_false]
  exact ⟨fun ⟨i, stored, same⟩ => same ▸ stored, fun stored => ⟨index, stored, rfl⟩⟩

theorem Bijective.removesNode (bijective : cfg.Bijective) (found : cfg.getNode addr = some index) :
    DiGraph.RemovesNode cfg.graph (cfg.graph.removeNode index) index := by
  refine bijective.valid.removeNode ?_
  have bound := (List.getElem?_eq_some_iff.mp ((bijective.node addr index).mp found)).1
  simpa [addrs] using bound

theorem removeNode_addrs
    (removes : DiGraph.RemovesNode cfg.graph (cfg.graph.removeNode index) index) :
    ({ cfg with graph := cfg.graph.removeNode index } : CFG).addrs =
      DiGraph.swapRemove cfg.addrs index := by
  have mapped := congrArg (List.map BasicBlock.addr) removes.weights
  rw [DiGraph.swapRemove_map, map_map, map_map] at mapped
  exact mapped

theorem Bijective.removeBlock (bijective : cfg.Bijective) (addr : Nat) :
    (cfg.removeBlock addr).Bijective := by
  unfold CFG.removeBlock
  cases found : cfg.getNode addr with
  | none => exact bijective
  | some index =>
    have removes := bijective.removesNode found
    refine rebuildAddrMap_bijective removes.valid ?_
    rw [removeNode_addrs removes]
    have stored := (bijective.node addr index).mp found
    have inside := (List.getElem?_eq_some_iff.mp stored).1
    exact (nodup_cons.mp ((DiGraph.swapRemove_perm cfg.addrs index inside).nodup_iff.mpr
      bijective.nodup)).2

theorem writeTerminator_addrs (cfg : CFG) (node : Nat) (terminator : BlockTerminator) :
    (cfg.writeTerminator node terminator).addrs = cfg.addrs := by
  refine ext_getElem? fun i => ?_
  simp only [addrs, writeTerminator, List.getElem?_map, List.getElem?_modify]
  cases cfg.graph.nodes[i]? with
  | none => rfl
  | some n => by_cases here : node = i <;> simp [here]

private theorem writeTerminator_valid (valid : cfg.graph.Valid) (node : Nat)
    (terminator : BlockTerminator) : (cfg.writeTerminator node terminator).graph.Valid := by
  have inversion : ∀ (i : Nat) (n : DiGraph.Node BasicBlock),
      (cfg.writeTerminator node terminator).graph.nodes[i]? = some n →
      ∃ old, cfg.graph.nodes[i]? = some old ∧ n.outgoing = old.outgoing ∧
        n.incoming = old.incoming := by
    intro i n present
    simp only [writeTerminator, List.getElem?_modify] at present
    cases stored : cfg.graph.nodes[i]? with
    | none => simp [stored] at present
    | some old =>
      rw [stored] at present
      by_cases here : node = i <;> simp [here] at present <;> simp [← present]
  have length : (cfg.writeTerminator node terminator).graph.nodes.length =
      cfg.graph.nodes.length := by simp [writeTerminator]
  refine ⟨fun e edge present => ?_, fun e edge present => ?_, fun i n present => ?_,
    fun i n present => ?_, fun i n present e => ?_, fun i n present e => ?_⟩
  · rw [length]
    exact valid.source_lt e edge present
  · rw [length]
    exact valid.target_lt e edge present
  · obtain ⟨old, stored, same, _⟩ := inversion i n present
    rw [same]
    exact valid.outgoing_nodup i old stored
  · obtain ⟨old, stored, _, same⟩ := inversion i n present
    rw [same]
    exact valid.incoming_nodup i old stored
  · obtain ⟨old, stored, same, _⟩ := inversion i n present
    rw [same]
    exact valid.mem_outgoing i old stored e
  · obtain ⟨old, stored, _, same⟩ := inversion i n present
    rw [same]
    exact valid.mem_incoming i old stored e

section

variable (bijective : cfg.Bijective)
include bijective

theorem Bijective.writeTerminator (node : Nat)
    (terminator : BlockTerminator) : (cfg.writeTerminator node terminator).Bijective := by
  refine ⟨writeTerminator_valid bijective.valid node terminator, fun addr index => ?_⟩
  rw [writeTerminator_addrs]
  exact bijective.node addr index

theorem Bijective.clearOutgoing (ids : List Nat) :
    ({ cfg with graph := cfg.graph.removeListed ids } : CFG).Bijective :=
  bijective.of_weights (bijective.valid.removeListed ids).1 (bijective.valid.removeListed ids).2

theorem Bijective.setTerminator (addr : Nat)
    (terminator : BlockTerminator) : (cfg.setTerminator addr terminator).Bijective := by
  unfold CFG.setTerminator
  cases cfg.getNode addr with
  | none => exact bijective
  | some node =>
    exact ((bijective.clearOutgoing _).writeTerminator node terminator).addEdgesForBlock addr

theorem Bijective.mutate (mutation : Mutation) :
    (cfg.mutate mutation).Bijective := by
  cases mutation with
  | removeEdge source target => exact bijective.removeEdge source target
  | removeBlock addr => exact bijective.removeBlock addr
  | setTerminator addr terminator => exact bijective.setTerminator addr terminator

end

/-- Every run of mutations keeps the correspondence. -/
theorem Bijective.mutateAll (mutations : List Mutation) : ∀ {cfg : CFG}, cfg.Bijective →
    (mutations.foldl CFG.mutate cfg).Bijective := by
  induction mutations with
  | nil => exact fun bijective => bijective
  | cons mutation rest ih =>
    exact fun bijective => ih (bijective.mutate mutation)

/-! ## Arcs -/

def nodeAddr (cfg : CFG) (index : Nat) : Nat := (cfg.addrs[index]?).getD 0

/-- An edge with the addresses of its ends. -/
def arc (cfg : CFG) (edge : DiGraph.Edge CFGEdge) : Nat × Nat × CFGEdge :=
  (cfg.nodeAddr edge.source, cfg.nodeAddr edge.target, edge.weight)

/-- The edges of the graph between addresses. -/
def arcs (cfg : CFG) : List (Nat × Nat × CFGEdge) := cfg.graph.edges.map cfg.arc

theorem Bijective.nodeAddr_eq_iff (bijective : cfg.Bijective)
    (found : cfg.getNode addr = some index) (inside : k < cfg.graph.nodes.length) :
    cfg.nodeAddr k = addr ↔ k = index := by
  have bound : k < cfg.addrs.length := by simpa [addrs] using inside
  have stored := List.getElem?_eq_getElem bound
  rw [nodeAddr, stored, Option.getD_some]
  constructor
  · rintro rfl
    have lookup := (bijective.node _ k).mpr stored
    rw [show cfg.getNode cfg.addrs[k] = some k from lookup, Option.some.injEq] at found
    exact found
  · rintro rfl
    have known := (bijective.node addr k).mp found
    rw [stored, Option.some.injEq] at known
    exact known

theorem Bijective.nodeAddr_mem (bijective : cfg.Bijective)
    (inside : k < cfg.graph.nodes.length) : cfg.getNode (cfg.nodeAddr k) = some k := by
  have bound : k < cfg.addrs.length := by simpa [addrs] using inside
  have stored := List.getElem?_eq_getElem bound
  rw [nodeAddr, stored, Option.getD_some]
  exact (bijective.node _ k).mpr stored

theorem Bijective.mem_arcs (bijective : cfg.Bijective) {p b : Nat} {kind : CFGEdge}
    (mem : (p, b, kind) ∈ cfg.arcs) : p ∈ cfg.addrToNode ∧ b ∈ cfg.addrToNode := by
  obtain ⟨edge, stored, same⟩ := mem_map.mp mem
  obtain ⟨e, position⟩ := mem_iff_getElem?.mp stored
  obtain ⟨rfl, rfl, rfl⟩ := same
  refine ⟨?_, ?_⟩
  · exact HashMap.mem_iff_exists_lookup.mpr
      ⟨_, bijective.nodeAddr_mem (bijective.valid.source_lt e edge position)⟩
  · exact HashMap.mem_iff_exists_lookup.mpr
      ⟨_, bijective.nodeAddr_mem (bijective.valid.target_lt e edge position)⟩

private theorem arcs_of_filter {cfg' : CFG} (addrs : cfg'.addrs = cfg.addrs)
    {keep : DiGraph.Edge CFGEdge → Bool} {keepArc : Nat × Nat × CFGEdge → Bool}
    (edges : cfg'.graph.edges.Perm (cfg.graph.edges.filter keep))
    (same : ∀ edge ∈ cfg.graph.edges, keep edge = keepArc (cfg.arc edge)) :
    cfg'.arcs.Perm (cfg.arcs.filter keepArc) := by
  have sameArc : cfg'.arc = cfg.arc := by
    funext edge
    simp only [arc, nodeAddr, addrs]
  have selected : cfg.graph.edges.filter keep = cfg.graph.edges.filter (keepArc ∘ cfg.arc) :=
    filter_congr same
  unfold arcs
  rw [sameArc, filter_map, ← selected]
  exact edges.map _

theorem Bijective.removeEdge_arcs (bijective : cfg.Bijective) (source target : Nat) :
    (cfg.removeEdge source target).arcs.Perm
      (cfg.arcs.filter fun arc => !(arc.1 == source && arc.2.1 == target)) := by
  have absent : source ∉ cfg.addrToNode ∨ target ∉ cfg.addrToNode →
      cfg.arcs.filter (fun arc => !(arc.1 == source && arc.2.1 == target)) = cfg.arcs := by
    intro missing
    rw [filter_eq_self]
    rintro ⟨p, b, kind⟩ mem
    obtain ⟨first, second⟩ := bijective.mem_arcs mem
    by_contra both
    simp only [Bool.not_eq_true, Bool.not_eq_false', Bool.and_eq_true, beq_iff_eq] at both
    obtain ⟨rfl, rfl⟩ := both
    exact missing.elim (· first) (· second)
  unfold CFG.removeEdge
  split
  next i j foundSource foundTarget =>
    have keeps := bijective.valid.removeBetween i j
    refine arcs_of_filter (addrs_of_weights keeps.weights) keeps.edges fun edge mem => ?_
    obtain ⟨e, stored⟩ := mem_iff_getElem?.mp mem
    have isSource := bijective.nodeAddr_eq_iff foundSource (bijective.valid.source_lt e edge stored)
    have isTarget := bijective.nodeAddr_eq_iff foundTarget (bijective.valid.target_lt e edge stored)
    rw [Bool.eq_iff_iff]
    simp only [arc, Bool.not_eq_true', Bool.and_eq_false_iff, beq_eq_false_iff_ne, ne_eq, isSource,
      isTarget]
  next missing =>
    rw [absent]
    by_contra both
    rw [not_or, not_not, not_not] at both
    obtain ⟨i, first⟩ := HashMap.mem_iff_exists_lookup.mp both.1
    obtain ⟨j, second⟩ := HashMap.mem_iff_exists_lookup.mp both.2
    exact missing i j first second

theorem nodeAddr_renumber
    {map : HashMap Nat Nat} {entry : Nat} (inside : index < cfg.graph.nodes.length)
    (addrs : (⟨graph, map, entry⟩ : CFG).addrs = DiGraph.swapRemove cfg.addrs index)
    (other : k ≠ index) (bound : k < cfg.graph.nodes.length) :
    (⟨graph, map, entry⟩ : CFG).nodeAddr
      (DiGraph.renumber (cfg.graph.nodes.length - 1) index k) = cfg.nodeAddr k := by
  have length : cfg.addrs.length = cfg.graph.nodes.length := by simp [CFG.addrs]
  unfold nodeAddr
  rw [addrs, DiGraph.swapRemove_getElem? _ _ _ (by rw [length]; exact inside), length]
  unfold DiGraph.renumber
  by_cases isLast : k = cfg.graph.nodes.length - 1
  · rw [if_pos isLast, if_pos (by omega), if_pos rfl, isLast]
  · rw [if_neg isLast, if_pos (by omega), if_neg other]

theorem Bijective.removeBlock_arcs (bijective : cfg.Bijective) (addr : Nat) :
    (cfg.removeBlock addr).arcs.Perm
      (cfg.arcs.filter fun arc => !(arc.1 == addr) && !(arc.2.1 == addr)) := by
  unfold CFG.removeBlock
  cases found : cfg.getNode addr with
  | none =>
    rw [filter_eq_self.mpr]
    rintro ⟨p, b, kind⟩ mem
    have absent : addr ∉ cfg.addrToNode := AList.lookup_eq_none.mp found
    obtain ⟨first, second⟩ := bijective.mem_arcs mem
    simp only [Bool.and_eq_true, Bool.not_eq_true', beq_eq_false_iff_ne]
    exact ⟨fun same => absent (same ▸ first), fun same => absent (same ▸ second)⟩
  | some index =>
    have removes := bijective.removesNode found
    have stored := (bijective.node addr index).mp found
    have inside : index < cfg.graph.nodes.length := by
      simpa [addrs] using (List.getElem?_eq_some_iff.mp stored).1
    have selected : cfg.arcs.filter (fun arc => !(arc.1 == addr) && !(arc.2.1 == addr)) =
        (cfg.graph.edges.filter fun edge =>
          !(edge.source == index) && !(edge.target == index)).map cfg.arc := by
      unfold arcs
      rw [filter_map]
      congr 1
      refine filter_congr fun edge mem => ?_
      obtain ⟨e, position⟩ := mem_iff_getElem?.mp mem
      have isSource := bijective.nodeAddr_eq_iff found (bijective.valid.source_lt e edge position)
      have isTarget := bijective.nodeAddr_eq_iff found (bijective.valid.target_lt e edge position)
      rw [Bool.eq_iff_iff]
      simp only [Function.comp_apply, arc, Bool.and_eq_true, Bool.not_eq_true',
        beq_eq_false_iff_ne, ne_eq, isSource, isTarget]
    rw [selected]
    refine (removes.edges.map _).trans ?_
    rw [map_map]
    refine List.Perm.of_eq (map_congr_left fun edge mem => ?_)
    obtain ⟨kept, ends⟩ := mem_filter.mp mem
    simp only [Bool.and_eq_true, Bool.not_eq_true', beq_eq_false_iff_ne] at ends
    obtain ⟨e, position⟩ := mem_iff_getElem?.mp kept
    have addrsEq := removeNode_addrs removes
    simp only [Function.comp_apply, arc, DiGraph.relabel]
    rw [show (rebuildAddrMap { cfg with graph := cfg.graph.removeNode index }).nodeAddr =
      ({ cfg with graph := cfg.graph.removeNode index } : CFG).nodeAddr from rfl,
      nodeAddr_renumber inside addrsEq ends.1 (bijective.valid.source_lt e edge position),
      nodeAddr_renumber inside addrsEq ends.2 (bijective.valid.target_lt e edge position)]

def presentTargets (cfg : CFG) (terminator : BlockTerminator) : List (Nat × CFGEdge) :=
  (terminatorTargets terminator).filter fun target => (cfg.addrToNode.lookup target.1).isSome

private theorem Bijective.addEdgeTo_arcs (bijective : cfg.Bijective)
    (found : cfg.getNode addr = some node) (target : Nat × CFGEdge) :
    (CFG.addEdgeTo node cfg target).arcs = cfg.arcs ++
      if (cfg.addrToNode.lookup target.1).isSome then [(addr, target)] else [] := by
  have sameAddrs := addEdgeTo_addrs node cfg target
  have sameArc : (CFG.addEdgeTo node cfg target).arc = cfg.arc := by
    funext edge
    simp only [arc, nodeAddr, sameAddrs]
  have stored := (bijective.node addr node).mp found
  unfold arcs
  rw [sameArc]
  unfold CFG.addEdgeTo
  cases lookup : cfg.addrToNode.lookup target.1 with
  | none => simp
  | some index =>
    have storedTarget := (bijective.node target.1 index).mp lookup
    simp [DiGraph.addEdge, arc, nodeAddr, stored, storedTarget]

private theorem Bijective.addEdges_arcs (targets : List (Nat × CFGEdge)) : ∀ {cfg : CFG},
    cfg.Bijective → ∀ {addr node : Nat}, cfg.getNode addr = some node →
      (targets.foldl (CFG.addEdgeTo node) cfg).arcs = cfg.arcs ++
        (targets.filter fun target => (cfg.addrToNode.lookup target.1).isSome).map
          fun target => (addr, target) := by
  induction targets with
  | nil => simp
  | cons target rest ih =>
    intro cfg bijective addr node found
    have next := bijective.addEdgeTo found target
    rw [foldl_cons, ih next (by simpa [getNode] using found),
      bijective.addEdgeTo_arcs found target, addEdgeTo_addrToNode, append_assoc]
    rw [filter_cons]
    split <;> simp

theorem Bijective.addEdgesForBlock_arcs (bijective : cfg.Bijective)
    (found : cfg.getNode addr = some node) {n : DiGraph.Node BasicBlock}
    (stored : cfg.graph.nodes[node]? = some n) :
    (cfg.addEdgesForBlock addr).arcs = cfg.arcs ++
      (cfg.presentTargets n.weight.terminator).map fun target => (addr, target) := by
  unfold CFG.addEdgesForBlock
  rw [found]
  dsimp only
  rw [stored]
  exact Bijective.addEdges_arcs _ bijective found

/-- Writing the terminator and adding its edges, after outgoing edges are gone. -/
theorem Bijective.setTerminator_arcs (bijective : cfg.Bijective)
    (found : cfg.getNode addr = some node) (terminator : BlockTerminator) :
    (cfg.setTerminator addr terminator).arcs =
      (cfg.clearedAt node).arcs ++
        (cfg.presentTargets terminator).map fun target => (addr, target) := by
  unfold CFG.setTerminator
  rw [found]
  change (((cfg.clearedAt node).writeTerminator node terminator).addEdgesForBlock addr).arcs = _
  obtain ⟨cleared, isCleared⟩ : ∃ cleared, cleared = cfg.clearedAt node := ⟨_, rfl⟩
  have clearedBijective : cleared.Bijective := by
    rw [isCleared]
    exact bijective.clearOutgoing _
  have sameMap : cleared.addrToNode = cfg.addrToNode := by rw [isCleared]
  rw [← isCleared]
  have foundAfter : (cleared.writeTerminator node terminator).getNode addr = some node := by
    simpa [getNode, CFG.writeTerminator, sameMap] using found
  have inside : node < cleared.graph.nodes.length := by
    have bound := (List.getElem?_eq_some_iff.mp ((clearedBijective.node addr node).mp
      (by rw [sameMap]; exact found))).1
    simpa [addrs] using bound
  have written : (cleared.writeTerminator node terminator).graph.nodes[node]? = some
      { cleared.graph.nodes[node] with
        weight := { cleared.graph.nodes[node].weight with terminator := terminator } } := by
    simp [CFG.writeTerminator, List.getElem?_eq_getElem inside]
  rw [(clearedBijective.writeTerminator node terminator).addEdgesForBlock_arcs foundAfter written]
  congr 1
  · unfold arcs
    refine map_congr_left fun edge _ => ?_
    simp only [arc, nodeAddr, writeTerminator_addrs]
  · unfold presentTargets
    rw [show (cleared.writeTerminator node terminator).addrToNode = cfg.addrToNode from sameMap]

/-! ## Queries -/

/-- The edges that leave a block, with their targets. -/
def outgoing (cfg : CFG) (addr : Nat) : List (Nat × CFGEdge) :=
  match cfg.getNode addr with
  | none => []
  | some node => (cfg.graph.edgesDirected node .Outgoing).filterMap fun entry =>
    cfg.graph.nodes[entry.2.target]?.map fun n => (n.weight.addr, entry.2.weight)

section

variable (bijective : cfg.Bijective)
include bijective

theorem Bijective.lt_length
    (found : cfg.getNode addr = some node) : node < cfg.graph.nodes.length := by
  simpa [addrs] using (List.getElem?_eq_some_iff.mp ((bijective.node addr node).mp found)).1

theorem Bijective.filterMap_edgesDirected
    (found : cfg.getNode addr = some node) (direction : DiGraph.Direction)
    (other : DiGraph.Edge CFGEdge → Nat)
    (otherLt : ∀ (e : Nat) (edge : DiGraph.Edge CFGEdge), cfg.graph.edges[e]? = some edge →
      other edge < cfg.graph.nodes.length) {α : Type} (read : Nat → CFGEdge → α) :
    ((cfg.graph.edgesDirected node direction).filterMap fun entry =>
      cfg.graph.nodes[other entry.2]?.map fun n => read n.weight.addr entry.2.weight).Perm
    ((cfg.graph.edges.filter fun edge => cfg.nodeAddr (DiGraph.endpoint direction edge) == addr).map
      fun edge => read (cfg.nodeAddr (other edge)) edge.weight) := by
  have inside := bijective.lt_length found
  have total : (cfg.graph.edgesDirected node direction).filterMap (fun entry =>
      cfg.graph.nodes[other entry.2]?.map fun n => read n.weight.addr entry.2.weight) =
      ((cfg.graph.edgesDirected node direction).map Prod.snd).map
        fun edge => read (cfg.nodeAddr (other edge)) edge.weight := by
    rw [map_map, ← filterMap_eq_map]
    refine filterMap_congr fun entry mem => ?_
    obtain ⟨stored, _⟩ := (bijective.valid.mem_edgesDirected inside direction _ _).mp mem
    have bound := otherLt _ _ stored
    simp [List.getElem?_eq_getElem bound, nodeAddr, addrs]
  rw [total]
  have selected : (cfg.graph.edges.filter fun edge => DiGraph.endpoint direction edge == node) =
      cfg.graph.edges.filter fun edge =>
        cfg.nodeAddr (DiGraph.endpoint direction edge) == addr := by
    refine filter_congr fun edge mem => ?_
    obtain ⟨e, stored⟩ := mem_iff_getElem?.mp mem
    rw [Bool.eq_iff_iff, beq_iff_eq, beq_iff_eq,
      bijective.nodeAddr_eq_iff found (bijective.valid.endpoint_lt stored direction)]
  rw [← selected]
  exact (bijective.valid.edgesDirected_perm inside direction).map _

theorem Bijective.arcs_absent (absent : cfg.getNode addr = none) :
    (cfg.arcs.filter fun arc => arc.1 == addr) = [] ∧
      (cfg.arcs.filter fun arc => arc.2.1 == addr) = [] := by
  have missing : addr ∉ cfg.addrToNode := AList.lookup_eq_none.mp absent
  refine ⟨filter_eq_nil_iff.mpr ?_, filter_eq_nil_iff.mpr ?_⟩
  · rintro ⟨p, b, kind⟩ mem isSource
    exact missing (beq_iff_eq.mp isSource ▸ (bijective.mem_arcs mem).1)
  · rintro ⟨p, b, kind⟩ mem isTarget
    exact missing (beq_iff_eq.mp isTarget ▸ (bijective.mem_arcs mem).2)

private theorem Bijective.outgoing_perm (addr : Nat) :
    (cfg.outgoing addr).Perm ((cfg.arcs.filter fun arc => arc.1 == addr).map Prod.snd) := by
  unfold outgoing
  cases found : cfg.getNode addr with
  | none =>
    rw [(bijective.arcs_absent found).1]
    exact .refl _
  | some node =>
    refine (bijective.filterMap_edgesDirected found .Outgoing _ bijective.valid.target_lt
      Prod.mk).trans ?_
    unfold arcs
    rw [filter_map, map_map]
    exact .refl _

theorem Bijective.successors_perm (addr : Nat) :
    (cfg.successors addr).Perm
      ((cfg.arcs.filter fun arc => arc.1 == addr).map fun arc => arc.2.1) := by
  unfold successors
  cases found : cfg.getNode addr with
  | none =>
    rw [(bijective.arcs_absent found).1]
    exact .refl _
  | some node =>
    refine (((perm_insertionSort _ _).map Prod.snd).trans
      ((bijective.filterMap_edgesDirected found .Outgoing _ bijective.valid.target_lt
        fun target kind => (edgeSortRank kind, target)).map Prod.snd)).trans ?_
    unfold arcs
    rw [filter_map, map_map, map_map]
    exact .refl _

theorem Bijective.predecessors_perm (addr : Nat) :
    (cfg.predecessors addr).Perm
      ((cfg.arcs.filter fun arc => arc.2.1 == addr).map fun arc => arc.1) := by
  unfold predecessors
  cases found : cfg.getNode addr with
  | none =>
    rw [(bijective.arcs_absent found).2]
    exact .refl _
  | some node =>
    refine ((perm_insertionSort _ _).trans
      (bijective.filterMap_edgesDirected found .Incoming _ bijective.valid.source_lt
        fun source _ => source)).trans ?_
    unfold arcs
    rw [filter_map, map_map]
    exact .refl _

/-! ## Runs of mutations -/

theorem Bijective.mem_removeBlock (addr other : Nat) :
    other ∈ (cfg.removeBlock addr).addrToNode ↔ other ∈ cfg.addrToNode ∧ other ≠ addr := by
  unfold CFG.removeBlock
  cases found : cfg.getNode addr with
  | none =>
    have absent : addr ∉ cfg.addrToNode := AList.lookup_eq_none.mp found
    exact ⟨fun present => ⟨present, fun same => absent (same ▸ present)⟩, And.left⟩
  | some index =>
    have after := bijective.removeBlock addr
    unfold CFG.removeBlock at after
    rw [found] at after
    have stored := (bijective.node addr index).mp found
    obtain ⟨inside, here⟩ := List.getElem?_eq_some_iff.mp stored
    have perm := DiGraph.swapRemove_perm cfg.addrs index inside
    have nodup := perm.nodup_iff.mpr bijective.nodup
    rw [here] at perm nodup
    rw [after.mem_iff, bijective.mem_iff, ← perm.mem_iff, mem_cons,
      show (rebuildAddrMap { cfg with graph := cfg.graph.removeNode index }).addrs =
        ({ cfg with graph := cfg.graph.removeNode index } : CFG).addrs from rfl,
      removeNode_addrs (bijective.removesNode found)]
    constructor
    · intro mem
      exact ⟨.inr mem, fun same => (nodup_cons.mp nodup).1 (same ▸ mem)⟩
    · rintro ⟨same | mem, different⟩
      · exact absurd same different
      · exact mem

end

theorem removeEdge_addrToNode (cfg : CFG) (source target : Nat) :
    (cfg.removeEdge source target).addrToNode = cfg.addrToNode := by
  unfold CFG.removeEdge
  split <;> rfl

private theorem addEdges_addrToNode (node : Nat) (targets : List (Nat × CFGEdge)) : ∀ cfg : CFG,
    (targets.foldl (CFG.addEdgeTo node) cfg).addrToNode = cfg.addrToNode :=
  foldl_kept CFG.addrToNode fun _ _ _ => addEdgeTo_addrToNode ..

theorem addEdgesForBlock_addrToNode (cfg : CFG) (addr : Nat) :
    (cfg.addEdgesForBlock addr).addrToNode = cfg.addrToNode := by
  unfold CFG.addEdgesForBlock
  cases cfg.getNode addr with
  | none => rfl
  | some node =>
    dsimp only
    cases cfg.graph.nodes[node]? with
    | none => rfl
    | some n => exact addEdges_addrToNode node _ cfg

theorem setTerminator_addrToNode (cfg : CFG) (addr : Nat) (terminator : BlockTerminator) :
    (cfg.setTerminator addr terminator).addrToNode = cfg.addrToNode := by
  unfold CFG.setTerminator
  cases cfg.getNode addr with
  | none => rfl
  | some node => exact addEdgesForBlock_addrToNode _ addr

private theorem Bijective.mem_mutateAll (mutations : List Mutation) : ∀ {cfg : CFG}, cfg.Bijective →
    ∀ addr, addr ∈ (mutations.foldl CFG.mutate cfg).addrToNode ↔
      addr ∈ cfg.addrToNode ∧ Mutation.removeBlock addr ∉ mutations := by
  induction mutations with
  | nil => simp
  | cons mutation rest ih =>
    intro cfg bijective addr
    rw [foldl_cons, ih (bijective.mutate mutation)]
    cases mutation with
    | removeEdge source target => simp [CFG.mutate, removeEdge_addrToNode]
    | setTerminator other terminator => simp [CFG.mutate, setTerminator_addrToNode]
    | removeBlock other =>
      rw [CFG.mutate, bijective.mem_removeBlock]
      simp only [mem_cons, Mutation.removeBlock.injEq, not_or]
      tauto

/-- Before its turn no outgoing edge of the block has become the last edge: the
indices collected from the adjacency list stay those of the edges. -/
def ClearsInOrder (cfg : CFG) (addr : Nat) : Prop :=
  ∀ node, cfg.getNode addr = some node → ∀ j id, (cfg.outgoingIds node)[j]? = some id →
    id + j < cfg.graph.edges.length

section

variable (bijective : cfg.Bijective) (found : cfg.getNode addr = some node)
include bijective found

theorem Bijective.outgoingIds_exact : (cfg.outgoingIds node).Nodup ∧
      ∀ i, i ∈ cfg.outgoingIds node ↔
        ∃ edge, cfg.graph.edges[i]? = some edge ∧ edge.source = node := by
  have inside := bijective.lt_length found
  have here : cfg.graph.nodes[node]? = some cfg.graph.nodes[node] := List.getElem?_eq_getElem inside
  have total : cfg.outgoingIds node = cfg.graph.nodes[node].outgoing := by
    unfold outgoingIds DiGraph.edgesDirected
    rw [here]
    rw [map_filterMap]
    refine (filterMap_congr fun e mem => ?_).trans filterMap_some
    obtain ⟨edge, stored, _⟩ := (bijective.valid.mem_outgoing node _ here e).mp mem
    simp [stored]
  rw [total]
  exact ⟨bijective.valid.outgoing_nodup node _ here, bijective.valid.mem_outgoing node _ here⟩

theorem Bijective.cleared_iff :
    ((cfg.clearedAt node).arcs.filter fun arc => arc.1 == addr) = [] ↔ cfg.ClearsInOrder addr := by
  obtain ⟨nodup, exact⟩ := bijective.outgoingIds_exact found
  have clears := DiGraph.removeListed_clears_iff (cfg.outgoingIds node) cfg.graph nodup exact
  have after := bijective.clearOutgoing (cfg.outgoingIds node)
  have conditions : cfg.ClearsInOrder addr ↔
      ∀ j id, (cfg.outgoingIds node)[j]? = some id → id + j < cfg.graph.edges.length := by
    unfold ClearsInOrder
    rw [found]
    simp
  rw [conditions, ← clears]
  unfold arcs
  rw [filter_map, map_eq_nil_iff, filter_eq_nil_iff]
  refine forall₂_congr fun edge mem => ?_
  obtain ⟨e, stored⟩ := mem_iff_getElem?.mp mem
  have isSource := after.nodeAddr_eq_iff
    (show (cfg.clearedAt node).getNode addr = some node from found)
    (after.valid.source_lt e edge stored)
  simp only [Function.comp_apply, arc, beq_iff_eq, isSource, ne_eq]

private theorem Bijective.setTerminator_outgoing
    (terminator : BlockTerminator) :
    ((cfg.setTerminator addr terminator).outgoing addr).Perm (cfg.presentTargets terminator) ↔
      cfg.ClearsInOrder addr := by
  have after := (bijective.setTerminator addr terminator).outgoing_perm addr
  rw [bijective.setTerminator_arcs found, filter_append, map_append] at after
  have added : (((cfg.presentTargets terminator).map fun target => (addr, target)).filter
      fun arc => arc.1 == addr).map Prod.snd = cfg.presentTargets terminator := by
    rw [filter_eq_self.mpr, map_map]
    · exact map_id _
    · intro arc mem
      obtain ⟨target, _, rfl⟩ := mem_map.mp mem
      simp
  rw [added] at after
  rw [← bijective.cleared_iff found]
  constructor
  · intro exact
    have lengths := (after.symm.trans exact).length_eq
    rw [length_append] at lengths
    have none : (List.map Prod.snd (List.filter (fun arc => arc.1 == addr)
      (cfg.clearedAt node).arcs)).length = 0 := by omega
    exact map_eq_nil_iff.mp (eq_nil_of_length_eq_zero none)
  · intro none
    rwa [none] at after

end

/-- Mutation keeps the address map and the nodes in bijection, for every run of
mutations of a graph built from blocks with distinct addresses; and after a new
terminator is set, the outgoing edges are exactly those of its targets in the
graph if and only if the old edges are cleared in order. -/
theorem mutations_consistent (blocks : List R2ILBlock) (cfg : CFG)
    (built : CFG.fromBlocks blocks = some cfg) (distinct : (blocks.map R2ILBlock.addr).Nodup)
    (mutations : List Mutation) :
    (∀ addr index, (mutations.foldl CFG.mutate cfg).addrToNode.lookup addr = some index ↔
      ∃ n, (mutations.foldl CFG.mutate cfg).graph.nodes[index]? = some n ∧ n.weight.addr = addr) ∧
    (∀ addr, addr ∈ (mutations.foldl CFG.mutate cfg).addrToNode ↔
      addr ∈ blocks.map R2ILBlock.addr ∧ Mutation.removeBlock addr ∉ mutations) ∧
    ∀ addr terminator, addr ∈ (mutations.foldl CFG.mutate cfg).addrToNode →
      ((((mutations.foldl CFG.mutate cfg).setTerminator addr terminator).outgoing addr).Perm
        ((mutations.foldl CFG.mutate cfg).presentTargets terminator) ↔
      (mutations.foldl CFG.mutate cfg).ClearsInOrder addr) := by
  have start := fromBlocks_bijective built distinct
  have bijective := Bijective.mutateAll mutations start
  refine ⟨fun addr index => ?_, fun addr => ?_, fun addr terminator present => ?_⟩
  · rw [bijective.node, addrs, List.getElem?_map, Option.map_eq_some_iff]
  · rw [Bijective.mem_mutateAll mutations start, (fromBlocks_spec built).2.2]
  · obtain ⟨node, found⟩ := HashMap.mem_iff_exists_lookup.mp present
    exact bijective.setTerminator_outgoing found terminator

/-- A jump to a conditional branch that is the last block with edges. -/
def lateBranch : List R2ILBlock :=
  [⟨4096, 4, [.Branch ⟨.Const, 4100, 8⟩], none⟩,
   ⟨4100, 4, [.CBranch ⟨.Const, 4096, 8⟩ ⟨.Register, 8, 1⟩], none⟩,
   ⟨4104, 4, [.Return ⟨.Register, 16, 8⟩], none⟩]

theorem mutations_consistent_lateBranch :
    ∃ cfg, CFG.fromBlocks lateBranch = some cfg ∧ (lateBranch.map R2ILBlock.addr).Nodup ∧
      (∀ addr, addr ∈ (cfg.removeBlock 4104).addrToNode ↔
        addr ∈ lateBranch.map R2ILBlock.addr ∧
          Mutation.removeBlock addr ∉ [Mutation.removeBlock 4104]) ∧
      ((((cfg.removeBlock 4104).setTerminator 4100 (.Branch 4096)).outgoing 4100).Perm
        ((cfg.removeBlock 4104).presentTargets (.Branch 4096)) ↔
          (cfg.removeBlock 4104).ClearsInOrder 4100) := by
  have built : CFG.fromBlocks lateBranch = some ((CFG.fromBlocks lateBranch).getD (.new 0)) :=
    CFG.fromBlocks_cons_eq _ _ _
  have run := mutations_consistent lateBranch _ built (by decide) [.removeBlock 4104]
  exact ⟨_, built, by decide, run.2.1, run.2.2 4100 (.Branch 4096)
    ((run.2.1 4100).mpr (by simp [lateBranch]))⟩

/-- After the jump is removed, the edges of the branch are listed in ascending
order, and the second one moves to the index of the first. -/
theorem lateBranch_not_cleared :
    ∃ cfg, CFG.fromBlocks lateBranch = some cfg ∧
      ¬ (((cfg.removeEdge 4096 4100).setTerminator 4100 .Return).outgoing 4100).Perm
        ((cfg.removeEdge 4096 4100).presentTargets .Return) := by
  decide +kernel

end CFG

end R2Sleigh.Ssa
