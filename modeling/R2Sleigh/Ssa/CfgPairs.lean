import R2Sleigh.Ssa.CfgEdges
import R2Sleigh.Ssa.CfgMutation

/-!
Contract: the edges of a control-flow graph as a list of address pairs.

Owns `pairs`.

A new terminator is described for blocks with at most one outgoing edge, whose
index cannot have become stale.
-/

namespace R2Sleigh.Ssa

open Il Flow Lib List

namespace CFG

variable {cfg : CFG}

/-- Source and target of every edge. -/
def pairs (cfg : CFG) : List (Nat × Nat) := cfg.arcs.map fun arc => (arc.1, arc.2.1)

theorem Bijective.consistent (bijective : cfg.Bijective) : cfg.Consistent where
  valid := bijective.valid
  node addr index found := by
    have stored := (bijective.node addr index).mp found
    rw [addrs, List.getElem?_map, Option.map_eq_some_iff] at stored
    exact stored
  source e edge stored := ⟨_, bijective.nodeAddr_mem (bijective.valid.source_lt e edge stored)⟩
  target e edge stored := ⟨_, bijective.nodeAddr_mem (bijective.valid.target_lt e edge stored)⟩

theorem Bijective.mem_pairs (bijective : cfg.Bijective) {p b : Nat} :
    (p, b) ∈ cfg.pairs ↔ cfg.Edge p b := by
  rw [← bijective.consistent.mem_successors, (bijective.successors_perm p).mem_iff]
  simp only [pairs, mem_map, mem_filter, beq_iff_eq, Prod.mk.injEq]
  constructor
  · rintro ⟨arc, mem, source, target⟩
    exact ⟨arc, ⟨mem, source⟩, target⟩
  · rintro ⟨arc, ⟨mem, source⟩, target⟩
    exact ⟨arc, mem, source, target⟩

theorem Bijective.mem_of_mem_pairs (bijective : cfg.Bijective) {p b : Nat}
    (mem : (p, b) ∈ cfg.pairs) : p ∈ cfg.addrToNode ∧ b ∈ cfg.addrToNode :=
  ⟨(bijective.mem_pairs.mp mem).source_mapped, (bijective.mem_pairs.mp mem).target_mapped⟩

/-- The sources of the pairs with a target. -/
def predsOf (pairs : List (Nat × Nat)) (b : Nat) : List Nat :=
  (pairs.filter fun pair => pair.2 = b).map Prod.fst

theorem mem_predsOf {pairs : List (Nat × Nat)} {a b : Nat} :
    a ∈ predsOf pairs b ↔ (a, b) ∈ pairs := by
  simp only [predsOf, mem_map, mem_filter, decide_eq_true_eq]
  constructor
  · rintro ⟨⟨p, t⟩, ⟨mem, rfl⟩, rfl⟩
    exact mem
  · exact fun mem => ⟨(a, b), ⟨mem, rfl⟩, rfl⟩

section

variable (bijective : cfg.Bijective)
include bijective

theorem Bijective.predecessors_perm_predsOf (b : Nat) :
    (cfg.predecessors b).Perm (predsOf cfg.pairs b) := by
  refine (bijective.predecessors_perm b).trans (List.Perm.of_eq ?_)
  rw [predsOf, pairs, filter_map, map_map]
  refine congrArg _ (filter_congr fun arc _ => ?_)
  rw [Bool.eq_iff_iff]
  simp

theorem Bijective.removeEdge_pairs (source target : Nat) :
    (cfg.removeEdge source target).pairs.Perm
      (cfg.pairs.filter fun pair => pair ≠ (source, target)) := by
  refine ((bijective.removeEdge_arcs source target).map _).trans (List.Perm.of_eq ?_)
  rw [pairs, filter_map]
  refine congrArg _ (filter_congr fun arc _ => ?_)
  rw [Bool.eq_iff_iff]
  simp [Prod.ext_iff]

theorem Bijective.removeBlock_pairs (addr : Nat) :
    (cfg.removeBlock addr).pairs.Perm
      (cfg.pairs.filter fun pair => pair.1 ≠ addr ∧ pair.2 ≠ addr) := by
  refine ((bijective.removeBlock_arcs addr).map _).trans (List.Perm.of_eq ?_)
  rw [pairs, filter_map]
  refine congrArg _ (filter_congr fun arc _ => ?_)
  rw [Bool.eq_iff_iff]
  simp

private theorem Bijective.clearsInOrder_of_le_one {addr : Nat}
    (few : (cfg.pairs.filter fun pair => pair.1 = addr).length ≤ 1) : cfg.ClearsInOrder addr := by
  intro node found j id position
  obtain ⟨_, isOutgoing⟩ := bijective.outgoingIds_exact found
  obtain ⟨edge, stored, _⟩ := (isOutgoing id).mp (mem_of_getElem? position)
  have inside := (List.getElem?_eq_some_iff.mp stored).1
  have lengths : (cfg.outgoingIds node).length =
      (cfg.pairs.filter fun pair => pair.1 = addr).length := by
    have edges := (bijective.valid.edgesDirected_perm (bijective.lt_length found)
      .Outgoing).length_eq
    have selected : (cfg.graph.edges.filter fun edge =>
        DiGraph.endpoint .Outgoing edge == node).length =
        (cfg.pairs.filter fun pair => pair.1 = addr).length := by
      rw [pairs, arcs, map_map, filter_map, length_map]
      refine congrArg _ (filter_congr fun edge mem => ?_)
      obtain ⟨e, stored⟩ := mem_iff_getElem?.mp mem
      have isSource := bijective.nodeAddr_eq_iff found (bijective.valid.source_lt e edge stored)
      rw [Bool.eq_iff_iff]
      simp [DiGraph.endpoint, arc, isSource]
    rw [outgoingIds, length_map, ← selected, ← edges, length_map]
  have bound := (List.getElem?_eq_some_iff.mp position).1
  omega

private theorem Bijective.cleared_others {addr node : Nat}
    (found : cfg.getNode addr = some node) :
    ((cfg.clearedAt node).pairs.filter fun pair => pair.1 ≠ addr).Perm
      (cfg.pairs.filter fun pair => pair.1 ≠ addr) := by
  obtain ⟨nodup, isOutgoing⟩ := bijective.outgoingIds_exact found
  have others := DiGraph.removeListed_others (cfg.outgoingIds node) cfg.graph nodup
    fun i mem edge stored => by
      obtain ⟨edge', stored', isSource⟩ := (isOutgoing i).mp mem
      rw [stored, Option.some.injEq] at stored'
      rw [stored']
      exact isSource
  have after := bijective.clearOutgoing (cfg.outgoingIds node)
  have weights := (bijective.valid.removeListed (cfg.outgoingIds node)).2
  have sameArc : (cfg.clearedAt node).arc = cfg.arc := by
    funext edge
    simp only [arc, nodeAddr]
    rw [show (cfg.clearedAt node).addrs = cfg.addrs from addrs_of_weights weights]
  have selects : ∀ {other : CFG}, other.Bijective → other.getNode addr = some node →
      other.pairs.filter (fun pair => pair.1 ≠ addr) =
        (other.graph.edges.filter (·.source != node)).map
          fun edge => ((other.arc edge).1, (other.arc edge).2.1) := by
    intro other otherBijective otherFound
    rw [pairs, arcs, map_map, filter_map]
    refine congrArg _ (filter_congr fun edge mem => ?_)
    obtain ⟨e, stored⟩ := mem_iff_getElem?.mp mem
    have isSource := otherBijective.nodeAddr_eq_iff otherFound
      (otherBijective.valid.source_lt e edge stored)
    rw [Bool.eq_iff_iff]
    simp [arc, isSource]
  rw [selects after found, selects bijective found, sameArc]
  exact others.map _

theorem Bijective.setTerminator_pairs {addr : Nat}
    (present : addr ∈ cfg.addrToNode)
    (few : (cfg.pairs.filter fun pair => pair.1 = addr).length ≤ 1)
    (terminator : BlockTerminator) :
    (cfg.setTerminator addr terminator).pairs.Perm
      ((cfg.pairs.filter fun pair => pair.1 ≠ addr) ++
        (cfg.presentTargets terminator).map fun target => (addr, target.1)) := by
  obtain ⟨node, found⟩ := HashMap.mem_iff_exists_lookup.mp present
  have cleared := (bijective.cleared_iff found).mpr (bijective.clearsInOrder_of_le_one few)
  have onlyOthers : (cfg.clearedAt node).pairs.filter (fun pair => pair.1 ≠ addr) =
      (cfg.clearedAt node).pairs := by
    rw [filter_eq_self]
    intro pair mem
    obtain ⟨arc, inside, rfl⟩ := mem_map.mp mem
    have other := filter_eq_nil_iff.mp cleared arc inside
    simpa using other
  have others := bijective.cleared_others found
  rw [onlyOthers] at others
  rw [pairs, bijective.setTerminator_arcs found, map_append, map_map]
  exact others.append_right _

end

/-! ## Construction -/

/-- The edges that a block has by its terminator. -/
def ownPairs (cfg : CFG) (addr : Nat) : List (Nat × Nat) :=
  ((cfg.targetsAt addr).filter fun target => target ∈ cfg.addrToNode).map fun target =>
    (addr, target)

private theorem Bijective.addEdgesForBlock_pairs (bijective : cfg.Bijective) (addr : Nat) :
    (cfg.addEdgesForBlock addr).pairs = cfg.pairs ++ cfg.ownPairs addr := by
  cases found : cfg.getNode addr with
  | none => simp [CFG.addEdgesForBlock, ownPairs, targetsAt, getBlock, found]
  | some node =>
    cases stored : cfg.graph.nodes[node]? with
    | none => simp [CFG.addEdgesForBlock, ownPairs, targetsAt, getBlock, found, stored]
    | some n =>
      rw [pairs, bijective.addEdgesForBlock_arcs found stored, map_append, ← pairs]
      simp [ownPairs, targetsAt, getBlock, found, stored, presentTargets, filter_map,
        Function.comp_def, ← AList.lookup_isSome]

theorem addEdgesForBlock_ownPairs (addr other : Nat) :
    (cfg.addEdgesForBlock addr).ownPairs other = cfg.ownPairs other := by
  rw [ownPairs, targetsAt, addEdgesForBlock_getBlock, addEdgesForBlock_addrToNode]
  rfl

private theorem ownPairs_source {addr other : Nat} :
    ((cfg.ownPairs addr).filter fun pair => pair.1 = other) =
      if addr = other then cfg.ownPairs addr else [] := by
  rw [ownPairs, filter_map]
  split <;> simp [*, Function.comp_def]

private theorem Bijective.addAllEdges_pairs (list : List Nat) : ∀ {cfg : CFG}, cfg.Bijective →
    list.Nodup → ∀ a, ((list.foldl CFG.addEdgesForBlock cfg).pairs.filter fun pair => pair.1 = a) =
      (cfg.pairs.filter fun pair => pair.1 = a) ++ if a ∈ list then cfg.ownPairs a else [] := by
  induction list with
  | nil => simp
  | cons addr rest ih =>
    intro cfg bijective nodup a
    obtain ⟨notLater, nodupLater⟩ := nodup_cons.mp nodup
    rw [foldl_cons, ih (bijective.addEdgesForBlock addr) nodupLater,
      bijective.addEdgesForBlock_pairs, filter_append, addEdgesForBlock_ownPairs,
      ownPairs_source, append_assoc]
    by_cases isAddr : addr = a
    · subst isAddr
      simp [notLater]
    · simp [isAddr, Ne.symm isAddr]

/-- In a built graph, a block has the edges of its terminator. -/
theorem fromBlocks_pairs {blocks : List R2ILBlock} (built : CFG.fromBlocks blocks = some cfg)
    (distinct : (blocks.map R2ILBlock.addr).Nodup) {a : Nat} (known : a ∈ cfg.addrToNode) :
    (cfg.pairs.filter fun pair => pair.1 = a) = cfg.ownPairs a := by
  cases blocks with
  | nil => simp [fromBlocks] at built
  | cons first rest =>
    simp only [fromBlocks, Option.some.injEq] at built
    obtain ⟨nodes, isNodes⟩ : ∃ nodes, nodes = (first :: rest).foldl
      (fun cfg block => cfg.addBlock (.fromR2il block)) (CFG.new first.addr) := ⟨_, rfl⟩
    have bijective : nodes.Bijective := by
      rw [isNodes]
      exact .addBlocks _ (new_bijective first.addr) distinct (by simp [CFG.new])
    have noPairs : nodes.pairs = [] := by
      rw [pairs, arcs, isNodes, edges_addBlocks]
      rfl
    have sameMap : (nodes.blockAddrs.foldl CFG.addEdgesForBlock nodes).addrToNode =
        nodes.addrToNode :=
      foldl_kept (·.addrToNode) (fun _ _ _ => addEdgesForBlock_addrToNode ..) nodes
    have sameOwn : (nodes.blockAddrs.foldl CFG.addEdgesForBlock nodes).ownPairs a =
        nodes.ownPairs a :=
      foldl_kept (·.ownPairs a) (fun _ _ _ => addEdgesForBlock_ownPairs ..) nodes
    rw [← isNodes] at built
    have nodup : nodes.blockAddrs.Nodup :=
      ((perm_insertionSort (· ≤ ·) _).nodup_iff).mpr nodes.addrToNode.keys_nodup
    rw [← built, sameMap] at known
    rw [← built, bijective.addAllEdges_pairs _ nodup, noPairs, sameOwn, filter_nil,
      nil_append, if_pos (mem_blockAddrs.mpr known)]

end CFG

end R2Sleigh.Ssa
