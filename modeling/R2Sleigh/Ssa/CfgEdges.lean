import R2Sleigh.Ssa.Cfg

/-!
Contract: the edges of a graph built from blocks against the control flow of
their operation lists.
-/

namespace R2Sleigh.Ssa

open Il Flow Lib List Option

namespace CFG

/-! ## Control flow of an operation list -/

/-- The constant target of a branch, taken always or on a condition. -/
def branchTarget : R2ILOp → Option Nat
  | .Branch target | .CBranch target _ => BasicBlock.extractConstAddr target
  | _ => none

/-- Operations that never continue with the next one. -/
def neverContinues : R2ILOp → Bool
  | .Branch _ | .BranchInd _ | .Return _ => true
  | _ => false

def behind (block : R2ILBlock) : Nat := (block.addr + block.size) % 2 ^ 64

/-- Where control can go from a block: to a branch target, or behind the block
if no operation diverts it for good. -/
def transfers (block : R2ILBlock) : List Nat :=
  block.ops.filterMap branchTarget ++ if block.ops.any neverContinues then [] else [behind block]

/-! ## Edges of a built graph -/

variable {cfg : CFG}

private theorem Consistent.addEdgeTo_edge (consistent : cfg.Consistent) {addr node : Nat}
    (found : cfg.addrToNode.lookup addr = some node) (target : Nat × CFGEdge) (p b : Nat) :
    (CFG.addEdgeTo node cfg target).Edge p b ↔
      cfg.Edge p b ∨ (p = addr ∧ b = target.1 ∧ b ∈ cfg.addrToNode) := by
  unfold CFG.addEdgeTo
  cases lookup : cfg.addrToNode.lookup target.1 with
  | none =>
    refine ⟨.inl, fun either => either.resolve_right ?_⟩
    rintro ⟨_, rfl, present⟩
    exact AList.lookup_eq_none.mp lookup present
  | some index =>
    constructor
    · rintro ⟨e, edge, stored, source, target'⟩
      rcases (DiGraph.addEdge_edges_getElem? ..).mp stored with old | ⟨_, rfl⟩
      · exact .inl ⟨e, edge, old, source, target'⟩
      · exact .inr ⟨consistent.addr_unique source found, consistent.addr_unique target' lookup,
          HashMap.mem_iff_exists_lookup.mpr ⟨_, target'⟩⟩
    · rintro (⟨e, edge, stored, source, target'⟩ | ⟨rfl, rfl, _⟩)
      · exact ⟨e, edge, (DiGraph.addEdge_edges_getElem? ..).mpr (.inl stored), source, target'⟩
      · exact ⟨_, _, (DiGraph.addEdge_edges_getElem? ..).mpr (.inr ⟨rfl, rfl⟩), found, lookup⟩

private theorem addEdgeTo_getBlock (node : Nat) (cfg : CFG) (target : Nat × CFGEdge) (addr : Nat) :
    (CFG.addEdgeTo node cfg target).getBlock addr = cfg.getBlock addr := by
  unfold CFG.addEdgeTo
  cases cfg.addrToNode.lookup target.1 with
  | none => rfl
  | some index =>
    refine Option.bind_congr fun i _ => ?_
    rw [DiGraph.addEdge_nodes_getElem?, Option.map_map]
    rfl

private theorem Consistent.addEdges_edge (targets : List (Nat × CFGEdge)) : ∀ {cfg : CFG},
    cfg.Consistent → ∀ {addr node : Nat}, cfg.addrToNode.lookup addr = some node → ∀ p b,
      (targets.foldl (CFG.addEdgeTo node) cfg).Edge p b ↔
        cfg.Edge p b ∨ (p = addr ∧ b ∈ targets.map Prod.fst ∧ b ∈ cfg.addrToNode) := by
  induction targets with
  | nil => simp
  | cons target rest ih =>
    intro cfg consistent addr node found p b
    rw [foldl_cons, ih (consistent.addEdgeTo found target)
      (by simpa using found), consistent.addEdgeTo_edge found, addEdgeTo_addrToNode]
    simp only [map_cons, mem_cons]
    tauto

theorem addEdges_getBlock (node : Nat) (targets : List (Nat × CFGEdge)) : ∀ (cfg : CFG) (addr : Nat),
    (targets.foldl (CFG.addEdgeTo node) cfg).getBlock addr = cfg.getBlock addr :=
  fun cfg addr => foldl_kept (getBlock · addr) (fun _ _ _ => addEdgeTo_getBlock ..) cfg

def targetsAt (cfg : CFG) (addr : Nat) : List Nat :=
  ((cfg.getBlock addr).map fun block => (terminatorTargets block.terminator).map Prod.fst).getD []

private theorem Consistent.addEdgesForBlock_edge (consistent : cfg.Consistent) (addr p b : Nat) :
    (cfg.addEdgesForBlock addr).Edge p b ↔
      cfg.Edge p b ∨ (p = addr ∧ b ∈ cfg.targetsAt addr ∧ b ∈ cfg.addrToNode) := by
  unfold CFG.addEdgesForBlock targetsAt getBlock getNode
  cases found : cfg.addrToNode.lookup addr with
  | none => simp
  | some node =>
    dsimp only [bind_some]
    cases stored : cfg.graph.nodes[node]? with
    | none => simp
    | some n => exact Consistent.addEdges_edge _ consistent found p b

theorem addEdgesForBlock_getBlock (cfg : CFG) (addr other : Nat) :
    (cfg.addEdgesForBlock addr).getBlock other = cfg.getBlock other := by
  unfold CFG.addEdgesForBlock
  cases cfg.getNode addr with
  | none => rfl
  | some node =>
    dsimp only
    cases cfg.graph.nodes[node]? with
    | none => rfl
    | some n => exact addEdges_getBlock node _ cfg other

private theorem Consistent.addAllEdges_edge (addrs : List Nat) : ∀ {cfg : CFG}, cfg.Consistent →
    ∀ p b, (addrs.foldl CFG.addEdgesForBlock cfg).Edge p b ↔
      cfg.Edge p b ∨ (p ∈ addrs ∧ b ∈ cfg.targetsAt p ∧ b ∈ cfg.addrToNode) := by
  induction addrs with
  | nil => simp
  | cons addr rest ih =>
    intro cfg consistent p b
    obtain ⟨next, sameMap, _⟩ := consistent.addEdgesForBlock addr
    have sameTargets : ∀ q, (cfg.addEdgesForBlock addr).targetsAt q = cfg.targetsAt q := by
      intro q
      unfold targetsAt
      rw [addEdgesForBlock_getBlock]
    rw [foldl_cons, ih next, consistent.addEdgesForBlock_edge, sameMap, sameTargets]
    constructor
    · rintro ((old | ⟨rfl, target⟩) | ⟨later, target⟩)
      · exact .inl old
      · exact .inr ⟨mem_cons_self, target⟩
      · exact .inr ⟨mem_cons_of_mem _ later, target⟩
    · rintro (old | ⟨mem, target⟩)
      · exact .inl (.inl old)
      · rcases mem_cons.mp mem with rfl | later
        · exact .inl (.inr ⟨rfl, target⟩)
        · exact .inr ⟨later, target⟩

/-- The block that stands for an address: the last one that has it. -/
def lastAt (blocks : List R2ILBlock) (addr : Nat) : Option R2ILBlock :=
  blocks.reverse.find? fun block => block.addr == addr

private theorem Consistent.addBlock_getBlock (consistent : cfg.Consistent) (block : BasicBlock)
    (addr : Nat) : (cfg.addBlock block).getBlock addr =
      if addr = block.addr then some block else cfg.getBlock addr := by
  unfold getBlock getNode CFG.addBlock DiGraph.addNode
  by_cases here : addr = block.addr
  · subst here
    simp
  · rw [AList.lookup_insert_ne here, if_neg here]
    refine Option.bind_congr fun index found => ?_
    rw [List.getElem?_append_left (consistent.lt_length found)]

private theorem Consistent.addBlocks_getBlock (blocks : List R2ILBlock) : ∀ {cfg : CFG},
    cfg.Consistent → cfg.graph.edges = [] → ∀ addr,
      (blocks.foldl (fun cfg block => cfg.addBlock (.fromR2il block)) cfg).getBlock addr =
        ((lastAt blocks addr).map BasicBlock.fromR2il).or (cfg.getBlock addr) := by
  induction blocks with
  | nil => simp [lastAt]
  | cons block rest ih =>
    intro cfg consistent noEdges addr
    rw [foldl_cons, ih (consistent.addBlock noEdges _) noEdges, consistent.addBlock_getBlock]
    unfold lastAt
    rw [reverse_cons, List.find?_append]
    cases rest.reverse.find? fun block => block.addr == addr with
    | some last => simp
    | none =>
      by_cases here : addr = block.addr
      · simp [here, BasicBlock.fromR2il]
      · simp [here, Ne.symm here, BasicBlock.fromR2il]

theorem edges_addBlocks (blocks : List R2ILBlock) (cfg : CFG) :
    (blocks.foldl (fun cfg block => cfg.addBlock (.fromR2il block)) cfg).graph.edges =
      cfg.graph.edges :=
  foldl_kept (·.graph.edges) (g := fun cfg block => cfg.addBlock (.fromR2il block))
    (fun _ _ _ => rfl) cfg

/-- The edges of a built graph are those of the terminators. -/
theorem fromBlocks_edge_iff {blocks : List R2ILBlock} {cfg : CFG}
    (built : CFG.fromBlocks blocks = some cfg) (p b : Nat) :
    cfg.Edge p b ↔ b ∈ blocks.map R2ILBlock.addr ∧
      ∃ last, lastAt blocks p = some last ∧
        b ∈ (terminatorTargets (BasicBlock.fromR2il last).terminator).map Prod.fst := by
  cases blocks with
  | nil => simp [fromBlocks] at built
  | cons first rest =>
    simp only [fromBlocks, Option.some.injEq] at built
    obtain ⟨nodes, isNodes⟩ : ∃ nodes, nodes = (first :: rest).foldl
      (fun cfg block => cfg.addBlock (.fromR2il block)) (CFG.new first.addr) := ⟨_, rfl⟩
    have empty := new_consistent first.addr
    obtain ⟨consistent, _, members⟩ := Consistent.addBlocks (first :: rest) empty rfl
    have getBlocks := Consistent.addBlocks_getBlock (first :: rest) empty rfl
    rw [← isNodes] at built consistent members getBlocks
    have noEdges : ∀ p b, ¬ nodes.Edge p b := by
      have none : nodes.graph.edges = [] := by
        rw [isNodes, edges_addBlocks]
        rfl
      rintro p b ⟨e, edge, stored, _⟩
      simp [none] at stored
    have sameAddrs : ∀ addr, addr ∈ nodes.addrToNode ↔
        addr ∈ (first :: rest).map R2ILBlock.addr := by
      intro addr
      rw [members]
      simp [CFG.new]
    rw [← built, Consistent.addAllEdges_edge _ consistent, mem_blockAddrs, sameAddrs, sameAddrs]
    have targets : nodes.targetsAt p = ((lastAt (first :: rest) p).map fun last =>
        (terminatorTargets (BasicBlock.fromR2il last).terminator).map Prod.fst).getD [] := by
      unfold targetsAt
      rw [getBlocks]
      cases lastAt (first :: rest) p <;> simp [CFG.new, getBlock, getNode]
    rw [targets]
    constructor
    · rintro (old | ⟨_, target, present⟩)
      · exact absurd old (noEdges p b)
      · refine ⟨present, ?_⟩
        cases last : lastAt (first :: rest) p with
        | none => simp [last] at target
        | some block => exact ⟨block, rfl, by simpa [last] using target⟩
    · rintro ⟨present, last, isLast, target⟩
      refine .inr ⟨?_, by simpa [isLast] using target, present⟩
      have mem := mem_reverse.mp (mem_of_find?_eq_some isLast)
      have addr := List.find?_some isLast
      exact List.mem_map.mpr ⟨last, mem, by simpa using addr⟩

/-! ## Coverage -/

/-- Where the block goes on if an operation is its last control-flow operation, with `next`
the address behind it: a constant target of a branch, `next` where a conditional branch is
not taken or a call returns. A branch on a condition to a computed target goes nowhere. -/
def controlTargets (next : Nat) : R2ILOp → Option (List Nat)
  | .Branch target => some (BasicBlock.extractConstAddr target).toList
  | .CBranch target _ => some ((BasicBlock.extractConstAddr target).elim [] ([·, next]))
  | .Call _ | .CallInd _ => some [next]
  | .BranchInd _ | .Return _ => some []
  | _ => none

/-- The targets of the last control-flow operation of a block, or the address
behind it if there is none. -/
def lastControlTargets (block : R2ILBlock) : List Nat :=
  (block.ops.reverse.findSome? (controlTargets (behind block))).getD [behind block]

private theorem map_controlTerminator (next : Nat) (op : R2ILOp) :
    (BasicBlock.controlTerminator next op).map (fun terminator =>
      (terminatorTargets terminator).map Prod.fst) = controlTargets next op := by
  cases op <;> simp only [BasicBlock.controlTerminator, controlTargets]
  case Call target => cases BasicBlock.extractConstAddr target <;> rfl
  case Branch target => cases BasicBlock.extractConstAddr target <;> rfl
  case CBranch target cond => cases BasicBlock.extractConstAddr target <;> rfl
  all_goals rfl

/-- The edges of a terminator are those of the last control-flow operation. -/
theorem targets_analyzeTerminator (block : R2ILBlock) :
    (terminatorTargets (BasicBlock.analyzeTerminator block.ops (behind block))).map Prod.fst =
      lastControlTargets block := by
  unfold BasicBlock.analyzeTerminator lastControlTargets
  rw [show controlTargets (behind block) = _ from
    (funext (map_controlTerminator (behind block))).symm, ← Function.comp_def,
    ← List.map_findSome?]
  cases block.ops.reverse.findSome? (BasicBlock.controlTerminator (behind block)) <;> rfl

/-- Every transfer of a block to an address in the list is one of the last
control-flow operation at the address of the block. -/
def LastControlCovers (blocks : List R2ILBlock) : Prop :=
  ∀ block ∈ blocks, ∀ last, lastAt blocks block.addr = some last →
    ∀ target ∈ transfers block, target ∈ blocks.map R2ILBlock.addr →
      target ∈ lastControlTargets last

/-- The graph has an edge for every transfer between blocks if and only if, at
each address, the last control-flow operation of the last block accounts for
all of them. -/
theorem transfers_have_edges_iff (blocks : List R2ILBlock) (cfg : CFG)
    (built : CFG.fromBlocks blocks = some cfg)
    (noSwitch : ∀ block ∈ blocks, block.switchInfo = none) :
    (∀ block ∈ blocks, ∀ target ∈ transfers block, target ∈ blocks.map R2ILBlock.addr →
      cfg.Edge block.addr target) ↔ LastControlCovers blocks := by
  have terminator : ∀ addr last, lastAt blocks addr = some last →
      (terminatorTargets (BasicBlock.fromR2il last).terminator).map Prod.fst =
        lastControlTargets last := by
    intro addr last isLast
    have mem := mem_reverse.mp (mem_of_find?_eq_some isLast)
    rw [← targets_analyzeTerminator]
    unfold BasicBlock.fromR2il behind
    rw [noSwitch last mem]
  constructor
  · intro edges block mem last isLast target transfer present
    obtain ⟨_, last', isLast', covered⟩ :=
      (fromBlocks_edge_iff built _ _).mp (edges block mem target transfer present)
    obtain rfl : last = last' := some.inj (isLast.symm.trans isLast')
    rwa [terminator _ last isLast] at covered
  · intro covers block mem target transfer present
    have exists_last : ∃ last, lastAt blocks block.addr = some last := by
      refine isSome_iff_exists.mp (List.find?_isSome.mpr ?_)
      exact ⟨block, mem_reverse.mpr mem, by simp⟩
    obtain ⟨last, isLast⟩ := exists_last
    refine (fromBlocks_edge_iff built _ _).mpr ⟨present, last, isLast, ?_⟩
    rw [terminator _ last isLast]
    exact covers block mem last isLast target transfer present

def branchOverJump : List R2ILBlock :=
  [⟨4096, 4, [.CBranch ⟨.Ram, 4100, 8⟩ ⟨.Register, 8, 1⟩, .Branch ⟨.Ram, 4104, 8⟩], none⟩,
   ⟨4100, 4, [.Return ⟨.Register, 16, 8⟩], none⟩, ⟨4104, 4, [.Return ⟨.Register, 16, 8⟩], none⟩]

/-- The conditional branch has no edge. -/
theorem branchOverJump_lost :
    ∃ cfg, CFG.fromBlocks branchOverJump = some cfg ∧
      (∀ block ∈ branchOverJump, block.switchInfo = none) ∧
      ¬ ∀ block ∈ branchOverJump, ∀ target ∈ transfers block,
        target ∈ branchOverJump.map R2ILBlock.addr → cfg.Edge block.addr target := by
  have built : CFG.fromBlocks branchOverJump =
    some ((CFG.fromBlocks branchOverJump).getD (.new 0)) := CFG.fromBlocks_cons_eq _ _ _
  refine ⟨_, built, by decide, fun edges => ?_⟩
  have edge := edges ⟨4096, 4, [.CBranch ⟨.Ram, 4100, 8⟩ ⟨.Register, 8, 1⟩,
    .Branch ⟨.Ram, 4104, 8⟩], none⟩ (by decide) 4100 (by decide) (by decide)
  obtain ⟨_, last, isLast, target⟩ := (fromBlocks_edge_iff built _ _).mp edge
  have found : lastAt branchOverJump 4096 = some ⟨4096, 4,
    [.CBranch ⟨.Ram, 4100, 8⟩ ⟨.Register, 8, 1⟩, .Branch ⟨.Ram, 4104, 8⟩], none⟩ := by decide
  obtain rfl := some.inj (found.symm.trans isLast)
  exact absurd target (by decide)

/-- A conditional branch at the end of its block. -/
def plainBranch : List R2ILBlock :=
  [⟨4096, 4, [.CBranch ⟨.Ram, 4104, 8⟩ ⟨.Register, 8, 1⟩], none⟩,
   ⟨4100, 4, [.Call ⟨.Ram, 8192, 8⟩], none⟩, ⟨4104, 4, [.Return ⟨.Register, 16, 8⟩], none⟩]

theorem transfers_have_edges_plainBranch :
    ∃ cfg, CFG.fromBlocks plainBranch = some cfg ∧
      ((∀ block ∈ plainBranch, ∀ target ∈ transfers block,
        target ∈ plainBranch.map R2ILBlock.addr → cfg.Edge block.addr target) ↔
        LastControlCovers plainBranch) := by
  have built : CFG.fromBlocks plainBranch =
    some ((CFG.fromBlocks plainBranch).getD (.new 0)) := CFG.fromBlocks_cons_eq _ _ _
  exact ⟨_, built, transfers_have_edges_iff plainBranch _ built (by decide)⟩

end CFG

end R2Sleigh.Ssa
