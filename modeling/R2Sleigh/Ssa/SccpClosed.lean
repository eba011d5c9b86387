import R2Sleigh.Ssa.OptimizeClosed

/-!
Contract: applying constant propagation leaves each use with its definition.

Owns `Reduces` and `Regular`.
-/

namespace R2Sleigh.Ssa

open Il Flow Lib List Option

/-! ## The entry of the graph -/

namespace CFG

variable {v : SSAVar} {addr b : Nat} {rewrite : BranchRewrite}

theorem entry_removeEdge (cfg : CFG) (source target : Nat) :
    (cfg.removeEdge source target).entry = cfg.entry := by
  unfold removeEdge
  split <;> rfl

theorem entry_removeBlock (cfg : CFG) (addr : Nat) : (cfg.removeBlock addr).entry = cfg.entry := by
  unfold removeBlock
  split <;> rfl

private theorem entry_addEdgesForBlock (cfg : CFG) (addr : Nat) :
    (cfg.addEdgesForBlock addr).entry = cfg.entry := by
  have loop : ∀ (node : Nat) (targets : List (Nat × CFGEdge)) (cfg : CFG),
      (targets.foldl (addEdgeTo node) cfg).entry = cfg.entry := by
    refine fun node targets => foldl_kept CFG.entry fun cfg target _ => ?_
    rw [addEdgeTo]
    split <;> rfl
  unfold addEdgesForBlock
  split
  · rfl
  · split
    · rfl
    · exact loop _ _ cfg

private theorem entry_setTerminator (cfg : CFG) (addr : Nat) (terminator : BlockTerminator) :
    (cfg.setTerminator addr terminator).entry = cfg.entry := by
  unfold setTerminator
  split
  · rfl
  · exact entry_addEdgesForBlock _ addr

end CFG

/-! ## Reduced blocks -/

/-- The same definitions, and no further uses of new versions. -/
structure SSABlock.Reduces (block block' : SSABlock) : Prop where
  dsts : block'.dsts = block.dsts
  ops : ∀ {op v}, op ∈ block'.ops → v ∈ op.sources → 0 < v.version →
    ∃ op ∈ block.ops, v ∈ op.sources
  phis : ∀ {phi source}, phi ∈ block'.phis → source ∈ phi.sources → 0 < source.2.version →
    ∃ phi ∈ block.phis, source ∈ phi.sources

namespace SSABlock.Reduces

theorem refl (block : SSABlock) : block.Reduces block :=
  ⟨rfl, fun mem used _ => ⟨_, mem, used⟩, fun mem used _ => ⟨_, mem, used⟩⟩

theorem trans {block middle after : SSABlock} (first : block.Reduces middle)
    (second : middle.Reduces after) : block.Reduces after := by
  refine ⟨second.dsts.trans first.dsts, fun mem used positive => ?_, fun mem used positive => ?_⟩
  · obtain ⟨op, inMiddle, isSource⟩ := second.ops mem used positive
    exact first.ops inMiddle isSource positive
  · obtain ⟨phi, inMiddle, isSource⟩ := second.phis mem used positive
    exact first.phis inMiddle isSource positive

theorem replaceInBlock (consts : HashMap VarKey Word) (isReturn : Bool) (block : SSABlock) :
    block.Reduces (replaceInBlock consts isReturn block) := by
  refine ⟨SSAFunction.replaceInBlock_dsts consts isReturn block, ?_, ?_⟩
  · intro op' v mem used positive
    obtain ⟨op, inOps, rfl⟩ := List.mem_map.mp mem
    rw [SSAOp.sources_mapSources] at used
    obtain ⟨src, isSource, isV⟩ := List.mem_map.mp used
    rcases SSAFunction.substitute_cases consts src with same | zero
    · exact ⟨op, inOps, by rwa [← isV, same]⟩
    · rw [isV] at zero
      omega
  · intro phi source mem inSources positive
    have used := SSABlock.mem_uses.mpr (.inl ⟨phi, mem, source, inSources, rfl⟩)
    exact (SSAFunction.replaceInBlock_uses used positive).1 phi mem source inSources rfl

private theorem removeSource (block : SSABlock) (pred : Nat) : block.Reduces
    { block with phis := block.phis.map fun phi =>
        { phi with sources := phi.sources.filter (·.1 ≠ pred) } } := by
  refine ⟨?_, fun mem used _ => ⟨_, mem, used⟩, fun mem used _ => ?_⟩
  · rw [SSABlock.dsts, List.map_map]
    rfl
  · obtain ⟨phi, inPhis, rfl⟩ := List.mem_map.mp mem
    exact ⟨phi, inPhis, mem_of_mem_filter used⟩

end SSABlock.Reduces

/-! ## Rewritten branches -/

private theorem filterMap_dst_modify (change : SSAOp → SSAOp) : ∀ (ops : List SSAOp) (i : Nat),
    (∀ op, ops[i]? = some op → op.dst = none ∧ (change op).dst = none) →
    (ops.modify i change).filterMap SSAOp.dst = ops.filterMap SSAOp.dst := by
  intro ops
  induction ops with
  | nil => exact fun i _ => by rw [modify_nil]
  | cons op ops ih =>
    intro i noDst
    cases i with
    | zero =>
      obtain ⟨before, after⟩ := noDst op rfl
      rw [modify_zero_cons, filterMap_cons_none after, filterMap_cons_none before]
    | succ i =>
      rw [modify_succ_cons, filterMap_cons, filterMap_cons, ih i noDst]

theorem dst_rewriteOp {takeTrue : Bool} {op : SSAOp} (noDst : op.dst = none) :
    (rewriteOp takeTrue op).dst = none := by
  unfold rewriteOp
  split
  · split
    · rfl
    · exact noDst
  · rfl

private theorem sources_rewriteOp {takeTrue : Bool} {op : SSAOp}
    (used : v ∈ (rewriteOp takeTrue op).sources) : v ∈ op.sources := by
  unfold rewriteOp at used
  split at used
  · split at used
    · rw [mem_singleton.mp used]
      exact mem_cons_self
    · exact used
  · cases used

/-- The operation that a rewriting names has no destination. -/
def BranchRewrite.NoDst (func : SSAFunction) (rewrite : BranchRewrite) : Prop :=
  ∀ block op, func.getBlock rewrite.blockAddr = some block →
    block.ops[rewrite.opIdx]? = some op → op.dst = none

private theorem branchRewrite_noDst {func : SSAFunction}
    (found : branchRewrite func addr = some rewrite) : rewrite.NoDst func := by
  unfold branchRewrite at found
  split at found
  · rename_i block cfgBlock isBlock _
    split at found
    · obtain ⟨entry, mem, isRewrite⟩ := exists_of_findSome?_eq_some found
      obtain ⟨value, isValue, rfl⟩ := map_eq_some_iff.mp isRewrite
      obtain ⟨cond, isBranch, -⟩ := bind_eq_some_iff.mp isValue
      have atIndex : block.ops[entry.2]? = some entry.1 := mk_mem_zipIdx_iff_getElem?.mp mem
      have noDst : entry.1.dst = none := by
        unfold cbranchCond at isBranch
        split at isBranch
        · rename_i shape
          rw [shape]
          rfl
        · cases isBranch
      intro other op foundOther isOp
      have sameAddr : func.getBlock addr = some other := by
        split at foundOther <;> exact foundOther
      obtain rfl := some.inj (isBlock.symm.trans sameAddr)
      have sameOp : block.ops[entry.2]? = some op := by
        split at isOp <;> exact isOp
      rw [← some.inj (atIndex.symm.trans sameOp)]
      exact noDst
    · cases found
  · cases found

namespace SSAFunction

/-! ## Reduced functions -/

/-- Every block is reduced from one of the function, and the graph starts where it
did. -/
structure Reduced (func after : SSAFunction) : Prop where
  blocks : ∀ b block', after.getBlock b = some block' →
    ∃ block, func.getBlock b = some block ∧ block.Reduces block'
  root : after.cfg.entry = func.cfg.entry

variable {func after : SSAFunction}

theorem Reduced.refl (func : SSAFunction) : Reduced func func :=
  ⟨fun _ block' found => ⟨block', found, .refl block'⟩, rfl⟩

theorem Reduced.trans {middle : SSAFunction} (first : Reduced func middle)
    (second : Reduced middle after) : Reduced func after := by
  refine ⟨fun b block' found => ?_, second.root.trans first.root⟩
  obtain ⟨between, foundBetween, later⟩ := second.blocks b block' found
  obtain ⟨block, foundBefore, earlier⟩ := first.blocks b between foundBetween
  exact ⟨block, foundBefore, earlier.trans later⟩

theorem Reduced.of_subset (root : after.cfg.entry = func.cfg.entry)
    (subset : ∀ b block', after.getBlock b = some block' → func.getBlock b = some block') :
    Reduced func after :=
  ⟨fun b block' found => ⟨block', subset b block' found, .refl block'⟩, root⟩

theorem Reduced.modifyBlock (func : SSAFunction) (addr : Nat) {change : SSABlock → SSABlock}
    (reduces : ∀ block, func.getBlock addr = some block → block.Reduces (change block)) :
    Reduced func (func.modifyBlock addr change) := by
  refine ⟨fun b block' found => ?_, by rw [modifyBlock_cfg]⟩
  rw [getBlock_modifyBlock] at found
  split at found
  · rename_i isAddr
    obtain ⟨block, foundBefore, rfl⟩ := map_eq_some_iff.mp found
    rw [isAddr] at foundBefore
    exact ⟨block, by rw [isAddr, foundBefore], reduces block foundBefore⟩
  · exact ⟨block', found, .refl block'⟩

theorem Reduced.setCfg (func : SSAFunction) {cfg : CFG} (root : cfg.entry = func.cfg.entry) :
    Reduced func { func with cfg := cfg } :=
  .of_subset root fun _ _ found => found

theorem Reduced.removePhiSource (func : SSAFunction) (target source : Nat) :
    Reduced func (func.removePhiSource target source) :=
  .modifyBlock func target fun block _ => .removeSource block source

theorem Reduced.foldl {α β : Type} {step : α → β → α} (function : α → SSAFunction)
    (each : ∀ state item, Reduced (function state) (function (step state item))) (items : List β) :
    ∀ state, Reduced (function state) (function (items.foldl step state)) := by
  induction items with
  | nil => exact fun state => .refl _
  | cons item items ih =>
    exact fun state => (each state item).trans (ih (step state item))

theorem Reduced.pruneBlock (executable : List (Nat × Nat)) (state : SSAFunction × Bool) (addr : Nat) :
    Reduced state.1 (pruneBlock executable state addr).1 := by
  refine Reduced.foldl Prod.fst (fun state succ => ?_) _ state
  unfold pruneEdge
  split
  · exact .refl _
  · exact (Reduced.setCfg state.1 (CFG.entry_removeEdge ..)).trans (.removePhiSource _ succ addr)

theorem Reduced.removeUnreachable (reachable : List Nat) (state : SSAFunction × Bool) (addr : Nat) :
    Reduced state.1 (removeUnreachable reachable state addr).1 := by
  unfold Ssa.removeUnreachable
  split
  · exact .refl _
  · refine (Reduced.foldl id (fun func succ => .removePhiSource func succ addr)
      (state.1.successors addr) state.1).trans
        (.of_subset (CFG.entry_removeBlock ..) fun b block' found => ?_)
    have differ : b ≠ addr := by
      rintro rfl
      simp [SSAFunction.getBlock, SSAFunction.removeBlock] at found
    exact (AList.lookup_erase_ne differ).symm.trans found

theorem Reduced.applyRewrite (noDst : rewrite.NoDst func) :
    Reduced func (applyRewrite func rewrite) := by
  refine (Reduced.modifyBlock func rewrite.blockAddr fun block found => ?_).trans
    ((Reduced.setCfg _ ?_).trans (.removePhiSource _ _ _))
  rotate_left
  · rw [CFG.entry_setTerminator, CFG.entry_removeEdge]
  refine ⟨?_, fun {op' v} mem used _ => ?_, fun mem used _ => ⟨_, mem, used⟩⟩
  · rw [SSABlock.dsts, filterMap_dst_modify, SSABlock.dsts]
    intro op atIndex
    exact ⟨noDst block op found atIndex, dst_rewriteOp (noDst block op found atIndex)⟩
  · obtain ⟨i, isOp⟩ := mem_iff_getElem?.mp mem
    rw [List.getElem?_modify] at isOp
    obtain ⟨op, atIndex, isOp⟩ := map_eq_some_iff.mp isOp
    refine ⟨op, mem_of_getElem? atIndex, ?_⟩
    split at isOp
    · rw [← isOp] at used
      exact sources_rewriteOp used
    · rwa [isOp]

/-- A rewriting still names an operation without destination after another one. -/
theorem noDst_applyRewrite {other : BranchRewrite}
    (noDst : rewrite.NoDst func) (noDstOther : other.NoDst func) :
    other.NoDst (applyRewrite func rewrite) := by
  intro block' op' found atIndex
  rw [Ssa.applyRewrite, SSAFunction.removePhiSource, getBlock_modifyBlock] at found
  have sameOps : ∃ middle, (func.modifyBlock rewrite.blockAddr fun block =>
      { block with ops := block.ops.modify rewrite.opIdx (rewriteOp rewrite.takeTrue) }).getBlock
        other.blockAddr = some middle ∧ block'.ops = middle.ops := by
    split at found
    · obtain ⟨middle, foundMiddle, rfl⟩ := map_eq_some_iff.mp found
      exact ⟨middle, foundMiddle, rfl⟩
    · exact ⟨block', found, rfl⟩
  obtain ⟨middle, foundMiddle, ops⟩ := sameOps
  rw [ops] at atIndex
  rw [getBlock_modifyBlock] at foundMiddle
  split at foundMiddle
  · rename_i sameBlock
    obtain ⟨block, foundBefore, rfl⟩ := map_eq_some_iff.mp foundMiddle
    rw [List.getElem?_modify] at atIndex
    obtain ⟨op, isOp, isChanged⟩ := map_eq_some_iff.mp atIndex
    split at isChanged
    · rename_i sameIndex
      rw [← isChanged]
      exact dst_rewriteOp (noDst block op (sameBlock ▸ foundBefore) (sameIndex ▸ isOp))
    · rw [← isChanged]
      exact noDstOther block op foundBefore isOp
  · exact noDstOther middle op' foundMiddle atIndex

private theorem Reduced.applyRewrites (rewrites : List BranchRewrite) : ∀ func : SSAFunction,
    (∀ rewrite ∈ rewrites, rewrite.NoDst func) → Reduced func (rewrites.foldl Ssa.applyRewrite func) := by
  induction rewrites with
  | nil => exact fun func _ => .refl func
  | cons rewrite rewrites ih =>
    intro func noDst
    have first := noDst rewrite mem_cons_self
    refine (Reduced.applyRewrite first).trans (ih _ fun other mem => ?_)
    exact noDst_applyRewrite first (noDst other (mem_cons_of_mem _ mem))

/-- Applying the results reduces blocks and forgets others. -/
theorem Reduced.applySccpResults (assigned : func.Assigned) (consts : HashMap VarKey Word)
    (executable : List (Nat × Nat)) : Reduced func (applySccpResults func consts executable).1 := by
  have replaced : Reduced func (replaceSourcesWithConstants func consts).1 := by
    obtain ⟨cfg, -, -, -⟩ := replaced_spec consts assigned.order
    refine ⟨fun b block' found => ?_, by rw [cfg]⟩
    obtain ⟨block, foundBefore, rfl⟩ := (assigned.replaceConstants consts).origin found
    exact ⟨block, foundBefore, .replaceInBlock consts _ block⟩
  have rewritten := replaced.trans (Reduced.applyRewrites
    (branchRewrites (replaceSourcesWithConstants func consts).1) _ fun rewrite mem => by
      obtain ⟨addr, -, isRewrite⟩ := mem_filterMap.mp mem
      exact branchRewrite_noDst isRewrite)
  have pruned : Reduced func (prunedFunction func consts executable).1 :=
    rewritten.trans (Reduced.foldl Prod.fst (Reduced.pruneBlock executable) _
      (_, !(branchRewrites (replaceSourcesWithConstants func consts).1).isEmpty))
  have trimmed := pruned.trans (Reduced.foldl Prod.fst (Reduced.removeUnreachable
    (reachableBlocks (prunedFunction func consts executable).1))
    (prunedFunction func consts executable).1.blockOrder (prunedFunction func consts executable))
  unfold Ssa.applySccpResults
  dsimp only
  split
  · refine trimmed.trans (.of_subset rfl fun b block' found => ?_)
    have stored : (AList.lookup b (HashMap.retain _ _)) = some block' := found
    rw [HashMap.lookup_retain] at stored
    split at stored
    · exact stored
    · cases stored
  · exact trimmed

/-! ## Uses and dominators -/

/-- What construction establishes: strict SSA form over the reachable blocks, where a
new version is no literal and reaches a phi along a reachable edge. -/
structure Regular (func : SSAFunction) : Prop where
  ssa : func.StrictSsa
  coherent : func.Coherent
  aligned : func.Aligned
  literals : ∀ {addr block v}, func.getBlock addr = some block → v ∈ block.uses → 0 < v.version →
    constValue v = none
  phiPreds : ∀ {addr block phi source}, func.getBlock addr = some block → phi ∈ block.phis →
    source ∈ phi.sources → 0 < source.2.version → func.flow.Reach source.1

namespace Regular

variable (regular : func.Regular)
include regular

theorem mem_successors {a : Nat} : b ∈ func.successors a ↔ func.cfg.Edge a b :=
  regular.coherent.bijective.consistent.mem_successors

private theorem reach_of_block {block : SSABlock} (found : func.getBlock addr = some block) :
    func.flow.Reach addr := by
  have listed := (regular.coherent.blocks addr).mp (by rw [found]; rfl)
  refine ((regular.coherent.isReversePostorder.mem_iff addr).mp listed).induction ?_ ?_
  · rw [show func.cfg.flow.root = func.flow.root from regular.coherent.entry.symm]
    exact .root
  · exact fun p b _ reached edge => reached.step (regular.mem_successors.mpr edge)

theorem listed_of_reach (reach : func.flow.Reach b) : b ∈ func.blockOrder := by
  rw [regular.coherent.isReversePostorder.mem_iff]
  refine reach.induction ?_ fun p b _ reached edge => reached.step (regular.mem_successors.mp edge)
  rw [show func.flow.root = func.cfg.flow.root from regular.coherent.entry]
  exact .root

section

variable {block : SSABlock} (found : func.getBlock addr = some block)
include found

theorem not_predefined
    (used : v ∈ block.uses) (positive : 0 < v.version) :
    ¬ Predefined v := by
  rintro (literal | ⟨zero, -⟩)
  · rw [regular.literals found used positive] at literal
    cases literal
  · omega

theorem op_dominated {op : SSAOp}
    (mem : op ∈ block.ops) (used : v ∈ op.sources)
    (positive : 0 < v.version) : ∃ d dominator, func.flow.Dom d addr ∧
      func.getBlock d = some dominator ∧ v ∈ dominator.dsts := by
  have isUse : v ∈ block.uses := SSABlock.mem_uses.mpr (.inr ⟨op, mem, used⟩)
  obtain ⟨before, after, position⟩ := append_of_mem mem
  have self : func.flow.Dom addr addr := .refl addr
  rcases regular.ssa.strict.opUses (regular.reach_of_block found) found position v used with
    predefined | isPhi | isEarly | ⟨d, dominator, above, foundAbove, defined⟩
  · exact absurd predefined (regular.not_predefined found isUse positive)
  · exact ⟨addr, block, self, found, mem_append_left _ isPhi⟩
  · refine ⟨addr, block, self, found, mem_append_right _ ?_⟩
    rw [position, filterMap_append]
    exact mem_append_left _ isEarly
  · exact ⟨d, dominator, above.1, foundAbove, defined⟩

theorem phi_dominated {phi : PhiNode} {source : Nat × SSAVar}
    (mem : phi ∈ block.phis)
    (used : source ∈ phi.sources) (positive : 0 < source.2.version) :
    ∃ d dominator, func.flow.Dom d source.1 ∧ func.getBlock d = some dominator ∧
      source.2 ∈ dominator.dsts := by
  have isUse : source.2 ∈ block.uses := SSABlock.mem_uses.mpr (.inl ⟨phi, mem, source, used, rfl⟩)
  have edge : addr ∈ func.successors source.1 := by
    rw [regular.mem_successors, ← regular.coherent.bijective.consistent.mem_predecessors,
      ← (regular.aligned addr block found phi mem).mem_iff]
    exact List.mem_map_of_mem used
  rcases regular.ssa.strict.phiUses found mem used
    (regular.phiPreds found mem used positive) edge with predefined | dominated
  · exact absurd predefined (regular.not_predefined found isUse positive)
  · exact dominated

end

theorem closed : func.Closed := by
  intro addr block v found used positive
  rcases SSABlock.mem_uses.mp used with ⟨phi, mem, source, isSource, rfl⟩ | ⟨op, mem, isSource⟩
  · obtain ⟨d, dominator, -, foundAbove, defined⟩ :=
      regular.phi_dominated found mem isSource positive
    exact ⟨d, dominator, foundAbove, defined⟩
  · obtain ⟨d, dominator, -, foundAbove, defined⟩ :=
      regular.op_dominated found mem isSource positive
    exact ⟨d, dominator, foundAbove, defined⟩

theorem tidy : func.Tidy := ⟨regular.ssa.assigned, regular.closed⟩

section Applied

variable (consts : HashMap VarKey Word) (executable : List (Nat × Nat))

section

variable {d : Nat} (dom : func.flow.Dom d b) (reach : (func.keptFlow consts executable).Reach b)
include dom reach

private theorem kept_of_dom :
    (func.keptFlow consts executable).Reach d := by
  obtain ⟨l, path⟩ := reach
  have within : ∀ {b l}, (func.keptFlow consts executable).PathTo b l → func.flow.PathTo b l := by
    intro b l path
    induction path with
    | root => exact .root
    | snoc _ edge ih =>
      exact .snoc ih (regular.mem_successors.mpr edge.1)
  exact path.reach_of_mem (dom l (within path))

theorem defines_of_dom {dominator : SSABlock}
    (found : func.getBlock d = some dominator) (defined : v ∈ dominator.dsts) :
    (applySccpResults func consts executable).1.Defines v := by
  have present := ((regular.coherent.applied consts executable).blocks d).mpr
    (regular.kept_of_dom consts executable dom reach)
  obtain ⟨dominator', foundAfter⟩ := isSome_iff_exists.mp present
  obtain ⟨before, foundBefore, reduces⟩ :=
    (Reduced.applySccpResults regular.ssa.assigned consts executable).blocks d dominator' foundAfter
  obtain rfl := some.inj (found.symm.trans foundBefore)
  exact ⟨d, dominator', foundAfter, by rwa [reduces.dsts]⟩

end

private theorem kept_of_source {block' : SSABlock} {phi : PhiNode} {source : Nat × SSAVar}
    (found : (applySccpResults func consts executable).1.getBlock b = some block')
    (mem : phi ∈ block'.phis) (used : source ∈ phi.sources) (reach : func.flow.Reach source.1) :
    (func.keptFlow consts executable).Reach source.1 := by
  have applied := regular.coherent.applied consts executable
  have upTo := applied.aligned ((aligned_iff regular.coherent.bijective).mp regular.aligned)
  have preds : (applySccpResults func consts executable).1.phiPreds b =
      some (block'.phis.map fun phi => phi.sources.map Prod.fst) := by
    rw [SSAFunction.phiPreds, found]
    rfl
  have perm := upTo b _ preds _ (List.mem_map_of_mem mem)
  have isPred := perm.mem_iff.mp (List.mem_map_of_mem used)
  rw [CFG.mem_predsOf, mem_filter] at isPred
  have edge := applied.bijective.mem_pairs.mp isPred.1
  exact (((applied.edges _ _).mp edge).2.1 (regular.listed_of_reach reach)).2

private theorem closed_applied : (applySccpResults func consts executable).1.Closed := by
  intro b block' v found used positive
  have reach := ((regular.coherent.applied consts executable).blocks b).mp (by rw [found]; rfl)
  obtain ⟨block, foundBefore, reduces⟩ :=
    (Reduced.applySccpResults regular.ssa.assigned consts executable).blocks b block' found
  rcases SSABlock.mem_uses.mp used with ⟨phi', mem, source, isSource, rfl⟩ | ⟨op', mem, isSource⟩
  · obtain ⟨phi, inPhis, inSources⟩ := reduces.phis mem isSource positive
    obtain ⟨d, dominator, dom, foundAbove, defined⟩ :=
      regular.phi_dominated foundBefore inPhis inSources positive
    refine regular.defines_of_dom consts executable dom ?_ foundAbove defined
    exact regular.kept_of_source consts executable found mem isSource
      (regular.phiPreds foundBefore inPhis inSources positive)
  · obtain ⟨op, inOps, inSources⟩ := reduces.ops mem isSource positive
    obtain ⟨d, dominator, dom, foundAbove, defined⟩ :=
      regular.op_dominated foundBefore inOps inSources positive
    exact regular.defines_of_dom consts executable dom reach foundAbove defined

private theorem order_applied : (applySccpResults func consts executable).1.blockOrder.Nodup ∧
    ∀ b, b ∈ (applySccpResults func consts executable).1.blockOrder ↔
      (func.keptFlow consts executable).Reach b := by
  have applied := regular.coherent.applied consts executable
  have root := (Reduced.applySccpResults regular.ssa.assigned consts executable).root
  have started : (func.keptFlow consts executable).root =
      (applySccpResults func consts executable).1.cfg.entry := by
    rw [root]
    exact regular.coherent.entry
  have sameReach : ∀ b, (applySccpResults func consts executable).1.cfg.flow.Reach b ↔
      (func.keptFlow consts executable).Reach b := by
    intro b
    constructor
    · intro reach
      refine reach.induction ?_ fun p b _ reached edge => ?_
      · rw [show (applySccpResults func consts executable).1.cfg.flow.root =
          (func.keptFlow consts executable).root from started.symm]
        exact .root
      · have listed := regular.coherent.listed_of_reach consts executable reached
        exact reached.step (((applied.edges p b).mp edge).2.1 listed).1
    · intro reach
      refine reach.induction ?_ fun p b reached inner edge => ?_
      · rw [started]
        exact .root
      · exact inner.step ((applied.edges p b).mpr
          ⟨edge.1, fun _ => ⟨edge, reached⟩, fun _ => reached.step edge⟩)
  have present : (applySccpResults func consts executable).1.cfg.entry ∈
      (applySccpResults func consts executable).1.cfg.addrToNode := by
    rw [root]
    refine (applied.mapped _).mpr ⟨regular.coherent.present, fun _ => ?_⟩
    rw [← root, ← started]
    exact .root
  have whole := applied.bijective.consistent.isReversePostorder present
  have trims := foldl_removeUnreachable_restricts
    (reachableBlocks (prunedFunction func consts executable).1)
    (prunedFunction func consts executable).1.blockOrder (prunedFunction func consts executable)
    (regular.coherent.pruned consts executable).bijective
  have pruned := regular.coherent.pruned consts executable
  have orders : (applySccpResults func consts executable).1.blockOrder =
        (applySccpResults func consts executable).1.cfg.reversePostorder ∨
      (applySccpResults func consts executable).1.blockOrder =
        ((prunedFunction func consts executable).1.blockOrder.foldl (removeUnreachable
          (reachableBlocks (prunedFunction func consts executable).1))
          (prunedFunction func consts executable)).1.blockOrder := by
    unfold Ssa.applySccpResults
    dsimp only
    split
    · exact .inl rfl
    · exact .inr rfl
  rcases orders with refreshed | kept
  · rw [refreshed]
    exact ⟨whole.nodup, fun b => (whole.mem_iff b).trans (sameReach b)⟩
  · rw [kept, trims.order, pruned.order]
    refine ⟨regular.ssa.order.filter _, fun b => ?_⟩
    rw [mem_filter, decide_eq_true_eq, Doomed, not_and, not_not,
      regular.coherent.mem_reachableBlocks consts executable pruned]
    exact ⟨fun both => both.2 both.1, fun reach =>
      ⟨regular.coherent.listed_of_reach consts executable reach, fun _ => reach⟩⟩

theorem tidy_applied : (applySccpResults func consts executable).1.Tidy := by
  obtain ⟨order, listed⟩ := regular.order_applied consts executable
  have blocks := (Reduced.applySccpResults regular.ssa.assigned consts executable).blocks
  refine ⟨⟨?_, ?_, order, fun b => ?_⟩, regular.closed_applied consts executable⟩
  · intro addr block' found
    obtain ⟨block, foundBefore, reduces⟩ := blocks addr block' found
    rw [reduces.dsts]
    exact regular.ssa.nodup foundBefore
  · intro addr addr' block' other' v found foundOther mem memberOther
    obtain ⟨block, foundBefore, reduces⟩ := blocks addr block' found
    obtain ⟨other, foundOtherBefore, reducesOther⟩ := blocks addr' other' foundOther
    rw [reduces.dsts] at mem
    rw [reducesOther.dsts] at memberOther
    exact regular.ssa.unique foundBefore foundOtherBefore mem memberOther
  · rw [listed b]
    exact (regular.coherent.applied consts executable).blocks b

end Applied

end Regular

end SSAFunction

end R2Sleigh.Ssa
