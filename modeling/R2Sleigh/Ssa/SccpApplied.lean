import R2Sleigh.Ssa.SccpRewrite

/-!
Contract: the function after the results of constant propagation are applied.

Owns `Coherent` and `Applied`.
-/

namespace R2Sleigh.Ssa

open Il Flow Lib List Option

namespace SSAFunction

variable {b a : Nat} {func : SSAFunction} {consts : HashMap VarKey Word}

/-- What construction establishes: the blocks are those reachable from the
entry, and a conditional block has the edges of its terminator. -/
structure Coherent (func : SSAFunction) : Prop where
  bijective : func.cfg.Bijective
  entry : func.entry = func.cfg.entry
  present : func.cfg.entry ∈ func.cfg.addrToNode
  order : func.blockOrder = func.cfg.reversePostorder
  blocks : ∀ b, (func.getBlock b).isSome ↔ b ∈ func.blockOrder
  branching : ∀ a t f block, func.cfg.getBlock a = some block →
    block.terminator = .ConditionalBranch t f → func.Branching a t f

/-- The target of a conditional block kept, and the one dropped, by the first of
its branches whose condition is constant. -/
def decidedBranch (func : SSAFunction) (consts : HashMap VarKey Word) (addr : Nat) :
    Option (Nat × Nat) :=
  match func.getBlock addr, func.cfg.getBlock addr with
  | some block, some cfgBlock =>
    match cfgBlock.terminator with
    | .ConditionalBranch trueTarget falseTarget =>
      (block.ops.findSome? fun op =>
        (cbranchCond op).bind fun cond => constValue (substitute consts cond)).map fun value =>
          if value ≠ 0 then (trueTarget, falseTarget) else (falseTarget, trueTarget)
    | _ => none
  | _, _ => none

/-- The edges that the result keeps: executable ones, and of a decided branch
only the one to the target kept. -/
def keptFlow (func : SSAFunction) (consts : HashMap VarKey Word) (executable : List (Nat × Nat)) :
    Graph Nat where
  root := func.entry
  edge a b := func.cfg.Edge a b ∧ (a, b) ∈ executable ∧
    ∀ decided, func.decidedBranch consts a = some decided → b = decided.1

section Replaced

variable {func : SSAFunction} {consts : HashMap VarKey Word}

private theorem foldl_replace : ∀ (order : List Nat) (start : SSAFunction × Bool), order.Nodup →
    let after := order.foldl (fun (func, changed) addr =>
      match func.getBlock addr with
      | none => (func, changed)
      | some block =>
        let replaced := replaceInBlock consts (isReturnBlock func.cfg addr) block
        (func.modifyBlock addr fun _ => replaced, changed || replaced ≠ block)) start
    after.1.cfg = start.1.cfg ∧ after.1.entry = start.1.entry ∧
      after.1.blockOrder = start.1.blockOrder ∧ ∀ b, after.1.getBlock b =
        if b ∈ order then
          (start.1.getBlock b).map (replaceInBlock consts (isReturnBlock start.1.cfg b))
        else start.1.getBlock b := by
  intro order
  induction order with
  | nil => exact fun start _ => ⟨rfl, rfl, rfl, fun b => by simp⟩
  | cons addr order ih =>
    intro start nodup
    obtain ⟨notLater, nodupLater⟩ := nodup_cons.mp nodup
    rw [foldl_cons]
    cases found : start.1.getBlock addr with
    | none =>
      obtain ⟨cfg, entry, blockOrder, blocks⟩ := ih start nodupLater
      simp only [found] at cfg entry blockOrder blocks ⊢
      refine ⟨cfg, entry, blockOrder, fun b => (blocks b).trans ?_⟩
      by_cases isAddr : b = addr
      · subst isAddr
        simp [notLater, found]
      · simp [isAddr]
    | some block =>
      obtain ⟨cfg, entry, blockOrder, blocks⟩ := ih
        (start.1.modifyBlock addr fun _ =>
          replaceInBlock consts (isReturnBlock start.1.cfg addr) block, start.2 ||
            replaceInBlock consts (isReturnBlock start.1.cfg addr) block ≠ block) nodupLater
      simp only [found]
      refine ⟨cfg.trans (modifyBlock_cfg ..), entry.trans (modifyBlock_entry ..),
        blockOrder.trans (modifyBlock_blockOrder ..), fun b => (blocks b).trans ?_⟩
      simp only [getBlock_modifyBlock, modifyBlock_cfg]
      by_cases isAddr : b = addr
      · subst isAddr
        simp [notLater, found]
      · simp [isAddr]

theorem replaced_spec (consts : HashMap VarKey Word) (nodup : func.blockOrder.Nodup) :
    let replaced := (replaceSourcesWithConstants func consts).1
    replaced.cfg = func.cfg ∧ replaced.entry = func.entry ∧
      replaced.blockOrder = func.blockOrder ∧ ∀ b, replaced.getBlock b =
        if b ∈ func.blockOrder then
          (func.getBlock b).map (replaceInBlock consts (isReturnBlock func.cfg b))
        else func.getBlock b :=
  foldl_replace func.blockOrder (func, false) nodup

private theorem replaceInBlock_preds (isReturn : Bool) (block : SSABlock) :
    ((replaceInBlock consts isReturn block).phis.map fun phi => phi.sources.map Prod.fst) =
      block.phis.map fun phi => phi.sources.map Prod.fst := by
  rw [replaceInBlock, List.map_map]
  refine map_congr_left fun phi _ => ?_
  simp only [Function.comp_apply, replaceInPhi]
  split
  · rfl
  · simp [List.map_map, Function.comp_def]

theorem replaced_phiPreds (nodup : func.blockOrder.Nodup) (b : Nat) :
    (replaceSourcesWithConstants func consts).1.phiPreds b = func.phiPreds b := by
  obtain ⟨-, -, -, blocks⟩ := replaced_spec consts nodup
  unfold phiPreds
  rw [blocks b]
  split
  · rw [Option.map_map]
    exact Option.map_congr fun block _ => replaceInBlock_preds _ block
  · rfl

private theorem cbranchCond_mapSources (map : SSAVar → SSAVar) (op : SSAOp) :
    cbranchCond (op.mapSources map) = (cbranchCond op).map map := by
  cases op <;> rfl

private theorem findSome?_zipIdx {α β γ : Type} (search : α → Option β) (build : Nat → β → γ)
    (ops : List α) (start : Nat) {δ : Type} (read : γ → δ) (result : β → δ)
    (same : ∀ i value, read (build i value) = result value) :
    ((ops.zipIdx start).findSome? fun entry => (search entry.1).map (build entry.2)).map read =
      (ops.findSome? search).map result := by
  induction ops generalizing start with
  | nil => rfl
  | cons op ops ih =>
    rw [zipIdx_cons, List.findSome?_cons, List.findSome?_cons]
    cases search op with
    | none => exact ih (start + 1)
    | some value => simp [same]

theorem branchRewrite_decided (nodup : func.blockOrder.Nodup) {addr : Nat}
    (listed : addr ∈ func.blockOrder) :
    (branchRewrite (replaceSourcesWithConstants func consts).1 addr).map
        (fun rewrite => (rewrite.keepTarget, rewrite.deadTarget)) =
      func.decidedBranch consts addr := by
  obtain ⟨cfg, -, -, blocks⟩ := replaced_spec consts nodup
  unfold branchRewrite decidedBranch
  rw [blocks addr, if_pos listed, cfg]
  cases func.getBlock addr with
  | none => rfl
  | some block =>
    cases func.cfg.getBlock addr with
    | none => rfl
    | some cfgBlock =>
      simp only [map_some]
      cases cfgBlock.terminator with
      | ConditionalBranch trueTarget falseTarget =>
        refine (findSome?_zipIdx (fun op => (cbranchCond op).bind constValue)
          (fun i value => if value ≠ 0 then
            (⟨addr, i, trueTarget, falseTarget, true⟩ : BranchRewrite)
            else ⟨addr, i, falseTarget, trueTarget, false⟩) _ 0
          (fun rewrite => (rewrite.keepTarget, rewrite.deadTarget))
          (fun value => if value ≠ 0 then (trueTarget, falseTarget)
            else (falseTarget, trueTarget)) fun i value => by split <;> rfl).trans ?_
        rw [replaceInBlock, List.findSome?_map]
        congr 1
        refine congrArg (fun search => List.findSome? search block.ops) (funext fun op => ?_)
        simp only [Function.comp_apply, cbranchCond_mapSources]
        cases cbranchCond op <;> rfl
      | _ => rfl

theorem branchRewrite_spec {addr : Nat} {rewrite : BranchRewrite}
    (found : branchRewrite func addr = some rewrite) :
    rewrite.blockAddr = addr ∧ ∃ cfgBlock t f, func.cfg.getBlock addr = some cfgBlock ∧
      cfgBlock.terminator = .ConditionalBranch t f ∧
      ((rewrite.keepTarget = t ∧ rewrite.deadTarget = f) ∨
        (rewrite.keepTarget = f ∧ rewrite.deadTarget = t)) := by
  unfold branchRewrite at found
  split at found
  · rename_i block cfgBlock _ isBlock
    split at found
    · rename_i t f terminator
      obtain ⟨entry, -, isRewrite⟩ := exists_of_findSome?_eq_some found
      obtain ⟨value, -, rfl⟩ := map_eq_some_iff.mp isRewrite
      split
      · exact ⟨rfl, cfgBlock, t, f, isBlock, terminator, Or.inl ⟨rfl, rfl⟩⟩
      · exact ⟨rfl, cfgBlock, t, f, isBlock, terminator, Or.inr ⟨rfl, rfl⟩⟩
    · cases found
  · cases found

end Replaced

/-! ## The result -/

/-- The conditional blocks with one target that are decided by a constant, with
that target. -/
def collapsed (func : SSAFunction) (consts : HashMap VarKey Word) : List (Nat × Nat) :=
  func.blockOrder.filterMap fun addr =>
    (func.decidedBranch consts addr).bind fun decided =>
      if decided.1 = decided.2 then some (addr, decided.1) else none

/-- What the result has of the function it was made from. -/
structure Applied (func : SSAFunction) (consts : HashMap VarKey Word)
    (executable : List (Nat × Nat)) (func' : SSAFunction) : Prop where
  bijective : func'.cfg.Bijective
  mapped : ∀ b, b ∈ func'.cfg.addrToNode ↔ b ∈ func.cfg.addrToNode ∧
    (b ∈ func.blockOrder → (func.keptFlow consts executable).Reach b)
  blocks : ∀ b, (func'.getBlock b).isSome ↔ (func.keptFlow consts executable).Reach b
  edges : ∀ a b, func'.cfg.Edge a b ↔ func.cfg.Edge a b ∧
    (a ∈ func.blockOrder → (func.keptFlow consts executable).edge a b ∧
      (func.keptFlow consts executable).Reach a) ∧
    (b ∈ func.blockOrder → (func.keptFlow consts executable).Reach b)
  phis : ∀ b lists, func'.phiPreds b = some lists →
    ∃ before, func.phiPreds b = some before ∧ (lists = [] ↔ before = [])
  aligned : AlignedUpTo [] func → AlignedUpTo (func.collapsed consts) func'

section Result

variable {func : SSAFunction} (coherent : func.Coherent) (consts : HashMap VarKey Word)
  (executable : List (Nat × Nat))
include coherent

theorem Coherent.isReversePostorder : IsReversePostorder func.cfg.flow func.blockOrder := by
  rw [coherent.order]
  exact coherent.bijective.consistent.isReversePostorder coherent.present

theorem Coherent.listed_of_reach (reach : (func.keptFlow consts executable).Reach b) :
    b ∈ func.blockOrder := by
  rw [coherent.isReversePostorder.mem_iff]
  refine reach.induction ?_ fun p b _ reached edge => reached.step edge.1
  rw [show (func.keptFlow consts executable).root = func.cfg.flow.root from coherent.entry]
  exact .root

theorem Coherent.mapped_of_listed (listed : b ∈ func.blockOrder) : b ∈ func.cfg.addrToNode :=
  CFG.reach_mapped coherent.present ((coherent.isReversePostorder.mem_iff b).mp listed)

theorem Coherent.rewritten :
    Rewritten (branchRewrites (replaceSourcesWithConstants func consts).1)
      (replaceSourcesWithConstants func consts).1
      ((branchRewrites (replaceSourcesWithConstants func consts).1).foldl applyRewrite
        (replaceSourcesWithConstants func consts).1) := by
  have nodup := coherent.isReversePostorder.nodup
  obtain ⟨cfg, -, order, -⟩ := replaced_spec consts nodup
  refine foldl_applyRewrite _ _ (by rw [cfg]; exact coherent.bijective) ?_ fun rewrite mem => ?_
  · have addrs : ∀ order : List Nat, ((order.filterMap
        (branchRewrite (replaceSourcesWithConstants func consts).1)).map (·.blockAddr)).Sublist
          order := by
      intro order
      induction order with
      | nil => simp
      | cons addr order ih =>
        rw [filterMap_cons]
        split
        · exact ih.cons addr
        · rename_i rewrite found
          rw [map_cons, (branchRewrite_spec found).1]
          exact ih.cons_cons addr
    refine (addrs _).nodup ?_
    rw [order]
    exact nodup
  · obtain ⟨addr, -, found⟩ := mem_filterMap.mp mem
    obtain ⟨isAddr, cfgBlock, t, f, isBlock, terminator, targets⟩ := branchRewrite_spec found
    rw [cfg] at isBlock
    have branching := coherent.branching addr t f cfgBlock isBlock terminator
    rw [isAddr]
    unfold Branching at branching ⊢
    rw [cfg]
    refine ⟨coherent.bijective.consistent.getBlock_isSome.mp (by rw [isBlock]; rfl), ?_⟩
    rcases targets with ⟨rfl, rfl⟩ | ⟨rfl, rfl⟩
    · exact branching
    · exact SSAFunction.Branching.symm branching

private theorem Coherent.mem_rewrites {pair : Nat × Nat} :
    (∀ rewrite ∈ branchRewrites (replaceSourcesWithConstants func consts).1,
      pair.1 = rewrite.blockAddr → pair.2 = rewrite.keepTarget) ↔
    (pair.1 ∈ func.blockOrder → ∀ decided, func.decidedBranch consts pair.1 = some decided →
      pair.2 = decided.1) := by
  have nodup := coherent.isReversePostorder.nodup
  obtain ⟨-, -, order, -⟩ := replaced_spec consts nodup
  constructor
  · intro all listed decided isDecided
    rw [← branchRewrite_decided nodup listed] at isDecided
    obtain ⟨rewrite, found, rfl⟩ := map_eq_some_iff.mp isDecided
    exact all rewrite (mem_filterMap.mpr ⟨pair.1, by rw [order]; exact listed, found⟩)
      (branchRewrite_spec found).1.symm
  · intro all rewrite mem isSource
    obtain ⟨addr, listed, found⟩ := mem_filterMap.mp mem
    rw [order] at listed
    rw [(branchRewrite_spec found).1] at isSource
    subst isSource
    refine all listed (rewrite.keepTarget, rewrite.deadTarget) ?_
    rw [← branchRewrite_decided nodup listed, found]
    rfl

private theorem Coherent.mem_collapsedEdges {pair : Nat × Nat} :
    pair ∈ collapsedEdges (branchRewrites (replaceSourcesWithConstants func consts).1) ↔
      pair ∈ func.collapsed consts := by
  have nodup := coherent.isReversePostorder.nodup
  obtain ⟨-, -, order, -⟩ := replaced_spec consts nodup
  simp only [collapsedEdges, collapsed, branchRewrites, order, List.mem_map, mem_filter,
    mem_filterMap, decide_eq_true_eq]
  constructor
  · rintro ⟨rewrite, ⟨⟨addr, listed, found⟩, isCollapsed⟩, rfl⟩
    refine ⟨addr, listed, ?_⟩
    rw [← branchRewrite_decided nodup listed, found, (branchRewrite_spec found).1]
    simp [isCollapsed]
  · rintro ⟨addr, listed, found⟩
    rw [← branchRewrite_decided nodup listed] at found
    obtain ⟨decided, isDecided, isPair⟩ := bind_eq_some_iff.mp found
    obtain ⟨rewrite, isRewrite, rfl⟩ := map_eq_some_iff.mp isDecided
    split at isPair
    · rename_i isCollapsed
      refine ⟨rewrite, ⟨⟨addr, listed, isRewrite⟩, isCollapsed⟩, ?_⟩
      rw [(branchRewrite_spec isRewrite).1]
      exact some.inj isPair
    · cases isPair

def prunedFunction (func : SSAFunction) (consts : HashMap VarKey Word)
    (executable : List (Nat × Nat)) : SSAFunction × Bool :=
  let replaced := replaceSourcesWithConstants func consts
  let rewrites := branchRewrites replaced.1
  let rewritten := rewrites.foldl applyRewrite replaced.1
  rewritten.blockOrder.foldl (pruneBlock executable) (rewritten, !rewrites.isEmpty)

structure Pruned (func : SSAFunction) (consts : HashMap VarKey Word)
    (executable : List (Nat × Nat)) (func' : SSAFunction) : Prop where
  bijective : func'.cfg.Bijective
  entry : func'.entry = func.entry
  order : func'.blockOrder = func.blockOrder
  mapped : ∀ b, b ∈ func'.cfg.addrToNode ↔ b ∈ func.cfg.addrToNode
  blocks : ∀ b, (func'.getBlock b).isSome ↔ b ∈ func.blockOrder
  mem_pairs : ∀ a b, (a, b) ∈ func'.cfg.pairs ↔ func.cfg.Edge a b ∧
    (a ∈ func.blockOrder → (func.keptFlow consts executable).edge a b)
  phis : ∀ b lists, func'.phiPreds b = some lists →
    ∃ before, func.phiPreds b = some before ∧ (lists = [] ↔ before = [])
  aligned : AlignedUpTo [] func → AlignedUpTo (func.collapsed consts) func'

theorem Coherent.pruned : Pruned func consts executable
    (prunedFunction func consts executable).1 := by
  have nodup := coherent.isReversePostorder.nodup
  obtain ⟨cfg, entry, order, getBlock⟩ := replaced_spec consts nodup
  have rewritten := coherent.rewritten consts
  have restricts := foldl_pruneBlock_restricts executable
    ((branchRewrites (replaceSourcesWithConstants func consts).1).foldl applyRewrite
      (replaceSourcesWithConstants func consts).1).blockOrder
    ((branchRewrites (replaceSourcesWithConstants func consts).1).foldl applyRewrite
      (replaceSourcesWithConstants func consts).1,
      !(branchRewrites (replaceSourcesWithConstants func consts).1).isEmpty) rewritten.bijective
  have sameOrder := rewritten.order.trans order
  refine ⟨restricts.bijective, ?_, ?_, fun b => ?_, fun b => ?_, fun a b => ?_,
    fun b lists found => ?_, fun aligned => ?_⟩
  · exact restricts.entry.trans (rewritten.entry.trans entry)
  · refine restricts.order.trans ?_
    simp [sameOrder]
  · refine (restricts.mapped b).trans ?_
    rw [rewritten.mapped, cfg]
    simp
  · refine (restricts.blocks b).trans ?_
    rw [rewritten.blocks, getBlock b]
    by_cases listed : b ∈ func.blockOrder
    · simp [listed, (coherent.blocks b).mpr listed]
    · have none : func.getBlock b = none := by
        rw [← not_isSome_iff_eq_none, coherent.blocks]
        exact listed
      simp [listed, none]
  · refine restricts.mem_pairs.trans ?_
    rw [rewritten.mem_pairs, coherent.mem_rewrites, cfg, coherent.bijective.mem_pairs, sameOrder,
      decide_eq_true_eq]
    constructor
    · rintro ⟨⟨edge, kept⟩, isExecutable⟩
      exact ⟨edge, fun listed => ⟨edge, isExecutable listed, kept listed⟩⟩
    · rintro ⟨edge, kept⟩
      exact ⟨⟨edge, fun listed => (kept listed).2.2⟩, fun listed => (kept listed).2.1⟩
  · obtain ⟨middle, select, foundMiddle, -, rfl⟩ := restricts.phis b lists found
    obtain ⟨before, foundBefore, empty⟩ := rewritten.phis b middle foundMiddle
    rw [replaced_phiPreds nodup] at foundBefore
    exact ⟨before, foundBefore, map_eq_nil_iff.trans empty⟩
  · have start : AlignedUpTo [] (replaceSourcesWithConstants func consts).1 := by
      intro b lists found
      rw [replaced_phiPreds nodup] at found
      rw [cfg]
      exact aligned b lists found
    refine (restricts.aligned (rewritten.aligned [] start)).congr fun pair => ?_
    rw [append_nil]
    exact coherent.mem_collapsedEdges consts

theorem Coherent.mem_reachableBlocks {func' : SSAFunction}
    (pruned : Pruned func consts executable func') :
    b ∈ reachableBlocks func' ↔ (func.keptFlow consts executable).Reach b := by
  have successors : ∀ a b, b ∈ func'.successors a ↔ (a, b) ∈ func'.cfg.pairs := fun a b =>
    pruned.bijective.consistent.mem_successors.trans pruned.bijective.mem_pairs.symm
  have closed : ∀ a ∈ func'.cfg.addrs, ∀ b ∈ func'.successors a, b ∈ func'.cfg.addrs := by
    intro a _ b successor
    rw [← pruned.bijective.mem_iff]
    exact (pruned.bijective.mem_of_mem_pairs ((successors a b).mp successor)).2
  have started : func'.entry ∈ func'.cfg.addrs := by
    rw [← pruned.bijective.mem_iff, pruned.mapped, pruned.entry, coherent.entry]
    exact coherent.present
  rw [reachableBlocks, mem_reachableFrom closed started, pruned.entry]
  refine (reach_iff_reaches (g := func.keptFlow consts executable) fun a b reach => ?_).symm
  rw [successors, pruned.mem_pairs]
  have listed := coherent.listed_of_reach consts executable reach
  exact ⟨fun kept => kept.2 listed, fun edge => ⟨edge.1, fun _ => edge⟩⟩

theorem Coherent.applied :
    Applied func consts executable (applySccpResults func consts executable).1 := by
  have pruned := coherent.pruned consts executable
  have trims := foldl_removeUnreachable_restricts
    (reachableBlocks (prunedFunction func consts executable).1)
    (prunedFunction func consts executable).1.blockOrder (prunedFunction func consts executable)
    pruned.bijective
  obtain ⟨trimmed, isTrimmed⟩ : ∃ trimmed, trimmed =
    (prunedFunction func consts executable).1.blockOrder.foldl (removeUnreachable
      (reachableBlocks (prunedFunction func consts executable).1))
      (prunedFunction func consts executable) := ⟨_, rfl⟩
  rw [← isTrimmed] at trims
  have result : applySccpResults func consts executable =
      if trimmed.2 then (trimmed.1.refreshAfterCfgMutation, true)
      else (trimmed.1, (replaceSourcesWithConstants func consts).2) := by
    rw [isTrimmed]
    rfl
  have alive : ∀ b, (¬ Doomed (prunedFunction func consts executable).1.blockOrder
      (reachableBlocks (prunedFunction func consts executable).1) b) ↔
      (b ∈ func.blockOrder → (func.keptFlow consts executable).Reach b) := by
    intro b
    rw [Doomed, pruned.order, coherent.mem_reachableBlocks consts executable pruned, not_and,
      not_not]
  have mapped : ∀ b, b ∈ trimmed.1.cfg.addrToNode ↔ b ∈ func.cfg.addrToNode ∧
      (b ∈ func.blockOrder → (func.keptFlow consts executable).Reach b) := by
    intro b
    rw [trims.mapped, pruned.mapped, decide_eq_true_eq, alive]
  have blocks : ∀ b, (trimmed.1.getBlock b).isSome ↔
      (func.keptFlow consts executable).Reach b := by
    intro b
    rw [trims.blocks, pruned.blocks, decide_eq_true_eq, alive]
    exact ⟨fun both => both.2 both.1, fun reach =>
      ⟨coherent.listed_of_reach consts executable reach, fun _ => reach⟩⟩
  -- refreshing drops no block: those of the function are in the graph
  have sameCfg : (applySccpResults func consts executable).1.cfg = trimmed.1.cfg := by
    rw [result]
    split <;> rfl
  have sameBlock : ∀ b, (applySccpResults func consts executable).1.getBlock b =
      trimmed.1.getBlock b := by
    intro b
    rw [result]
    split
    · show (trimmed.1.blocks.retain fun addr => (trimmed.1.cfg.getBlock addr).isSome).lookup b = _
      rw [HashMap.lookup_retain]
      split
      · rfl
      · rename_i absent
        symm
        rw [← not_isSome_iff_eq_none]
        intro isSome
        have reach := (blocks b).mp isSome
        refine absent (trims.bijective.consistent.getBlock_isSome.mpr ((mapped b).mpr ⟨?_, ?_⟩))
        · exact coherent.mapped_of_listed (coherent.listed_of_reach consts executable reach)
        · exact fun _ => reach
    · rfl
  have samePhis : ∀ b, (applySccpResults func consts executable).1.phiPreds b =
      trimmed.1.phiPreds b := fun b => congrArg _ (sameBlock b)
  refine ⟨by rw [sameCfg]; exact trims.bijective, by rw [sameCfg]; exact mapped,
    fun b => by rw [sameBlock]; exact blocks b, fun a b => ?_, fun b lists found => ?_,
    fun aligned => ?_⟩
  · rw [sameCfg, ← trims.bijective.mem_pairs, trims.mem_pairs, pruned.mem_pairs, decide_eq_true_eq,
      alive, alive]
    constructor
    · rintro ⟨⟨edge, kept⟩, source, target⟩
      exact ⟨edge, fun listed => ⟨kept listed, source listed⟩, target⟩
    · rintro ⟨edge, source, target⟩
      exact ⟨⟨edge, fun listed => (source listed).1⟩, fun listed => (source listed).2, target⟩
  · rw [samePhis] at found
    obtain ⟨middle, select, foundMiddle, -, rfl⟩ := trims.phis b lists found
    obtain ⟨before, foundBefore, empty⟩ := pruned.phis b middle foundMiddle
    exact ⟨before, foundBefore, map_eq_nil_iff.trans empty⟩
  · intro b lists found
    rw [samePhis] at found
    rw [sameCfg]
    exact trims.aligned (pruned.aligned aligned) b lists found

end Result

theorem coherent_of_built {blocks : List R2ILBlock} {arch : Option ArchSpec}
    {callBoundaries : Option CallBoundaryConfig} {renamed : RenamedFunction}
    {final : RenameContext} {entered : Nat → RenameContext}
    (built : Built blocks arch callBoundaries func renamed final entered)
    (distinct : (blocks.map R2ILBlock.addr).Nodup) : func.Coherent where
  bijective := CFG.fromBlocks_bijective built.graph distinct
  entry := built.entry
  present := built.present
  order := built.order
  blocks b := by
    rw [built.order, built.spec.order.mem_iff]
    constructor
    · intro isSome
      obtain ⟨block, found⟩ := isSome_iff_exists.mp isSome
      exact built.reach_of_lookup found
    · intro reach
      obtain ⟨cfgBlock, -, found⟩ := built.exists_block reach
      exact isSome_iff_exists.mpr ⟨_, found⟩
  branching a t f block found terminator := by
    have known : a ∈ func.cfg.addrToNode := built.consistent.getBlock_isSome.mp (by rw [found]; rfl)
    rw [Branching, CFG.fromBlocks_pairs built.graph distinct known, CFG.ownPairs, CFG.targetsAt,
      found, map_some, getD_some, terminator]
    exact List.Perm.refl _

/-! ## Alignment of phis and predecessors -/

/-- Every phi has one source for each edge into its block. -/
def Aligned (func : SSAFunction) : Prop :=
  ∀ b block, func.getBlock b = some block → ∀ phi ∈ block.phis,
    (phi.sources.map Prod.fst).Perm (func.cfg.predecessors b)

theorem aligned_iff (bijective : func.cfg.Bijective) :
    func.Aligned ↔ AlignedUpTo [] func := by
  have preds : ∀ b, (func.cfg.predecessors b).Perm
      (CFG.predsOf (func.cfg.pairs.filter (· ∉ [])) b) := by
    intro b
    simpa using bijective.predecessors_perm_predsOf b
  constructor
  · intro aligned b lists found sources mem
    obtain ⟨block, isBlock, rfl⟩ := map_eq_some_iff.mp found
    obtain ⟨phi, inPhis, rfl⟩ := List.mem_map.mp mem
    exact (aligned b block isBlock phi inPhis).trans (preds b)
  · intro aligned b block isBlock phi mem
    have found : func.phiPreds b = some (block.phis.map fun phi => phi.sources.map Prod.fst) := by
      rw [phiPreds, isBlock]
      rfl
    exact (aligned b _ found _ (List.mem_map_of_mem mem)).trans (preds b).symm

theorem mem_collapsed {x : Nat} :
    (a, x) ∈ func.collapsed consts ↔
      a ∈ func.blockOrder ∧ func.decidedBranch consts a = some (x, x) := by
  simp only [collapsed, mem_filterMap, bind_eq_some_iff]
  constructor
  · rintro ⟨addr, listed, ⟨keep, dead⟩, isDecided, isPair⟩
    split at isPair
    · rename_i same
      cases isPair
      dsimp only at same
      subst same
      exact ⟨listed, isDecided⟩
    · cases isPair
  · rintro ⟨listed, isDecided⟩
    exact ⟨a, listed, (x, x), isDecided, by simp⟩

private theorem decidedBranch_spec
    {decided : Nat × Nat} (isDecided : func.decidedBranch consts a = some decided) :
    ∃ cfgBlock t f, func.cfg.getBlock a = some cfgBlock ∧
      cfgBlock.terminator = .ConditionalBranch t f ∧ (decided = (t, f) ∨ decided = (f, t)) := by
  unfold decidedBranch at isDecided
  split at isDecided
  · rename_i block cfgBlock _ isBlock
    split at isDecided
    · rename_i t f terminator
      obtain ⟨value, -, rfl⟩ := map_eq_some_iff.mp isDecided
      refine ⟨cfgBlock, t, f, isBlock, terminator, ?_⟩
      split
      · exact Or.inl rfl
      · exact Or.inr rfl
    · cases isDecided
  · cases isDecided

theorem Coherent.edge_of_decided (coherent : func.Coherent) {decided : Nat × Nat}
    (isDecided : func.decidedBranch consts a = some decided) :
    func.cfg.Edge a b ↔ (b = decided.1 ∨ b = decided.2) ∧ b ∈ func.cfg.addrToNode := by
  obtain ⟨cfgBlock, t, f, isBlock, terminator, targets⟩ := decidedBranch_spec isDecided
  rw [← coherent.bijective.mem_pairs, (coherent.branching a t f cfgBlock isBlock terminator).mem_iff]
  rcases targets with rfl | rfl
  · rfl
  · rw [or_comm]

/-- A branch decided by a constant whose two targets are one block keeps an edge
and loses the phi sources for it. Alignment is preserved exactly if no such
block that is still reached leads to phis. -/
theorem applySccpResults_aligned_iff (func : SSAFunction) (coherent : func.Coherent)
    (aligned : func.Aligned) (consts : HashMap VarKey Word) (executable : List (Nat × Nat)) :
    (applySccpResults func consts executable).1.Aligned ↔
      ∀ a x, func.decidedBranch consts a = some (x, x) →
        (func.keptFlow consts executable).Reach a → (a, x) ∈ executable →
        ∀ block, func.getBlock x = some block → block.phis = [] := by
  have applied := coherent.applied consts executable
  have upTo := applied.aligned ((aligned_iff coherent.bijective).mp aligned)
  rw [aligned_iff applied.bijective]
  constructor
  · intro alignedAfter a x isDecided reach isExecutable block found
    by_contra hasPhis
    have listedX : x ∈ func.blockOrder := (coherent.blocks x).mp (by rw [found]; rfl)
    have edge : func.cfg.Edge a x := (coherent.edge_of_decided isDecided).mpr
      ⟨Or.inl rfl, coherent.mapped_of_listed listedX⟩
    have kept : (func.keptFlow consts executable).edge a x := by
      refine ⟨edge, isExecutable, fun decided isDecided' => ?_⟩
      rw [isDecided] at isDecided'
      rw [← some.inj isDecided']
    have reachX := reach.step kept
    have edgeAfter := (applied.edges a x).mpr ⟨edge, fun _ => ⟨kept, reach⟩, fun _ => reachX⟩
    obtain ⟨lists, foundAfter⟩ := isSome_iff_exists.mp
      ((phiPreds_isSome _ x).trans ((applied.blocks x).mpr reachX))
    obtain ⟨before, foundBefore, empty⟩ := applied.phis x lists foundAfter
    have notEmpty : lists ≠ [] := by
      rw [ne_eq, empty]
      rw [phiPreds, found, map_some, Option.some.injEq] at foundBefore
      rw [← foundBefore, map_eq_nil_iff]
      exact hasPhis
    obtain ⟨sources, mem⟩ := exists_mem_of_ne_nil lists notEmpty
    -- the phi lists `a` by the one account and not by the other
    have listed : a ∈ sources := by
      rw [(alignedAfter x lists foundAfter sources mem).mem_iff, CFG.mem_predsOf]
      simpa using applied.bijective.mem_pairs.mpr edgeAfter
    rw [(upTo x lists foundAfter sources mem).mem_iff, CFG.mem_predsOf, mem_filter] at listed
    refine of_decide_eq_true listed.2 (mem_collapsed.mpr ⟨?_, isDecided⟩)
    exact coherent.listed_of_reach consts executable reach
  · intro none b lists found sources mem
    refine (upTo b lists found sources mem).trans (List.Perm.of_eq ?_)
    unfold CFG.predsOf
    rw [List.filter_filter, List.filter_filter]
    refine congrArg _ (filter_congr fun pair inPairs => ?_)
    obtain ⟨a, target⟩ := pair
    rw [← Bool.decide_and, ← Bool.decide_and, decide_eq_decide]
    refine and_congr_right fun isTarget => iff_of_true (fun isCollapsed => ?_) (by simp)
    subst isTarget
    obtain ⟨listed, isDecided⟩ := mem_collapsed.mp isCollapsed
    obtain ⟨-, kept, -⟩ := (applied.edges a target).mp (applied.bijective.mem_pairs.mp inPairs)
    obtain ⟨before, foundBefore, empty⟩ := applied.phis target lists found
    obtain ⟨block, isBlock, rfl⟩ := map_eq_some_iff.mp foundBefore
    have noPhis := none a target isDecided (kept listed).2 (kept listed).1.2.1 block isBlock
    rw [empty.mpr (by rw [noPhis]; rfl)] at mem
    exact not_mem_nil mem

private theorem aligned_iff_all : func.Aligned ↔
    ∀ b ∈ func.blocks.keys, ∀ phi ∈ ((func.getBlock b).map SSABlock.phis).getD [],
      (phi.sources.map Prod.fst).Perm (func.cfg.predecessors b) := by
  constructor
  · intro aligned b _ phi mem
    cases found : func.getBlock b with
    | none => simp [found] at mem
    | some block => exact aligned b block found phi (by simpa [found] using mem)
  · intro all b block found phi mem
    refine all b ?_ phi (by simpa [found] using mem)
    rw [← AList.mem_keys, ← AList.lookup_isSome]
    exact isSome_iff_exists.mpr ⟨block, found⟩

instance (func : SSAFunction) : Decidable func.Aligned := decidable_of_iff _ aligned_iff_all.symm

/-- A branch on a constant whose two targets are the block behind it, which
joins it with another arm. -/
def sameTargets : List R2ILBlock :=
  [⟨4096, 4, [.CBranch ⟨.Const, 4108, 8⟩ ⟨.Register, 0, 1⟩], none⟩,
   ⟨4100, 4, [.Copy ⟨.Register, 8, 8⟩ ⟨.Const, 1, 8⟩,
      .CBranch ⟨.Const, 4104, 8⟩ ⟨.Const, 1, 1⟩], none⟩,
   ⟨4104, 4, [.Return ⟨.Register, 8, 8⟩], none⟩,
   ⟨4108, 4, [.Copy ⟨.Register, 8, 8⟩ ⟨.Const, 2, 8⟩, .Branch ⟨.Const, 4104, 8⟩], none⟩]

def sameTargetsRun : Option (Bool × Bool) :=
  (fromBlocksRaw sameTargets none).bind fun func =>
    match sccp true func 40 with
    | some (.ok (consts, executable)) =>
      some (decide func.Aligned, decide (applySccpResults func consts executable).1.Aligned)
    | _ => none

theorem sameTargetsRun_eq : sameTargetsRun = some (true, false) := by decide +kernel

/-- The edge to the join stays, and the phi there loses its source. -/
theorem sameTargets_misaligned :
    ∃ func consts executable, fromBlocksRaw sameTargets none = some func ∧
      sccp true func 40 = some (.ok (consts, executable)) ∧ func.Aligned ∧
      ¬ (applySccpResults func consts executable).1.Aligned := by
  have run := sameTargetsRun_eq
  rw [sameTargetsRun, bind_eq_some_iff] at run
  obtain ⟨func, built, run⟩ := run
  split at run
  · rename_i consts executable result
    obtain ⟨before, after⟩ := Prod.mk.inj (some.inj run)
    exact ⟨func, consts, executable, built, result, of_decide_eq_true before,
      of_decide_eq_false after⟩
  · cases run

/-- The condition at the same function: the decided branch leads to a phi. -/
theorem applySccpResults_aligned_iff_sameTargets :
    ∃ func, fromBlocksRaw sameTargets none = some func ∧ func.Coherent ∧ func.Aligned ∧
      ∀ consts executable, (applySccpResults func consts executable).1.Aligned ↔
        ∀ a x, func.decidedBranch consts a = some (x, x) →
          (func.keptFlow consts executable).Reach a → (a, x) ∈ executable →
          ∀ block, func.getBlock x = some block → block.phis = [] := by
  obtain ⟨func, renamed, final, entered, build, built⟩ :
      ∃ func renamed final entered, fromBlocksRaw sameTargets none = some func ∧
        Built sameTargets none none func renamed final entered :=
    fromBlocksRawWithPolicy_built _ _ none none
  have coherent := coherent_of_built built (by decide)
  have aligned : func.Aligned := by
    have run := sameTargetsRun_eq
    rw [sameTargetsRun, build, bind_some] at run
    split at run
    · exact of_decide_eq_true (Prod.mk.inj (some.inj run)).1
    · cases run
  exact ⟨func, build, coherent, aligned, applySccpResults_aligned_iff func coherent aligned⟩

end SSAFunction

end R2Sleigh.Ssa
