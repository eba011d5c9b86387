import R2Sleigh.Flow.Bfs
import R2Sleigh.Ssa.CfgMutation
import R2Sleigh.Ssa.Sccp

/-!
Contract: the rewriting of a function by the results of constant propagation.

Owns `applySccpResults`.
-/

namespace R2Sleigh.Ssa

open Il Flow Lib

/-- `map_sources_in_op`. -/
def SSAOp.mapSources (map : SSAVar → SSAVar) : SSAOp → SSAOp
  | .Phi dst sources => .Phi dst (sources.map map)
  | .Copy dst src => .Copy dst (map src)
  | .Load dst space addr => .Load dst space (map addr)
  | .Store space addr val => .Store space (map addr) (map val)
  | .Fence ordering => .Fence ordering
  | .LoadLinked dst space addr ordering => .LoadLinked dst space (map addr) ordering
  | .StoreConditional result space addr val ordering =>
    .StoreConditional result space (map addr) (map val) ordering
  | .AtomicCAS dst space addr expected replacement ordering =>
    .AtomicCAS dst space (map addr) (map expected) (map replacement) ordering
  | .LoadGuarded dst space addr guard ordering =>
    .LoadGuarded dst space (map addr) (map guard) ordering
  | .StoreGuarded space addr val guard ordering =>
    .StoreGuarded space (map addr) (map val) (map guard) ordering
  | .binary op dst a b => .binary op dst (map a) (map b)
  | .unary op dst src => .unary op dst (map src)
  | .Piece dst hi lo => .Piece dst (map hi) (map lo)
  | .Subpiece dst src offset => .Subpiece dst (map src) offset
  | .Branch target => .Branch (map target)
  | .CBranch target cond => .CBranch (map target) (map cond)
  | .BranchInd target => .BranchInd (map target)
  | .Call target => .Call (map target)
  | .CallInd target => .CallInd (map target)
  | .CallDefine dst => .CallDefine dst
  | .Return target => .Return (map target)
  | .CallOther output userop inputs => .CallOther output userop (inputs.map map)
  | .Nop => .Nop
  | .Unimplemented => .Unimplemented
  | .CpuId dst => .CpuId dst
  | .Breakpoint => .Breakpoint
  | .PtrAdd dst base index elementSize => .PtrAdd dst (map base) (map index) elementSize
  | .PtrSub dst base index elementSize => .PtrSub dst (map base) (map index) elementSize
  | .SegmentOp dst segment offset => .SegmentOp dst (map segment) (map offset)
  | .New dst src => .New dst (map src)
  | .Extract dst src position => .Extract dst (map src) (map position)
  | .Insert dst src value position => .Insert dst (map src) (map value) (map position)

/-- Whether `return_value_family` names a family. -/
def isReturnValue (name : String) : Bool :=
  toAsciiLowercase name ∈ ["rax", "eax", "ax", "al", "ah", "xmm0", "ymm0", "zmm0", "st0", "st(0)",
    "r0", "x0", "w0", "v0", "q0", "d0", "s0", "a0", "fa0"]

namespace SSAFunction

/-! ## Changes to a function -/

def modifyBlock (func : SSAFunction) (addr : Nat) (change : SSABlock → SSABlock) : SSAFunction :=
  match func.blocks.lookup addr with
  | none => func
  | some block => { func with blocks := func.blocks.insert addr (change block) }

def removeBlock (func : SSAFunction) (addr : Nat) : SSAFunction :=
  { func with
    blocks := func.blocks.erase addr
    blockOrder := func.blockOrder.filter (· ≠ addr)
    cfg := func.cfg.removeBlock addr }

/-- Drop the sources of a predecessor from every phi of a block. -/
def removePhiSource (func : SSAFunction) (blockAddr predAddr : Nat) : SSAFunction :=
  func.modifyBlock blockAddr fun block =>
    { block with phis := block.phis.map fun phi =>
        { phi with sources := phi.sources.filter (·.1 ≠ predAddr) } }

def refreshAfterCfgMutation (func : SSAFunction) : SSAFunction :=
  { func with
    blocks := func.blocks.retain fun addr => (func.cfg.getBlock addr).isSome
    blockOrder := func.cfg.reversePostorder
    domtree := DomTree.compute func.cfg }

/-- An edge and the phi sources it carries. -/
def dropEdge (func : SSAFunction) (source target : Nat) : SSAFunction :=
  { func with cfg := func.cfg.removeEdge source target }.removePhiSource target source

end SSAFunction

/-! ## Constants -/

/-- A source, or the constant found for it. -/
def substitute (consts : HashMap VarKey Word) (var : SSAVar) : SSAVar :=
  match consts.lookup (.fromVar var) with
  | some value => SSAVar.constant value.toNat var.size
  | none => var

def replaceInPhi (consts : HashMap VarKey Word) (isReturnBlock : Bool) (phi : PhiNode) : PhiNode :=
  if isReturnBlock && isReturnValue phi.dst.name then phi
  else { phi with sources := phi.sources.map fun source => (source.1, substitute consts source.2) }

def replaceInBlock (consts : HashMap VarKey Word) (isReturnBlock : Bool) (block : SSABlock) :
    SSABlock :=
  { block with
    phis := block.phis.map (replaceInPhi consts isReturnBlock)
    ops := block.ops.map (SSAOp.mapSources (substitute consts)) }

def isReturnBlock (cfg : CFG) (addr : Nat) : Bool :=
  match cfg.getBlock addr with
  | some cfgBlock => cfgBlock.terminator = .Return
  | none => false

def replaceSourcesWithConstants (func : SSAFunction) (consts : HashMap VarKey Word) :
    SSAFunction × Bool :=
  func.blockOrder.foldl (fun (func, changed) addr =>
    match func.getBlock addr with
    | none => (func, changed)
    | some block =>
      let replaced := replaceInBlock consts (isReturnBlock func.cfg addr) block
      (func.modifyBlock addr fun _ => replaced, changed || replaced ≠ block)) (func, false)

/-! ## Branches -/

structure BranchRewrite where
  blockAddr : Nat
  opIdx : Nat
  keepTarget : Nat
  deadTarget : Nat
  takeTrue : Bool
deriving DecidableEq

/-- The rewriting of the first branch of a block whose condition is constant. -/
def branchRewrite (func : SSAFunction) (addr : Nat) : Option BranchRewrite :=
  match func.getBlock addr, func.cfg.getBlock addr with
  | some block, some cfgBlock =>
    match cfgBlock.terminator with
    | .ConditionalBranch trueTarget falseTarget =>
      block.ops.zipIdx.findSome? fun entry =>
        ((cbranchCond entry.1).bind constValue).map fun value =>
          if value ≠ 0 then ⟨addr, entry.2, trueTarget, falseTarget, true⟩
          else ⟨addr, entry.2, falseTarget, trueTarget, false⟩
    | _ => none
  | _, _ => none

def branchRewrites (func : SSAFunction) : List BranchRewrite :=
  func.blockOrder.filterMap (branchRewrite func)

/-- A taken branch becomes unconditional, one not taken disappears. -/
def rewriteOp (takeTrue : Bool) (op : SSAOp) : SSAOp :=
  if takeTrue then
    match op with
    | .CBranch target _ => .Branch target
    | other => other
  else .Nop

def applyRewrite (func : SSAFunction) (rewrite : BranchRewrite) : SSAFunction :=
  let func := func.modifyBlock rewrite.blockAddr fun block =>
    { block with ops := block.ops.modify rewrite.opIdx (rewriteOp rewrite.takeTrue) }
  let cfg := (func.cfg.removeEdge rewrite.blockAddr rewrite.deadTarget).setTerminator
    rewrite.blockAddr (.Branch rewrite.keepTarget)
  { func with cfg := cfg }.removePhiSource rewrite.deadTarget rewrite.blockAddr

/-! ## Edges and blocks -/

attribute [local instance] lawfulBEq_edge in
def pruneEdge (executable : List (Nat × Nat)) (addr : Nat) (state : SSAFunction × Bool)
    (succ : Nat) : SSAFunction × Bool :=
  if (addr, succ) ∈ executable then state else (state.1.dropEdge addr succ, true)

def pruneBlock (executable : List (Nat × Nat)) (state : SSAFunction × Bool) (addr : Nat) :
    SSAFunction × Bool :=
  (state.1.successors addr).foldl (pruneEdge executable addr) state

def reachableBlocks (func : SSAFunction) : List Nat :=
  reachableFrom func.successors func.cfg.addrs func.entry

def removeUnreachable (reachable : List Nat) (state : SSAFunction × Bool) (addr : Nat) :
    SSAFunction × Bool :=
  if addr ∈ reachable then state
  else
    let succs := state.1.successors addr
    ((succs.foldl (fun func succ => func.removePhiSource succ addr) state.1).removeBlock addr, true)

/-- The function with the results applied, and whether it changed. -/
def applySccpResults (func : SSAFunction) (consts : HashMap VarKey Word)
    (executable : List (Nat × Nat)) : SSAFunction × Bool :=
  let replaced := replaceSourcesWithConstants func consts
  let rewrites := branchRewrites replaced.1
  let rewritten := rewrites.foldl applyRewrite replaced.1
  let pruned := rewritten.blockOrder.foldl (pruneBlock executable) (rewritten, !rewrites.isEmpty)
  let reachable := reachableBlocks pruned.1
  let trimmed := pruned.1.blockOrder.foldl (removeUnreachable reachable) pruned
  if trimmed.2 then (trimmed.1.refreshAfterCfgMutation, true) else (trimmed.1, replaced.2)

end R2Sleigh.Ssa
