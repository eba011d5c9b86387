import R2Sleigh.Ssa.Cytron

/-!
Contract: SSA functions as they are built from r2il blocks.

Owns `SSAFunction`, `fromBlocksRaw` and `fromBlocksRawForDecompile`.
-/

namespace R2Sleigh.Ssa

open Il Flow Lib Option

/-- A phi with the predecessor of each source. -/
structure PhiNode where
  dst : SSAVar
  sources : List (Nat × SSAVar)
deriving DecidableEq, Repr

structure SSABlock where
  addr : Nat
  size : Nat
  ops : List SSAOp
  phis : List PhiNode
deriving DecidableEq, Repr

structure SSAFunction where
  entry : Nat
  cfg : CFG
  domtree : DomTree
  blocks : HashMap Nat SSABlock
  blockOrder : List Nat

/-! ## Call boundaries of the architectures -/

def regsOfSize (size : Nat) (names : List String) : List CallBoundaryDef :=
  names.map fun name => ⟨name, size⟩

/-- The 64-bit registers `x0` and so on, each followed by its 32-bit half. -/
def aarch64Regs : List CallBoundaryDef :=
  ["0", "1", "2", "3", "4", "5", "6", "7", "8", "9", "10", "11", "12", "13", "14", "15", "16",
    "17", "30"].flatMap fun number => [⟨"x" ++ number, 8⟩, ⟨"w" ++ number, 4⟩]

def riscvRegs (size : Nat) : List CallBoundaryDef :=
  regsOfSize size ["ra", "t0", "t1", "t2", "t3", "t4", "t5", "t6", "a0", "a1", "a2", "a3", "a4",
    "a5", "a6", "a7"]

/-- Registers that a call clobbers, by the lower-case name of the
architecture. -/
def definedRegsOf (lower : String) (addrSize : Nat) : List CallBoundaryDef :=
  if lower ∈ ["x86-64", "x86_64", "x64", "amd64"] then
    [⟨"rax", 8⟩, ⟨"eax", 4⟩] ++
      regsOfSize 8 ["rdi", "rsi", "rdx", "rcx", "r8", "r9", "r10", "r11"]
  else if lower ∈ ["x86", "x86-32", "i386", "i686"] then regsOfSize 4 ["eax", "ecx", "edx"]
  else if lower = "arm" ∧ addrSize = 4 then
    regsOfSize 4 ["r0", "r1", "r2", "r3", "r12", "lr", "ip"]
  else if lower ∈ ["aarch64", "arm64"] then aarch64Regs
  else if lower ∈ ["riscv32", "rv32", "rv32gc"] then riscvRegs 4
  else if lower ∈ ["riscv64", "rv64", "rv64gc"] then riscvRegs 8
  else []

def decompileCallBoundaryConfig (arch : Option ArchSpec) : Option CallBoundaryConfig :=
  arch.bind fun arch =>
    match definedRegsOf (toAsciiLowercase arch.name) arch.addrSize with
    | [] => none
    | regs => some ⟨regs⟩

/-! ## Construction -/

/-- The arguments of the renaming pass for a graph. -/
def rawArgs (cfg : CFG) (arch : Option ArchSpec) (callBoundaries : Option CallBoundaryConfig) :
    RenameArgs where
  cfg := cfg
  domtree := DomTree.compute cfg
  phiPlacement := PhiPlacement.compute cfg (DomTree.compute cfg)
    (collectDefsFromCfgWithNames cfg (arch.map buildRegisterNameMap)).1
    (collectDefsFromCfgWithNames cfg (arch.map buildRegisterNameMap)).2
  regNames := arch.map buildRegisterNameMap
  callBoundaries := callBoundaries

/-- The sizes that `rawArgs` records. -/
def rawSizes (cfg : CFG) (arch : Option ArchSpec) : HashMap String Nat :=
  (collectDefsFromCfgWithNames cfg (arch.map buildRegisterNameMap)).2

/-- A phi operation as a phi node: its sources in the order of the
predecessors. -/
def phiNode (preds : List Nat) : SSAOp → Option PhiNode
  | .Phi dst sources => some ⟨dst, (sources.zip preds).map fun entry => (entry.2, entry.1)⟩
  | _ => none

/-- Separate the phis of a block from its other operations. -/
def ssaBlock (cfg : CFG) (cfgBlock : BasicBlock) (addr : Nat) (ops : List SSAOp) : SSABlock where
  addr := addr
  size := cfgBlock.size
  ops := ops.filter fun op => !op.isPhi
  phis := (ops.filter SSAOp.isPhi).filterMap (phiNode (cfg.predecessors addr))

def buildBlock (cfg : CFG) (renamed : RenamedFunction) (blocks : HashMap Nat SSABlock)
    (addr : Nat) : Option (HashMap Nat SSABlock) := do
  let cfgBlock ← cfg.getBlock addr
  some (blocks.insert addr (ssaBlock cfg cfgBlock addr (renamed.getBlock addr)))

def fromBlocksRawWithPolicy (blocks : List R2ILBlock) (arch : Option ArchSpec)
    (callBoundaries : Option CallBoundaryConfig) : Option SSAFunction := do
  let cfg ← CFG.fromBlocks blocks
  let args := rawArgs cfg arch callBoundaries
  let (renamed, _) ← renameFunctionWithNamesAndCallBoundaries args (rawSizes cfg arch)
  let ssaBlocks ← renamed.blockOrder.foldlM (buildBlock cfg renamed) ∅
  some
    { entry := cfg.entry
      cfg := cfg
      domtree := args.domtree
      blocks := ssaBlocks
      blockOrder := renamed.blockOrder }

def fromBlocksRaw (blocks : List R2ILBlock) (arch : Option ArchSpec) : Option SSAFunction :=
  fromBlocksRawWithPolicy blocks arch none

def fromBlocksRawForDecompile (blocks : List R2ILBlock) (arch : Option ArchSpec) :
    Option SSAFunction :=
  fromBlocksRawWithPolicy blocks arch (decompileCallBoundaryConfig arch)

/-! ## Definitions -/

/-- The variables a block defines: phis first, then operations. -/
def SSABlock.dsts (block : SSABlock) : List SSAVar :=
  block.phis.map PhiNode.dst ++ block.ops.filterMap SSAOp.dst

def SSAFunction.defsIn (func : SSAFunction) (addr : Nat) : List (String × Nat) :=
  (((func.blocks.lookup addr).map SSABlock.dsts).getD []).map fun var => (var.name, var.version)

/-- Every definition of the function, once for each phi, operation and call
definition. -/
def SSAFunction.definitions (func : SSAFunction) : List (String × Nat) :=
  func.blockOrder.flatMap func.defsIn

/-! ## What is built -/

theorem lookup_foldlM_buildBlock (cfg : CFG) (renamed : RenamedFunction) (order : List Nat) :
    ∀ blocks : HashMap Nat SSABlock, (∀ v ∈ order, (cfg.getBlock v).isSome) →
      ∃ blocks', order.foldlM (buildBlock cfg renamed) blocks = some blocks' ∧
        ∀ v, blocks'.lookup v = if v ∈ order then
          (cfg.getBlock v).map fun block => ssaBlock cfg block v (renamed.getBlock v)
        else blocks.lookup v := by
  induction order with
  | nil => exact fun blocks _ => ⟨blocks, rfl, by simp⟩
  | cons addr rest ih =>
    intro blocks known
    obtain ⟨block, found⟩ := isSome_iff_exists.mp (known addr List.mem_cons_self)
    obtain ⟨blocks', run, lookup⟩ := ih
      (blocks.insert addr (ssaBlock cfg block addr (renamed.getBlock addr)))
      fun v mem => known v (List.mem_cons_of_mem _ mem)
    refine ⟨blocks', ?_, fun v => ?_⟩
    · rw [List.foldlM_cons, buildBlock, found]
      exact run
    · rw [lookup]
      by_cases inRest : v ∈ rest
      · simp [inRest]
      · by_cases here : v = addr
        · subst here
          simp [inRest, found]
        · simp [inRest, here, AList.lookup_insert_ne here]

structure Built (blocks : List R2ILBlock) (arch : Option ArchSpec)
    (callBoundaries : Option CallBoundaryConfig) (func : SSAFunction) (renamed : RenamedFunction)
    (final : RenameContext) (entered : Nat → RenameContext) : Prop where
  graph : CFG.fromBlocks blocks = some func.cfg
  run : renameFunctionWithNamesAndCallBoundaries (rawArgs func.cfg arch callBoundaries)
    (rawSizes func.cfg arch) = some (renamed, final)
  spec : DomTree.Computed func.cfg (DomTree.compute func.cfg)
  result : Renamed (rawArgs func.cfg arch callBoundaries)
    (initialContext (rawArgs func.cfg arch callBoundaries).phiPlacement (rawSizes func.cfg arch))
    renamed final entered
  entry : func.entry = func.cfg.entry
  domtree : func.domtree = DomTree.compute func.cfg
  order : func.blockOrder = func.cfg.reversePostorder
  block : ∀ v, func.blocks.lookup v = if v ∈ func.cfg.reversePostorder then
    (func.cfg.getBlock v).map fun block => ssaBlock func.cfg block v (renamed.getBlock v)
  else none

theorem fromBlocksRawWithPolicy_built (first : R2ILBlock) (rest : List R2ILBlock)
    (arch : Option ArchSpec) (callBoundaries : Option CallBoundaryConfig) :
    ∃ func renamed final entered,
      fromBlocksRawWithPolicy (first :: rest) arch callBoundaries = some func ∧
      Built (first :: rest) arch callBoundaries func renamed final entered := by
  obtain ⟨cfg, graph⟩ : ∃ cfg, CFG.fromBlocks (first :: rest) = some cfg := ⟨_, rfl⟩
  obtain ⟨consistent, present, _⟩ := CFG.fromBlocks_spec graph
  have spec := DomTree.compute_computed consistent present
  obtain ⟨renamed, final, entered, run, result⟩ := renameFunction_spec
    (rawArgs cfg arch callBoundaries) consistent spec.toIsTree (rawSizes cfg arch)
  obtain ⟨blocks, build, lookup⟩ := lookup_foldlM_buildBlock cfg renamed cfg.reversePostorder ∅
    fun v mem => consistent.getBlock_isSome.mpr
      (CFG.reach_mapped present ((spec.order.mem_iff v).mp mem))
  refine ⟨⟨cfg.entry, cfg, DomTree.compute cfg, blocks, cfg.reversePostorder⟩, renamed, final,
    entered, ?_, graph, run, spec, result, rfl, rfl, rfl, lookup⟩
  rw [fromBlocksRawWithPolicy, graph]
  simp only [bind_eq_bind, bind_some, run, result.blockOrder]
  rw [show (rawArgs cfg arch callBoundaries).cfg.reversePostorder = cfg.reversePostorder from rfl,
    build]
  rfl

private theorem ssaBlock_dsts (cfg : CFG) (cfgBlock : BasicBlock) (addr : Nat) (ops : List SSAOp) :
    (ssaBlock cfg cfgBlock addr ops).dsts.Perm (ops.filterMap SSAOp.dst) := by
  have phis : ∀ ops : List SSAOp, ((ops.filter SSAOp.isPhi).filterMap
      (phiNode (cfg.predecessors addr))).map PhiNode.dst =
      (ops.filter SSAOp.isPhi).filterMap SSAOp.dst := by
    intro ops
    induction ops with
    | nil => rfl
    | cons op rest ih =>
      cases op with
      | Phi dst sources => exact congrArg (dst :: ·) ih
      | _ => exact ih
  rw [SSABlock.dsts, ssaBlock]
  rw [phis, ← List.filterMap_append]
  exact (List.filter_append_perm SSAOp.isPhi ops).filterMap SSAOp.dst

namespace Built

variable {blocks : List R2ILBlock} {arch : Option ArchSpec}
  {callBoundaries : Option CallBoundaryConfig} {func : SSAFunction} {renamed : RenamedFunction}
  {final : RenameContext} {entered : Nat → RenameContext}
  (built : Built blocks arch callBoundaries func renamed final entered)
include built

theorem consistent : func.cfg.Consistent := (CFG.fromBlocks_spec built.graph).1

theorem present : func.cfg.entry ∈ func.cfg.addrToNode := (CFG.fromBlocks_spec built.graph).2.1

theorem exists_block {v : Nat} (reach : func.cfg.flow.Reach v) :
    ∃ cfgBlock, func.cfg.getBlock v = some cfgBlock ∧
      func.blocks.lookup v = some (ssaBlock func.cfg cfgBlock v (renamed.getBlock v)) := by
  obtain ⟨cfgBlock, found⟩ := isSome_iff_exists.mp
    (built.consistent.getBlock_isSome.mpr (CFG.reach_mapped built.present reach))
  refine ⟨cfgBlock, found, ?_⟩
  rw [built.block, if_pos ((built.spec.order.mem_iff v).mpr reach), found]
  rfl

theorem reach_of_lookup {v : Nat} {block : SSABlock} (found : func.blocks.lookup v = some block) :
    func.cfg.flow.Reach v := by
  rw [built.block] at found
  by_cases mem : v ∈ func.cfg.reversePostorder
  · exact (built.spec.order.mem_iff v).mp mem
  · rw [if_neg mem] at found
    exact absurd found (by simp)

private theorem defsIn_perm {v : Nat} (reach : func.cfg.flow.Reach v) :
    (func.defsIn v).Perm (defsOf (renamed.getBlock v)) := by
  obtain ⟨cfgBlock, _, found⟩ := built.exists_block reach
  rw [defsOf, SSAFunction.defsIn, found, map_some, getD_some]
  have image : (renamed.getBlock v).filterMap SSAOp.definition =
      ((renamed.getBlock v).filterMap SSAOp.dst).map fun var => (var.name, var.version) := by
    rw [List.map_filterMap]
    rfl
  rw [image]
  exact (ssaBlock_dsts _ _ _ _).map _

theorem definitions_fresh : Fresh (fun _ => 0) func.definitions final.counter := by
  have fresh := built.result.definitions_fresh built.spec.order
  have initial := initialContext_initial
    (rawArgs func.cfg arch callBoundaries).phiPlacement (rawSizes func.cfg arch)
  rw [show (initialContext (rawArgs func.cfg arch callBoundaries).phiPlacement
    (rawSizes func.cfg arch)).counter = fun _ => 0 from funext initial.counter] at fresh
  refine fresh.perm ?_
  rw [built.result.blockOrder, SSAFunction.definitions, built.order]
  exact List.Perm.flatMap_left _ fun v mem =>
    (built.defsIn_perm ((built.spec.order.mem_iff v).mp mem)).symm

end Built

/-- Single assignment. In the function built from any blocks, for any
architecture and any call boundaries, no version of a name is defined twice,
the versions of a name are numbered from 1 by its definitions, and renaming
leaves every version stack as it was initialised. A name without a stack then
ends with an empty one, or with the version 0 of an initialisation during the
walk. -/
theorem single_assignment (first : R2ILBlock) (rest : List R2ILBlock) (arch : Option ArchSpec)
    (callBoundaries : Option CallBoundaryConfig) :
    ∃ func renamed final,
      fromBlocksRawWithPolicy (first :: rest) arch callBoundaries = some func ∧
      renameFunctionWithNamesAndCallBoundaries (rawArgs func.cfg arch callBoundaries)
        (rawSizes func.cfg arch) = some (renamed, final) ∧
      func.definitions.Nodup ∧
      (∀ x k, (x, k) ∈ func.definitions → 0 < k ∧ k ≤ (func.definitions.map Prod.fst).count x) ∧
      ∀ x, (∀ stack, (initialContext (rawArgs func.cfg arch callBoundaries).phiPlacement
            (rawSizes func.cfg arch)).versionStacks.lookup x = some stack →
          final.versionStacks.lookup x = some stack) ∧
        ((initialContext (rawArgs func.cfg arch callBoundaries).phiPlacement
            (rawSizes func.cfg arch)).versionStacks.lookup x = none →
          final.versionStacks.lookup x ∈ [none, some [], some [0]]) := by
  obtain ⟨func, renamed, final, entered, build, built⟩ :=
    fromBlocksRawWithPolicy_built first rest arch callBoundaries
  have fresh := built.definitions_fresh
  refine ⟨func, renamed, final, build, built.run, fresh.nodup, ?_, fun x => ?_⟩
  · intro x k mem
    obtain ⟨positive, bounded⟩ := fresh.range x k mem
    rw [fresh.total, Nat.zero_add] at bounded
    exact ⟨positive, bounded⟩
  · have initial := initialContext_initial
      (rawArgs func.cfg arch callBoundaries).phiPlacement (rawSizes func.cfg arch)
    have same := built.result.same x
    unfold RenameContext.stack HashMap.listAt at same
    constructor
    · intro stack stored
      have zero : stack = [0] := by
        rcases initial.stored x with absent | zero
        · rw [absent] at stored
          exact absurd stored (by simp)
        · rw [zero, Option.some.injEq] at stored
          exact stored.symm
      rw [stored, zero] at same
      rw [zero]
      cases ended : final.versionStacks.lookup x <;> simp [ended] at same ⊢
      exact same
    · intro absent
      rw [absent] at same
      cases ended : final.versionStacks.lookup x <;> simp [ended] at same ⊢
      exact same

end R2Sleigh.Ssa
