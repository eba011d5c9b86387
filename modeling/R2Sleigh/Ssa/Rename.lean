import R2Sleigh.Ssa.Phi

/-!
Contract: the renaming pass over a function, as the code walks it.

The arguments that no step changes are bundled in `RenameArgs`. A missing block
is a panic in the source and `none` here; `none` also stands for the recursion
running out of fuel.
-/

namespace R2Sleigh.Ssa

open Il Lib

/-- A register that receives a fresh definition after a call. -/
structure CallBoundaryDef where
  name : String
  size : Nat
deriving DecidableEq, Repr

structure CallBoundaryConfig where
  definedRegs : List CallBoundaryDef
deriving DecidableEq, Repr

structure RenameArgs where
  cfg : CFG
  domtree : DomTree
  phiPlacement : PhiPlacement
  regNames : Option RegisterNameMap
  callBoundaries : Option CallBoundaryConfig

/-- Operations of each block. -/
abbrev SSABlocks := HashMap Nat (List SSAOp)

structure RenamedFunction where
  blocks : SSABlocks
  blockOrder : List Nat
  entry : Nat

def RenamedFunction.getBlock (renamed : RenamedFunction) (addr : Nat) : List SSAOp :=
  renamed.blocks.listAt addr

/-! ## Call boundaries -/

/-- Register names of the size that equal the register's up to case. -/
def candidateNames (regNames : Option RegisterNameMap) (reg : CallBoundaryDef) : List String :=
  (((regNames.getD ∅).entries.filterMap fun entry =>
    if entry.1.2 = reg.size ∧ toAsciiLowercase entry.2 = toAsciiLowercase reg.name then
      some entry.2
    else none).dedup).insertionSort (· ≤ ·)

/-- The names a call defines for a register, with the context in which they are
written: initialised variables first, then the register map, and else the name
as configured, which is then initialised. -/
def actualNames (regNames : Option RegisterNameMap) (reg : CallBoundaryDef) (ctx : RenameContext) :
    List String × RenameContext :=
  match ctx.matchingVarNamesCi reg.name with
  | [] =>
    match candidateNames regNames reg with
    | [] => ([reg.name], ctx.initVar reg.name reg.size)
    | names => (names, ctx)
  | names => (names, ctx)

/-- Define each of the names in turn. -/
def callDefines : List String → RenameState → List SSAOp × RenameState
  | [], state => ([], state)
  | name :: names, state =>
    let (dst, state') := state.define name
    let (defs, state'') := callDefines names state'
    (.CallDefine dst :: defs, state'')

def appendCallBoundaryDefs (regNames : Option RegisterNameMap) :
    List CallBoundaryDef → RenameState → List SSAOp × RenameState
  | [], state => ([], state)
  | reg :: regs, state =>
    let (names, ctx) := actualNames regNames reg state.ctx
    let (defs, state') := callDefines names { state with ctx := ctx }
    let (others, state'') := appendCallBoundaryDefs regNames regs state'
    (defs ++ others, state'')

/-- `matches!(op, Call { .. } | CallInd { .. })`. -/
def isCall : R2ILOp → Bool
  | .Call _ | .CallInd _ => true
  | _ => false

/-- One operation with the definitions that a call boundary appends. -/
def renameOpWithBoundary (regNames : Option RegisterNameMap)
    (callBoundaries : Option CallBoundaryConfig) (state : RenameState) (op : R2ILOp) :
    List SSAOp × RenameState :=
  let (renamed, state') := renameOp regNames state op
  match isCall op, callBoundaries with
  | true, some boundary =>
    let (defs, state'') := appendCallBoundaryDefs regNames boundary.definedRegs state'
    (renamed :: defs, state'')
  | _, _ => ([renamed], state')

/-- The operations of a block in order. -/
def renameOps (regNames : Option RegisterNameMap) (callBoundaries : Option CallBoundaryConfig) :
    List R2ILOp → RenameState → List SSAOp × RenameState
  | [], state => ([], state)
  | op :: rest, state =>
    let (renamed, state') := renameOpWithBoundary regNames callBoundaries state op
    let (others, state'') := renameOps regNames callBoundaries rest state'
    (renamed ++ others, state'')

/-! ## Phis -/

/-- Sources before any predecessor is renamed. -/
def placeholderSources (phi : PhiInfo) : List SSAVar :=
  phi.predecessors.map fun _ => ⟨phi.varName, 0, phi.varSize⟩

def placeholder (phi : PhiInfo) : SSAOp :=
  .Phi ⟨phi.varName, 0, phi.varSize⟩ (placeholderSources phi)

/-- Put the destination into the phi at `phiIdx`, or insert the phi there. -/
def setPhiDst (ops : List SSAOp) (phiIdx : Nat) (phi : PhiInfo) (dst : SSAVar) : List SSAOp :=
  match ops[phiIdx]? with
  | some (.Phi _ sources) =>
    ops.set phiIdx (.Phi dst
      (if sources.length ≠ phi.predecessors.length then placeholderSources phi else sources))
  | _ => ops.insertIdx phiIdx (.Phi dst (placeholderSources phi))

/-- Rename the phi destinations of a block, from index `phiIdx` on. -/
def renamePhis : List PhiInfo → Nat → List SSAOp → RenameState → List SSAOp × RenameState
  | [], _, ops, state => (ops, state)
  | phi :: rest, phiIdx, ops, state =>
    let (dst, state') := state.define phi.varName
    renamePhis rest (phiIdx + 1) (setPhiDst ops phiIdx phi dst) state'

/-- The loop of `fillPhiSources`: the n-th phi operation takes the n-th phi. -/
def fillSources (ctx : RenameContext) (predIdx : Nat) : List SSAOp → List PhiInfo → List SSAOp
  | ops, [] => ops
  | [], _ => []
  | .Phi dst sources :: ops, phi :: phis =>
    let sources' :=
      if predIdx < sources.length then sources.set predIdx (ctx.readVar phi.varName) else sources
    .Phi dst sources' :: fillSources ctx predIdx ops phis
  | op :: ops, phi :: phis => op :: fillSources ctx predIdx ops (phi :: phis)

/-- Enter the current versions at the end of `predAddr` into the phis of a
successor, at the first position of `predAddr` among the predecessors. -/
def fillPhiSources (args : RenameArgs) (predAddr : Nat) (ctx : RenameContext) (blocks : SSABlocks)
    (succAddr : Nat) : Option SSABlocks :=
  match args.phiPlacement.getPhis succAddr with
  | [] => some blocks
  | first :: rest =>
    match first.predecessors.idxOf? predAddr with
    | none => some blocks
    | some predIdx => do
        let ops ← blocks.lookup succAddr
        some (blocks.insert succAddr (fillSources ctx predIdx ops (first :: rest)))

/-! ## The walk -/

/-- The mutable arguments of the recursion. -/
structure WalkState where
  ctx : RenameContext
  blocks : SSABlocks

/-- Steps 1 and 2 of a block: its phis and its operations. -/
def enterBlock (args : RenameArgs) (blockAddr : Nat) (ctx : RenameContext) (ops : List SSAOp) :
    List SSAOp × RenameState :=
  let (ops', state) := renamePhis (args.phiPlacement.getPhis blockAddr) 0 ops ⟨ctx, []⟩
  match args.cfg.getBlock blockAddr with
  | none => (ops', state)
  | some block =>
    let (renamed, state') := renameOps args.regNames args.callBoundaries block.ops state
    (ops' ++ renamed, state')

def visitBlock (args : RenameArgs) (blockAddr : Nat) (state : WalkState) :
    Option (SSABlocks × RenameState) := do
  let ops ← state.blocks.lookup blockAddr
  let (ops', state') := enterBlock args blockAddr state.ctx ops
  let blocks ← (args.cfg.successors blockAddr).foldlM (fillPhiSources args blockAddr state'.ctx)
    (state.blocks.insert blockAddr ops')
  some (blocks, state')

def renameBlock (args : RenameArgs) : Nat → WalkState → Nat → Option WalkState
  | 0, _, _ => none
  | fuel + 1, state, blockAddr => do
      let (blocks, state') ← visitBlock args blockAddr state
      let below ← (args.domtree.children blockAddr).foldlM (renameBlock args fuel)
        ⟨state'.ctx, blocks⟩
      some ⟨state'.definedVars.foldl RenameContext.popVersion below.ctx, below.blocks⟩

/-- All variables with a known size, then those of the phis. -/
def initialContext (phiPlacement : PhiPlacement) (varSizes : HashMap String Nat) : RenameContext :=
  let withVars := (varSizes.entries.insertionSort fun lhs rhs => lhs.1 ≤ rhs.1).foldl
    (fun ctx entry => ctx.initVar entry.1 entry.2) RenameContext.new
  (phiPlacement.phis.keys.insertionSort (· ≤ ·)).foldl (fun ctx addr =>
    (phiPlacement.getPhis addr).foldl (fun ctx phi => ctx.initVar phi.varName phi.varSize) ctx)
    withVars

/-- The blocks of the walk before it starts: the phi placeholders. -/
def initialBlocks (phiPlacement : PhiPlacement) (blockOrder : List Nat) : SSABlocks :=
  blockOrder.foldl (fun blocks addr =>
    blocks.insert addr ((phiPlacement.getPhis addr).map placeholder)) ∅

/-- The recursion descends at most once for each block of the tree. The context,
which the source drops at the end, is returned as well. -/
def renameFunctionWithNamesAndCallBoundaries (args : RenameArgs) (varSizes : HashMap String Nat) :
    Option (RenamedFunction × RenameContext) := do
  let blockOrder := args.cfg.reversePostorder
  let final ← renameBlock args (args.domtree.idomMap.keys.length + 1)
    ⟨initialContext args.phiPlacement varSizes, initialBlocks args.phiPlacement blockOrder⟩
    args.cfg.entry
  some (⟨final.blocks, blockOrder, args.cfg.entry⟩, final.ctx)

end R2Sleigh.Ssa
