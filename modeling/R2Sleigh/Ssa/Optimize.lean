import R2Sleigh.Ssa.Simplify
import R2Sleigh.Ssa.SccpApply

/-!
Contract: the passes of the optimizer and the loop around them.

Owns `optimizeFunction`.

A pass visits each block once and changes it by its own contents, so a traversal
is `update` with the change of one block. The statistics are left out.
-/

namespace R2Sleigh.Ssa

open Il Lib

namespace SSAFunction

def allPhis (func : SSAFunction) : List PhiNode :=
  func.blocks.entries.flatMap fun entry => entry.2.phis

def allOps (func : SSAFunction) : List SSAOp := func.blocks.entries.flatMap fun entry => entry.2.ops

def mapBlocks (func : SSAFunction) (change : Nat → SSABlock → SSABlock) : SSAFunction :=
  func.blockOrder.foldl (fun func addr => func.modifyBlock addr (change addr)) func

/-- Change every block, and tell whether one is different. -/
def update (func : SSAFunction) (change : Nat → SSABlock → SSABlock) : SSAFunction × Bool :=
  (func.mapBlocks change, func.blockOrder.any fun addr =>
    (func.getBlock addr).any fun block => change addr block ≠ block)

end SSAFunction

/-! ## Constants -/

def phiConstant (consts : HashMap VarKey Word) (phi : PhiNode) : Option Word :=
  match phi.sources with
  | [] => none
  | first :: rest => (constForVar first.2 consts.lookup).bind fun firstVal =>
    if rest.all fun source => constForVar source.2 consts.lookup = some firstVal then some firstVal
    else none

/-- Record a constant for a variable that has none. -/
def addConstant (consts : HashMap VarKey Word) (dst : SSAVar) (value : Option Word) :
    HashMap VarKey Word :=
  match consts.lookup (.fromVar dst), value with
  | none, some value => consts.insert (.fromVar dst) value
  | _, _ => consts

def addPhiConstant (consts : HashMap VarKey Word) (phi : PhiNode) : HashMap VarKey Word :=
  addConstant consts phi.dst (phiConstant consts phi)

def addOpConstant (checks : Bool) (consts : HashMap VarKey Word) (op : SSAOp) :
    Except Panic (HashMap VarKey Word) :=
  match op.dst with
  | none => .ok consts
  | some dst =>
    if (consts.lookup (.fromVar dst)).isSome then .ok consts
    else (evalConstOp checks op consts.lookup).map (addConstant consts dst)

def constantsRound (checks : Bool) (func : SSAFunction) (consts : HashMap VarKey Word) :
    Except Panic (HashMap VarKey Word) :=
  func.allOps.foldlM (addOpConstant checks) (func.allPhis.foldl addPhiConstant consts)

def computeConstants (checks : Bool) (func : SSAFunction) :
    Nat → HashMap VarKey Word → Except Panic (HashMap VarKey Word)
  | 0, consts => .ok consts
  | rounds + 1, consts => do
      let next ← constantsRound checks func consts
      if next.entries.length = consts.entries.length then .ok next
      else computeConstants checks func rounds next

/-! ## Instruction combining -/

/-- The operation, or what it is simplified to. -/
def combineOp (checks : Bool) (op : SSAOp) : SSAOp :=
  match simplifyOp checks op with
  | .ok (some newOp) => newOp
  | _ => op

def combineBlock (checks : Bool) (block : SSABlock) : SSABlock :=
  { block with ops := block.ops.map (combineOp checks) }

def instCombine (checks : Bool) (func : SSAFunction) : Except Panic (SSAFunction × Bool) :=
  match func.blockList.mapM fun block => block.ops.mapM (simplifyOp checks) with
  | .error panic => .error panic
  | .ok _ => .ok (func.update fun _ => combineBlock checks)

/-! ## Copy propagation -/

def PhiNode.trivialSource (phi : PhiNode) : Option SSAVar :=
  match phi.sources with
  | [] => none
  | first :: rest => if rest.all fun source => source.2 = first.2 then some first.2 else none

/-- The variable that an operation copies in full. -/
def SSAOp.copied : SSAOp → Option (SSAVar × SSAVar)
  | .Copy dst src => if dst.size = src.size ∧ dst ≠ src then some (dst, src) else none
  | _ => none

def dropTrivialPhis (block : SSABlock) : SSABlock :=
  { block with phis := block.phis.filter fun phi => phi.trivialSource.isNone }

def addPhiReplacement (replacements : HashMap VarKey SSAVar) (phi : PhiNode) :
    HashMap VarKey SSAVar :=
  match phi.trivialSource with
  | some first =>
    if phi.dst ≠ first then replacements.insert (.fromVar phi.dst) first else replacements
  | none => replacements

def addCopyReplacement (replacements : HashMap VarKey SSAVar) (op : SSAOp) :
    HashMap VarKey SSAVar :=
  match op.copied with
  | some (dst, src) => replacements.insert (.fromVar dst) src
  | none => replacements

def addBlockReplacements (replacements : HashMap VarKey SSAVar) (block : SSABlock) :
    HashMap VarKey SSAVar :=
  block.ops.foldl addCopyReplacement (block.phis.foldl addPhiReplacement replacements)

/-- The end of a chain of replacements, unless it goes around in a circle. -/
def chainEnd (replacements : HashMap VarKey SSAVar) : Nat → List VarKey → SSAVar → Option SSAVar
  | 0, _, _ => none
  | fuel + 1, visited, next =>
    if .fromVar next ∈ visited then none
    else
      match replacements.lookup (.fromVar next) with
      | some follow => chainEnd replacements fuel (.fromVar next :: visited) follow
      | none => some next

def resolveKey (replacements : HashMap VarKey SSAVar) (key : VarKey) : HashMap VarKey SSAVar :=
  match (replacements.lookup key).bind
      (chainEnd replacements (replacements.entries.length + 1) []) with
  | some last => replacements.insert key last
  | none => replacements

def resolveReplacements (replacements : HashMap VarKey SSAVar) : HashMap VarKey SSAVar :=
  (replacements.entries.map fun entry => entry.1).foldl resolveKey replacements

/-- The function without trivial phis, the replacements, and whether a phi was
removed. -/
def buildCopyReplacements (func : SSAFunction) :
    SSAFunction × HashMap VarKey SSAVar × Bool :=
  let dropped := func.update fun _ => dropTrivialPhis
  (dropped.1, resolveReplacements (func.blockList.foldl addBlockReplacements ∅), dropped.2)

/-- The end of the replacements of `var` from `current` on, or `var` itself where
they go around in a circle. -/
def replaceFrom (replacements : HashMap VarKey SSAVar) (var : SSAVar) :
    Nat → List VarKey → SSAVar → SSAVar
  | 0, _, _ => var
  | fuel + 1, visited, current =>
    match replacements.lookup (.fromVar current) with
    | none => current
    | some next =>
      if .fromVar current ∈ visited then var
      else replaceFrom replacements var fuel (.fromVar current :: visited) next

/-- `mapper`. -/
def replaceVar (replacements : HashMap VarKey SSAVar) (var : SSAVar) : SSAVar :=
  replaceFrom replacements var (replacements.entries.length + 2) [] var

def keepsSources (isReturnBlock : Bool) (phi : PhiNode) : Bool :=
  isReturnBlock && isReturnValue phi.dst.name

def applyToPhi (replacements : HashMap VarKey SSAVar) (isReturnBlock : Bool) (phi : PhiNode) :
    PhiNode :=
  if keepsSources isReturnBlock phi then phi
  else
    { phi with sources := phi.sources.map fun source =>
        (source.1, replaceVar replacements source.2) }

def applyToBlock (replacements : HashMap VarKey SSAVar) (isReturnBlock : Bool) (block : SSABlock) :
    SSABlock :=
  { block with
    phis := block.phis.map (applyToPhi replacements isReturnBlock)
    ops := block.ops.map (SSAOp.mapSources (replaceVar replacements)) }

def applyReplacements (func : SSAFunction) (replacements : HashMap VarKey SSAVar) :
    SSAFunction × Bool :=
  func.update fun addr => applyToBlock replacements (isReturnBlock func.cfg addr)

def copyPropagation (func : SSAFunction) : SSAFunction × Bool :=
  let (func, replacements, changed) := buildCopyReplacements func
  if replacements.entries = [] then (func, changed)
  else
    let applied := applyReplacements func replacements
    (applied.1, changed || applied.2)

/-! ## Common subexpressions -/

inductive ExprKind where
  | Unary (name : String)
  | Binary (name : String)
deriving DecidableEq, Repr

structure ExprKey where
  kind : ExprKind
  dstSize : Nat
  args : List VarKey
deriving DecidableEq, Repr

/-- `Ord for VarKey`: by name, then by version, then by size. -/
def VarKey.lt (x y : VarKey) : Bool :=
  decide (x.name < y.name) || (x.name = y.name &&
    (x.version < y.version || (x.version = y.version && x.size < y.size)))

/-- Two keys in order. -/
def sortedArgs (a b : VarKey) : List VarKey := if b.lt a then [b, a] else [a, b]

def unaryName : UnaryOp → Option String
  | .IntNegate => some "IntNegate"
  | .IntNot => some "IntNot"
  | .BoolNot => some "BoolNot"
  | .IntZExt => some "IntZExt"
  | .IntSExt => some "IntSExt"
  | .Trunc => some "Trunc"
  | .FloatNeg => some "FloatNeg"
  | .FloatAbs => some "FloatAbs"
  | .FloatSqrt => some "FloatSqrt"
  | .Int2Float => some "Int2Float"
  | .Float2Int => some "Float2Int"
  | .FloatFloat => some "FloatFloat"
  | .PopCount | .Lzcount | .FloatCeil | .FloatFloor | .FloatRound | .FloatNaN | .Cast => none

/-- The names of the operations whose operands are sorted. -/
def commutativeName : BinaryOp → Option String
  | .IntAdd => some "IntAdd"
  | .IntMult => some "IntMult"
  | .IntAnd => some "IntAnd"
  | .IntOr => some "IntOr"
  | .IntXor => some "IntXor"
  | .IntEqual => some "IntEqual"
  | .IntNotEqual => some "IntNotEqual"
  | .BoolAnd => some "BoolAnd"
  | .BoolOr => some "BoolOr"
  | .BoolXor => some "BoolXor"
  | .FloatAdd => some "FloatAdd"
  | .FloatMult => some "FloatMult"
  | .FloatEqual => some "FloatEqual"
  | .FloatNotEqual => some "FloatNotEqual"
  | _ => none

def orderedName : BinaryOp → Option String
  | .IntSub => some "IntSub"
  | .IntDiv => some "IntDiv"
  | .IntSDiv => some "IntSDiv"
  | .IntRem => some "IntRem"
  | .IntSRem => some "IntSRem"
  | .IntLeft => some "IntLeft"
  | .IntRight => some "IntRight"
  | .IntSRight => some "IntSRight"
  | .IntLess => some "IntLess"
  | .IntLessEqual => some "IntLessEqual"
  | .IntSLess => some "IntSLess"
  | .IntSLessEqual => some "IntSLessEqual"
  | .FloatSub => some "FloatSub"
  | .FloatDiv => some "FloatDiv"
  | .FloatLess => some "FloatLess"
  | .FloatLessEqual => some "FloatLessEqual"
  | _ => none

def exprKey : SSAOp → Option ExprKey
  | .unary op dst src => (unaryName op).map fun name => ⟨.Unary name, dst.size, [.fromVar src]⟩
  | .binary op dst a b =>
    match commutativeName op with
    | some name => some ⟨.Binary name, dst.size, sortedArgs (.fromVar a) (.fromVar b)⟩
    | none => (orderedName op).map fun name =>
      ⟨.Binary name, dst.size, [.fromVar a, .fromVar b]⟩
  | _ => none

/-- The operations of a block, with the expressions computed so far. -/
def cseOps (available : HashMap ExprKey SSAVar) : List SSAOp → List SSAOp
  | [] => []
  | op :: rest =>
    match op.dst, exprKey op with
    | some dst, some key =>
      match available.lookup key with
      | some existing =>
        (if existing.size = dst.size then .Copy dst existing else op) :: cseOps available rest
      | none => op :: cseOps (available.insert key dst) rest
    | _, _ => op :: cseOps available rest

def cseBlock (block : SSABlock) : SSABlock := { block with ops := cseOps ∅ block.ops }

def commonSubexprElim (func : SSAFunction) : SSAFunction × Bool := func.update fun _ => cseBlock

/-! ## Dead code -/

namespace SSAOp

def isControlFlow : SSAOp → Bool
  | .Branch _ | .CBranch _ _ | .BranchInd _ | .Call _ | .CallInd _ | .Return _ => true
  | _ => false

def isMemoryRead : SSAOp → Bool
  | .Load .. | .LoadLinked .. | .LoadGuarded .. | .AtomicCAS .. => true
  | _ => false

def isMemoryWrite : SSAOp → Bool
  | .Store .. | .StoreConditional .. | .StoreGuarded .. | .AtomicCAS .. => true
  | _ => false

def hasSideEffects (op : SSAOp) (preserveMemoryReads : Bool) : Bool :=
  op.isControlFlow || op.isMemoryWrite ||
    (match op with
      | .Fence _ | .LoadLinked .. | .LoadGuarded .. => true
      | _ => false) ||
    (preserveMemoryReads && op.isMemoryRead) ||
    (match op with
      | .CallOther .. | .Breakpoint | .Unimplemented | .CpuId _ | .New .. => true
      | _ => false)

end SSAOp

/-- `return_value_family` in full: `isReturnValue` tells only whether there is one. -/
inductive ReturnFamily where
  | x86Gpr | x86Simd | x86Fpu | armGpr | aarch64Gpr | aarch64Simd | riscvGpr | riscvFp
deriving DecidableEq, Repr

def returnValueFamily (name : String) : Option ReturnFamily :=
  let lower := toAsciiLowercase name
  if lower ∈ ["rax", "eax", "ax", "al", "ah"] then some .x86Gpr
  else if lower ∈ ["xmm0", "ymm0", "zmm0"] then some .x86Simd
  else if lower ∈ ["st0", "st(0)"] then some .x86Fpu
  else if lower = "r0" then some .armGpr
  else if lower ∈ ["x0", "w0"] then some .aarch64Gpr
  else if lower ∈ ["v0", "q0", "d0", "s0"] then some .aarch64Simd
  else if lower = "a0" then some .riscvGpr
  else if lower = "fa0" then some .riscvFp
  else none

/-- Keep the first definition of each family, `seen` being the families already
found. -/
def firstOfFamilies : List ReturnFamily → List SSAVar → List VarKey
  | _, [] => []
  | seen, dst :: rest =>
    match returnValueFamily dst.name with
    | none => firstOfFamilies seen rest
    | some family =>
      if family ∈ seen then firstOfFamilies seen rest
      else .fromVar dst :: firstOfFamilies (family :: seen) rest

/-- In a return block, the last definition of each family: of the operations, else
of the phis. -/
def preservedReturnDefs (block : SSABlock) : List VarKey :=
  firstOfFamilies [] ((block.ops.filterMap SSAOp.dst).reverse ++
    (block.phis.map PhiNode.dst).reverse)

def collectPreservedReturnDefs (func : SSAFunction) : List VarKey :=
  func.blockList.flatMap fun block =>
    if isReturnBlock func.cfg block.addr then preservedReturnDefs block else []

def collectUses (func : SSAFunction) : List VarKey :=
  (func.allPhis.flatMap fun phi => phi.sources.map fun source => VarKey.fromVar source.2) ++
    (func.allOps.flatMap fun op => op.sources.map .fromVar) ++ collectPreservedReturnDefs func

/-- Whether an operation stays, given the variables used. -/
def keepsOp (preserveMemoryReads : Bool) (uses : List VarKey) (op : SSAOp) : Bool :=
  match op.dst with
  | some dst => .fromVar dst ∈ uses || op.hasSideEffects preserveMemoryReads
  | none => true

def dropUnused (preserveMemoryReads : Bool) (uses : List VarKey) (block : SSABlock) : SSABlock :=
  { block with
    ops := block.ops.filter (keepsOp preserveMemoryReads uses)
    phis := block.phis.filter fun phi => .fromVar phi.dst ∈ uses }

def dropUnusedRound (preserveMemoryReads : Bool) (func : SSAFunction) : SSAFunction × Bool :=
  func.update fun _ => dropUnused preserveMemoryReads (collectUses func)

/-- Rounds until nothing is dropped. -/
def dropUnusedRounds (preserveMemoryReads : Bool) : Nat → SSAFunction → SSAFunction × Bool
  | 0, func => (func, false)
  | fuel + 1, func =>
    let round := dropUnusedRound preserveMemoryReads func
    if round.2 then ((dropUnusedRounds preserveMemoryReads fuel round.1).1, true)
    else (round.1, false)

/-- The number of definitions, each of which a round may drop. -/
def SSAFunction.definitionCount (func : SSAFunction) : Nat :=
  func.allPhis.length + func.allOps.length

def deadCodeElim (preserveMemoryReads : Bool) (func : SSAFunction) : SSAFunction × Bool :=
  dropUnusedRounds preserveMemoryReads (func.definitionCount + 1) func

/-! ## The pipeline -/

structure OptimizationConfig where
  maxIterations : Nat
  enableSccp : Bool
  enableConstProp : Bool
  enableInstCombine : Bool
  enableCopyProp : Bool
  enableCse : Bool
  enableDce : Bool
  preserveMemoryReads : Bool

def enabled (flag : Bool) (pass : SSAFunction → SSAFunction × Bool)
    (state : SSAFunction × Bool) : SSAFunction × Bool :=
  if flag then ((pass state.1).1, state.2 || (pass state.1).2) else state

/-- Constants without control flow, where constant propagation did not run. -/
def constantPass (checks : Bool) (config : OptimizationConfig) (func : SSAFunction) :
    Except Panic (SSAFunction × Bool) :=
  if config.enableConstProp && !config.enableSccp then
    (computeConstants checks func (max config.maxIterations 1) ∅).map
      (replaceSourcesWithConstants func)
  else .ok (func, false)

def combinePass (checks : Bool) (config : OptimizationConfig) (state : SSAFunction × Bool) :
    Except Panic (SSAFunction × Bool) :=
  if config.enableInstCombine then
    (instCombine checks state.1).map fun combined => (combined.1, state.2 || combined.2)
  else .ok state

/-- The passes before copy propagation. -/
def beforeCopies (checks : Bool) (config : OptimizationConfig) (func : SSAFunction) :
    Except Panic (SSAFunction × Bool) :=
  ((constantPass checks config func).bind (combinePass checks config)).map
    (enabled config.enableCse commonSubexprElim)

def afterShared (config : OptimizationConfig) (shared : SSAFunction × Bool) : SSAFunction × Bool :=
  enabled config.enableDce (deadCodeElim config.preserveMemoryReads)
    (enabled config.enableCopyProp copyPropagation shared)

/-- One iteration of the loop, and whether a pass changed the function. -/
def iteration (checks : Bool) (config : OptimizationConfig) (func : SSAFunction) :
    Except Panic (SSAFunction × Bool) :=
  (beforeCopies checks config func).map (afterShared config)

def iterations (checks : Bool) (config : OptimizationConfig) :
    Nat → SSAFunction → Except Panic SSAFunction
  | 0, func => .ok func
  | rounds + 1, func => do
      let (next, changed) ← iteration checks config func
      if changed then iterations checks config rounds next else .ok next

/-- What the iterations start from, with `fuel` steps for constant propagation. -/
def optimizerStart (checks : Bool) (fuel : Nat) (config : OptimizationConfig)
    (func : SSAFunction) : Option (Except Panic SSAFunction) :=
  if config.enableSccp then
    (sccp checks func fuel).map fun found => found.map fun (consts, executable) =>
      (applySccpResults func consts executable).1
  else some (.ok func)

def optimizeFunction (checks : Bool) (fuel : Nat) (config : OptimizationConfig)
    (func : SSAFunction) : Option (Except Panic SSAFunction) :=
  (optimizerStart checks fuel config func).map fun start =>
    start.bind (iterations checks config (max config.maxIterations 1))

end R2Sleigh.Ssa
