import R2Sleigh.Ssa.Op

/-!
Contract: version stacks, and the renaming of a single operation.

Owns `RenameContext` and `renameOp`.

The top of a stack is the head of its list. Versions are natural numbers; a
`u32` counter would have to count 2^32 definitions of one name to differ.
-/

namespace R2Sleigh.Ssa

open Il Lib

structure RenameContext where
  versionStacks : HashMap String (List Nat)
  counters : HashMap String Nat
  sizes : HashMap String Nat

namespace RenameContext

def new : RenameContext := ⟨∅, ∅, ∅⟩

/-- Version 0 stands for the value at function entry. -/
def initVar (ctx : RenameContext) (name : String) (size : Nat) : RenameContext where
  sizes := ctx.sizes.insert name size
  versionStacks :=
    if name ∈ ctx.versionStacks then ctx.versionStacks else ctx.versionStacks.insert name [0]
  counters := if name ∈ ctx.counters then ctx.counters else ctx.counters.insert name 0

/-- The stack of a name, empty if there is none. -/
def stack (ctx : RenameContext) (name : String) : List Nat := ctx.versionStacks.listAt name

/-- The number of versions created so far. -/
def counter (ctx : RenameContext) (name : String) : Nat := (ctx.counters.lookup name).getD 0

def currentVersion (ctx : RenameContext) (name : String) : Nat := (ctx.stack name).head?.getD 0

def newVersion (ctx : RenameContext) (name : String) : Nat × RenameContext :=
  let version := ctx.counter name + 1
  (version,
    { ctx with
      counters := ctx.counters.insert name version
      versionStacks := ctx.versionStacks.insert name (version :: ctx.stack name) })

def popVersion (ctx : RenameContext) (name : String) : RenameContext :=
  match ctx.versionStacks.lookup name with
  | none => ctx
  | some stack => { ctx with versionStacks := ctx.versionStacks.insert name stack.tail }

def getSize (ctx : RenameContext) (name : String) : Nat := (ctx.sizes.lookup name).getD 8

def readVar (ctx : RenameContext) (name : String) : SSAVar :=
  ⟨name, ctx.currentVersion name, ctx.getSize name⟩

def writeVar (ctx : RenameContext) (name : String) : SSAVar × RenameContext :=
  let (version, ctx') := ctx.newVersion name
  (⟨name, version, ctx'.getSize name⟩, ctx')

/-- Initialised names equal to `name` up to case. -/
def matchingVarNamesCi (ctx : RenameContext) (name : String) : List String :=
  (ctx.sizes.keys.filter fun candidate =>
    toAsciiLowercase candidate = toAsciiLowercase name).insertionSort (· ≤ ·)

/-! ## What the operations change -/

variable (ctx : RenameContext) (x y : String)

theorem stack_writeVar : (ctx.writeVar x).2.stack y =
    if y = x then (ctx.counter x + 1) :: ctx.stack x else ctx.stack y := by
  by_cases here : y = x
  · subst here
    simp [writeVar, newVersion, stack, HashMap.listAt]
  · simp [writeVar, newVersion, stack, HashMap.listAt, AList.lookup_insert_ne here, here]

theorem counter_writeVar : (ctx.writeVar x).2.counter y =
    if y = x then ctx.counter x + 1 else ctx.counter y := by
  by_cases here : y = x
  · subst here
    simp [writeVar, newVersion, counter]
  · simp [writeVar, newVersion, counter, AList.lookup_insert_ne here, here]

@[simp] theorem sizes_writeVar : (ctx.writeVar x).2.sizes = ctx.sizes := rfl

@[simp] theorem name_writeVar : (ctx.writeVar x).1.name = x := rfl

@[simp] theorem version_writeVar : (ctx.writeVar x).1.version = ctx.counter x + 1 := rfl

theorem currentVersion_writeVar : (ctx.writeVar x).2.currentVersion y =
    if y = x then ctx.counter x + 1 else ctx.currentVersion y := by
  unfold currentVersion
  rw [stack_writeVar]
  split <;> rfl

theorem stack_popVersion : (ctx.popVersion x).stack y =
    if y = x then (ctx.stack x).tail else ctx.stack y := by
  unfold popVersion
  cases stored : ctx.versionStacks.lookup x with
  | none =>
    by_cases here : y = x
    · subst here
      simp [stack, HashMap.listAt, stored]
    · simp [here]
  | some versions =>
    by_cases here : y = x
    · subst here
      simp [stack, HashMap.listAt, stored]
    · simp [stack, HashMap.listAt, AList.lookup_insert_ne here, here]

@[simp] theorem counter_popVersion : (ctx.popVersion x).counter y = ctx.counter y := by
  unfold popVersion
  split <;> rfl

@[simp] theorem sizes_popVersion : (ctx.popVersion x).sizes = ctx.sizes := by
  unfold popVersion
  split <;> rfl

@[simp] theorem counter_initVar (size : Nat) : (ctx.initVar x size).counter y = ctx.counter y := by
  unfold initVar counter
  by_cases known : x ∈ ctx.counters
  · simp [known]
  · by_cases here : y = x
    · subst here
      simp [known, AList.lookup_eq_none.mpr known]
    · simp [known, AList.lookup_insert_ne here]

theorem stack_initVar (size : Nat) : (ctx.initVar x size).stack y = ctx.stack y ∨
    (y = x ∧ ctx.stack y = [] ∧ (ctx.initVar x size).stack y = [0]) := by
  unfold initVar stack HashMap.listAt
  by_cases known : x ∈ ctx.versionStacks
  · simp [known]
  · by_cases here : y = x
    · subst here
      simp [known, AList.lookup_eq_none.mpr known]
    · simp [known, AList.lookup_insert_ne here]

end RenameContext

/-- The context together with the names to pop when the block is left. -/
structure RenameState where
  ctx : RenameContext
  definedVars : List String

/-- Constants are not versioned. -/
def readVarnode (regNames : Option RegisterNameMap) (ctx : RenameContext) (vn : Varnode) : SSAVar :=
  match vn.space with
  | .Const => SSAVar.constant vn.offset vn.size
  | _ => ctx.readVar (varnodeToName vn regNames)

/-- Write a name and remember it. -/
def RenameState.define (state : RenameState) (name : String) : SSAVar × RenameState :=
  let (var, ctx) := state.ctx.writeVar name
  (var, ⟨ctx, state.definedVars ++ [name]⟩)

def writeVarnode (regNames : Option RegisterNameMap) (state : RenameState) (vn : Varnode) :
    SSAVar × RenameState :=
  state.define (varnodeToName vn regNames)

def writeOptional (regNames : Option RegisterNameMap) (state : RenameState) :
    Option Varnode → Option SSAVar × RenameState
  | none => (none, state)
  | some vn =>
    let (var, state') := writeVarnode regNames state vn
    (some var, state')

/-- `format!("{:?}", space)`. -/
def spaceDebug : SpaceId → String
  | .Ram => "Ram"
  | .Register => "Register"
  | .Unique => "Unique"
  | .Const => "Const"
  | .Custom id => "Custom(" ++ decimal id ++ ")"

def renameBinaryOp (regNames : Option RegisterNameMap) (state : RenameState)
    (dst src1 src2 : Varnode) (f : SSAVar → SSAVar → SSAVar → SSAOp) : SSAOp × RenameState :=
  let src1Ssa := readVarnode regNames state.ctx src1
  let src2Ssa := readVarnode regNames state.ctx src2
  let (dstSsa, state') := writeVarnode regNames state dst
  (f dstSsa src1Ssa src2Ssa, state')

def renameUnaryOp (regNames : Option RegisterNameMap) (state : RenameState)
    (dst src : Varnode) (f : SSAVar → SSAVar → SSAOp) : SSAOp × RenameState :=
  let srcSsa := readVarnode regNames state.ctx src
  let (dstSsa, state') := writeVarnode regNames state dst
  (f dstSsa srcSsa, state')

/-- Rename a single operation. -/
def renameOp (regNames : Option RegisterNameMap) (state : RenameState) :
    R2ILOp → SSAOp × RenameState
  | .Copy dst src => renameUnaryOp regNames state dst src .Copy
  | .Load dst space addr =>
    let addrSsa := readVarnode regNames state.ctx addr
    let (dstSsa, state') := writeVarnode regNames state dst
    (.Load dstSsa (spaceDebug space) addrSsa, state')
  | .Store space addr val =>
    let addrSsa := readVarnode regNames state.ctx addr
    let valSsa := readVarnode regNames state.ctx val
    (.Store (spaceDebug space) addrSsa valSsa, state)
  | .Fence ordering => (.Fence ordering, state)
  | .LoadLinked dst space addr ordering =>
    let addrSsa := readVarnode regNames state.ctx addr
    let (dstSsa, state') := writeVarnode regNames state dst
    (.LoadLinked dstSsa (spaceDebug space) addrSsa ordering, state')
  | .StoreConditional result space addr val ordering =>
    let addrSsa := readVarnode regNames state.ctx addr
    let valSsa := readVarnode regNames state.ctx val
    let (resultSsa, state') := writeOptional regNames state result
    (.StoreConditional resultSsa (spaceDebug space) addrSsa valSsa ordering, state')
  | .AtomicCAS dst space addr expected replacement ordering =>
    let addrSsa := readVarnode regNames state.ctx addr
    let expectedSsa := readVarnode regNames state.ctx expected
    let replacementSsa := readVarnode regNames state.ctx replacement
    let (dstSsa, state') := writeVarnode regNames state dst
    (.AtomicCAS dstSsa (spaceDebug space) addrSsa expectedSsa replacementSsa ordering, state')
  | .LoadGuarded dst space addr guard ordering =>
    let addrSsa := readVarnode regNames state.ctx addr
    let guardSsa := readVarnode regNames state.ctx guard
    let (dstSsa, state') := writeVarnode regNames state dst
    (.LoadGuarded dstSsa (spaceDebug space) addrSsa guardSsa ordering, state')
  | .StoreGuarded space addr val guard ordering =>
    let addrSsa := readVarnode regNames state.ctx addr
    let valSsa := readVarnode regNames state.ctx val
    let guardSsa := readVarnode regNames state.ctx guard
    (.StoreGuarded (spaceDebug space) addrSsa valSsa guardSsa ordering, state)
  | .binary op dst a b => renameBinaryOp regNames state dst a b (.binary op)
  | .unary op dst src => renameUnaryOp regNames state dst src (.unary op)
  | .Piece dst hi lo => renameBinaryOp regNames state dst hi lo .Piece
  | .Subpiece dst src offset =>
    renameUnaryOp regNames state dst src fun dst src => .Subpiece dst src offset
  | .Branch target => (.Branch (readVarnode regNames state.ctx target), state)
  | .CBranch target cond =>
    let targetSsa := readVarnode regNames state.ctx target
    let condSsa := readVarnode regNames state.ctx cond
    (.CBranch targetSsa condSsa, state)
  | .BranchInd target => (.BranchInd (readVarnode regNames state.ctx target), state)
  | .Call target => (.Call (readVarnode regNames state.ctx target), state)
  | .CallInd target => (.CallInd (readVarnode regNames state.ctx target), state)
  | .Return target => (.Return (readVarnode regNames state.ctx target), state)
  | .CallOther output userop inputs =>
    let inputsSsa := inputs.map (readVarnode regNames state.ctx)
    let (outputSsa, state') := writeOptional regNames state output
    (.CallOther outputSsa userop inputsSsa, state')
  | .Nop => (.Nop, state)
  | .Unimplemented => (.Unimplemented, state)
  | .CpuId dst =>
    let (dstSsa, state') := writeVarnode regNames state dst
    (.CpuId dstSsa, state')
  | .Breakpoint => (.Breakpoint, state)
  | .Multiequal dst inputs =>
    let inputsSsa := inputs.map (readVarnode regNames state.ctx)
    let (dstSsa, state') := writeVarnode regNames state dst
    (.Phi dstSsa inputsSsa, state')
  -- aliasing is treated as a copy
  | .Indirect dst src _ => renameUnaryOp regNames state dst src .Copy
  | .PtrAdd dst base index elementSize =>
    renameBinaryOp regNames state dst base index fun dst base index =>
      .PtrAdd dst base index elementSize
  | .PtrSub dst base index elementSize =>
    renameBinaryOp regNames state dst base index fun dst base index =>
      .PtrSub dst base index elementSize
  | .SegmentOp dst segment offset => renameBinaryOp regNames state dst segment offset .SegmentOp
  | .New dst src => renameUnaryOp regNames state dst src .New
  | .Extract dst src position => renameBinaryOp regNames state dst src position .Extract
  | .Insert dst src value position =>
    let srcSsa := readVarnode regNames state.ctx src
    let valSsa := readVarnode regNames state.ctx value
    let posSsa := readVarnode regNames state.ctx position
    let (dstSsa, state') := writeVarnode regNames state dst
    (.Insert dstSsa srcSsa valSsa posSsa, state')

end R2Sleigh.Ssa

namespace R2Sleigh.Il.R2ILOp

/-- The varnodes that SSA construction reads, in operand order. -/
def inputs : R2ILOp → List Varnode
  | Copy _ src | unary _ _ src | Subpiece _ src _ | New _ src | Indirect _ src _ => [src]
  | Load _ _ addr | LoadLinked _ _ addr _ => [addr]
  | Store _ addr val | StoreConditional _ _ addr val _ => [addr, val]
  | AtomicCAS _ _ addr expected replacement _ => [addr, expected, replacement]
  | LoadGuarded _ _ addr guard _ => [addr, guard]
  | StoreGuarded _ addr val guard _ => [addr, val, guard]
  | binary _ _ a b => [a, b]
  | Piece _ hi lo => [hi, lo]
  | Extract _ src position => [src, position]
  | Insert _ src value position => [src, value, position]
  | PtrAdd _ base index _ | PtrSub _ base index _ => [base, index]
  | SegmentOp _ segment offset => [segment, offset]
  | Branch target | BranchInd target | Call target | CallInd target | Return target => [target]
  | CBranch target cond => [target, cond]
  | CallOther _ _ inputs | Multiequal _ inputs => inputs
  | Fence _ | Nop | Unimplemented | Breakpoint | CpuId _ => []

/-- The varnode that SSA construction writes. -/
def output : R2ILOp → Option Varnode
  | Copy dst _ | Load dst _ _ | LoadLinked dst _ _ _ | AtomicCAS dst _ _ _ _ _
  | LoadGuarded dst _ _ _ _ | binary _ dst _ _ | unary _ dst _ | Piece dst _ _
  | Subpiece dst _ _ | CpuId dst | Multiequal dst _ | Indirect dst _ _ | PtrAdd dst _ _ _
  | PtrSub dst _ _ _ | SegmentOp dst _ _ | New dst _ | Extract dst _ _ | Insert dst _ _ _ =>
    some dst
  | StoreConditional result _ _ _ _ => result
  | CallOther output _ _ => output
  | Store _ _ _ | Fence _ | StoreGuarded _ _ _ _ _ | Branch _ | CBranch _ _ | BranchInd _
  | Call _ | CallInd _ | Return _ | Nop | Unimplemented | Breakpoint => none

end R2Sleigh.Il.R2ILOp

namespace R2Sleigh.Ssa

open Il Lib

/-- The name an operation writes. -/
def outputName (regNames : Option RegisterNameMap) (op : R2ILOp) : Option String :=
  op.output.map fun vn => varnodeToName vn regNames

theorem renameOp_spec (regNames : Option RegisterNameMap) (state : RenameState) (op : R2ILOp) :
    (renameOp regNames state op).1.sources = op.inputs.map (readVarnode regNames state.ctx) ∧
    (renameOp regNames state op).1.dst =
      (outputName regNames op).map (fun name => (state.define name).1) ∧
    (renameOp regNames state op).2 =
      ((outputName regNames op).map (fun name => (state.define name).2)).getD state := by
  cases op with
  | StoreConditional result space addr val ordering => cases result <;> exact ⟨rfl, rfl, rfl⟩
  | CallOther output userop inputs => cases output <;> exact ⟨rfl, rfl, rfl⟩
  | _ => exact ⟨rfl, rfl, rfl⟩

end R2Sleigh.Ssa
