import R2Sleigh.Sym.Arith
import R2Sleigh.Sym.State
import R2Sleigh.Ssa.Function

/-!
Contract: symbolic execution of SSA operations and blocks.

Owns `readVar`, `writeVar`, `valueOf` and `step`.

The solver's enumeration of addresses and the call hooks are parameters, and so
is `str::to_uppercase`, which only makes keys. Widths are exact: the source
computes them in 32 bits.
-/

namespace R2Sleigh.Sym

open Il Lib Ssa SymValue

variable {BV Formula Model : Type}

inductive CallHookResult where
  | fallthrough
  | jump (pc : Word)
  | terminate (status : ExitStatus)
deriving DecidableEq, Repr

/-- A hook changes the state and may fail with a message. -/
abbrev CallHook (BV Formula : Type) :=
  SymState BV Formula → Exec (SymState BV Formula × Except String CallHookResult)

structure SymExecutor (BV Formula : Type) where
  checks : Bool
  toUppercase : String → String
  enumerate : Enumerator BV Formula
  callHooks : HashMap Word (CallHook BV Formula)

/-! ## States -/

namespace SymState

def getRegisterSized (state : SymState BV Formula) (name : String) (bits : Nat) : SymValue BV :=
  (state.registers.lookup name).getD (.unknown (normalizeBvBits bits) 0)

def setRegister (state : SymState BV Formula) (name : String) (value : SymValue BV) :
    SymState BV Formula :=
  { state with registers := state.registers.insert name value }

def terminate (state : SymState BV Formula) (status : ExitStatus) : SymState BV Formula :=
  { state with active := false, exitStatus := some status }

def isTerminated (state : SymState BV Formula) : Bool := !state.active

variable [Z3 BV Formula Model]

def memRead (enumerate : Enumerator BV Formula) (state : SymState BV Formula) (addr : SymValue BV)
    (size : Nat) : Fresh (SymValue BV) :=
  state.memory.readWithConstraints enumerate addr size state.constraints

def memWrite (enumerate : Enumerator BV Formula) (state : SymState BV Formula)
    (addr value : SymValue BV) (size : Nat) : Fresh (SymState BV Formula) := do
  let memory ← state.memory.writeWithConstraints enumerate addr value size state.constraints
  return { state with memory := memory }

def isZero (value : SymValue BV) : Fresh Formula := do
  return Z3.eq (value.toBv (← nextFresh)) (Z3.fromU64 0 value.bits)

def addTrueConstraint (state : SymState BV Formula) (value : SymValue BV) :
    Fresh (SymState BV Formula) := do
  return { state with constraints := state.constraints ++ [Z3.not BV (← isZero value)] }

def addFalseConstraint (state : SymState BV Formula) (value : SymValue BV) :
    Fresh (SymState BV Formula) := do
  return { state with constraints := state.constraints ++ [← isZero value] }

end SymState

/-! ## Values -/

def guarded [Z3 BV Formula Model] (guard taken other : SymValue BV) : Fresh (SymValue BV) := do
  let cond := Z3.not BV (← SymState.isZero guard)
  return .symbolic (Z3.ite cond (taken.toBv (← nextFresh)) (other.toBv (← nextFresh)))
    (normalizeBvBits taken.bits) 0

/-- The bits of a value from `low` on, as many as the destination has. -/
def takeBits [Z3 BV Formula Model] (value : SymValue BV) (low dstBits : Nat) : SymValue BV :=
  let srcBits := max value.bits 1
  if srcBits ≤ low then .unknown (normalizeBvBits dstBits) 0
  else
    let extracted := value.extract (min (low + (dstBits - 1)) (srcBits - 1)) low
    if extracted.bits < dstBits then extracted.zeroExtend dstBits else extracted

/-- The leading zeros of a word among its low `bits`. -/
def leadingZerosIn (value : Word) (bits : Nat) : Nat :=
  if 64 ≤ bits then leadingZeros value
  else
    let masked := value &&& lowMask bits
    if masked = 0 then bits else bits - (64 - leadingZeros masked)

section Values

variable [Z3Arith BV Formula Model]

/-- One bit: whether the signs say that a sum or a difference overflows. -/
def signedOverflow (op : BvOp) (sameSigns : Bool) (a b : SymValue BV) : Fresh (SymValue BV) := do
  let (aBv, bBv, bits) ← normalizeWidthsSigned a b
  let sign := fun bv => Z3.extract bv (bits - 1) (bits - 1)
  let signs := Z3.eq (sign aBv) (sign bBv)
  let changed := Z3.not BV (Z3.eq (sign aBv) (sign (Z3Arith.binary op aBv bBv)))
  return flag (Z3.and BV (if sameSigns then signs else Z3.not BV signs) changed) 0

def notEqual (a b : SymValue BV) : Fresh (SymValue BV) := do
  let equal ← a.eq b
  match equal.asConcrete with
  | some value => return .ofWord (ofBool (value == 0)) 1
  | none => return flag (Z3.eq (equal.toBv (← nextFresh)) (Z3.fromU64 0 1)) 0

/-- The operations with operands `a` and `b`. -/
def binaryValue (checks : Bool) (dstBits : Nat) (a b : SymValue BV) :
    BinaryOp → Exec (SymValue BV)
  | .IntAdd => a.add b
  | .IntSub => a.sub b
  | .IntMult => a.mul b
  | .IntDiv => a.udiv b
  | .IntSDiv => a.sdiv b
  | .IntRem => a.urem b
  | .IntSRem => a.srem b
  | .IntCarry => do
      let sum ← a.add b
      sum.ult a
  | .IntSCarry => signedOverflow .bvadd true a b
  | .IntSBorrow => signedOverflow .bvsub false a b
  | .IntAnd | .BoolAnd => a.and b
  | .IntOr | .BoolOr => a.or b
  | .IntXor | .BoolXor => a.xor b
  | .IntLeft => a.shl checks b
  | .IntRight => a.lshr checks b
  | .IntSRight => a.ashr b
  | .IntEqual => a.eq b
  | .IntNotEqual => notEqual a b
  | .IntLess => a.ult b
  | .IntSLess => a.slt b
  | .IntLessEqual => a.ule b
  | .IntSLessEqual => a.sle b
  | .FloatAdd | .FloatSub | .FloatMult | .FloatDiv | .FloatEqual | .FloatNotEqual | .FloatLess
  | .FloatLessEqual => return .newSymbolic "float_op" dstBits

/-- The operations with one operand. -/
def unaryValue (checks : Bool) (dstBits : Nat) (value : SymValue BV) :
    UnaryOp → Exec (SymValue BV)
  | .IntNegate => value.neg
  | .IntNot => value.not
  | .IntZExt => return value.zeroExtend dstBits
  | .IntSExt => value.signExtend checks dstBits
  | .BoolNot =>
    match value.asConcrete with
    | some word => return .ofWord (ofBool (word == 0)) 1
    | none => value.not
  | .PopCount =>
    match value.asConcrete with
    | some word => return .ofWord (BitVec.ofNat 64 (countOnes word)) dstBits
    | none => return .newSymbolic "popcount" dstBits
  | .Lzcount =>
    match value.asConcrete with
    | some word => return .ofWord (BitVec.ofNat 64 (leadingZerosIn word value.bits)) dstBits
    | none => return .newSymbolic "lzcount" dstBits
  | .Cast =>
    let dstBits := max dstBits 1
    if value.bits < dstBits then return value.zeroExtend dstBits
    else if dstBits < value.bits then return value.extract (dstBits - 1) 0
    else return value
  | .FloatNeg | .FloatAbs | .FloatSqrt | .FloatCeil | .FloatFloor | .FloatRound | .FloatNaN
  | .Int2Float | .Float2Int | .FloatFloat | .Trunc => return .newSymbolic "float_op" dstBits

end Values

namespace SymExecutor

variable (executor : SymExecutor BV Formula)

def readVar (state : SymState BV Formula) (var : SSAVar) : SymValue BV :=
  let literal := fun digits => ofWord ((fromStrRadix 16 digits).getD 0) (var.size * 8)
  if var.isConst then literal (var.name.toList.drop 6)
  else if startsWith var.name "ram:" then literal (var.name.toList.drop 4)
  else state.getRegisterSized (displayName executor.toUppercase var) (var.size * 8)

def writeVar (state : SymState BV Formula) (var : SSAVar) (value : SymValue BV) :
    SymState BV Formula :=
  state.setRegister (displayName executor.toUppercase var) value

variable [Z3Arith BV Formula Model]

/-- The destination of an operation and what is stored there; `none` for
operations that write memory, transfer control or do nothing. -/
def valueOf (state : SymState BV Formula) : SSAOp → Option (SSAVar × Exec (SymValue BV))
  | .Copy dst src => some (dst, pure (executor.readVar state src))
  | .CallDefine dst => some (dst, pure (.newSymbolic
      ("calldef_" ++ displayName executor.toUppercase dst) (dst.size * 8)))
  | .Load dst _ addr | .LoadLinked dst _ addr _ =>
    some (dst, state.memRead executor.enumerate (executor.readVar state addr) dst.size)
  | .LoadGuarded dst _ addr guard _ => some (dst, do
      let guardVal := executor.readVar state guard
      let loaded ← state.memRead executor.enumerate (executor.readVar state addr) dst.size
      let fallback := unknown (normalizeBvBits (dst.size * 8)) 0
      match guardVal.asConcrete with
      | some g => return if g ≠ 0 then loaded else fallback
      | none => guarded guardVal loaded fallback)
  | .binary op dst a b => some (dst, binaryValue executor.checks (dst.size * 8)
      (executor.readVar state a) (executor.readVar state b) op)
  | .unary op dst src => some (dst, unaryValue executor.checks (dst.size * 8)
      (executor.readVar state src) op)
  | .Piece dst hi lo => some (dst, (executor.readVar state hi).concat (executor.readVar state lo))
  | .Subpiece dst src offset => some (dst, pure (takeBits (executor.readVar state src) (offset * 8)
      (max (dst.size * 8) 8)))
  | .Phi dst sources => sources.head?.map fun src => (dst, pure (executor.readVar state src))
  | .CpuId dst => some (dst, pure (.newSymbolic "cpuid" (dst.size * 8)))
  | .CallOther output _ _ =>
    output.map fun dst => (dst, pure (.newSymbolic "callother" (dst.size * 8)))
  | .PtrAdd dst base index elementSize => some (dst, do
      let indexVal := executor.readVar state index
      let offset ← indexVal.mul (.ofWord (BitVec.ofNat 64 elementSize) indexVal.bits)
      (executor.readVar state base).add offset)
  | .PtrSub dst base index elementSize => some (dst, do
      let indexVal := executor.readVar state index
      let offset ← indexVal.mul (.ofWord (BitVec.ofNat 64 elementSize) indexVal.bits)
      (executor.readVar state base).sub offset)
  | .SegmentOp dst _ offset => some (dst, pure (executor.readVar state offset))
  | .New dst _ => some (dst, pure (.newSymbolic "alloc" (dst.size * 8)))
  | .Extract dst src position => some (dst,
      match (executor.readVar state position).asConcrete with
      | some p => pure (takeBits (executor.readVar state src) (p.toNat % 2 ^ 32)
          (max (dst.size * 8) 1))
      | none => pure (.newSymbolic "extract" (dst.size * 8)))
  | .Insert dst src _ _ => some (dst, pure (executor.readVar state src))
  | .Store .. | .Fence .. | .StoreConditional .. | .AtomicCAS .. | .StoreGuarded .. | .Branch ..
  | .CBranch .. | .BranchInd .. | .Call .. | .CallInd .. | .Return .. | .Nop | .Unimplemented
  | .Breakpoint => none

/-- A state together with the states forked from it, or an error. -/
abbrev Outcome (BV Formula : Type) :=
  SymState BV Formula × Except String (List (SymState BV Formula))

def runHook (state : SymState BV Formula) (hook : CallHook BV Formula) :
    Exec (Outcome BV Formula) := do
  let (state, result) ← hook state
  match result with
  | .error message => return (state, .error message)
  | .ok .fallthrough => return (state, .ok [])
  | .ok (.jump pc) => return ({ state with pc := pc }, .ok [])
  | .ok (.terminate status) => return (state.terminate status, .ok [])

/-- The state at a target, if the target is known. -/
def jumpTo (state : SymState BV Formula) (target : SymValue BV) : SymState BV Formula :=
  match target.asConcrete with
  | some addr => { state with pc := addr }
  | none => state

/-- Execute one operation. -/
def step (state : SymState BV Formula) (op : SSAOp) : Exec (Outcome BV Formula) := do
  let read := executor.readVar state
  match op with
  | .Store _ addr val =>
    return (← state.memWrite executor.enumerate (read addr) (read val) val.size, .ok [])
  | .StoreConditional result _ addr val _ =>
    let written ← state.memWrite executor.enumerate (read addr) (read val) val.size
    match result with
    | none => return (written, .ok [])
    | some dst =>
      let bits := max (dst.size * 8) 1
      let status := if (read addr).asConcrete.isSome then ofWord 0 bits
        else .newSymbolic "store_conditional" bits
      return (executor.writeVar written dst status, .ok [])
  | .AtomicCAS dst _ addr expected replacement _ =>
    let old ← state.memRead executor.enumerate (read addr) dst.size
    let cond ← old.eq (read expected)
    let new ← match cond.asConcrete with
      | some v => pure (if v ≠ 0 then read replacement else old)
      | none => do
          let taken := Z3.not BV (← SymState.isZero cond)
          let oldBv := old.toBv (← nextFresh)
          let replBv := (read replacement).toBv (← nextFresh)
          pure (.symbolic (Z3.ite taken replBv oldBv) (normalizeBvBits old.bits) 0)
    let written ← state.memWrite executor.enumerate (read addr) new dst.size
    return (executor.writeVar written dst old, .ok [])
  | .StoreGuarded _ addr val guard _ =>
    match (read guard).asConcrete with
    | some g =>
      if g ≠ 0 then
        return (← state.memWrite executor.enumerate (read addr) (read val) val.size, .ok [])
      else return (state, .ok [])
    | none =>
      let old ← state.memRead executor.enumerate (read addr) val.size
      let taken := Z3.not BV (← SymState.isZero (read guard))
      let oldBv := old.toBv (← nextFresh)
      let newBv := (read val).toBv (← nextFresh)
      let merged := symbolic (Z3.ite taken newBv oldBv)
        (normalizeBvBits old.bits) 0
      return (← state.memWrite executor.enumerate (read addr) merged val.size, .ok [])
  | .Branch target => return (jumpTo state (read target), .ok [])
  | .CBranch target cond =>
    match (read cond).asConcrete with
    | some c => return (if c ≠ 0 then jumpTo state (read target) else state, .ok [])
    | none =>
      let trueState ← state.addTrueConstraint (read cond)
      let falseState ← state.addFalseConstraint (read cond)
      return (falseState, .ok [jumpTo trueState (read target)])
  | .BranchInd target =>
    match (read target).asConcrete with
    | some addr => return ({ state with pc := addr }, .ok [])
    | none => return (state.terminate (.error "Symbolic indirect branch"), .ok [])
  | .Call target =>
    match (read target).asConcrete.bind fun addr => executor.callHooks.lookup addr with
    | some hook => runHook state hook
    | none => return (state, .ok [])
  | .CallInd target =>
    match (read target).asConcrete with
    | some addr =>
      match executor.callHooks.lookup addr with
      | some hook => runHook state hook
      | none => return (state, .ok [])
    | none => return (state.terminate (.error "Symbolic indirect call"), .ok [])
  | .Return _ => return (state.terminate .return, .ok [])
  | .Unimplemented => return (state.terminate .unimplemented, .ok [])
  | op =>
    match executor.valueOf state op with
    | some (dst, value) => return (executor.writeVar state dst (← value), .ok [])
    | none => return (state, .ok [])

/-! ## Blocks -/

/-- The source of a phi for the block executed before, else its first one. -/
def phiSource (incoming : Option Word) (phi : PhiNode) : Option SSAVar :=
  ((incoming.bind fun prev => phi.sources.find? fun source => source.1 = prev.toNat).map
    Prod.snd).or (phi.sources.head?.map Prod.snd)

def executePhi (incoming : Option Word) (state : SymState BV Formula) (phi : PhiNode) :
    SymState BV Formula :=
  match phiSource incoming phi with
  | some src => executor.writeVar state phi.dst (executor.readVar state src)
  | none => state

/-- The operations of a block, while the state is active. -/
def executeOps : List SSAOp → SymState BV Formula → List (SymState BV Formula) →
    Exec (Outcome BV Formula)
  | [], state, forked => return (state, .ok forked)
  | op :: rest, state, forked => do
      if !state.active then return (state, .ok forked)
      let (state, result) ← executor.step state op
      match result with
      | .error message => return (state, .error message)
      | .ok new => executeOps rest { state with depth := state.depth + 1 } (forked ++ new)

def executeBlock (state : SymState BV Formula) (block : SSABlock) : Exec (Outcome BV Formula) :=
  executor.executeOps block.ops (block.phis.foldl (executor.executePhi state.prevPc) state) []

end SymExecutor

end R2Sleigh.Sym
