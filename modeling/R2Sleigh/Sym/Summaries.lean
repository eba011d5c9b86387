import R2Sleigh.Lib.Digits
import R2Sleigh.Sym.Executor

/-!
Contract: summaries of library functions.

Owns `CallInfo`, `SummaryEffect`, `FunctionSummary` and `CallConv`.
-/

namespace R2Sleigh.Sym

open Lib Ssa

variable {BV Formula Model : Type}

inductive SummaryEffect (BV : Type) where
  | return (value : Option (SymValue BV))
  | terminate (status : ExitStatus)

structure CallInfo (BV : Type) where
  args : List (SymValue BV)
  argBits : Nat
  retBits : Nat

structure FunctionSummary (BV Formula : Type) where
  name : String
  arity : Nat
  execute : SymState BV Formula → CallInfo BV → Fresh (SymState BV Formula × SummaryEffect BV)

/-! ## Calling conventions -/

/-- The name and the version of a register's key. -/
def splitVersion (name : String) : Option (String × Nat) :=
  let reversed := name.toList.reverse
  let suffix := (reversed.takeWhile (· ≠ '_')).reverse
  match reversed.dropWhile (· ≠ '_') with
  | [] => none
  | _ :: stem =>
    if suffix.isEmpty ∨ ¬ suffix.all Char.isDigit then none
    else
      -- A number that is no `u32` is no version.
      match readDigits 10 suffix with
      | some version =>
        if version < 2 ^ 32 then some (String.ofList stem.reverse, version) else none
      | none => none

/-- `str::eq_ignore_ascii_case`. -/
def eqIgnoreAsciiCase (a b : String) : Bool := toAsciiLowercase a == toAsciiLowercase b

/-- The loop over the keys: a key without a version ends it, and of the others the first with
the highest version is kept. -/
def findKeyFrom (base : String) : List String → Option (Nat × String) → Option String
  | [], best => best.map Prod.snd
  | key :: rest, best =>
    match splitVersion key with
    | some (stem, version) =>
      if eqIgnoreAsciiCase stem base && best.all fun found => decide (found.1 < version) then
        findKeyFrom base rest (some (version, key))
      else findKeyFrom base rest best
    | none => if eqIgnoreAsciiCase key base then some key else findKeyFrom base rest best

def findRegisterKey (state : SymState BV Formula) (base : String) : Option String :=
  findKeyFrom base state.registers.keys none

structure CallConv where
  argRegisters : List String
  retRegister : String
  argBits : Nat
  retBits : Nat
deriving DecidableEq, Repr

namespace CallConv

def x8664Sysv : CallConv := ⟨["RDI", "RSI", "RDX", "RCX", "R8", "R9"], "RAX", 64, 64⟩

def readRegister (callconv : CallConv) (state : SymState BV Formula) (base : String) : SymValue BV :=
  match findRegisterKey state base with
  | some key => state.getRegisterSized key callconv.argBits
  | none => .unknown (SymValue.normalizeBvBits callconv.argBits) 0

def collectCallInfo (callconv : CallConv) (state : SymState BV Formula) (arity : Nat) :
    CallInfo BV where
  args := (List.range arity).map fun i =>
    match callconv.argRegisters[i]? with
    | some reg => callconv.readRegister state reg
    | none => .unknown (SymValue.normalizeBvBits callconv.argBits) 0
  argBits := callconv.argBits
  retBits := callconv.retBits

def writeReturn [Z3 BV Formula Model] (callconv : CallConv) (state : SymState BV Formula)
    (value : SymValue BV) : SymState BV Formula :=
  let key := (findRegisterKey state callconv.retRegister).getD (callconv.retRegister ++ "_0")
  state.setRegister key (SymMemory.adjustBits value callconv.retBits)

end CallConv

/-- The bounds of the summaries that are installed. -/
def defaultMaxMemcpy : Word := 0x1000

def defaultMaxMemset : Word := 0x1000

variable [Z3Arith BV Formula Model]

/-- The value lies between two constants. -/
def SymState.constrainRange (state : SymState BV Formula) (value : SymValue BV) (min max : Word) :
    Fresh (SymState BV Formula) := do
  let bv := value.toBv (← nextFresh)
  let ge := Z3Arith.compare .bvule (Z3.fromU64 min value.bits) bv
  let le := Z3Arith.compare .bvule bv (Z3.fromU64 max value.bits)
  return { state with constraints := state.constraints ++ [Z3.and BV ge le] }

/-! ## Byte loops -/

section Loops

variable (enumerate : Enumerator BV Formula)

/-- One round: a byte from `source` is stored at an offset from `dst`, under a length that is
not known only where the offset lies below it. -/
def fillByte (dst n : SymValue BV)
    (source : SymState BV Formula → SymValue BV → Fresh (SymValue BV))
    (state : SymState BV Formula) (offset : Nat) : Fresh (SymState BV Formula) := do
  let offsetVal := SymValue.ofWord (BitVec.ofNat 64 offset) dst.bits
  let dstAddr ← dst.add offsetVal
  let byte ← source state offsetVal
  if n.isConcrete then
    state.memWrite enumerate dstAddr byte 1
  else
    let dstOld ← state.memRead enumerate dstAddr 1
    let idxVal := SymValue.ofWord (BitVec.ofNat 64 offset) n.bits
    let cond ← idxVal.ult n
    let condBool := Z3.eq (cond.toBv (← nextFresh)) (Z3.fromU64 1 1)
    let taint := byte.getTaint ||| dstOld.getTaint ||| n.getTaint
    let merged := SymValue.symbolic
      (Z3.ite condBool (byte.toBv (← nextFresh)) (dstOld.toBv (← nextFresh)))
      (SymValue.normalizeBvBits 8) taint
    state.memWrite enumerate dstAddr merged 1

/-- The rounds of a loop: as many as the length, which is bounded. -/
def fillLength (n : SymValue BV) (bound : Word) : Nat := min (n.asConcrete.getD bound).toNat bound.toNat

def fillBytes (dst n : SymValue BV) (bound : Word)
    (source : SymState BV Formula → SymValue BV → Fresh (SymValue BV))
    (state : SymState BV Formula) : Fresh (SymState BV Formula) := do
  let state ← if n.isConcrete then pure state else state.constrainRange n 0 bound
  (List.range (fillLength n bound)).foldlM (fillByte enumerate dst n source) state

def copiedByte (src : SymValue BV) (state : SymState BV Formula) (offsetVal : SymValue BV) :
    Fresh (SymValue BV) := do
  let srcAddr ← src.add offsetVal
  state.memRead enumerate srcAddr 1

def copyBytes (state : SymState BV Formula) (dst src n : SymValue BV) (maxCopy : Word) :
    Fresh (SymState BV Formula) :=
  fillBytes enumerate dst n maxCopy (copiedByte enumerate src) state

def setByte (c : SymValue BV) : SymValue BV :=
  match c.asConcrete with
  | some word => .concrete (word &&& 0xff) (SymValue.normalizeBvBits 8) c.getTaint
  | none => SymMemory.withTaint (c.extract 7 0) c.getTaint

def setBytes (state : SymState BV Formula) (dst c n : SymValue BV) (maxSet : Word) :
    Fresh (SymState BV Formula) :=
  fillBytes enumerate dst n maxSet (fun _ _ => pure (setByte c)) state

/-! ## Summaries -/

/-- An argument, unknown where the call has fewer. -/
def CallInfo.arg (call : CallInfo BV) (index : Nat) : SymValue BV :=
  call.args[index]?.getD (.unknown (SymValue.normalizeBvBits call.argBits) 0)

def memcpySummary (maxCopy : Word) : FunctionSummary BV Formula where
  name := "memcpy"
  arity := 3
  execute state call := do
    let copied ← copyBytes enumerate state (call.arg 0) (call.arg 1) (call.arg 2) maxCopy
    return (copied, .return (some (call.arg 0)))

def memsetSummary (maxSet : Word) : FunctionSummary BV Formula where
  name := "memset"
  arity := 3
  execute state call := do
    let filled ← setBytes enumerate state (call.arg 0) (call.arg 1) (call.arg 2) maxSet
    return (filled, .return (some (call.arg 0)))

end Loops

def applySummary (summary : FunctionSummary BV Formula) (callconv : CallConv)
    (state : SymState BV Formula) : Fresh (SymState BV Formula × CallHookResult) := do
  let (state, effect) ← summary.execute state (callconv.collectCallInfo state summary.arity)
  match effect with
  | .return (some value) => return (callconv.writeReturn state value, .fallthrough)
  | .return none => return (state, .fallthrough)
  | .terminate status => return (state.terminate status, .terminate status)

end R2Sleigh.Sym
