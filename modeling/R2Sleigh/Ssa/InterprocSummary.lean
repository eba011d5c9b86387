import R2Sleigh.Lib.BTreeMap
import R2Sleigh.Ssa.ConstEval

/-!
Contract: what is known of a function's effects and of its result.

Owns `FunctionSemanticSummary`.
-/

namespace R2Sleigh.Ssa

open Lib

inductive SummaryMemoryEffectKind where
  | read | write | escape | free
deriving DecidableEq, Repr

inductive SummaryMemoryRegion where
  | arg (index : Nat)
  | global (address : Word)
  | heapReturn
  | unknown
deriving DecidableEq, Repr

/-- Signed offsets of the first and of the last byte, and the size of one access. -/
structure SummaryMemoryRange where
  offsetLo : BitVec 64
  offsetHi : BitVec 64
  width : Option Nat
deriving DecidableEq, Repr

structure SummaryMemoryLocation where
  region : SummaryMemoryRegion
  range : Option SummaryMemoryRange
deriving DecidableEq, Repr

structure SummaryMemoryEffect where
  kind : SummaryMemoryEffectKind
  location : SummaryMemoryLocation
deriving DecidableEq, Repr

structure SummaryArgEffect where
  read : Bool := false
  write : Bool := false
  escape : Bool := false
  free : Bool := false
deriving DecidableEq, Repr

inductive SummaryReturnRelation where
  | unknown
  | void
  | arg (index : Nat)
  | const (value : Word)
  | heapAlloc
  | global (address : Word)
deriving DecidableEq, Repr

structure FunctionSemanticSummary where
  id : Nat
  name : Option String
  argCountHint : Option Nat
  directCallees : BTreeSet Nat
  callsiteCount : Nat
  hasUnknownCalls : Bool
  argEffects : BTreeMap Nat SummaryArgEffect
  memoryEffects : List SummaryMemoryEffect
  returnRelation : SummaryReturnRelation
  readsGlobalMemory : Bool
  writesGlobalMemory : Bool
  touchesUnknownMemory : Bool
deriving DecidableEq

def SummaryMemoryEffectKind.changes : SummaryMemoryEffectKind → Bool
  | .read => false
  | .write | .escape | .free => true

def SummaryArgEffect.mergeFrom (effect other : SummaryArgEffect) : SummaryArgEffect where
  read := effect.read || other.read
  write := effect.write || other.write
  escape := effect.escape || other.escape
  free := effect.free || other.free

def SummaryMemoryLocation.unknownLocation : SummaryMemoryLocation := ⟨.unknown, none⟩

/-- `arg_location(index, None, None)`. -/
def SummaryMemoryLocation.argLocation (index : Nat) : SummaryMemoryLocation := ⟨.arg index, none⟩

/-- What is done to an argument may change memory. -/
def SummaryArgEffect.changes (effect : SummaryArgEffect) : Bool :=
  effect.write || effect.escape || effect.free

/-- A byte at the offset may be touched: up to the last offset, or by an access at the first. -/
def SummaryMemoryRange.Reaches (range : SummaryMemoryRange) (offset : Int) : Prop :=
  range.offsetLo.toInt ≤ offset ∧
    (offset ≤ range.offsetHi.toInt ∨
      ∃ width, range.width = some width ∧ offset < range.offsetLo.toInt + width)

/-- `summary_arity`: the sums saturate, which lists of arguments never reach. -/
def summaryArity (summary : FunctionSemanticSummary) : Nat :=
  let hint := summary.argCountHint.getD 0
  let returned := match summary.returnRelation with
    | .arg index => max hint (index + 1)
    | _ => hint
  let effects := summary.argEffects.entries.foldl (fun arity effect => max arity (effect.1 + 1)) returned
  summary.memoryEffects.foldl (fun arity effect =>
    match effect.location.region with
    | .arg index => max arity (index + 1)
    | _ => arity) effects

end R2Sleigh.Ssa
