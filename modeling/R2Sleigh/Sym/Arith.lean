import R2Sleigh.Sym.Value

/-!
Contract: arithmetic on symbolic values.

Owns `Exec`.

Where overflow is checked, a shift of a constant by 64 bits or more panics;
otherwise the amount wraps around.
-/

namespace R2Sleigh.Sym

open Ssa

/-- Computations that count constants and may panic. -/
abbrev Exec := StateT Nat (Except Panic)

/-- A computation that cannot panic. -/
def liftFresh {α : Type} (run : Fresh α) : Exec α := fun n => .ok (run n)

instance : MonadLift Fresh Exec := ⟨liftFresh⟩

theorem stateT_pure {σ α : Type} {m : Type → Type} [Monad m] (a : α) :
    StateT.pure a = fun s : σ => (pure (a, s) : m (α × σ)) := rfl

namespace SymValue

variable {BV Formula Model : Type} [Z3Arith BV Formula Model]

/-! ## Widths -/

/-- The terms of two values at the wider of their widths, the narrower one
extended by `extend`. -/
def normalizeWith (extend : BV → Nat → BV) (a b : SymValue BV) : Fresh (BV × BV × Nat) := do
  let aBv := a.toBv (← nextFresh)
  let bBv := b.toBv (← nextFresh)
  if a.bits = b.bits then return (aBv, bBv, a.bits)
  else if b.bits < a.bits then return (aBv, extend bBv (a.bits - b.bits), a.bits)
  else return (extend aBv (b.bits - a.bits), bBv, b.bits)

def normalizeWidths (a b : SymValue BV) : Fresh (BV × BV × Nat) := normalizeWith Z3.zeroExt a b

def normalizeWidthsSigned (a b : SymValue BV) : Fresh (BV × BV × Nat) :=
  normalizeWith Z3Arith.signExt a b

def normalizeShiftAmount (value amount : SymValue BV) : Fresh BV := do
  let amountBv := amount.toBv (← nextFresh)
  if amount.bits = value.bits then return amountBv
  else if amount.bits < value.bits then return Z3.zeroExt amountBv (value.bits - amount.bits)
  else return Z3.extract amountBv (value.bits - 1) 0

/-! ## Arithmetic and bitwise operations -/

/-- An operation on two values: `fold` of two constants at the wider width, else
a term. -/
def combine (op : BvOp) (fold : Word → Word → Nat → Word → SymValue BV) (a b : SymValue BV) :
    Fresh (SymValue BV) := do
  let taint := a.getTaint ||| b.getTaint
  match a, b with
  | .concrete x xBits _, .concrete y yBits _ => return fold x y (max xBits yBits) taint
  | _, _ =>
    let (aBv, bBv, resultBits) ← normalizeWidths a b
    return .symbolic (Z3Arith.binary op aBv bBv) resultBits taint

def add : SymValue BV → SymValue BV → Fresh (SymValue BV) :=
  combine .bvadd fun x y bits taint => .concrete ((x + y) &&& lowMask bits) bits taint

def sub : SymValue BV → SymValue BV → Fresh (SymValue BV) :=
  combine .bvsub fun x y bits taint => .concrete ((x - y) &&& lowMask bits) bits taint

def mul : SymValue BV → SymValue BV → Fresh (SymValue BV) :=
  combine .bvmul fun x y bits taint => .concrete ((x * y) &&& lowMask bits) bits taint

def udiv : SymValue BV → SymValue BV → Fresh (SymValue BV) :=
  combine .bvudiv fun x y bits taint =>
    if y = 0 then .unknown bits taint else .concrete (x / y) bits taint

def urem : SymValue BV → SymValue BV → Fresh (SymValue BV) :=
  combine .bvurem fun x y bits taint =>
    if y = 0 then .unknown bits taint else .concrete (x % y) bits taint

def and : SymValue BV → SymValue BV → Fresh (SymValue BV) :=
  combine .bvand fun x y bits taint => .concrete (x &&& y) bits taint

def or : SymValue BV → SymValue BV → Fresh (SymValue BV) :=
  combine .bvor fun x y bits taint => .concrete (x ||| y) bits taint

def xor : SymValue BV → SymValue BV → Fresh (SymValue BV) :=
  combine .bvxor fun x y bits taint => .concrete (x ^^^ y) bits taint

/-- An operation that is a term also for constants. -/
def combineSigned (op : BvOp) (a b : SymValue BV) : Fresh (SymValue BV) := do
  let (aBv, bBv, resultBits) ← normalizeWidthsSigned a b
  return .symbolic (Z3Arith.binary op aBv bBv) resultBits (a.getTaint ||| b.getTaint)

def sdiv : SymValue BV → SymValue BV → Fresh (SymValue BV) := combineSigned .bvsdiv

def srem : SymValue BV → SymValue BV → Fresh (SymValue BV) := combineSigned .bvsrem

/-- An operation on one value. -/
def transform (op : BvUnary) (fold : Word → Word) (v : SymValue BV) : Fresh (SymValue BV) := do
  match v with
  | .concrete value bits taint => return .concrete (fold value &&& lowMask bits) bits taint
  | _ => return .symbolic (Z3Arith.unary op (v.toBv (← nextFresh))) v.bits v.getTaint

def neg : SymValue BV → Fresh (SymValue BV) := transform .bvneg fun value => ~~~value + 1

def not : SymValue BV → Fresh (SymValue BV) := transform .bvnot fun value => ~~~value

/-! ## Shifts -/

/-- A shift by `amount as u32`. -/
def shiftWord (checks : Bool) (apply : Word → Nat → Word) (value amount : Word) :
    Exec Word :=
  if checks ∧ 64 ≤ amount.toNat % 2 ^ 32 then throw .shiftOverflow
  else return apply value (amount.toNat % 2 ^ 32 % 64)

def shiftTerm (op : BvOp) (value amount : SymValue BV) : Fresh (SymValue BV) := do
  let aBv := value.toBv (← nextFresh)
  let bBv ← normalizeShiftAmount value amount
  return .symbolic (Z3Arith.binary op aBv bBv) value.bits (value.getTaint ||| amount.getTaint)

def shl (checks : Bool) (value amount : SymValue BV) : Exec (SymValue BV) := do
  match value, amount with
  | .concrete word bits _, .concrete amt _ _ =>
    let shifted ← shiftWord checks (· <<< ·) word amt
    return .concrete (shifted &&& lowMask bits) bits (value.getTaint ||| amount.getTaint)
  | _, _ => shiftTerm .bvshl value amount

def lshr (checks : Bool) (value amount : SymValue BV) : Exec (SymValue BV) := do
  match value, amount with
  | .concrete word bits _, .concrete amt _ _ =>
    let shifted ← shiftWord checks (· >>> ·) word amt
    return .concrete shifted bits (value.getTaint ||| amount.getTaint)
  | _, _ => shiftTerm .bvlshr value amount

def ashr : SymValue BV → SymValue BV → Fresh (SymValue BV) := shiftTerm .bvashr

/-! ## Comparisons -/

/-- One bit: whether a formula holds. -/
def flag (cond : Formula) (taint : Word) : SymValue BV :=
  .symbolic (Z3.ite cond (Z3.fromU64 1 1) (Z3.fromU64 0 1)) 1 taint

/-- A comparison of two values: `fold` of two constants, else a term. -/
def compareWith (term : BV → BV → Formula) (fold : Word → Word → Bool) (a b : SymValue BV) :
    Fresh (SymValue BV) := do
  let taint := a.getTaint ||| b.getTaint
  match a, b with
  | .concrete x _ _, .concrete y _ _ => return .concrete (ofBool (fold x y)) 1 taint
  | _, _ =>
    let (aBv, bBv, _) ← normalizeWidths a b
    return flag (term aBv bBv) taint

def eq : SymValue BV → SymValue BV → Fresh (SymValue BV) := compareWith Z3.eq (· == ·)

def ult : SymValue BV → SymValue BV → Fresh (SymValue BV) :=
  compareWith (Z3Arith.compare .bvult) BitVec.ult

def ule : SymValue BV → SymValue BV → Fresh (SymValue BV) :=
  compareWith (Z3Arith.compare .bvule) BitVec.ule

/-- A comparison that is a term also for constants. -/
def compareSigned (rel : BvRel) (a b : SymValue BV) : Fresh (SymValue BV) := do
  let (aBv, bBv, _) ← normalizeWidthsSigned a b
  return flag (Z3Arith.compare rel aBv bBv) (a.getTaint ||| b.getTaint)

def slt : SymValue BV → SymValue BV → Fresh (SymValue BV) := compareSigned .bvslt

def sle : SymValue BV → SymValue BV → Fresh (SymValue BV) := compareSigned .bvsle

/-! ## Extension and concatenation -/

/-- The word of a sign extension from `srcBits` to `newBits`. -/
def signExtendWord (checks : Bool) (value : Word) (srcBits newBits : Nat) : Exec Word := do
  let low := value &&& lowMask srcBits
  if srcBits = 0 then return low
  if checks ∧ 64 ≤ srcBits - 1 then throw .shiftOverflow
  if (low >>> ((srcBits - 1) % 64)) &&& 1 = 1 then
    return low ||| (if 64 ≤ newBits then if 64 ≤ srcBits then 0 else ~~~lowMask srcBits
      else lowMask newBits &&& ~~~lowMask srcBits)
  return low

def signExtend (checks : Bool) (v : SymValue BV) (newBits : Nat) : Exec (SymValue BV) := do
  if newBits ≤ v.bits then return v
  match v with
  | .concrete value bits taint =>
    return .concrete (← signExtendWord checks value bits newBits) newBits taint
  | .symbolic ast bits taint => return .symbolic (Z3Arith.signExt ast (newBits - bits)) newBits taint
  | .unknown _ taint => return .unknown newBits taint

/-- The high bits from the first value, the low bits from the second. -/
def concat (hi lo : SymValue BV) : Fresh (SymValue BV) := do
  let newBits := hi.bits + lo.bits
  let taint := hi.getTaint ||| lo.getTaint
  match hi, lo, decide (newBits ≤ 64) with
  | .concrete hiWord _ _, .concrete loWord loBits _, true =>
    return .concrete ((hiWord <<< loBits) ||| loWord) newBits taint
  | _, _, _ =>
    return .symbolic (Z3Arith.concat (hi.toBv (← nextFresh)) (lo.toBv (← nextFresh)))
      (normalizeBvBits newBits) taint

end SymValue

end R2Sleigh.Sym
