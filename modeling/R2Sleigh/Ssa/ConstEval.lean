import Mathlib.Data.BitVec
import R2Sleigh.Ssa.Op

/-!
Contract: constant folding of single operations.

Owns `VarKey` and `evalConstOp`.

Values are 64-bit words. An evaluation that panics is an error; one that only
gives no constant returns `none`.
-/

namespace R2Sleigh.Ssa

open Il Lib Except

abbrev Word := BitVec 64

/-- A variable as a key of the pass's maps. -/
structure VarKey where
  name : String
  version : Nat
  size : Nat
deriving DecidableEq, Repr

def VarKey.fromVar (var : SSAVar) : VarKey := ⟨var.name, var.version, var.size⟩

theorem VarKey.fromVar_injective : Function.Injective VarKey.fromVar := by
  rintro ⟨name, version, size⟩ ⟨name', version', size'⟩ equal
  simpa [VarKey.fromVar] using equal

/-! ## Literals -/

def digitValue (radix : Nat) (c : Char) : Option Nat :=
  let value :=
    if '0' ≤ c ∧ c ≤ '9' then some (c.toNat - '0'.toNat)
    else if 'a' ≤ c ∧ c ≤ 'z' then some (c.toNat - 'a'.toNat + 10)
    else if 'A' ≤ c ∧ c ≤ 'Z' then some (c.toNat - 'A'.toNat + 10)
    else none
  value.filter (· < radix)

/-- `u64::from_str_radix`: an optional plus sign and at least one digit, with a
value that fits. -/
def fromStrRadix (radix : Nat) (text : List Char) : Option Word :=
  let digits := match text with
    | '+' :: rest => rest
    | _ => text
  if digits = [] then none
  else
    (digits.foldlM (fun value c => (digitValue radix c).map (value * radix + ·)) 0).bind
      fun value => if value < 2 ^ 64 then some (BitVec.ofNat 64 value) else none

/-- The value of a `const:` variable: hexadecimal where the text is, else
decimal. -/
def constValue (var : SSAVar) : Option Word :=
  if var.isConst then
    match var.name.toList.drop 6 with
    | '0' :: 'x' :: hex => fromStrRadix 16 hex
    | '0' :: 'X' :: hex => fromStrRadix 16 hex
    | text => (fromStrRadix 16 text).or (fromStrRadix 10 text)
  else none

def constForVar (var : SSAVar) (consts : VarKey → Option Word) : Option Word :=
  (constValue var).or (consts (.fromVar var))

/-! ## Arithmetic -/

/-- `size.saturating_mul(8)` on `u32`. -/
def bitsOf (size : Nat) : Nat := min (size * 8) (2 ^ 32 - 1)

def maskForBits (bits : Nat) : Word :=
  if 64 ≤ bits then BitVec.allOnes 64
  else if bits = 0 then 0
  else BitVec.ofNat 64 (2 ^ bits - 1)

/-- The `i64` of the low `bits` bits, as a word. -/
def signExtend (value : Word) (bits : Nat) : Word :=
  if bits = 0 then 0
  else if 64 ≤ bits then value
  else (value <<< (64 - bits)).sshiftRight (64 - bits)

/-- `bool as u64`. -/
def ofBool (b : Bool) : Word := if b then 1 else 0

def countOnes (value : Word) : Nat := (List.range 64).countP value.getLsbD

def leadingZeros (value : Word) : Nat := if value = 0 then 64 else 63 - value.toNat.log2

/-- Where the arithmetic of the source panics. -/
inductive Panic where
  | divideByZero
  | divideOverflow
  | shiftOverflow
deriving DecidableEq, Repr

/-- `a / b` or `a % b` on `i64`, computed by `apply`. -/
def signedDivision (apply : Word → Word → Word) (a b : Word) : Except Panic Word :=
  if b = 0 then .error .divideByZero
  else if a = BitVec.intMin 64 ∧ b = BitVec.allOnes 64 then .error .divideOverflow
  else .ok (apply a b)

/-- `a >> b` as `apply` shifts: by 64 or more it is an error where overflow is
checked, otherwise the amount wraps around. -/
def rightShift (checks : Bool) (apply : Word → Nat → Word) (a b : Word) :
    Except Panic Word :=
  if checks ∧ 64 ≤ b.toNat then .error .shiftOverflow
  else .ok (apply a (b.toNat % 64))

/-- The arms of `eval_const_op` with operands `a` and `b`, before masking. -/
def evalBinary (checks : Bool) (bits : Nat) (a b : Word) :
    BinaryOp → Except Panic (Option Word)
  | .IntAdd => .ok (a + b)
  | .IntSub => .ok (a - b)
  | .IntMult => .ok (a * b)
  | .IntDiv => .ok (if b = 0 then none else some (a / b))
  | .IntSDiv =>
    if b = 0 then .ok none
    else (signedDivision BitVec.sdiv (signExtend a bits) (signExtend b bits)).map some
  | .IntRem => .ok (if b = 0 then none else some (a % b))
  | .IntSRem =>
    if b = 0 then .ok none
    else (signedDivision BitVec.srem (signExtend a bits) (signExtend b bits)).map some
  | .IntAnd => .ok (a &&& b)
  | .IntOr => .ok (a ||| b)
  | .IntXor => .ok (a ^^^ b)
  | .IntLeft => .ok (if bits ≤ b.toNat then none else some (a <<< (b.toNat % 64)))
  | .IntRight =>
    if bits ≤ b.toNat then .ok none
    else (rightShift checks BitVec.ushiftRight a b).map some
  | .IntSRight =>
    if bits ≤ b.toNat then .ok none
    else (rightShift checks BitVec.sshiftRight (signExtend a bits) b).map some
  | .IntEqual => .ok (ofBool (a == b))
  | .IntNotEqual => .ok (ofBool (a != b))
  | .IntLess => .ok (ofBool (a.ult b))
  | .IntLessEqual => .ok (ofBool (a.ule b))
  | .IntSLess => .ok (ofBool ((signExtend a bits).slt (signExtend b bits)))
  | .IntSLessEqual => .ok (ofBool ((signExtend a bits).sle (signExtend b bits)))
  | .BoolAnd => .ok (ofBool (a != 0 && b != 0))
  | .BoolOr => .ok (ofBool (a != 0 || b != 0))
  | .BoolXor => .ok (ofBool ((a != 0) ^^ (b != 0)))
  | .IntCarry | .IntSCarry | .IntSBorrow | .FloatAdd | .FloatSub | .FloatMult | .FloatDiv
  | .FloatEqual | .FloatNotEqual | .FloatLess | .FloatLessEqual => .ok none

/-- The arms of `eval_const_op` with one operand, before masking. -/
def evalUnary (bits srcBits : Nat) (value : Word) : UnaryOp → Option Word
  | .IntNegate => some (~~~value + 1)
  | .IntNot => some (~~~value)
  | .BoolNot => some (ofBool (value == 0))
  | .IntZExt => some value
  | .IntSExt => some (signExtend value srcBits)
  | .Trunc => some (value &&& maskForBits bits)
  | .PopCount => some (BitVec.ofNat 64 (countOnes (value &&& maskForBits bits)))
  | .Lzcount =>
    let width := min bits 64
    some (if width = 0 then 0
      else BitVec.ofNat 64 (leadingZeros (value &&& maskForBits bits) - (64 - width)))
  | .FloatNeg | .FloatAbs | .FloatSqrt | .FloatCeil | .FloatFloor | .FloatRound | .FloatNaN
  | .Int2Float | .Float2Int | .FloatFloat | .Cast => none

/-- The value of an operation into `bits` bits, before masking. -/
def evalUnmasked (checks : Bool) (bits : Nat) (consts : VarKey → Option Word) :
    SSAOp → Except Panic (Option Word)
  | .Copy _ src => .ok (constForVar src consts)
  | .unary op _ src =>
    .ok ((constForVar src consts).bind fun value => evalUnary bits (bitsOf src.size) value op)
  | .binary op _ a b =>
    match constForVar a consts, constForVar b consts with
    | some a, some b => evalBinary checks bits a b op
    | _, _ => .ok none
  | .Piece _ hi lo =>
    match constForVar hi consts, constForVar lo consts with
    | some hiVal, some loVal =>
      if 64 ≤ bitsOf lo.size then .ok none
      else .ok (hiVal <<< bitsOf lo.size ||| (loVal &&& maskForBits (bitsOf lo.size)))
    | _, _ => .ok none
  | .Subpiece _ src offset =>
    .ok ((constForVar src consts).bind fun value =>
      if 64 ≤ bitsOf offset then none else some (value >>> bitsOf offset))
  | .PtrAdd _ base index elementSize =>
    match constForVar base consts, constForVar index consts with
    | some base, some index => .ok (base + index * BitVec.ofNat 64 elementSize)
    | _, _ => .ok none
  | .PtrSub _ base index elementSize =>
    match constForVar base consts, constForVar index consts with
    | some base, some index => .ok (base - index * BitVec.ofNat 64 elementSize)
    | _, _ => .ok none
  | _ => .ok none

def evalConstOp (checks : Bool) (op : SSAOp) (consts : VarKey → Option Word) :
    Except Panic (Option Word) :=
  match op.dst with
  | none => .ok none
  | some dst =>
    (evalUnmasked checks (bitsOf dst.size) consts op).map
      (Option.map (· &&& maskForBits (bitsOf dst.size)))

theorem evalConstOp_congr {checks : Bool} {op : SSAOp}
    {consts consts' : VarKey → Option Word}
    (same : ∀ src ∈ op.sources, constForVar src consts = constForVar src consts') :
    evalConstOp checks op consts = evalConstOp checks op consts' := by
  have unmasked : ∀ bits, evalUnmasked checks bits consts op =
      evalUnmasked checks bits consts' op := by
    intro bits
    cases op with
    | Copy dst src | unary kind dst src | Subpiece dst src offset =>
      simp only [evalUnmasked, same src (by simp [SSAOp.sources])]
    | binary kind dst a b | Piece dst a b | PtrAdd dst a b size | PtrSub dst a b size =>
      simp only [evalUnmasked, same a (by simp [SSAOp.sources]), same b (by simp [SSAOp.sources])]
    | _ => rfl
  unfold evalConstOp
  cases op.dst with
  | none => rfl
  | some dst => simp only [unmasked]

/-! ## Panics -/

/-- Operand values on which an arm of `eval_const_op` panics: signed division
with a divisor that is zero in the width of the destination, or of the least
number by minus one, and right shifts by 64 or more. -/
def overflows (checks : Bool) (bits : Nat) (a b : Word) : BinaryOp → Bool
  | .IntSDiv | .IntSRem => b ≠ 0 ∧ (signExtend b bits = 0 ∨
      (signExtend a bits = BitVec.intMin 64 ∧ signExtend b bits = BitVec.allOnes 64))
  | .IntRight | .IntSRight => checks ∧ b.toNat < bits ∧ 64 ≤ b.toNat
  | _ => false

private theorem signedDivision_error_iff (apply : Word → Word → Word) (a b : Word) :
    (∃ panic, (signedDivision apply a b).map some = .error panic) ↔
      b = 0 ∨ (a = BitVec.intMin 64 ∧ b = BitVec.allOnes 64) := by
  unfold signedDivision
  by_cases zero : b = 0
  · simp [zero, Except.map]
  · by_cases least : a = BitVec.intMin 64 ∧ b = BitVec.allOnes 64
    · simp [least, Except.map]
    · simp only [zero, least, Except.map]
      simp

private theorem rightShift_error_iff (checks : Bool) (apply : Word → Nat → Word) (a b : Word) :
    (∃ panic, (rightShift checks apply a b).map some = .error panic) ↔
      checks = true ∧ 64 ≤ b.toNat := by
  unfold rightShift
  by_cases large : checks = true ∧ 64 ≤ b.toNat
  · simp [large, Except.map]
  · simp only [large, Except.map]
    simp

theorem evalBinary_error_iff (checks : Bool) (bits : Nat) (a b : Word) (op : BinaryOp) :
    (∃ panic, evalBinary checks bits a b op = .error panic) ↔
      overflows checks bits a b op = true := by
  cases op with
  | IntSDiv | IntSRem =>
    simp only [evalBinary, overflows, decide_eq_true_eq]
    by_cases zero : b = 0
    · simp [zero]
    · rw [if_neg zero, signedDivision_error_iff]
      simp only [ne_eq, zero, not_false_eq_true, true_and]
  | IntRight | IntSRight =>
    simp only [evalBinary, overflows, decide_eq_true_eq]
    by_cases outside : bits ≤ b.toNat
    · simp [outside, Nat.not_lt.mpr outside]
    · rw [if_neg outside, rightShift_error_iff]
      simp only [Nat.lt_of_not_le outside, true_and]
  | _ => simp [evalBinary, overflows]

/-- An operation panics exactly when it is a binary one with two constant
operands that overflow. -/
theorem evalConstOp_error_iff (checks : Bool) (op : SSAOp)
    (consts : VarKey → Option Word) :
    (∃ panic, evalConstOp checks op consts = .error panic) ↔
      ∃ kind dst a b x y, op = .binary kind dst a b ∧ constForVar a consts = some x ∧
        constForVar b consts = some y ∧
        overflows checks (bitsOf dst.size) x y kind = true := by
  cases op with
  | binary kind dst a b =>
    simp only [evalConstOp, SSAOp.dst, evalUnmasked]
    cases first : constForVar a consts with
    | none => simp [Except.map, first]
    | some x =>
      cases second : constForVar b consts with
      | none => simp [Except.map, second]
      | some y =>
        have arm := evalBinary_error_iff checks (bitsOf dst.size) x y kind
        cases result : evalBinary checks (bitsOf dst.size) x y kind <;>
          simp_all [Except.map]
  | Piece dst hi lo | PtrAdd dst hi lo size | PtrSub dst hi lo size =>
    simp only [evalConstOp, SSAOp.dst, evalUnmasked]
    grind [Except.map]
  | CallOther output userop inputs =>
    cases output <;> simp [evalConstOp, SSAOp.dst, evalUnmasked, Except.map]
  | StoreConditional result space addr val ordering =>
    cases result <;> simp [evalConstOp, SSAOp.dst, evalUnmasked, Except.map]
  | _ => simp [evalConstOp, SSAOp.dst, evalUnmasked, Except.map]

example : constValue ⟨"const:1f", 0, 8⟩ = some 31 := by decide +kernel

/-- The least signed word divided by minus one. -/
example : evalConstOp false (.binary .IntSDiv ⟨"q", 1, 8⟩ ⟨"const:8000000000000000", 0, 8⟩
    ⟨"const:ffffffffffffffff", 0, 8⟩) (fun _ => none) = .error .divideOverflow := by
  decide +kernel

end R2Sleigh.Ssa
