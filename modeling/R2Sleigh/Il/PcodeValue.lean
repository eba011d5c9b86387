import Mathlib.Data.BitVec
import Mathlib.Data.Nat.Size
import R2Sleigh.Il.Opcode

/-!
Contract: what P-code operations compute, as exact integers.

Owns `BinaryOp.result` and `UnaryOp.result`.

Does not own: floating point, casts, and how an operation reads its operands.

Each operand is read at its own size. Boolean operations ask whether an operand
is zero, as the operations of `r2ssa` are documented.
-/

namespace R2Sleigh.Il

def signedValue (size value : Nat) : Int := (BitVec.ofNat (size * 8) value).toInt

/-- The number of ones among the low bytes of a value. -/
def onesIn (size value : Nat) : Nat := (List.range (size * 8)).countP value.testBit

def truth (b : Bool) : Int := if b then 1 else 0

/-- A signed number that the given bytes do not hold. -/
def outsideSigned (size : Nat) (i : Int) : Bool := i < -2 ^ (size * 8 - 1) ∨ 2 ^ (size * 8 - 1) ≤ i

/-- Division by zero has no result. -/
def BinaryOp.result (aSize bSize x y : Nat) : BinaryOp → Option Int
  | .IntAdd => some (x + y)
  | .IntSub => some (x - y)
  | .IntMult => some (x * y)
  | .IntDiv => if y = 0 then none else some (x / y)
  | .IntSDiv => if y = 0 then none else some ((signedValue aSize x).tdiv (signedValue bSize y))
  | .IntRem => if y = 0 then none else some (x % y)
  | .IntSRem => if y = 0 then none else some ((signedValue aSize x).tmod (signedValue bSize y))
  | .IntCarry => some (truth (2 ^ (aSize * 8) ≤ x + y))
  | .IntSCarry => some (truth (outsideSigned aSize (signedValue aSize x + signedValue bSize y)))
  | .IntSBorrow => some (truth (outsideSigned aSize (signedValue aSize x - signedValue bSize y)))
  | .IntAnd => some ((x &&& y : Nat) : Int)
  | .IntOr => some ((x ||| y : Nat) : Int)
  | .IntXor => some ((x ^^^ y : Nat) : Int)
  | .IntLeft => some (x * 2 ^ y)
  | .IntRight => some (x / 2 ^ y)
  | .IntSRight => some (signedValue aSize x / 2 ^ y)
  | .IntEqual => some (truth (x = y))
  | .IntNotEqual => some (truth (x ≠ y))
  | .IntLess => some (truth (x < y))
  | .IntSLess => some (truth (signedValue aSize x < signedValue bSize y))
  | .IntLessEqual => some (truth (x ≤ y))
  | .IntSLessEqual => some (truth (signedValue aSize x ≤ signedValue bSize y))
  | .BoolAnd => some (truth (x ≠ 0 ∧ y ≠ 0))
  | .BoolOr => some (truth (x ≠ 0 ∨ y ≠ 0))
  | .BoolXor => some (truth ((x ≠ 0) ^^ (y ≠ 0)))
  | .FloatAdd | .FloatSub | .FloatMult | .FloatDiv | .FloatEqual | .FloatNotEqual | .FloatLess
  | .FloatLessEqual => none

def UnaryOp.result (size value : Nat) : UnaryOp → Option Int
  | .IntNegate => some (-value)
  | .IntNot => some (-value - 1)
  | .IntZExt => some value
  | .IntSExt => some (signedValue size value)
  | .BoolNot => some (truth (value = 0))
  | .PopCount => some (onesIn size value)
  | .Lzcount => some ((size * 8 - Nat.size value : Nat) : Int)
  | .FloatNeg | .FloatAbs | .FloatSqrt | .FloatCeil | .FloatFloor | .FloatRound | .FloatNaN
  | .Int2Float | .Float2Int | .FloatFloat | .Trunc | .Cast => none

example : BinaryOp.result 2 2 0x80 0 .IntSLess = some 0 := by decide +kernel

end R2Sleigh.Il
