import Mathlib.Data.List.Infix
import R2Sleigh.Lift.Pcode
import R2Sleigh.Ssa.Var

/-!
Contract: translation of the P-code that the disassembler delivers.

Owns `OpCode` and `Disassembler.translatePcodeOp`.
-/

namespace R2Sleigh.Lift

open Il Ssa

/-! ## Operations of the disassembler -/

inductive IntSign where
  | Signed | Unsigned
deriving DecidableEq, Repr

inductive BoolOp where
  | And | Or | Xor | Negate
deriving DecidableEq, Repr

inductive IntOp where
  | Add | Subtract | Multiply | Negate | ShiftLeft | Equal | NotEqual | Borrow
  | Divide (sign : IntSign)
  | Remainder (sign : IntSign)
  | ShiftRight (sign : IntSign)
  | LessThan (sign : IntSign)
  | LessThanOrEqual (sign : IntSign)
  | Extension (sign : IntSign)
  | Carry (sign : IntSign)
  | Bitwise (op : BoolOp)
deriving DecidableEq, Repr

inductive FloatOp where
  | Equal | NotEqual | LessThan | LessThanOrEqual | IsNaN | Add | Divide | Multiply | Subtract
  | Negate | AbsoluteValue | SquareRoot | IntToFloat | FloatToFloat | Truncate | Ceiling | Floor
  | Round
deriving DecidableEq, Repr

inductive PseudoOp where
  | CallOther | ConstantPoolRef | New
deriving DecidableEq, Repr

inductive AnalysisOp where
  | MultiEqual | CopyIndirect | Cast | PointerAdd | PointerSubcomponent | SegmentOp | Insert
  | Extract
deriving DecidableEq, Repr

inductive OpCode where
  | Copy | Load | Store | Branch | BranchConditional | BranchIndirect | Call | CallIndirect | Return
  | Piece | Subpiece | Popcount | LzCount
  | Bool (op : BoolOp)
  | Int (op : IntOp)
  | Float (op : FloatOp)
  | Pseudo (op : PseudoOp)
  | Analysis (op : AnalysisOp)
  | Unknown (opcode : Nat)
deriving DecidableEq, Repr

/-- The operations that Ghidra's opcode numbers stand for, as the disassembler
names them. -/
def OpCode.ofNumber : Nat → OpCode
  | 1 => .Copy
  | 2 => .Load
  | 3 => .Store
  | 4 => .Branch
  | 5 => .BranchConditional
  | 6 => .BranchIndirect
  | 7 => .Call
  | 8 => .CallIndirect
  | 9 => .Pseudo .CallOther
  | 10 => .Return
  | 11 => .Int .Equal
  | 12 => .Int .NotEqual
  | 13 => .Int (.LessThan .Signed)
  | 14 => .Int (.LessThanOrEqual .Signed)
  | 15 => .Int (.LessThan .Unsigned)
  | 16 => .Int (.LessThanOrEqual .Unsigned)
  | 17 => .Int (.Extension .Unsigned)
  | 18 => .Int (.Extension .Signed)
  | 19 => .Int .Add
  | 20 => .Int .Subtract
  | 21 => .Int (.Carry .Unsigned)
  | 22 => .Int (.Carry .Signed)
  | 23 => .Int .Borrow
  | 24 => .Int .Negate
  | 25 => .Int (.Bitwise .Negate)
  | 26 => .Int (.Bitwise .Xor)
  | 27 => .Int (.Bitwise .And)
  | 28 => .Int (.Bitwise .Or)
  | 29 => .Int .ShiftLeft
  | 30 => .Int (.ShiftRight .Unsigned)
  | 31 => .Int (.ShiftRight .Signed)
  | 32 => .Int .Multiply
  | 33 => .Int (.Divide .Unsigned)
  | 34 => .Int (.Divide .Signed)
  | 35 => .Int (.Remainder .Unsigned)
  | 36 => .Int (.Remainder .Signed)
  | 37 => .Bool .Negate
  | 38 => .Bool .Xor
  | 39 => .Bool .And
  | 40 => .Bool .Or
  | 41 => .Float .Equal
  | 42 => .Float .NotEqual
  | 43 => .Float .LessThan
  | 44 => .Float .LessThanOrEqual
  | 46 => .Float .IsNaN
  | 47 => .Float .Add
  | 48 => .Float .Divide
  | 49 => .Float .Multiply
  | 50 => .Float .Subtract
  | 51 => .Float .Negate
  | 52 => .Float .AbsoluteValue
  | 53 => .Float .SquareRoot
  | 54 => .Float .IntToFloat
  | 55 => .Float .FloatToFloat
  | 56 => .Float .Truncate
  | 57 => .Float .Ceiling
  | 58 => .Float .Floor
  | 59 => .Float .Round
  | 60 => .Analysis .MultiEqual
  | 61 => .Analysis .CopyIndirect
  | 62 => .Piece
  | 63 => .Subpiece
  | 64 => .Analysis .Cast
  | 65 => .Analysis .PointerAdd
  | 66 => .Analysis .PointerSubcomponent
  | 67 => .Analysis .SegmentOp
  | 68 => .Pseudo .ConstantPoolRef
  | 69 => .Pseudo .New
  | 70 => .Analysis .Insert
  | 71 => .Analysis .Extract
  | 72 => .Popcount
  | 73 => .LzCount
  | opcode => .Unknown opcode

/-! ## Address spaces and operands -/

inductive AddressSpaceType where
  | Constant | Processor | Internal | Other
deriving DecidableEq, Repr

structure AddressSpace where
  name : String
  spaceType : AddressSpaceType
deriving DecidableEq, Repr

structure VarnodeData where
  addressSpace : AddressSpace
  offset : Nat
  size : Nat
deriving DecidableEq, Repr

structure PcodeInstruction where
  opCode : OpCode
  output : Option VarnodeData
  inputs : List VarnodeData
deriving DecidableEq, Repr

/-- The sum of the bytes of a name, as a `u32`. -/
def byteSum (name : String) : Nat := asU32 (name.toUTF8.data.toList.map UInt8.toNat).sum

def translateSpace (space : AddressSpace) : SpaceId :=
  match space.spaceType with
  | .Processor => if "register".toList <:+: space.name.toList then .Register else .Ram
  | .Constant => .Const
  | .Internal => .Unique
  | .Other => .Custom (byteSum space.name)

def translateVarnode (vn : VarnodeData) : Varnode :=
  ⟨translateSpace vn.addressSpace, vn.offset, asU32 vn.size⟩

/-- The address spaces of the loaded specification, by index. -/
structure Disassembler where
  addressSpaces : List AddressSpace

def Disassembler.spaceFromIndex (disasm : Disassembler) (idx : Nat) : SpaceId :=
  match disasm.addressSpaces[idx]? with
  | some space => translateSpace space
  | none => .Custom (asU32 idx)

def Disassembler.source (disasm : Disassembler) (instr : PcodeInstruction) : PcodeSource where
  output := instr.output.map translateVarnode
  input idx := instr.inputs[idx]?.map translateVarnode
  inputRawOffset idx := instr.inputs[idx]?.map VarnodeData.offset
  inputCount := instr.inputs.length
  spaceFromIndex := disasm.spaceFromIndex

inductive LiftError where
  | Parse (message : String)
deriving DecidableEq, Repr

/-- `translate_err` of the disassembler. -/
def TranslateError.toLiftError : TranslateError → LiftError
  | .MissingOutput op => .Parse (op ++ " requires output")
  | .MissingInput op idx => .Parse (op ++ " requires input at index " ++ decimal idx)
  | .InvalidSpace idx => .Parse ("Invalid space index: " ++ decimal idx)

/-! ## Translation -/

namespace Disassembler

variable (disasm : Disassembler)

/-- What all arms do with a translated operation. -/
def finish (translated : Translated) : Except LiftError (Option R2ILOp) :=
  (translated.map some).mapError TranslateError.toLiftError

def translateInt (source : PcodeSource) : IntOp → Translated
  | .Add => translateBinary source "INT_ADD" (.binary .IntAdd)
  | .Subtract => translateBinary source "INT_SUB" (.binary .IntSub)
  | .Multiply => translateBinary source "INT_MULT" (.binary .IntMult)
  | .Divide .Unsigned => translateBinary source "INT_DIV" (.binary .IntDiv)
  | .Divide .Signed => translateBinary source "INT_SDIV" (.binary .IntSDiv)
  | .Remainder .Unsigned => translateBinary source "INT_REM" (.binary .IntRem)
  | .Remainder .Signed => translateBinary source "INT_SREM" (.binary .IntSRem)
  | .Negate => translateUnary source "INT_2COMP" (.unary .IntNegate)
  | .Bitwise .And => translateBinary source "INT_AND" (.binary .IntAnd)
  | .Bitwise .Or => translateBinary source "INT_OR" (.binary .IntOr)
  | .Bitwise .Xor => translateBinary source "INT_XOR" (.binary .IntXor)
  | .Bitwise .Negate => translateUnary source "INT_NEGATE" (.unary .IntNot)
  | .ShiftLeft => translateBinary source "INT_LEFT" (.binary .IntLeft)
  | .ShiftRight .Unsigned => translateBinary source "INT_RIGHT" (.binary .IntRight)
  | .ShiftRight .Signed => translateBinary source "INT_SRIGHT" (.binary .IntSRight)
  | .Equal => translateBinary source "INT_EQUAL" (.binary .IntEqual)
  | .NotEqual => translateBinary source "INT_NOTEQUAL" (.binary .IntNotEqual)
  | .LessThan .Unsigned => translateBinary source "INT_LESS" (.binary .IntLess)
  | .LessThan .Signed => translateBinary source "INT_SLESS" (.binary .IntSLess)
  | .LessThanOrEqual .Unsigned => translateBinary source "INT_LESSEQUAL" (.binary .IntLessEqual)
  | .LessThanOrEqual .Signed => translateBinary source "INT_SLESSEQUAL" (.binary .IntSLessEqual)
  | .Extension .Unsigned => translateUnary source "INT_ZEXT" (.unary .IntZExt)
  | .Extension .Signed => translateUnary source "INT_SEXT" (.unary .IntSExt)
  | .Carry .Unsigned => translateBinary source "INT_CARRY" (.binary .IntCarry)
  | .Carry .Signed => translateBinary source "INT_SCARRY" (.binary .IntSCarry)
  | .Borrow => translateBinary source "INT_SBORROW" (.binary .IntSBorrow)

def translateBool (source : PcodeSource) : BoolOp → Translated
  | .And => translateBinary source "BOOL_AND" (.binary .BoolAnd)
  | .Or => translateBinary source "BOOL_OR" (.binary .BoolOr)
  | .Xor => translateBinary source "BOOL_XOR" (.binary .BoolXor)
  | .Negate => translateUnary source "BOOL_NEGATE" (.unary .BoolNot)

def translateFloat (source : PcodeSource) : FloatOp → Translated
  | .Add => translateBinary source "FLOAT_ADD" (.binary .FloatAdd)
  | .Subtract => translateBinary source "FLOAT_SUB" (.binary .FloatSub)
  | .Multiply => translateBinary source "FLOAT_MULT" (.binary .FloatMult)
  | .Divide => translateBinary source "FLOAT_DIV" (.binary .FloatDiv)
  | .Negate => translateUnary source "FLOAT_NEG" (.unary .FloatNeg)
  | .AbsoluteValue => translateUnary source "FLOAT_ABS" (.unary .FloatAbs)
  | .SquareRoot => translateUnary source "FLOAT_SQRT" (.unary .FloatSqrt)
  | .Equal => translateBinary source "FLOAT_EQUAL" (.binary .FloatEqual)
  | .NotEqual => translateBinary source "FLOAT_NOTEQUAL" (.binary .FloatNotEqual)
  | .LessThan => translateBinary source "FLOAT_LESS" (.binary .FloatLess)
  | .LessThanOrEqual => translateBinary source "FLOAT_LESSEQUAL" (.binary .FloatLessEqual)
  | .IsNaN => translateUnary source "FLOAT_NAN" (.unary .FloatNaN)
  | .IntToFloat => translateUnary source "INT2FLOAT" (.unary .Int2Float)
  | .FloatToFloat => translateUnary source "FLOAT_FLOAT" (.unary .FloatFloat)
  | .Truncate => translateUnary source "TRUNC" (.unary .Trunc)
  | .Ceiling => translateUnary source "FLOAT_CEIL" (.unary .FloatCeil)
  | .Floor => translateUnary source "FLOAT_FLOOR" (.unary .FloatFloor)
  | .Round => translateUnary source "FLOAT_ROUND" (.unary .FloatRound)

/-- Operations of one input and no output. -/
def translateTransfer (source : PcodeSource) (name : String) (f : Varnode → R2ILOp) : Translated := do
  let target ← requireInput source 0 name
  return f target

/-- The first input is the index of the operation, the others its arguments. -/
def translateCallOther (source : PcodeSource) : Translated := do
  let useropVn ← requireInput source 0 "CALLOTHER"
  return .CallOther source.output (asU32 useropVn.offset)
    ((List.range' 1 (source.inputCount - 1)).filterMap source.input)

def translatePcodeOp (instr : PcodeInstruction) : Except LiftError (Option R2ILOp) :=
  let source := disasm.source instr
  match instr.opCode with
  | .Copy => finish (translateUnary source "COPY" .Copy)
  | .Load => finish (translateLoad source)
  | .Store => finish (translateStore source)
  | .Branch => finish (translateTransfer source "BRANCH" .Branch)
  | .BranchConditional => finish (translateCbranch source)
  | .BranchIndirect => finish (translateTransfer source "BRANCHIND" .BranchInd)
  | .Call => finish (translateTransfer source "CALL" .Call)
  | .CallIndirect => finish (translateTransfer source "CALLIND" .CallInd)
  | .Return => finish (translateTransfer source "RETURN" .Return)
  | .Int op => finish (translateInt source op)
  | .Bool op => finish (translateBool source op)
  | .Piece => finish (translateBinary source "PIECE" .Piece)
  | .Subpiece => finish (translateSubpiece source)
  | .Popcount => finish (translateUnary source "POPCOUNT" (.unary .PopCount))
  | .LzCount => finish (translateUnary source "LZCOUNT" (.unary .Lzcount))
  | .Float op => finish (translateFloat source op)
  | .Pseudo .CallOther => finish (translateCallOther source)
  | .Analysis _ | .Pseudo _ | .Unknown _ => .ok none

end Disassembler

end R2Sleigh.Lift
