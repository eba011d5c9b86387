import R2Sleigh.Il.Opcode

/-!
Contract: translation of raw P-code operations to r2il.

Owns `PcodeSource`, `PcodeOp` and `PcodeTranslator.translate`.
-/

namespace R2Sleigh.Lift

open Il

/-! ## Sources of operands -/

structure PcodeSource where
  output : Option Varnode
  input : Nat → Option Varnode
  inputRawOffset : Nat → Option Nat
  inputCount : Nat
  spaceFromIndex : Nat → SpaceId

inductive TranslateError where
  | MissingOutput (op : String)
  | MissingInput (op : String) (idx : Nat)
  | InvalidSpace (idx : Nat)
deriving DecidableEq, Repr

abbrev Translated := Except TranslateError R2ILOp

/-- The `u32` of a `u64`. -/
def asU32 (value : Nat) : Nat := value % 2 ^ 32

section Shared

variable (source : PcodeSource)

def requireOutput (name : String) : Except TranslateError Varnode :=
  match source.output with
  | some dst => .ok dst
  | none => .error (.MissingOutput name)

def requireInput (idx : Nat) (name : String) : Except TranslateError Varnode :=
  match source.input idx with
  | some src => .ok src
  | none => .error (.MissingInput name idx)

def requireRawOffset (idx : Nat) (name : String) : Except TranslateError Nat :=
  match source.inputRawOffset idx with
  | some offset => .ok offset
  | none => .error (.MissingInput name idx)

def translateUnary (name : String) (f : Varnode → Varnode → R2ILOp) : Translated := do
  let dst ← requireOutput source name
  let src ← requireInput source 0 name
  return f dst src

def translateBinary (name : String) (f : Varnode → Varnode → Varnode → R2ILOp) : Translated := do
  let dst ← requireOutput source name
  let a ← requireInput source 0 name
  let b ← requireInput source 1 name
  return f dst a b

def translateLoad : Translated := do
  let dst ← requireOutput source "LOAD"
  let spaceIdx ← requireRawOffset source 0 "LOAD"
  let addr ← requireInput source 1 "LOAD"
  return .Load dst (source.spaceFromIndex spaceIdx) addr

def translateStore : Translated := do
  let spaceIdx ← requireRawOffset source 0 "STORE"
  let addr ← requireInput source 1 "STORE"
  let val ← requireInput source 2 "STORE"
  return .Store (source.spaceFromIndex spaceIdx) addr val

/-- The destination comes first, the condition second. -/
def translateCbranch : Translated := do
  let target ← requireInput source 0 "CBRANCH"
  let cond ← requireInput source 1 "CBRANCH"
  return .CBranch target cond

def translateSubpiece : Translated := do
  let dst ← requireOutput source "SUBPIECE"
  let src ← requireInput source 0 "SUBPIECE"
  let offset ← requireRawOffset source 1 "SUBPIECE"
  return .Subpiece dst src (asU32 offset)

/-- Pointer arithmetic: the size of an element is the raw offset of the third
input. -/
def translatePointer (name : String) (f : Varnode → Varnode → Varnode → Nat → R2ILOp) :
    Translated := do
  let dst ← requireOutput source name
  let base ← requireInput source 0 name
  let index ← requireInput source 1 name
  let elementSize ← requireRawOffset source 2 name
  return f dst base index (asU32 elementSize)

def translatePtradd : Translated := translatePointer source "PTRADD" .PtrAdd

def translatePtrsub : Translated := translatePointer source "PTRSUB" .PtrSub

end Shared

/-! ## Raw operations -/

inductive PcodeOp where
  | Copy | Load | Store | Branch | CBranch | BranchInd | Call | CallInd | CallOther | Return
  | IntEqual | IntNotEqual | IntSLess | IntSLessEqual | IntLess | IntLessEqual | IntZExt | IntSExt
  | IntAdd | IntSub | IntCarry | IntSCarry | IntSBorrow | Int2Comp | IntNegate | IntXor | IntAnd
  | IntOr | IntLeft | IntRight | IntSRight | IntMult | IntDiv | IntSDiv | IntRem | IntSRem
  | BoolNot | BoolXor | BoolAnd | BoolOr
  | FloatEqual | FloatNotEqual | FloatLess | FloatLessEqual | FloatNaN | FloatAdd | FloatDiv
  | FloatMult | FloatSub | FloatNeg | FloatAbs | FloatSqrt | Int2Float | Float2Int | FloatFloat
  | Trunc | FloatCeil | FloatFloor | FloatRound
  | Multiequal | Indirect | Piece | Subpiece
  | Cast | PtrAdd | PtrSub | SegmentOp | CpuId | New
  | Insert | Extract | PopCount | Lzcount
deriving DecidableEq, Repr

def PcodeOp.fromU32 : Nat → Option PcodeOp
  | 1 => some .Copy
  | 2 => some .Load
  | 3 => some .Store
  | 4 => some .Branch
  | 5 => some .CBranch
  | 6 => some .BranchInd
  | 7 => some .Call
  | 8 => some .CallInd
  | 9 => some .CallOther
  | 10 => some .Return
  | 11 => some .IntEqual
  | 12 => some .IntNotEqual
  | 13 => some .IntSLess
  | 14 => some .IntSLessEqual
  | 15 => some .IntLess
  | 16 => some .IntLessEqual
  | 17 => some .IntZExt
  | 18 => some .IntSExt
  | 19 => some .IntAdd
  | 20 => some .IntSub
  | 21 => some .IntCarry
  | 22 => some .IntSCarry
  | 23 => some .IntSBorrow
  | 24 => some .Int2Comp
  | 25 => some .IntNegate
  | 26 => some .IntXor
  | 27 => some .IntAnd
  | 28 => some .IntOr
  | 29 => some .IntLeft
  | 30 => some .IntRight
  | 31 => some .IntSRight
  | 32 => some .IntMult
  | 33 => some .IntDiv
  | 34 => some .IntSDiv
  | 35 => some .IntRem
  | 36 => some .IntSRem
  | 37 => some .BoolNot
  | 38 => some .BoolXor
  | 39 => some .BoolAnd
  | 40 => some .BoolOr
  | 41 => some .FloatEqual
  | 42 => some .FloatNotEqual
  | 43 => some .FloatLess
  | 44 => some .FloatLessEqual
  | 46 => some .FloatNaN
  | 47 => some .FloatAdd
  | 48 => some .FloatDiv
  | 49 => some .FloatMult
  | 50 => some .FloatSub
  | 51 => some .FloatNeg
  | 52 => some .FloatAbs
  | 53 => some .FloatSqrt
  | 54 => some .Int2Float
  | 55 => some .Float2Int
  | 56 => some .FloatFloat
  | 57 => some .Trunc
  | 58 => some .FloatCeil
  | 59 => some .FloatFloor
  | 60 => some .FloatRound
  | 61 => some .Multiequal
  | 62 => some .Indirect
  | 63 => some .Piece
  | 64 => some .Subpiece
  | 65 => some .Cast
  | 66 => some .PtrAdd
  | 67 => some .PtrSub
  | 68 => some .SegmentOp
  | 69 => some .CpuId
  | 70 => some .New
  | 71 => some .Insert
  | 72 => some .Extract
  | 73 => some .PopCount
  | 74 => some .Lzcount
  | _ => none

structure RawVarnode where
  spaceIdx : Nat
  offset : Nat
  size : Nat
deriving DecidableEq, Repr

structure RawPcodeOp where
  opcode : Nat
  output : Option RawVarnode
  inputs : List RawVarnode
deriving DecidableEq, Repr

inductive PcodeError where
  | UnknownOpcode (opcode : Nat)
  | InvalidOperandCount (op : String) (expected got : Nat)
  | MissingOutput (op : String)
  | InvalidSpace (idx : Nat)
deriving DecidableEq, Repr

/-- `translate_err` of the raw translator. -/
def TranslateError.toPcodeError : TranslateError → PcodeError
  | .MissingOutput op => .MissingOutput op
  | .MissingInput op expected => .InvalidOperandCount op (expected + 1) 0
  | .InvalidSpace idx => .InvalidSpace idx

structure PcodeTranslator where
  spaceMap : List SpaceId

namespace PcodeTranslator

variable (translator : PcodeTranslator)

def spaceFromIndex (idx : Nat) : SpaceId := (translator.spaceMap[idx]?).getD (.Custom (asU32 idx))

def convertVarnode (raw : RawVarnode) : Varnode :=
  ⟨translator.spaceFromIndex raw.spaceIdx, raw.offset, raw.size⟩

/-- The operands of a raw operation. -/
def wrap (raw : RawPcodeOp) : PcodeSource where
  output := raw.output.map translator.convertVarnode
  input idx := raw.inputs[idx]?.map translator.convertVarnode
  inputRawOffset idx := raw.inputs[idx]?.map RawVarnode.offset
  inputCount := raw.inputs.length
  spaceFromIndex := translator.spaceFromIndex

def requireOutput (raw : RawPcodeOp) (name : String) : Except PcodeError Varnode :=
  match raw.output with
  | some dst => .ok (translator.convertVarnode dst)
  | none => .error (.MissingOutput name)

def requireRawInput (raw : RawPcodeOp) (idx : Nat) (name : String) :
    Except PcodeError RawVarnode :=
  match raw.inputs[idx]? with
  | some src => .ok src
  | none => .error (.InvalidOperandCount name (idx + 1) raw.inputs.length)

def requireInput (raw : RawPcodeOp) (idx : Nat) (name : String) : Except PcodeError Varnode :=
  (requireRawInput raw idx name).map translator.convertVarnode

def unaryOp (raw : RawPcodeOp) (name : String) (f : Varnode → Varnode → R2ILOp) :
    Except PcodeError R2ILOp :=
  (translateUnary (translator.wrap raw) name f).mapError TranslateError.toPcodeError

def binaryOp (raw : RawPcodeOp) (name : String) (f : Varnode → Varnode → Varnode → R2ILOp) :
    Except PcodeError R2ILOp :=
  (translateBinary (translator.wrap raw) name f).mapError TranslateError.toPcodeError

/-- Operations of one input and no output. -/
def transfer (raw : RawPcodeOp) (name : String) (f : Varnode → R2ILOp) :
    Except PcodeError R2ILOp :=
  (translator.requireInput raw 0 name).map f

/-- The arms of `translate`, by opcode. -/
def translateAs (raw : RawPcodeOp) : PcodeOp → Except PcodeError R2ILOp
  | .Copy => do
      let dst ← translator.requireOutput raw "COPY"
      let src ← translator.requireInput raw 0 "COPY"
      return .Copy dst src
  | .Load => (translateLoad (translator.wrap raw)).mapError TranslateError.toPcodeError
  | .Store => (translateStore (translator.wrap raw)).mapError TranslateError.toPcodeError
  | .Branch => translator.transfer raw "BRANCH" .Branch
  | .CBranch => (translateCbranch (translator.wrap raw)).mapError TranslateError.toPcodeError
  | .BranchInd => translator.transfer raw "BRANCHIND" .BranchInd
  | .Call => translator.transfer raw "CALL" .Call
  | .CallInd => translator.transfer raw "CALLIND" .CallInd
  | .CallOther => do
      let useropVn ← requireRawInput raw 0 "CALLOTHER"
      return .CallOther (raw.output.map translator.convertVarnode) (asU32 useropVn.offset)
        (raw.inputs.tail.map translator.convertVarnode)
  | .Return => translator.transfer raw "RETURN" .Return
  | .IntEqual => translator.binaryOp raw "INT_EQUAL" (.binary .IntEqual)
  | .IntNotEqual => translator.binaryOp raw "INT_NOTEQUAL" (.binary .IntNotEqual)
  | .IntSLess => translator.binaryOp raw "INT_SLESS" (.binary .IntSLess)
  | .IntSLessEqual => translator.binaryOp raw "INT_SLESSEQUAL" (.binary .IntSLessEqual)
  | .IntLess => translator.binaryOp raw "INT_LESS" (.binary .IntLess)
  | .IntLessEqual => translator.binaryOp raw "INT_LESSEQUAL" (.binary .IntLessEqual)
  | .IntZExt => translator.unaryOp raw "INT_ZEXT" (.unary .IntZExt)
  | .IntSExt => translator.unaryOp raw "INT_SEXT" (.unary .IntSExt)
  | .IntAdd => translator.binaryOp raw "INT_ADD" (.binary .IntAdd)
  | .IntSub => translator.binaryOp raw "INT_SUB" (.binary .IntSub)
  | .IntCarry => translator.binaryOp raw "INT_CARRY" (.binary .IntCarry)
  | .IntSCarry => translator.binaryOp raw "INT_SCARRY" (.binary .IntSCarry)
  | .IntSBorrow => translator.binaryOp raw "INT_SBORROW" (.binary .IntSBorrow)
  | .Int2Comp => translator.unaryOp raw "INT_2COMP" (.unary .IntNegate)
  | .IntNegate => translator.unaryOp raw "INT_NEGATE" (.unary .IntNot)
  | .IntMult => translator.binaryOp raw "INT_MULT" (.binary .IntMult)
  | .IntDiv => translator.binaryOp raw "INT_DIV" (.binary .IntDiv)
  | .IntSDiv => translator.binaryOp raw "INT_SDIV" (.binary .IntSDiv)
  | .IntRem => translator.binaryOp raw "INT_REM" (.binary .IntRem)
  | .IntSRem => translator.binaryOp raw "INT_SREM" (.binary .IntSRem)
  | .IntXor => translator.binaryOp raw "INT_XOR" (.binary .IntXor)
  | .IntAnd => translator.binaryOp raw "INT_AND" (.binary .IntAnd)
  | .IntOr => translator.binaryOp raw "INT_OR" (.binary .IntOr)
  | .IntLeft => translator.binaryOp raw "INT_LEFT" (.binary .IntLeft)
  | .IntRight => translator.binaryOp raw "INT_RIGHT" (.binary .IntRight)
  | .IntSRight => translator.binaryOp raw "INT_SRIGHT" (.binary .IntSRight)
  | .BoolNot => translator.unaryOp raw "BOOL_NEGATE" (.unary .BoolNot)
  | .BoolXor => translator.binaryOp raw "BOOL_XOR" (.binary .BoolXor)
  | .BoolAnd => translator.binaryOp raw "BOOL_AND" (.binary .BoolAnd)
  | .BoolOr => translator.binaryOp raw "BOOL_OR" (.binary .BoolOr)
  | .FloatEqual => translator.binaryOp raw "FLOAT_EQUAL" (.binary .FloatEqual)
  | .FloatNotEqual => translator.binaryOp raw "FLOAT_NOTEQUAL" (.binary .FloatNotEqual)
  | .FloatLess => translator.binaryOp raw "FLOAT_LESS" (.binary .FloatLess)
  | .FloatLessEqual => translator.binaryOp raw "FLOAT_LESSEQUAL" (.binary .FloatLessEqual)
  | .FloatNaN => translator.unaryOp raw "FLOAT_NAN" (.unary .FloatNaN)
  | .FloatAdd => translator.binaryOp raw "FLOAT_ADD" (.binary .FloatAdd)
  | .FloatSub => translator.binaryOp raw "FLOAT_SUB" (.binary .FloatSub)
  | .FloatMult => translator.binaryOp raw "FLOAT_MULT" (.binary .FloatMult)
  | .FloatDiv => translator.binaryOp raw "FLOAT_DIV" (.binary .FloatDiv)
  | .FloatNeg => translator.unaryOp raw "FLOAT_NEG" (.unary .FloatNeg)
  | .FloatAbs => translator.unaryOp raw "FLOAT_ABS" (.unary .FloatAbs)
  | .FloatSqrt => translator.unaryOp raw "FLOAT_SQRT" (.unary .FloatSqrt)
  | .FloatCeil => translator.unaryOp raw "FLOAT_CEIL" (.unary .FloatCeil)
  | .FloatFloor => translator.unaryOp raw "FLOAT_FLOOR" (.unary .FloatFloor)
  | .FloatRound => translator.unaryOp raw "FLOAT_ROUND" (.unary .FloatRound)
  | .Int2Float => translator.unaryOp raw "INT2FLOAT" (.unary .Int2Float)
  | .Float2Int => translator.unaryOp raw "FLOAT2INT" (.unary .Float2Int)
  | .FloatFloat => translator.unaryOp raw "FLOAT_FLOAT" (.unary .FloatFloat)
  | .Trunc => translator.unaryOp raw "TRUNC" (.unary .Trunc)
  | .Piece => translator.binaryOp raw "PIECE" .Piece
  | .Subpiece => (translateSubpiece (translator.wrap raw)).mapError TranslateError.toPcodeError
  | .PopCount => translator.unaryOp raw "POPCOUNT" (.unary .PopCount)
  | .Lzcount => translator.unaryOp raw "LZCOUNT" (.unary .Lzcount)
  | .Multiequal => do
      let dst ← translator.requireOutput raw "MULTIEQUAL"
      return .Multiequal dst (raw.inputs.map translator.convertVarnode)
  | .Indirect => do
      let dst ← translator.requireOutput raw "INDIRECT"
      let src ← translator.requireInput raw 0 "INDIRECT"
      let indirect ← translator.requireInput raw 1 "INDIRECT"
      return .Indirect dst src indirect
  | .Cast => translator.unaryOp raw "CAST" (.unary .Cast)
  | .New => translator.unaryOp raw "NEW" .New
  | .CpuId => do
      let dst ← translator.requireOutput raw "CPOOLREF"
      return .CpuId dst
  | .PtrAdd => (translatePtradd (translator.wrap raw)).mapError TranslateError.toPcodeError
  | .PtrSub => (translatePtrsub (translator.wrap raw)).mapError TranslateError.toPcodeError
  | .SegmentOp => do
      let dst ← translator.requireOutput raw "SEGMENTOP"
      let segment ← translator.requireInput raw 0 "SEGMENTOP"
      let offset ← translator.requireInput raw 1 "SEGMENTOP"
      return .SegmentOp dst segment offset
  | .Insert => do
      let dst ← translator.requireOutput raw "INSERT"
      let src ← translator.requireInput raw 0 "INSERT"
      let value ← translator.requireInput raw 1 "INSERT"
      let position ← translator.requireInput raw 2 "INSERT"
      return .Insert dst src value position
  | .Extract => do
      let dst ← translator.requireOutput raw "EXTRACT"
      let src ← translator.requireInput raw 0 "EXTRACT"
      let position ← translator.requireInput raw 1 "EXTRACT"
      return .Extract dst src position

def translate (raw : RawPcodeOp) : Except PcodeError R2ILOp :=
  match PcodeOp.fromU32 raw.opcode with
  | some opcode => translator.translateAs raw opcode
  | none => .error (.UnknownOpcode raw.opcode)

end PcodeTranslator

end R2Sleigh.Lift
