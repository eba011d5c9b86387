import R2Sleigh.Il.Machine
import R2Sleigh.Ssa.Var

/-!
Contract: r2il operations as strings of a stack language.

Owns `opToEsil`, `Reading` and `evalEsil`.

An operand carries the size of its varnode, at which signed operators read it.
Results are exact until they are assigned. Shift amounts are exact: the source
computes them in 32 bits.
-/

namespace R2Sleigh.Lift

open Il Ssa

/-! ## Strings -/

def commas : List String → String
  | [] => ""
  | [text] => text
  | text :: rest => text ++ "," ++ commas rest

/-- What the strings depend on: the lower-case texts of varnodes and the name of
the architecture. -/
structure EsilContext where
  vn : Varnode → String
  archName : String

def stackRegForArch (archName : String) : String :=
  let arch := (toAsciiLowercase archName).toList
  if "x86".toList <:+: arch then
    if "64".toList <:+: arch then "rsp" else "esp"
  else "sp"

def ptrSizeForArch (archName : String) : Nat :=
  let arch := (toAsciiLowercase archName).toList
  if "64".toList <:+: arch then 8
  else if "16".toList <:+: arch then 2
  else 4

def sizeSuffix (size : Nat) : String := "[" ++ decimal size ++ "]"

def storeSuffix (size : Nat) : String := "=" ++ sizeSuffix size

def formatCallEsil (target spReg : String) (ptrSize : Nat) : String :=
  commas ["pc", decimal ptrSize, spReg, "-=", spReg, storeSuffix ptrSize, target, "pc", "="]

def formatReturnEsil (spReg : String) (ptrSize : Nat) : String :=
  commas [spReg, sizeSuffix ptrSize, "pc", "=", decimal ptrSize, spReg, "+="]

/-- The operators between the operands and the destination of an operation with
two operands. -/
def binaryOperators : BinaryOp → List String
  | .IntAdd => ["+"]
  | .IntSub => ["-"]
  | .IntMult => ["*"]
  | .IntDiv => ["/"]
  | .IntSDiv => ["~/"]
  | .IntRem => ["%"]
  | .IntSRem => ["~%"]
  | .IntCarry => ["+", "$c"]
  | .IntSCarry => ["+", "$o"]
  | .IntSBorrow => ["-", "$b"]
  | .IntAnd => ["&"]
  | .IntOr => ["|"]
  | .IntXor => ["^"]
  | .IntLeft => ["<<"]
  | .IntRight => [">>"]
  | .IntSRight => [">>>"]
  | .IntEqual => ["=="]
  | .IntNotEqual => ["==", "!"]
  | .IntLess => ["<"]
  | .IntSLess => ["<$"]
  | .IntLessEqual => ["<="]
  | .IntSLessEqual => ["<=$"]
  | .BoolAnd => ["&&"]
  | .BoolOr => ["||"]
  | .BoolXor => ["^^"]
  | .FloatAdd => ["F+"]
  | .FloatSub => ["F-"]
  | .FloatMult => ["F*"]
  | .FloatDiv => ["F/"]
  | .FloatEqual => ["F=="]
  | .FloatNotEqual => ["F==", "!"]
  | .FloatLess => ["F<"]
  | .FloatLessEqual => ["F<="]

/-- The texts before the destination of an operation with one operand. -/
def unaryFields (src : String) (srcSize : Nat) : UnaryOp → List String
  | .IntNegate => [src, "0", "-"]
  | .IntNot => [src, "~"]
  | .IntZExt => [src]
  | .IntSExt => [src, decimal (srcSize * 8), "~~"]
  | .BoolNot => [src, "!"]
  | .PopCount => [src, "POPCOUNT"]
  | .Lzcount => [src, "CLZ"]
  | .FloatNeg => ["0", src, "F-"]
  | .FloatAbs => [src, "FABS"]
  | .FloatSqrt => [src, "FSQRT"]
  | .FloatCeil => [src, "FCEIL"]
  | .FloatFloor => [src, "FFLOOR"]
  | .FloatRound => [src, "FROUND"]
  | .FloatNaN => [src, "FISNAN"]
  | .Int2Float => [src, "I2F"]
  | .Float2Int => [src, "F2I"]
  | .FloatFloat => [src, "F2F"]
  | .Trunc => [src, "FTRUNC"]
  | .Cast => [src]

def opToEsil (context : EsilContext) : R2ILOp → String
  | .Copy dst src => commas [context.vn src, context.vn dst, "="]
  | .Load dst _ addr | .LoadLinked dst _ addr _ =>
    commas [context.vn addr, sizeSuffix dst.size, context.vn dst, "="]
  | .Store _ addr val => commas [context.vn val, context.vn addr, storeSuffix val.size]
  | .Fence _ => ""
  | .StoreConditional result _ addr val _ =>
    match result with
    | some dst => commas [context.vn val, context.vn addr, storeSuffix val.size, "0",
        context.vn dst, "="]
    | none => commas [context.vn val, context.vn addr, storeSuffix val.size]
  | .AtomicCAS dst _ addr expected replacement _ =>
    -- No comma stands after the assignment, nor between the address and the store.
    commas [context.vn addr, sizeSuffix dst.size, context.vn dst, "=" ++ context.vn dst,
      context.vn expected, "==", "?\x7b", context.vn replacement,
      context.vn addr ++ storeSuffix dst.size, "\x7d"]
  | .LoadGuarded dst _ addr guard _ =>
    commas [context.vn guard, "?\x7b", context.vn addr, sizeSuffix dst.size, context.vn dst, "=",
      "\x7d"]
  | .StoreGuarded _ addr val guard _ =>
    commas [context.vn guard, "?\x7b", context.vn val, context.vn addr, storeSuffix val.size,
      "\x7d"]
  | .binary op dst a b =>
    commas ([context.vn a, context.vn b] ++ binaryOperators op ++ [context.vn dst, "="])
  | .unary op dst src => commas (unaryFields (context.vn src) src.size op ++ [context.vn dst, "="])
  | .Piece dst hi lo =>
    commas [context.vn hi, decimal (lo.size * 8), "<<", context.vn lo, "|", context.vn dst, "="]
  | .Subpiece dst src offset =>
    if 0 < offset * 8 then
      commas [context.vn src, decimal (offset * 8), ">>", context.vn dst, "="]
    else commas [context.vn src, context.vn dst, "="]
  | .Branch target | .BranchInd target => commas [context.vn target, "pc", "="]
  | .CBranch target cond =>
    commas [context.vn cond, "?\x7b", context.vn target, "pc", "=", "\x7d"]
  | .Call target | .CallInd target =>
    formatCallEsil (context.vn target) (stackRegForArch context.archName)
      (ptrSizeForArch context.archName)
  | .Return _ =>
    formatReturnEsil (stackRegForArch context.archName) (ptrSizeForArch context.archName)
  | .CallOther output userop inputs =>
    let call := "CALLOTHER(" ++ decimal userop ++ ")"
    match output with
    | some dst => commas [commas (inputs.map context.vn), call, context.vn dst, "="]
    | none => commas [commas (inputs.map context.vn), call]
  | .Nop => ""
  | .Unimplemented => "UNIMPL"
  | .CpuId dst => commas ["CPUID", context.vn dst, "="]
  | .Breakpoint => "BREAK"
  | .Multiequal dst inputs => commas [commas (inputs.map context.vn), "PHI", context.vn dst, "="]
  | .Indirect dst src _ => commas [context.vn src, context.vn dst, "="]
  | .PtrAdd dst base index elementSize =>
    commas [context.vn base, context.vn index, decimal elementSize, "*", "+", context.vn dst, "="]
  | .PtrSub dst base index elementSize =>
    commas [context.vn base, context.vn index, decimal elementSize, "*", "-", context.vn dst, "="]
  | .SegmentOp dst segment offset =>
    commas [context.vn segment, "4", "<<", context.vn offset, "+", context.vn dst, "="]
  | .New dst src => commas [context.vn src, "NEW", context.vn dst, "="]
  | .Extract dst src position => commas [context.vn src, context.vn position, ">>", context.vn dst, "="]
  | .Insert dst src value position =>
    commas [context.vn value, context.vn position, "<<", context.vn src, "|", context.vn dst, "="]

/-! ## Tokens -/

inductive Token where
  | operand (vn : Varnode)
  | pc
  | number (n : Nat)
  | binary (op : BinaryOp)
  | flag (op : BinaryOp)
  | not
  | complement
  | signExtend
  | assign
  | compound (op : BinaryOp)
  | load (size : Nat)
  | store (size : Nat)
  | ifNonzero
  | close
deriving DecidableEq, Repr

def operators : List (String × Token) :=
  [("+", .binary .IntAdd), ("-", .binary .IntSub), ("*", .binary .IntMult), ("/", .binary .IntDiv),
    ("~/", .binary .IntSDiv), ("%", .binary .IntRem), ("~%", .binary .IntSRem),
    ("&", .binary .IntAnd), ("|", .binary .IntOr), ("^", .binary .IntXor),
    ("<<", .binary .IntLeft), (">>", .binary .IntRight), (">>>", .binary .IntSRight),
    ("==", .binary .IntEqual), ("<", .binary .IntLess), ("<$", .binary .IntSLess),
    ("<=", .binary .IntLessEqual), ("<=$", .binary .IntSLessEqual), ("&&", .binary .BoolAnd),
    ("||", .binary .BoolOr), ("^^", .binary .BoolXor), ("$c", .flag .IntCarry),
    ("$o", .flag .IntSCarry), ("$b", .flag .IntSBorrow), ("!", .not), ("~", .complement),
    ("~~", .signExtend), ("=", .assign), ("-=", .compound .IntSub), ("+=", .compound .IntAdd),
    ("?\x7b", .ifNonzero), ("\x7d", .close), ("pc", .pc)]

def digitsOf (text : List Char) : Option Nat :=
  if text ≠ [] ∧ text.all Char.isDigit then some (Nat.ofDigitChars 10 text 0) else none

/-- Digits up to a closing bracket. -/
def bracketed (text : List Char) : Option Nat :=
  if text.getLast? = some ']' then digitsOf text.dropLast else none

/-- Memory accesses and numbers. -/
def shapedToken : List Char → Option Token
  | '[' :: rest => (bracketed rest).map .load
  | '=' :: '[' :: rest => (bracketed rest).map .store
  | chars => (digitsOf chars).map .number

/-- The tokens that are not operands. -/
def reserved (text : String) : Option Token := (operators.lookup text).or (shapedToken text.toList)

def readToken (context : EsilContext) (known : List Varnode) (text : String) : Option Token :=
  (reserved text).or ((known.find? fun vn => context.vn vn = text).map .operand)

def splitCommas : List Char → List (List Char)
  | [] => [[]]
  | c :: rest =>
    match splitCommas rest with
    | first :: others => if c = ',' then [] :: first :: others else (c :: first) :: others
    | [] => []

/-! ## Evaluation -/

/-- What the language leaves open: whether `x,y,op` is `y op x`, and whether a
flag takes the place of the result it is about or comes on top of it. -/
structure Reading where
  swapped : Bool
  flagsReplace : Bool
deriving DecidableEq, Repr

inductive EsilError where
  | badToken
  | unbalanced
  | underflow
  | leftover
  | badTarget
  | noResult
deriving DecidableEq, Repr

inductive Item where
  | operand (vn : Varnode)
  | pc
  | number (n : Nat)
  | result (i : Int)

@[simp] def Item.value (s : Machine) : Item → Int
  | .operand vn => s.read vn
  | .pc => s.pc
  | .number n => n
  | .result i => i

@[simp] def Item.size : Item → Nat
  | .operand vn => vn.size
  | .pc | .number _ | .result _ => 8

structure EsilState where
  machine : Machine
  stack : List Item
  /-- Sizes and values of the operands of the last operator. -/
  last : Option (Nat × Nat × Nat × Nat)
  /-- The open braces whose bodies are executed. -/
  executing : Nat
  /-- The open braces within a body that is skipped, its own included. -/
  skipping : Nat

namespace EsilState

variable (reading : Reading) (st : EsilState)

@[simp] def push (item : Item) : EsilState := { st with stack := item :: st.stack }

/-- Apply an operator to the two top items. -/
@[simp] def apply (op : BinaryOp) (x y : Item) : Option Int × (Nat × Nat × Nat × Nat) :=
  let (a, b) := if reading.swapped then (y, x) else (x, y)
  let operands := (a.size, b.size, (a.value st.machine).toNat, (b.value st.machine).toNat)
  (op.result operands.1 operands.2.1 operands.2.2.1 operands.2.2.2, operands)

@[simp] def assignTo (target : Item) (i : Int) : Except EsilError Machine :=
  match target with
  | .operand vn => .ok (st.machine.write vn i)
  | .pc => .ok (st.machine.jump i.toNat)
  | .number _ | .result _ => .error .badTarget

/-- Execute one token outside of skipped bodies. -/
@[simp] def execute (token : Token) : Except EsilError EsilState :=
  match token, st.stack with
  | .operand vn, _ => .ok (st.push (.operand vn))
  | .pc, _ => .ok (st.push .pc)
  | .number n, _ => .ok (st.push (.number n))
  | .binary op, y :: x :: rest =>
    match st.apply reading op x y with
    | (some i, operands) => .ok { st with stack := .result i :: rest, last := some operands }
    | (none, _) => .error .noResult
  | .flag op, top :: rest =>
    match st.last.bind fun operands =>
        op.result operands.1 operands.2.1 operands.2.2.1 operands.2.2.2 with
    | some i =>
      .ok { st with
        stack := .result i :: if reading.flagsReplace then rest else top :: rest }
    | none => .error .noResult
  | .not, x :: rest =>
    .ok { st with stack := .result (truth (x.value st.machine = 0)) :: rest }
  | .complement, x :: rest =>
    .ok { st with stack := .result (-(x.value st.machine) - 1) :: rest }
  | .signExtend, y :: x :: rest =>
    let (value, bits) := if reading.swapped then (y, x) else (x, y)
    let extended := (BitVec.ofInt (bits.value st.machine).toNat (value.value st.machine)).toInt
    .ok { st with stack := .result extended :: rest }
  | .assign, target :: x :: rest =>
    (st.assignTo target (x.value st.machine)).map fun machine =>
      { st with machine := machine, stack := rest }
  | .compound op, target :: x :: rest =>
    match st.apply reading op x target with
    | (some i, _) => (st.assignTo target i).map fun machine =>
      { st with machine := machine, stack := rest }
    | (none, _) => .error .noResult
  | .load size, addr :: rest =>
    let loaded := st.machine.load .Ram (addr.value st.machine).toNat size
    .ok { st with stack := .result loaded :: rest }
  | .store size, addr :: x :: rest =>
    .ok { st with
      machine := st.machine.store .Ram (addr.value st.machine).toNat size
        (Machine.residue size (x.value st.machine))
      stack := rest }
  | .ifNonzero, cond :: rest =>
    if cond.value st.machine = 0 then .ok { st with stack := rest, skipping := 1 }
    else .ok { st with stack := rest, executing := st.executing + 1 }
  | .close, _ =>
    if st.executing = 0 then .error .unbalanced
    else .ok { st with executing := st.executing - 1 }
  | _, _ => .error .underflow

/-- Execute one token, or skip it. -/
@[simp] def step (token : Token) : Except EsilError EsilState :=
  if st.skipping = 0 then st.execute reading token
  else
    match token with
    | .ifNonzero => .ok { st with skipping := st.skipping + 1 }
    | .close => .ok { st with skipping := st.skipping - 1 }
    | _ => .ok st

/-- A string ends with all braces closed and nothing on the stack. -/
@[simp] def finish : Except EsilError Machine :=
  if st.executing ≠ 0 ∨ st.skipping ≠ 0 then .error .unbalanced
  else if st.stack.isEmpty then .ok st.machine
  else .error .leftover

end EsilState

@[simp] def evalTokens (reading : Reading) (s : Machine) (tokens : List Token) : Except EsilError Machine :=
  (tokens.foldlM (EsilState.step reading) ⟨s, [], none, 0, 0⟩).bind EsilState.finish

def evalEsil (reading : Reading) (context : EsilContext) (known : List Varnode) (text : String)
    (s : Machine) : Except EsilError Machine :=
  match (splitCommas text.toList).mapM fun chars => readToken context known (String.ofList chars) with
  | some tokens => evalTokens reading s tokens
  | none => .error .badToken

end R2Sleigh.Lift
