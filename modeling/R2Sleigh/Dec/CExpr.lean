import R2Sleigh.Ssa.Var

/-!
Contract: C types and expressions, and the text the code generator prints.

Owns `emitExpr` and `generateExpr`.
-/

namespace R2Sleigh.Dec

open Ssa

/-! ## Types -/

inductive CType where
  | void
  | bool
  | int (bits : Nat)
  | uint (bits : Nat)
  | float (bits : Nat)
  | pointer (inner : CType)
  | array (inner : CType) (size : Option Nat)
  | function (ret : CType) (params : List CType)
  | struct (name : String)
  | union (name : String)
  | enum (name : String)
  | typedef (name : String)
  | unknown

/-- `format!("{}", n)`. -/
def digits (n : Nat) : List Char := Nat.toDigits 10 n

mutual

/-- `impl Display for CType`. -/
def CType.display : CType → List Char
  | .void => "void".toList
  | .bool => "bool".toList
  | .int bits => "int".toList ++ digits bits ++ "_t".toList
  | .uint bits => "uint".toList ++ digits bits ++ "_t".toList
  | .float bits =>
    if bits = 32 then "float".toList
    else if bits = 64 then "double".toList
    else "float".toList ++ digits bits
  | .pointer inner => inner.display ++ ['*']
  | .array inner (some size) => inner.display ++ ('[' :: digits size ++ [']'])
  | .array inner none => inner.display ++ ['[', ']']
  | .function ret params => ret.display ++ "(*)(".toList ++ displayParams params ++ [')']
  | .struct name => "struct ".toList ++ name.toList
  | .union name => "union ".toList ++ name.toList
  | .enum name => "enum ".toList ++ name.toList
  | .typedef name => name.toList
  | .unknown => "/* unknown */".toList

/-- The parameters, separated by commas. -/
def displayParams : List CType → List Char
  | [] => []
  | param :: rest => param.display ++ displayMoreParams rest

def displayMoreParams : List CType → List Char
  | [] => []
  | param :: rest => ", ".toList ++ param.display ++ displayMoreParams rest

end

/-! ## Operators -/

inductive UnaryOp where
  | not
  | bitNot
  | neg
  | preInc
  | preDec
  | postInc
  | postDec
deriving DecidableEq, Repr

namespace UnaryOp

def text : UnaryOp → List Char
  | .not => ['!']
  | .bitNot => ['~']
  | .neg => ['-']
  | .preInc => ['+', '+']
  | .preDec => ['-', '-']
  | .postInc => ['+', '+']
  | .postDec => ['-', '-']

def isPostfix : UnaryOp → Bool
  | .postInc => true
  | .postDec => true
  | _ => false

end UnaryOp

inductive BinaryOp where
  | add | sub | mul | div | mod
  | bitAnd | bitOr | bitXor | shl | shr
  | eq | ne | lt | le | gt | ge
  | and | or
  | assign | addAssign | subAssign | mulAssign | divAssign | modAssign
  | bitAndAssign | bitOrAssign | bitXorAssign | shlAssign | shrAssign
deriving DecidableEq, Repr

namespace BinaryOp

def text : BinaryOp → List Char
  | .add => ['+']
  | .sub => ['-']
  | .mul => ['*']
  | .div => ['/']
  | .mod => ['%']
  | .bitAnd => ['&']
  | .bitOr => ['|']
  | .bitXor => ['^']
  | .shl => ['<', '<']
  | .shr => ['>', '>']
  | .eq => ['=', '=']
  | .ne => ['!', '=']
  | .lt => ['<']
  | .le => ['<', '=']
  | .gt => ['>']
  | .ge => ['>', '=']
  | .and => ['&', '&']
  | .or => ['|', '|']
  | .assign => ['=']
  | .addAssign => ['+', '=']
  | .subAssign => ['-', '=']
  | .mulAssign => ['*', '=']
  | .divAssign => ['/', '=']
  | .modAssign => ['%', '=']
  | .bitAndAssign => ['&', '=']
  | .bitOrAssign => ['|', '=']
  | .bitXorAssign => ['^', '=']
  | .shlAssign => ['<', '<', '=']
  | .shrAssign => ['>', '>', '=']

def isAssign : BinaryOp → Bool
  | .assign | .addAssign | .subAssign | .mulAssign | .divAssign | .modAssign
  | .bitAndAssign | .bitOrAssign | .bitXorAssign | .shlAssign | .shrAssign => true
  | _ => false

def precedence : BinaryOp → Nat
  | .assign | .addAssign | .subAssign | .mulAssign | .divAssign | .modAssign
  | .bitAndAssign | .bitOrAssign | .bitXorAssign | .shlAssign | .shrAssign => 2
  | .or => 4
  | .and => 5
  | .bitOr => 6
  | .bitXor => 7
  | .bitAnd => 8
  | .eq | .ne => 9
  | .lt | .le | .gt | .ge => 10
  | .shl | .shr => 11
  | .add | .sub => 12
  | .mul | .div | .mod => 13

end BinaryOp

/-! ## Expressions -/

inductive CExpr (F : Type) where
  | intLit (val : BitVec 64)
  | uintLit (val : BitVec 64)
  | floatLit (val : F)
  | stringLit (s : String)
  | charLit (c : Char)
  | var (name : String)
  | unary (op : UnaryOp) (operand : CExpr F)
  | binary (op : BinaryOp) (left right : CExpr F)
  | ternary (cond thenExpr elseExpr : CExpr F)
  | cast (ty : CType) (expr : CExpr F)
  | call (func : CExpr F) (args : List (CExpr F))
  | subscript (base index : CExpr F)
  | member (base : CExpr F) (member : String)
  | ptrMember (base : CExpr F) (member : String)
  | sizeof (inner : CExpr F)
  | sizeofType (ty : CType)
  | addrOf (inner : CExpr F)
  | deref (inner : CExpr F)
  | comma (exprs : List (CExpr F))
  | paren (inner : CExpr F)

namespace CExpr

variable {F : Type}

end CExpr

/-! ## Text -/

/-- `LIKELY_NEGATIVE_THRESHOLD`. -/
def likelyNegativeThreshold : BitVec 64 := 0xffffffffffff0000#64

def hexDigits (n : Nat) : List Char := Nat.toDigits 16 n

def emitInt (val : BitVec 64) : List Char :=
  if val.toInt < 0 then '-' :: digits val.toInt.natAbs
  else if 0xffff < val.toInt then '0' :: 'x' :: hexDigits val.toNat
  else digits val.toNat

def emitUInt (val : BitVec 64) : List Char :=
  if likelyNegativeThreshold < val then '-' :: '0' :: 'x' :: hexDigits (-val).toNat
  else if 0xffff < val.toNat then '0' :: 'x' :: hexDigits val.toNat ++ ['U']
  else digits val.toNat ++ ['U']

def isAsciiGraphic (c : Char) : Bool := '!' ≤ c && c ≤ '~'

/-- `format!("{:02x}", n)`. -/
def hexPadded (n : Nat) : List Char := if n < 16 then '0' :: hexDigits n else hexDigits n

def escapeStringChar (c : Char) : List Char :=
  if c = '\n' then ['\\', 'n']
  else if c = '\r' then ['\\', 'r']
  else if c = '\t' then ['\\', 't']
  else if c = '\\' then ['\\', '\\']
  else if c = '"' then ['\\', '"']
  else if isAsciiGraphic c ∨ c = ' ' then [c]
  else '\\' :: 'x' :: hexPadded c.toNat

def escapeChar (c : Char) : List Char :=
  if c = '\n' then ['\\', 'n']
  else if c = '\r' then ['\\', 'r']
  else if c = '\t' then ['\\', 't']
  else if c = '\\' then ['\\', '\\']
  else if c = '\'' then ['\\', '\'']
  else if isAsciiGraphic c ∨ c = ' ' then [c]
  else '\\' :: 'x' :: hexPadded c.toNat

def parenthesize (needParens : Bool) (text : List Char) : List Char :=
  if needParens then '(' :: text ++ [')'] else text

section Emit

variable {F : Type} (fixed6 : F → List Char)

mutual

/-- The text of an expression, in parentheses where its precedence is below the
parent's. -/
def emitExpr : CExpr F → Nat → List Char
  | .intLit val, parentPrec => parenthesize (16 < parentPrec) (emitInt val)
  | .uintLit val, parentPrec => parenthesize (16 < parentPrec) (emitUInt val)
  | .floatLit val, parentPrec => parenthesize (16 < parentPrec) (fixed6 val)
  | .stringLit s, parentPrec =>
    parenthesize (16 < parentPrec) ('"' :: s.toList.flatMap escapeStringChar ++ ['"'])
  | .charLit c, parentPrec => parenthesize (16 < parentPrec) ('\'' :: escapeChar c ++ ['\''])
  | .var name, parentPrec => parenthesize (16 < parentPrec) name.toList
  | .unary op operand, parentPrec =>
    parenthesize (14 < parentPrec)
      (if op.isPostfix then emitExpr operand 14 ++ op.text else op.text ++ emitExpr operand 14)
  | .binary op left right, parentPrec =>
    let myPrec := op.precedence
    let rightPrec := if op.isAssign then myPrec else myPrec + 1
    parenthesize (myPrec < parentPrec)
      (emitExpr left myPrec ++ (' ' :: op.text ++ [' ']) ++ emitExpr right rightPrec)
  | .ternary cond thenExpr elseExpr, parentPrec =>
    parenthesize (3 < parentPrec)
      (emitExpr cond 4 ++ " ? ".toList ++ emitExpr thenExpr 0 ++ " : ".toList ++
        emitExpr elseExpr 3)
  | .cast ty expr, parentPrec =>
    parenthesize (14 < parentPrec) ('(' :: ty.display ++ [')'] ++ emitExpr expr 14)
  | .call func args, parentPrec =>
    parenthesize (15 < parentPrec) (emitExpr func 15 ++ ['('] ++ emitItems args 0 ++ [')'])
  | .subscript base index, parentPrec =>
    parenthesize (15 < parentPrec) (emitExpr base 15 ++ ['['] ++ emitExpr index 0 ++ [']'])
  | .member base member, parentPrec =>
    parenthesize (15 < parentPrec) (emitExpr base 15 ++ ('.' :: member.toList))
  | .ptrMember base member, parentPrec =>
    parenthesize (15 < parentPrec) (emitExpr base 15 ++ ('-' :: '>' :: member.toList))
  | .sizeof inner, parentPrec =>
    parenthesize (14 < parentPrec) ("sizeof(".toList ++ emitExpr inner 0 ++ [')'])
  | .sizeofType ty, parentPrec =>
    parenthesize (14 < parentPrec) ("sizeof(".toList ++ ty.display ++ [')'])
  | .addrOf inner, parentPrec => parenthesize (14 < parentPrec) ('&' :: emitExpr inner 14)
  | .deref inner, parentPrec => parenthesize (14 < parentPrec) ('*' :: emitExpr inner 14)
  | .comma exprs, parentPrec => parenthesize (1 < parentPrec) (emitItems exprs 2)
  | .paren inner, parentPrec => parenthesize (16 < parentPrec) ('(' :: emitExpr inner 0 ++ [')'])

/-- Expressions separated by commas, each printed at one precedence. -/
def emitItems : List (CExpr F) → Nat → List Char
  | [], _ => []
  | expr :: rest, prec => emitExpr expr prec ++ emitMoreItems rest prec

def emitMoreItems : List (CExpr F) → Nat → List Char
  | [], _ => []
  | expr :: rest, prec => ", ".toList ++ emitExpr expr prec ++ emitMoreItems rest prec

end

def generateExpr (expr : CExpr F) : String := String.ofList (emitExpr fixed6 expr 0)

end Emit

end R2Sleigh.Dec
