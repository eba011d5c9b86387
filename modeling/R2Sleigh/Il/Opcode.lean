import Mathlib.Algebra.Ring.Nat

/-!
Contract: the r2il intermediate language that SSA construction consumes.

Does not own: varnode and operation metadata, which no modelled function reads.

`u64` and `u32` fields are natural numbers. Operations that the source treats
alike field by field are grouped: `binary` stands for every constructor with
fields `dst, a, b` and `unary` for those with fields `dst, src`, each keeping
its own name in `BinaryOp` and `UnaryOp`. `Copy` and `New` have the fields of
a unary operation but are singled out elsewhere, so they stay apart.
-/

namespace R2Sleigh.Il

inductive SpaceId where
  | Ram
  | Register
  | Unique
  | Const
  | Custom (id : Nat)
deriving DecidableEq, Repr

/-- A sized piece of data at an offset of an address space. -/
structure Varnode where
  space : SpaceId
  offset : Nat
  size : Nat
deriving DecidableEq, Repr

inductive MemoryOrdering where
  | Relaxed
  | Acquire
  | Release
  | AcqRel
  | SeqCst
  | Unknown
deriving DecidableEq, Repr

/-- The operations with fields `dst`, `a` and `b`. -/
inductive BinaryOp where
  | IntAdd | IntSub | IntMult | IntDiv | IntSDiv | IntRem | IntSRem
  | IntCarry | IntSCarry | IntSBorrow
  | IntAnd | IntOr | IntXor
  | IntLeft | IntRight | IntSRight
  | IntEqual | IntNotEqual | IntLess | IntSLess | IntLessEqual | IntSLessEqual
  | BoolAnd | BoolOr | BoolXor
  | FloatAdd | FloatSub | FloatMult | FloatDiv
  | FloatEqual | FloatNotEqual | FloatLess | FloatLessEqual
deriving DecidableEq, Repr

/-- The operations with fields `dst` and `src`, other than `Copy` and `New`. -/
inductive UnaryOp where
  | IntNegate | IntNot | IntZExt | IntSExt
  | BoolNot
  | PopCount | Lzcount
  | FloatNeg | FloatAbs | FloatSqrt | FloatCeil | FloatFloor | FloatRound | FloatNaN
  | Int2Float | Float2Int | FloatFloat | Trunc
  | Cast
deriving DecidableEq, Repr

inductive R2ILOp where
  | Copy (dst src : Varnode)
  | Load (dst : Varnode) (space : SpaceId) (addr : Varnode)
  | Store (space : SpaceId) (addr val : Varnode)
  | Fence (ordering : MemoryOrdering)
  | LoadLinked (dst : Varnode) (space : SpaceId) (addr : Varnode) (ordering : MemoryOrdering)
  | StoreConditional (result : Option Varnode) (space : SpaceId) (addr val : Varnode)
      (ordering : MemoryOrdering)
  | AtomicCAS (dst : Varnode) (space : SpaceId) (addr expected replacement : Varnode)
      (ordering : MemoryOrdering)
  | LoadGuarded (dst : Varnode) (space : SpaceId) (addr guard : Varnode)
      (ordering : MemoryOrdering)
  | StoreGuarded (space : SpaceId) (addr val guard : Varnode) (ordering : MemoryOrdering)
  | binary (op : BinaryOp) (dst a b : Varnode)
  | unary (op : UnaryOp) (dst src : Varnode)
  | Piece (dst hi lo : Varnode)
  | Subpiece (dst src : Varnode) (offset : Nat)
  | Branch (target : Varnode)
  | CBranch (target cond : Varnode)
  | BranchInd (target : Varnode)
  | Call (target : Varnode)
  | CallInd (target : Varnode)
  | Return (target : Varnode)
  | CallOther (output : Option Varnode) (userop : Nat) (inputs : List Varnode)
  | Nop
  | Unimplemented
  | CpuId (dst : Varnode)
  | Breakpoint
  | Multiequal (dst : Varnode) (inputs : List Varnode)
  | Indirect (dst src indirect : Varnode)
  | PtrAdd (dst base index : Varnode) (elementSize : Nat)
  | PtrSub (dst base index : Varnode) (elementSize : Nat)
  | SegmentOp (dst segment offset : Varnode)
  | New (dst src : Varnode)
  | Extract (dst src position : Varnode)
  | Insert (dst src value position : Varnode)
deriving DecidableEq, Repr

/-- Switch table of a block: `(value, target)` cases and the default target. -/
structure SwitchInfo where
  cases : List (Nat × Nat)
  defaultTarget : Option Nat
deriving DecidableEq, Repr

structure R2ILBlock where
  addr : Nat
  size : Nat
  ops : List R2ILOp
  switchInfo : Option SwitchInfo := none
deriving DecidableEq, Repr

structure RegisterDef where
  name : String
  offset : Nat
  size : Nat
deriving DecidableEq, Repr

/-- The part of an architecture description that SSA construction reads. -/
structure ArchSpec where
  name : String
  addrSize : Nat
  registers : List RegisterDef
deriving DecidableEq, Repr

end R2Sleigh.Il
