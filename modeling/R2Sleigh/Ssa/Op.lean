import R2Sleigh.Ssa.Var

/-!
Contract: SSA operations, their destination and their sources.

Owns `SSAOp`, `dst` and `sources`.
-/

namespace R2Sleigh.Ssa

open Il

inductive SSAOp where
  | Phi (dst : SSAVar) (sources : List SSAVar)
  | Copy (dst src : SSAVar)
  | Load (dst : SSAVar) (space : String) (addr : SSAVar)
  | Store (space : String) (addr val : SSAVar)
  | Fence (ordering : MemoryOrdering)
  | LoadLinked (dst : SSAVar) (space : String) (addr : SSAVar) (ordering : MemoryOrdering)
  | StoreConditional (result : Option SSAVar) (space : String) (addr val : SSAVar)
      (ordering : MemoryOrdering)
  | AtomicCAS (dst : SSAVar) (space : String) (addr expected replacement : SSAVar)
      (ordering : MemoryOrdering)
  | LoadGuarded (dst : SSAVar) (space : String) (addr guard : SSAVar)
      (ordering : MemoryOrdering)
  | StoreGuarded (space : String) (addr val guard : SSAVar) (ordering : MemoryOrdering)
  | binary (op : BinaryOp) (dst a b : SSAVar)
  | unary (op : UnaryOp) (dst src : SSAVar)
  | Piece (dst hi lo : SSAVar)
  | Subpiece (dst src : SSAVar) (offset : Nat)
  | Branch (target : SSAVar)
  | CBranch (target cond : SSAVar)
  | BranchInd (target : SSAVar)
  | Call (target : SSAVar)
  | CallInd (target : SSAVar)
  | CallDefine (dst : SSAVar)
  | Return (target : SSAVar)
  | CallOther (output : Option SSAVar) (userop : Nat) (inputs : List SSAVar)
  | Nop
  | Unimplemented
  | CpuId (dst : SSAVar)
  | Breakpoint
  | PtrAdd (dst base index : SSAVar) (elementSize : Nat)
  | PtrSub (dst base index : SSAVar) (elementSize : Nat)
  | SegmentOp (dst segment offset : SSAVar)
  | New (dst src : SSAVar)
  | Extract (dst src position : SSAVar)
  | Insert (dst src value position : SSAVar)
deriving DecidableEq, Repr

namespace SSAOp

/-- The destination variable, if the operation has one. -/
def dst : SSAOp → Option SSAVar
  | Phi dst _ | Copy dst _ | Load dst _ _ | LoadLinked dst _ _ _ | AtomicCAS dst _ _ _ _ _
  | LoadGuarded dst _ _ _ _ | binary _ dst _ _ | unary _ dst _ | Piece dst _ _
  | Subpiece dst _ _ | CpuId dst | PtrAdd dst _ _ _ | PtrSub dst _ _ _ | SegmentOp dst _ _
  | New dst _ | Extract dst _ _ | Insert dst _ _ _ | CallDefine dst => some dst
  | CallOther output _ _ => output
  | StoreConditional result _ _ _ _ => result
  | Store _ _ _ | Fence _ | StoreGuarded _ _ _ _ _ | Branch _ | CBranch _ _ | BranchInd _
  | Call _ | CallInd _ | Return _ | Nop | Unimplemented | Breakpoint => none

/-- The source variables in operand order. -/
def sources : SSAOp → List SSAVar
  | Phi _ sources => sources
  | Copy _ src | unary _ _ src | Subpiece _ src _ | New _ src => [src]
  | Load _ _ addr | LoadLinked _ _ addr _ => [addr]
  | Store _ addr val | StoreConditional _ _ addr val _ => [addr, val]
  | AtomicCAS _ _ addr expected replacement _ => [addr, expected, replacement]
  | LoadGuarded _ _ addr guard _ => [addr, guard]
  | StoreGuarded _ addr val guard _ => [addr, val, guard]
  | binary _ _ a b => [a, b]
  | Piece _ hi lo => [hi, lo]
  | Extract _ src position => [src, position]
  | Insert _ src value position => [src, value, position]
  | PtrAdd _ base index _ | PtrSub _ base index _ => [base, index]
  | SegmentOp _ segment offset => [segment, offset]
  | Branch target | BranchInd target | Call target | CallInd target | Return target => [target]
  | CBranch target cond => [target, cond]
  | CallOther _ _ inputs => inputs
  | Fence _ | Nop | Unimplemented | Breakpoint | CpuId _ | CallDefine _ => []

/-- `for_each_source`, with the state of the visitor. -/
def forEachSource {S : Type} (visit : S → SSAVar → S) (s : S) : SSAOp → S
  | Phi _ sources => sources.foldl visit s
  | Copy _ src | unary _ _ src | Subpiece _ src _ | New _ src => visit s src
  | Load _ _ addr | LoadLinked _ _ addr _ => visit s addr
  | Store _ addr val | StoreConditional _ _ addr val _ => visit (visit s addr) val
  | AtomicCAS _ _ addr expected replacement _ => visit (visit (visit s addr) expected) replacement
  | LoadGuarded _ _ addr guard _ => visit (visit s addr) guard
  | StoreGuarded _ addr val guard _ => visit (visit (visit s addr) val) guard
  | binary _ _ a b => visit (visit s a) b
  | Piece _ hi lo => visit (visit s hi) lo
  | Extract _ src position => visit (visit s src) position
  | Insert _ src value position => visit (visit (visit s src) value) position
  | PtrAdd _ base index _ | PtrSub _ base index _ => visit (visit s base) index
  | SegmentOp _ segment offset => visit (visit s segment) offset
  | Branch target | BranchInd target | Call target | CallInd target | Return target =>
    visit s target
  | CBranch target cond => visit (visit s target) cond
  | CallOther _ _ inputs => inputs.foldl visit s
  | Fence _ | Nop | Unimplemented | Breakpoint | CpuId _ | CallDefine _ => s

/-- The fields of an operation other than its variables. -/
def fields : SSAOp → Option BinaryOp × Option UnaryOp × Option String × Option MemoryOrdering × Nat
  | binary op _ _ _ => (op, none, none, none, 0)
  | unary op _ _ => (none, op, none, none, 0)
  | Load _ space _ | Store space _ _ => (none, none, space, none, 0)
  | Fence ordering => (none, none, none, ordering, 0)
  | LoadLinked _ space _ ordering | StoreConditional _ space _ _ ordering
  | AtomicCAS _ space _ _ _ ordering | LoadGuarded _ space _ _ ordering
  | StoreGuarded space _ _ _ ordering => (none, none, space, ordering, 0)
  | Subpiece _ _ n | CallOther _ n _ | PtrAdd _ _ _ n | PtrSub _ _ _ n => (none, none, none, none, n)
  | _ => (none, none, none, none, 0)

/-- `matches!(op, SSAOp::Phi { .. })`. -/
def isPhi : SSAOp → Bool
  | Phi _ _ => true
  | _ => false

end SSAOp

end R2Sleigh.Ssa
