import R2Sleigh.Sym.CallVersions

/-!
Contract: the taint that an operation carries to its destination.

Owns `Contains` and `carriedTaint`.
-/

namespace R2Sleigh.Sym

open Il Lib Ssa List SymExecutor

variable {BV Formula Model : Type}
variable {taint mask : Word} {run : Exec (SymValue BV)} {α : Type}

/-! ## Masks -/

/-- The bits of a mask are among those of a taint. -/
def Contains (taint mask : Word) : Prop := taint &&& mask = mask

instance (taint mask : Word) : Decidable (Contains taint mask) := inferInstanceAs (Decidable (_ = _))

theorem contains_iff :
    Contains taint mask ↔ ∀ i, mask.getLsbD i = true → taint.getLsbD i = true := by
  constructor
  · intro contains i isSet
    have bit := congrArg (·.getLsbD i) contains
    simp only [BitVec.getLsbD_and, isSet, Bool.and_true] at bit
    exact bit
  · intro bits
    refine BitVec.eq_of_getLsbD_eq fun i _ => ?_
    rw [BitVec.getLsbD_and]
    cases isSet : mask.getLsbD i with
    | false => rw [Bool.and_false]
    | true => rw [bits i isSet, Bool.and_true]

theorem contains_self (taint : Word) : Contains taint taint := BitVec.and_self

theorem contains_zero (taint : Word) : Contains taint 0 := BitVec.and_zero

theorem Contains.trans {a b c : Word} (first : Contains a b) (second : Contains b c) : Contains a c :=
  contains_iff.mpr fun i isSet => contains_iff.mp first i (contains_iff.mp second i isSet)

theorem Contains.or_left (contains : Contains taint mask) (other : Word) :
    Contains (taint ||| other) mask :=
  contains_iff.mpr fun i isSet => by
    rw [BitVec.getLsbD_or, contains_iff.mp contains i isSet, Bool.true_or]

theorem Contains.or_right (contains : Contains taint mask) (other : Word) :
    Contains (other ||| taint) mask :=
  contains_iff.mpr fun i isSet => by
    rw [BitVec.getLsbD_or, contains_iff.mp contains i isSet, Bool.or_true]

/-! ## Values -/

namespace SymValue

section Values

variable [Z3 BV Formula Model]

variable (v : SymValue BV)

@[simp] theorem getTaint_zeroExtend (bits : Nat) :
    (v.zeroExtend bits).getTaint = v.getTaint := by
  unfold zeroExtend
  split_ifs
  · rfl
  · cases v <;> rfl

@[simp] theorem getTaint_extract (high low : Nat) :
    (v.extract high low).getTaint = v.getTaint := by
  unfold extract
  cases v <;> dsimp only <;> split_ifs <;> rfl

@[simp] theorem getTaint_adjustBits (bits : Nat) :
    (SymMemory.adjustBits v bits).getTaint = v.getTaint := by
  unfold SymMemory.adjustBits
  split_ifs
  · rfl
  · exact getTaint_zeroExtend v bits
  · exact getTaint_extract v _ _

@[simp] theorem getTaint_slice (writeAddr addr : Word) (writeSize size : Nat) :
    (SymMemory.slice v writeAddr writeSize addr size).getTaint = v.getTaint := by
  unfold SymMemory.slice
  dsimp only
  split_ifs
  · rfl
  · exact getTaint_extract v _ _

end Values

variable [Z3Arith BV Formula Model] (a b : SymValue BV) (n : Nat)

theorem getTaint_combine (op : BvOp) {fold : Word → Word → Nat → Word → SymValue BV}
    (keeps : ∀ x y bits taint, (fold x y bits taint).getTaint = taint) :
    (combine op fold a b n).1.getTaint = a.getTaint ||| b.getTaint := by
  cases a <;> cases b <;> first | exact keeps _ _ _ _ | rfl

theorem getTaint_compareWith (term : BV → BV → Formula) (fold : Word → Word → Bool) :
    (compareWith term fold a b n).1.getTaint = a.getTaint ||| b.getTaint := by
  cases a <;> cases b <;> rfl

private theorem getTaint_transform (op : BvUnary) (fold : Word → Word) :
    (transform op fold a n).1.getTaint = a.getTaint := by
  cases a <;> rfl

private theorem getTaint_concat : (a.concat b n).1.getTaint = a.getTaint ||| b.getTaint := by
  cases a with
  | concrete x xBits _ =>
    cases b with
    | concrete y yBits _ =>
      simp only [concat]
      generalize decide (_ ≤ 64) = small
      cases small <;> rfl
    | _ => rfl
  | _ => cases b <;> rfl

def Gives (run : Exec (SymValue BV)) (taint : Word) : Prop :=
  ∀ n v n', run n = .ok (v, n') → v.getTaint = taint

omit [Z3Arith BV Formula Model] in
theorem gives_fresh {run : Fresh (SymValue BV)}
    (gives : ∀ n, (run n).1.getTaint = taint) : Gives (run : Exec (SymValue BV)) taint := by
  intro n v n' ran
  have ran : run n = (v, n') := Except.ok.inj ran
  rw [← gives n, ran]

omit [Z3Arith BV Formula Model] in
theorem gives_pure {v : SymValue BV} (isTaint : v.getTaint = taint) :
    Gives (pure v) taint := by
  intro n v' n' ran
  rw [← (exec_pure.mp ran).1, isTaint]

private theorem gives_shl (checks : Bool) : Gives (a.shl checks b) (a.getTaint ||| b.getTaint) := by
  cases a <;> cases b <;> try exact gives_fresh fun n => rfl
  intro n v n' ran
  obtain ⟨shifted, k, -, ran⟩ := exec_bind.mp ran
  rw [← (exec_pure.mp ran).1]
  rfl

private theorem gives_lshr (checks : Bool) :
    Gives (a.lshr checks b) (a.getTaint ||| b.getTaint) := by
  cases a <;> cases b <;> try exact gives_fresh fun n => rfl
  intro n v n' ran
  obtain ⟨shifted, k, -, ran⟩ := exec_bind.mp ran
  rw [← (exec_pure.mp ran).1]
  rfl

private theorem gives_signExtend (checks : Bool) (newBits : Nat) :
    Gives (a.signExtend checks newBits) a.getTaint := by
  unfold signExtend
  by_cases narrow : newBits ≤ a.bits
  · rw [if_pos narrow]
    exact gives_pure rfl
  · rw [if_neg narrow]
    cases a with
    | concrete value bits taint =>
      intro n v n' ran
      obtain ⟨word, k, -, ran⟩ := exec_bind.mp ran
      rw [← (exec_pure.mp ran).1]
      rfl
    | symbolic | unknown => exact gives_pure rfl

end SymValue

/-! ## Reads -/

namespace SymMemory

variable [Z3 BV Formula Model] (mem : SymMemory BV)

/-- The taint of the newest logged write that covers a read. -/
def taintAt (addr : Word) (size : Nat) : Word :=
  ((mem.loggedRead addr size).map SymValue.getTaint).getD 0

theorem getTaint_readConcrete (addr : Word) (size : Nat) :
    (mem.readConcrete addr size).getTaint = mem.taintAt addr size := by
  unfold readConcrete taintAt
  cases mem.loggedRead addr size with
  | some value => rfl
  | none =>
    cases mem.concreteWord addr size with
    | some word => rfl
    | none =>
      simp only [defaultRead, Option.map_none, Option.getD_none]
      split_ifs <;> rfl

/-- The taint that a read takes from the targets of its address. -/
def loadedTaint (enumerate : Enumerator BV Formula) (addr : SymValue BV) (size : Nat)
    (constraints : List Formula) : Word :=
  match addr.asConcrete with
  | some target => mem.taintAt target size
  | none => (enumerate mem.maxSymbolicTargets addr constraints).1.foldl (fun taint target =>
    mem.taintAt target size ||| addr.getTaint ||| taint) addr.getTaint

omit [Z3 BV Formula Model] in
private theorem getTaint_withTaint (taint : Word) :
    (withTaint v taint).getTaint = v.getTaint ||| taint := by
  cases v <;> rfl

theorem getTaint_readTargets (addr : SymValue BV) (addrBv : BV) (size : Nat) :
    ∀ (targets : List Word) (result : SymValue BV) (n : Nat),
      (targets.foldlM (mem.readTarget addr addrBv size) result n).1.getTaint =
        targets.foldl (fun taint target => mem.taintAt target size ||| addr.getTaint ||| taint)
          result.getTaint
  | [], result, n => rfl
  | target :: rest, result, n => by
    rw [foldlM_cons, foldl_cons, ← getTaint_readConcrete, ← getTaint_withTaint]
    exact getTaint_readTargets addr addrBv size rest _ _

theorem getTaint_readWithConstraints (enumerate : Enumerator BV Formula) (addr : SymValue BV)
    (size : Nat) (constraints : List Formula) (n : Nat) :
    (mem.readWithConstraints enumerate addr size constraints n).1.getTaint =
      mem.loadedTaint enumerate addr size constraints := by
  unfold readWithConstraints loadedTaint
  cases addr.asConcrete with
  | some target => exact getTaint_readConcrete mem target size
  | none =>
    generalize enumerate mem.maxSymbolicTargets addr constraints = found
    obtain ⟨targets, truncated⟩ := found
    cases mem.defaultSymbolic <;> cases targets with
    | nil => rfl
    | cons target rest => exact getTaint_readTargets mem addr _ size (target :: rest) _ _

end SymMemory

/-! ## Operations -/

namespace SymExecutor

variable [Z3Arith BV Formula Model] (executor : SymExecutor BV Formula)

omit [Z3Arith BV Formula Model] in
def taintOf (state : SymState BV Formula) (var : SSAVar) : Word :=
  (executor.readVar state var).getTaint

/-- The operations on two operands that build their result without a taint. -/
def dropsTaint : BinaryOp → Bool
  | .IntSCarry | .IntSBorrow | .IntNotEqual => true
  | op => BinaryOp.isFloat op

def loadedTaint (state : SymState BV Formula) (addr : SSAVar) (size : Nat) : Word :=
  state.memory.loadedTaint executor.enumerate (executor.readVar state addr) size state.constraints

/-- The taint of bits taken from a value, none where they start above it. -/
def takenTaint (value : SymValue BV) (low : Nat) : Word :=
  if low < max value.bits 1 then value.getTaint else 0

/-- The taint of what an operation stores for its destination. -/
def carriedTaint (state : SymState BV Formula) : SSAOp → Word
  | .Copy _ src | .Insert _ src _ _ | .SegmentOp _ _ src => executor.taintOf state src
  | .Load dst _ addr | .LoadLinked dst _ addr _ | .AtomicCAS dst _ addr _ _ _ =>
    executor.loadedTaint state addr dst.size
  | .LoadGuarded dst _ addr guard _ =>
    match (executor.readVar state guard).asConcrete with
    | some g => if g ≠ 0 then executor.loadedTaint state addr dst.size else 0
    | none => 0
  | .binary op _ a b =>
    if dropsTaint op then 0 else executor.taintOf state a ||| executor.taintOf state b
  | .unary op _ src =>
    match op with
    | .IntNegate | .IntNot | .IntZExt | .IntSExt | .Cast => executor.taintOf state src
    | .BoolNot =>
      if (executor.readVar state src).isConcrete then 0 else executor.taintOf state src
    | _ => 0
  | .Piece _ a b | .PtrAdd _ a b _ | .PtrSub _ a b _ =>
    executor.taintOf state a ||| executor.taintOf state b
  | .Subpiece _ src offset => takenTaint (executor.readVar state src) (offset * 8)
  | .Extract _ src position =>
    match (executor.readVar state position).asConcrete with
    | some p => takenTaint (executor.readVar state src) (p.toNat % 2 ^ 32)
    | none => 0
  | .Phi _ sources => (sources.head?.map (executor.taintOf state)).getD 0
  | _ => 0

/-- The address of a load, which leaves no taint if it is known. -/
def droppedAddr (state : SymState BV Formula) (addr : SSAVar) : List SSAVar :=
  if (executor.readVar state addr).isConcrete then [addr] else []

/-- The operands whose taint an operation does not take. -/
def droppedOperands (state : SymState BV Formula) : SSAOp → List SSAVar
  | .Insert _ _ value position => [value, position]
  | .SegmentOp _ segment _ => [segment]
  | .Load _ _ addr | .LoadLinked _ _ addr _ => executor.droppedAddr state addr
  | .AtomicCAS _ _ addr expected replacement _ =>
    executor.droppedAddr state addr ++ [expected, replacement]
  | .LoadGuarded _ _ addr guard _ =>
    match (executor.readVar state guard).asConcrete with
    | some g => if g ≠ 0 then executor.droppedAddr state addr ++ [guard] else [addr, guard]
    | none => [addr, guard]
  | .binary op _ a b => if dropsTaint op then [a, b] else []
  | .unary op _ src =>
    match op with
    | .IntNegate | .IntNot | .IntZExt | .IntSExt | .Cast => []
    | .BoolNot => if (executor.readVar state src).isConcrete then [src] else []
    | _ => [src]
  | .Subpiece _ src offset =>
    if offset * 8 < max (executor.readVar state src).bits 1 then [] else [src]
  | .Extract _ src position =>
    match (executor.readVar state position).asConcrete with
    | some p =>
      if p.toNat % 2 ^ 32 < max (executor.readVar state src).bits 1 then [position]
      else [src, position]
    | none => [src, position]
  | .Phi _ sources => sources.tail
  | .CallOther _ _ inputs => inputs
  | .New _ src => [src]
  | .StoreConditional _ _ addr val _ => [addr, val]
  | _ => []

end SymExecutor

section Operations

variable [Z3Arith BV Formula Model] {executor : SymExecutor BV Formula}
variable {state after : SymState BV Formula} {op : SSAOp} {dst : SSAVar}

open SymValue

omit [Z3Arith BV Formula Model] in
theorem getTaint_takeBits [Z3 BV Formula Model] (value : SymValue BV) (low dstBits : Nat) :
    (takeBits value low dstBits).getTaint = takenTaint value low := by
  unfold takeBits takenTaint
  dsimp only
  by_cases above : max value.bits 1 ≤ low
  · rw [if_pos above, if_neg (by omega)]
    rfl
  · have inside : low < max value.bits 1 := by omega
    simp only [if_neg above, if_pos inside]
    split_ifs
    · rw [getTaint_zeroExtend, getTaint_extract]
    · rw [getTaint_extract]

private theorem binaryValue_gives (checks : Bool) (dstBits : Nat) (a b : SymValue BV)
    (op : BinaryOp) : Gives (binaryValue checks dstBits a b op)
      (if dropsTaint op then 0 else a.getTaint ||| b.getTaint) := by
  have arithmetic : ∀ {op : BvOp} {fold : Word → Word → Nat → Word → SymValue BV},
      (∀ x y bits taint, (fold x y bits taint).getTaint = taint) →
      Gives (combine op fold a b : Fresh (SymValue BV)) (a.getTaint ||| b.getTaint) :=
    fun keeps => gives_fresh fun n => getTaint_combine a b n _ keeps
  have comparison : ∀ {term : BV → BV → Formula} {fold : Word → Word → Bool},
      Gives (compareWith term fold a b : Fresh (SymValue BV)) (a.getTaint ||| b.getTaint) :=
    gives_fresh fun n => getTaint_compareWith a b n _ _
  have division : ∀ (x y : Word) (bits : Nat) (taint : Word) (word : Word),
      (if y = 0 then (.unknown bits taint : SymValue BV) else .concrete word bits taint).getTaint =
        taint := by
    intro x y bits taint word
    split_ifs <;> rfl
  cases op with
  | IntAdd | IntSub | IntMult | IntAnd | BoolAnd | IntOr | BoolOr | IntXor | BoolXor =>
    refine arithmetic ?_
    exact fun _ _ _ _ => rfl
  | IntDiv | IntRem =>
    refine arithmetic ?_
    exact fun x y bits taint => division x y bits taint _
  | IntSDiv | IntSRem | IntSRight | IntSLess | IntSLessEqual | IntSCarry | IntSBorrow =>
    exact gives_fresh fun n => rfl
  | IntEqual | IntLess | IntLessEqual => exact comparison
  | IntLeft => exact gives_shl a b checks
  | IntRight => exact gives_lshr a b checks
  | IntCarry =>
    refine gives_fresh fun n => ?_
    have sum : (a.add b n).1.getTaint = a.getTaint ||| b.getTaint :=
      getTaint_combine a b n _ fun _ _ _ _ => rfl
    show (compareWith _ _ (a.add b n).1 a _).1.getTaint = a.getTaint ||| b.getTaint
    rw [getTaint_compareWith, sum, BitVec.or_comm, ← BitVec.or_assoc, BitVec.or_self]
  | IntNotEqual =>
    refine gives_fresh fun n => ?_
    simp only [notEqual, bind, StateT.bind]
    generalize a.eq b n = equal
    obtain ⟨value, n'⟩ := equal
    cases isConcrete : value.asConcrete <;> simp only [isConcrete] <;> rfl
  | FloatAdd | FloatSub | FloatMult | FloatDiv | FloatEqual | FloatNotEqual | FloatLess
  | FloatLessEqual => exact gives_pure rfl

private theorem unaryValue_gives (checks : Bool) (dstBits : Nat) (value : SymValue BV)
    (op : UnaryOp) : Gives (unaryValue checks dstBits value op)
      (match op with
      | .IntNegate | .IntNot | .IntZExt | .IntSExt | .Cast => value.getTaint
      | .BoolNot => if value.isConcrete then 0 else value.getTaint
      | _ => 0) := by
  cases op with
  | IntNegate | IntNot => exact gives_fresh fun n => getTaint_transform value n _ _
  | IntZExt => exact gives_pure (getTaint_zeroExtend value dstBits)
  | IntSExt => exact gives_signExtend value checks dstBits
  | BoolNot =>
    cases value with
    | concrete word bits taint => exact gives_pure rfl
    | symbolic | unknown => exact gives_fresh fun n => rfl
  | PopCount | Lzcount =>
    simp only [unaryValue]
    cases value.asConcrete <;> exact gives_pure rfl
  | Cast =>
    simp only [unaryValue]
    split_ifs
    · exact gives_pure (getTaint_zeroExtend value _)
    · exact gives_pure (getTaint_extract value _ _)
    · exact gives_pure rfl
  | FloatNeg | FloatAbs | FloatSqrt | FloatCeil | FloatFloor | FloatRound | FloatNaN | Int2Float
  | Float2Int | FloatFloat | Trunc => exact gives_pure rfl

theorem memRead_gives (addr : SSAVar) (size : Nat) :
    Gives (state.memRead executor.enumerate (executor.readVar state addr) size : Fresh (SymValue BV))
      (executor.loadedTaint state addr size) :=
  gives_fresh fun n => state.memory.getTaint_readWithConstraints _ _ _ _ n

private theorem getTaint_scaled (base index : SymValue BV) (word : Word) (bits n : Nat) {op : BvOp}
    {fold : Word → Word → Nat → Word → SymValue BV}
    (keeps : ∀ x y bits taint, (fold x y bits taint).getTaint = taint) :
    (combine op fold base (index.mul (.ofWord word bits) n).1 (index.mul (.ofWord word bits) n).2).1.getTaint =
      base.getTaint ||| index.getTaint := by
  have scaled : (index.mul (.ofWord word bits) n).1.getTaint = index.getTaint ||| 0 :=
    getTaint_combine index _ n _ fun _ _ _ _ => rfl
  have unchanged : index.getTaint ||| 0 = index.getTaint := BitVec.or_zero
  rw [getTaint_combine base _ _ _ keeps, scaled, unchanged]

private theorem valueOf_gives (isValue : executor.valueOf state op = some (dst, run)) :
    Gives run (executor.carriedTaint state op) := by
  cases op with
  | Copy | Insert | SegmentOp | CallDefine | CpuId | New =>
    cases isValue
    exact gives_pure rfl
  | CallOther output userop inputs =>
    obtain ⟨dst', isOutput, same⟩ := Option.map_eq_some_iff.mp isValue
    cases same
    exact gives_pure rfl
  | Load dst' space addr | LoadLinked dst' space addr ordering =>
    obtain ⟨rfl, rfl⟩ := Prod.mk.inj (Option.some.inj isValue)
    exact memRead_gives addr dst'.size
  | LoadGuarded dst' space addr guard ordering =>
    obtain ⟨rfl, rfl⟩ := Prod.mk.inj (Option.some.inj isValue)
    intro n v n' ran
    obtain ⟨loaded, k, isLoaded, ran⟩ := exec_bind.mp ran
    have loadedTaint := memRead_gives addr dst'.size n loaded k isLoaded
    simp only [carriedTaint]
    cases isGuard : (executor.readVar state guard).asConcrete with
    | some g =>
      simp only [isGuard] at ran ⊢
      rw [← (exec_pure.mp ran).1]
      split_ifs
      · exact loadedTaint
      · rfl
    | none =>
      simp only [isGuard] at ran ⊢
      have merged : v = (guarded (executor.readVar state guard) loaded
          (.unknown (SymValue.normalizeBvBits (dst'.size * 8)) 0) k).1 :=
        (congrArg Prod.fst (Except.ok.inj ran)).symm
      rw [merged]
      rfl
  | binary op dst' a b =>
    cases isValue
    exact binaryValue_gives _ _ _ _ op
  | unary op dst' src =>
    cases isValue
    exact unaryValue_gives _ _ _ op
  | Piece dst' hi lo =>
    cases isValue
    exact gives_fresh fun n => getTaint_concat _ _ n
  | Subpiece dst' src offset =>
    cases isValue
    exact gives_pure (getTaint_takeBits _ _ _)
  | Phi dst' sources =>
    obtain ⟨src, isHead, same⟩ := Option.map_eq_some_iff.mp isValue
    cases same
    refine gives_pure ?_
    rw [carriedTaint, isHead]
    rfl
  | PtrAdd dst' base index elementSize | PtrSub dst' base index elementSize =>
    cases isValue
    exact gives_fresh fun n => getTaint_scaled _ _ _ _ n fun _ _ _ _ => rfl
  | Extract dst' src position =>
    cases isValue
    simp only [carriedTaint]
    cases (executor.readVar state position).asConcrete with
    | some p => exact gives_pure (getTaint_takeBits _ _ _)
    | none => exact gives_pure rfl
  | Store | Fence | StoreConditional | AtomicCAS | StoreGuarded | Branch | CBranch | BranchInd
  | Call | CallInd | Return | Nop | Unimplemented | Breakpoint => cases isValue

/-! ## Steps -/

theorem computed_stored {forked : List (SymState BV Formula)} {n n' : Nat}
    (isValue : executor.valueOf state op = some (dst, run))
    (steps : storingComputed executor state (executor.valueOf state op) n =
      .ok ((after, .ok forked), n')) :
    ∃ v, after.registers.lookup (displayName executor.toUppercase dst) = some v ∧
      v.getTaint = executor.carriedTaint state op := by
  rw [isValue] at steps
  obtain ⟨v, k, ran, steps⟩ := exec_bind.mp steps
  obtain ⟨rfl, -⟩ := eq_of_pure steps
  exact ⟨v, lookup_writeVar _ _ _, valueOf_gives isValue n v k ran⟩

/-- An operation with a destination stores a value with the taint that it carries. -/
theorem step_carries {forked : List (SymState BV Formula)} {n n' : Nat}
    (isDst : op.dst = some dst) (noSource : ∀ dst, op ≠ .Phi dst [])
    (steps : executor.step state op n = .ok ((after, .ok forked), n')) :
    ∃ v, after.registers.lookup (displayName executor.toUppercase dst) = some v ∧
      v.getTaint = executor.carriedTaint state op := by
  cases op with
  | StoreConditional result space addr val ordering =>
    obtain rfl : result = some dst := isDst
    obtain ⟨rfl, -⟩ := eq_of_pure steps
    refine ⟨_, lookup_writeVar _ _ _, ?_⟩
    split_ifs <;> rfl
  | AtomicCAS dst' space addr expected replacement ordering =>
    obtain rfl : dst' = dst := Option.some.inj isDst
    obtain ⟨old, k, isOld, steps⟩ := exec_bind.mp steps
    have oldTaint := memRead_gives addr dst'.size n old k isOld
    obtain ⟨cond, k, -, steps⟩ := exec_bind.mp steps
    have stored : ∀ {new : SymValue BV} {k : Nat}, (do
        let written ← state.memWrite executor.enumerate (executor.readVar state addr) new dst'.size
        return (executor.writeVar written dst' old, .ok []) :
          Exec (SymExecutor.Outcome BV Formula)) k = .ok ((after, .ok forked), n') →
        ∃ v, after.registers.lookup (displayName executor.toUppercase dst') = some v ∧
          v.getTaint = executor.loadedTaint state addr dst'.size := by
      intro new k steps
      obtain ⟨rfl, -⟩ := eq_of_pure steps
      exact ⟨old, lookup_writeVar _ _ _, oldTaint⟩
    cases isCond : cond.asConcrete with
    | some v =>
      simp only [isCond] at steps
      exact stored steps
    | none =>
      simp only [isCond] at steps
      exact stored steps
  | Phi dst' sources =>
    obtain rfl : dst' = dst := Option.some.inj isDst
    cases sources with
    | nil => exact absurd rfl (noSource dst')
    | cons src rest => exact computed_stored rfl steps
  | CallOther output userop inputs =>
    obtain rfl : output = some dst := isDst
    exact computed_stored rfl steps
  | Copy | CallDefine | Load | LoadLinked | LoadGuarded | binary | unary | Piece | Subpiece | CpuId
  | PtrAdd | PtrSub | SegmentOp | New | Extract | Insert =>
    cases isDst
    exact computed_stored rfl steps
  | Store | Fence | StoreGuarded | Branch | CBranch | BranchInd | Call | CallInd | Return | Nop
  | Unimplemented | Breakpoint => cases isDst

/-! ## What is dropped -/

omit [Z3Arith BV Formula Model] in
theorem contains_foldl [Z3 BV Formula Model] (mem : SymMemory BV) (addr : SymValue BV) (size : Nat) :
    ∀ (targets : List Word) (taint : Word), Contains (targets.foldl (fun taint target =>
      mem.taintAt target size ||| addr.getTaint ||| taint) taint) taint
  | [], taint => contains_self taint
  | target :: rest, taint => by
    rw [foldl_cons]
    exact (contains_foldl mem addr size rest _).trans ((contains_self taint).or_right _)

theorem loadedTaint_contains {addr : SSAVar} (size : Nat)
    (notDropped : addr ∉ executor.droppedAddr state addr) :
    Contains (executor.loadedTaint state addr size) (executor.taintOf state addr) := by
  unfold droppedAddr SymValue.isConcrete at notDropped
  unfold loadedTaint SymMemory.loadedTaint
  cases isKnown : (executor.readVar state addr).asConcrete with
  | some target =>
    rw [isKnown] at notDropped
    exact absurd (mem_singleton.mpr rfl) notDropped
  | none => exact contains_foldl _ _ _ _ _

private theorem carriedTaint_contains {src : SSAVar} (isSource : src ∈ op.sources)
    (notDropped : src ∉ executor.droppedOperands state op) (isDst : op.dst = some dst) :
    Contains (executor.carriedTaint state op) (executor.taintOf state src) := by
  have ofTwo : ∀ {a b : SSAVar}, src ∈ [a, b] →
      Contains (executor.taintOf state a ||| executor.taintOf state b) (executor.taintOf state src) := by
    intro a b isSource
    rcases mem_cons.mp isSource with rfl | isB
    · exact (contains_self _).or_left _
    · obtain rfl := mem_singleton.mp isB
      exact (contains_self _).or_right _
  cases op with
  | Copy dst' src' =>
    obtain rfl := mem_singleton.mp isSource
    exact contains_self _
  | Insert dst' src' value position =>
    rcases mem_cons.mp isSource with rfl | isDropped
    · exact contains_self _
    · exact absurd isDropped notDropped
  | SegmentOp dst' segment offset =>
    rcases mem_cons.mp isSource with rfl | isOffset
    · exact absurd (mem_singleton.mpr rfl) notDropped
    · obtain rfl := mem_singleton.mp isOffset
      exact contains_self _
  | Load dst' space addr | LoadLinked dst' space addr ordering =>
    obtain rfl := mem_singleton.mp isSource
    exact loadedTaint_contains dst'.size notDropped
  | AtomicCAS dst' space addr expected replacement ordering =>
    rcases mem_cons.mp isSource with rfl | isDropped
    · exact loadedTaint_contains dst'.size fun isDropped =>
        notDropped (mem_append_left _ isDropped)
    · exact absurd (mem_append_right _ isDropped) notDropped
  | LoadGuarded dst' space addr guard ordering =>
    simp only [droppedOperands, carriedTaint] at notDropped ⊢
    cases isGuard : (executor.readVar state guard).asConcrete with
    | none =>
      simp only [isGuard] at notDropped
      exact absurd isSource notDropped
    | some g =>
      simp only [isGuard] at notDropped ⊢
      by_cases taken : g ≠ 0
      · rw [if_pos taken] at notDropped ⊢
        rcases mem_cons.mp isSource with rfl | isDropped
        · exact loadedTaint_contains dst'.size fun isDropped =>
            notDropped (mem_append_left _ isDropped)
        · exact absurd (mem_append_right _ isDropped) notDropped
      · rw [if_neg taken] at notDropped
        exact absurd isSource notDropped
  | binary op dst' a b =>
    simp only [droppedOperands, carriedTaint] at notDropped ⊢
    by_cases drops : dropsTaint op = true
    · rw [if_pos drops] at notDropped
      exact absurd isSource notDropped
    · rw [if_neg drops]
      exact ofTwo isSource
  | unary op dst' src' =>
    obtain rfl := mem_singleton.mp isSource
    simp only [droppedOperands, carriedTaint] at notDropped ⊢
    cases op with
    | IntNegate | IntNot | IntZExt | IntSExt | Cast => exact contains_self _
    | BoolNot =>
      by_cases known : (executor.readVar state src).isConcrete = true
      · rw [if_pos known] at notDropped
        exact absurd isSource notDropped
      · rw [if_neg known]
        exact contains_self _
    | _ => exact absurd isSource notDropped
  | Piece | PtrAdd | PtrSub => exact ofTwo isSource
  | Subpiece dst' src' offset =>
    obtain rfl := mem_singleton.mp isSource
    simp only [droppedOperands, carriedTaint, takenTaint]
      at notDropped ⊢
    by_cases inside : offset * 8 < max (executor.readVar state src).bits 1
    · rw [if_pos inside]
      exact contains_self _
    · rw [if_neg inside] at notDropped
      exact absurd isSource notDropped
  | Extract dst' src' position =>
    simp only [droppedOperands, carriedTaint, takenTaint]
      at notDropped ⊢
    cases isPosition : (executor.readVar state position).asConcrete with
    | none =>
      simp only [isPosition] at notDropped
      exact absurd isSource notDropped
    | some p =>
      simp only [isPosition] at notDropped ⊢
      by_cases inside : p.toNat % 2 ^ 32 < max (executor.readVar state src').bits 1
      · rw [if_pos inside] at notDropped ⊢
        rcases mem_cons.mp isSource with rfl | isDropped
        · exact contains_self _
        · exact absurd isDropped notDropped
      · rw [if_neg inside] at notDropped
        exact absurd isSource notDropped
  | Phi dst' sources =>
    cases sources with
    | nil => exact absurd isSource not_mem_nil
    | cons first rest =>
      rcases mem_cons.mp isSource with rfl | isDropped
      · exact contains_self _
      · exact absurd isDropped notDropped
  | CallOther | New | StoreConditional => exact absurd isSource notDropped
  | CpuId | CallDefine => exact absurd isSource not_mem_nil
  | Store | Fence | StoreGuarded | Branch | CBranch | BranchInd | Call | CallInd | Return | Nop
  | Unimplemented | Breakpoint => cases isDst

omit [Z3Arith BV Formula Model] in
theorem mem_droppedAddr {src addr : SSAVar} (isDropped : src ∈ executor.droppedAddr state addr) :
    src = addr := by
  unfold droppedAddr at isDropped
  split_ifs at isDropped
  · exact mem_singleton.mp isDropped
  · cases isDropped

omit [Z3Arith BV Formula Model] in
private theorem droppedOperands_subset : executor.droppedOperands state op ⊆ op.sources := by
  intro src isDropped
  cases op with
  | Insert dst' src' value position => exact mem_cons_of_mem _ isDropped
  | SegmentOp dst' segment offset =>
    rw [mem_singleton.mp isDropped]
    exact mem_cons_self
  | Load dst' space addr | LoadLinked dst' space addr ordering =>
    rw [mem_droppedAddr isDropped]
    exact mem_cons_self
  | AtomicCAS dst' space addr expected replacement ordering =>
    rcases mem_append.mp isDropped with isAddr | isOther
    · rw [mem_droppedAddr isAddr]
      exact mem_cons_self
    · exact mem_cons_of_mem _ isOther
  | LoadGuarded dst' space addr guard ordering =>
    simp only [droppedOperands] at isDropped
    split at isDropped
    · split_ifs at isDropped
      · rcases mem_append.mp isDropped with isAddr | isGuard
        · rw [mem_droppedAddr isAddr]
          exact mem_cons_self
        · exact mem_cons_of_mem _ isGuard
      · exact isDropped
    · exact isDropped
  | binary op dst' a b =>
    simp only [droppedOperands] at isDropped
    split_ifs at isDropped
    · exact isDropped
    · cases isDropped
  | unary op dst' src' =>
    simp only [droppedOperands] at isDropped
    split at isDropped
    iterate 5 cases isDropped
    · split_ifs at isDropped
      · exact isDropped
      · cases isDropped
    · exact isDropped
  | Subpiece dst' src' offset =>
    simp only [droppedOperands] at isDropped
    split_ifs at isDropped
    · cases isDropped
    · exact isDropped
  | Extract dst' src' position =>
    simp only [droppedOperands] at isDropped
    split at isDropped
    · split_ifs at isDropped
      · exact mem_cons_of_mem _ isDropped
      · exact isDropped
    · exact isDropped
  | Phi dst' sources => exact mem_of_mem_tail isDropped
  | CallOther | New | StoreConditional => exact isDropped
  | _ => cases isDropped

/-! ## Operations that end -/

omit [Z3Arith BV Formula Model] in
/-- A computation that does not panic. -/
def Total {α : Type} (run : Exec α) : Prop := ∀ n, ∃ a n', run n = .ok (a, n')

theorem total_pure (a : α) : Total (pure a : Exec α) := fun n => ⟨a, n, rfl⟩

theorem total_fresh (run : Fresh α) : Total (run : Exec α) := fun n =>
  ⟨(run n).1, (run n).2, rfl⟩

theorem Total.bind {β : Type} {run : Exec α} {next : α → Exec β} (total : Total run)
    (rest : ∀ a, Total (next a)) : Total (run >>= next) := by
  intro n
  obtain ⟨a, k, ran⟩ := total n
  obtain ⟨b, n', ranNext⟩ := rest a k
  exact ⟨b, n', exec_bind.mpr ⟨a, k, ran, ranNext⟩⟩

/-- An operation that drops an operand does not panic. -/
theorem valueOf_total (isValue : executor.valueOf state op = some (dst, run))
    (drops : executor.droppedOperands state op ≠ []) : Total run := by
  cases op with
  | Copy dst' src | CallDefine dst' | CpuId dst' | Insert dst' src value position
  | SegmentOp dst' segment offset | New dst' src | Subpiece dst' src offset =>
    cases isValue
    exact total_pure _
  | Load dst' space addr | LoadLinked dst' space addr ordering =>
    cases isValue
    exact total_fresh _
  | LoadGuarded dst' space addr guard ordering =>
    cases isValue
    refine (total_fresh _).bind fun loaded => ?_
    cases (executor.readVar state guard).asConcrete with
    | some g => exact total_pure _
    | none => exact total_fresh _
  | binary op dst' a b =>
    cases isValue
    cases op with
    | IntSCarry | IntSBorrow | IntNotEqual => exact total_fresh _
    | FloatAdd | FloatSub | FloatMult | FloatDiv | FloatEqual | FloatNotEqual | FloatLess
    | FloatLessEqual => exact total_pure _
    | _ => exact absurd rfl drops
  | unary op dst' src =>
    cases isValue
    cases op with
    | IntNegate | IntNot | IntZExt | IntSExt | Cast => exact absurd rfl drops
    | BoolNot =>
      cases executor.readVar state src with
      | concrete word bits taint => exact total_pure _
      | symbolic | unknown => exact total_fresh _
    | PopCount | Lzcount =>
      simp only [unaryValue]
      cases (executor.readVar state src).asConcrete <;> exact total_pure _
    | _ => exact total_pure _
  | Piece | PtrAdd | PtrSub => exact absurd rfl drops
  | Extract dst' src position =>
    cases isValue
    cases (executor.readVar state position).asConcrete <;> exact total_pure _
  | Phi dst' sources =>
    obtain ⟨src, -, same⟩ := Option.map_eq_some_iff.mp isValue
    cases same
    exact total_pure _
  | CallOther output userop inputs =>
    obtain ⟨dst', -, same⟩ := Option.map_eq_some_iff.mp isValue
    cases same
    exact total_pure _
  | Store | Fence | StoreConditional | AtomicCAS | StoreGuarded | Branch | CBranch | BranchInd
  | Call | CallInd | Return | Nop | Unimplemented | Breakpoint => cases isValue

/-- An execution that ends with a state and forks none. -/
def Ends (run : Exec (SymExecutor.Outcome BV Formula)) : Prop :=
  ∀ n, ∃ after n', run n = .ok ((after, .ok []), n')

omit [Z3Arith BV Formula Model] in
theorem ends_pure (state : SymState BV Formula) : Ends (pure (state, .ok [])) := fun n =>
  ⟨state, n, rfl⟩

omit [Z3Arith BV Formula Model] in
theorem Total.ends {run : Exec α} {next : α → Exec (SymExecutor.Outcome BV Formula)}
    (total : Total run) (rest : ∀ a, Ends (next a)) : Ends (run >>= next) := by
  intro n
  obtain ⟨a, k, ran⟩ := total n
  obtain ⟨after, n', ranNext⟩ := rest a k
  exact ⟨after, n', exec_bind.mpr ⟨a, k, ran, ranNext⟩⟩

theorem step_ends (isDst : op.dst = some dst) (drops : executor.droppedOperands state op ≠ []) :
    Ends (executor.step state op) := by
  have computed : Ends (storingComputed executor state (executor.valueOf state op)) := by
    cases isValue : executor.valueOf state op with
    | none => exact ends_pure state
    | some found =>
      exact (valueOf_total isValue drops).ends fun value => ends_pure _
  cases op with
  | StoreConditional result space addr val ordering =>
    refine (total_fresh _).ends fun written => ?_
    cases result <;> exact ends_pure _
  | AtomicCAS dst' space addr expected replacement ordering =>
    refine (total_fresh _).ends fun old => (total_fresh _).ends fun cond => ?_
    have writes : ∀ new : SymValue BV, Ends (do
        let written ← state.memWrite executor.enumerate (executor.readVar state addr) new dst'.size
        return (executor.writeVar written dst' old, .ok []) :
          Exec (SymExecutor.Outcome BV Formula)) := fun new =>
      (total_fresh _).ends fun written => ends_pure _
    cases cond.asConcrete with
    | some v => exact (total_pure _).ends writes
    | none =>
      exact (total_fresh _).ends fun taken => (total_fresh _).ends fun oldBv =>
        (total_fresh _).ends fun replBv => (total_pure _).ends writes
  | Store | Fence | StoreGuarded | Branch | CBranch | BranchInd | Call | CallInd | Return | Nop
  | Unimplemented | Breakpoint => cases isDst
  | _ => exact computed

variable (executor state op) in
/-- What an operation stores for its destination has the taint of every operand. -/
def KeepsTaint : Prop :=
  ∀ dst, op.dst = some dst → ∀ after forked n n',
    executor.step state op n = .ok ((after, .ok forked), n') →
      ∀ v, after.registers.lookup (displayName executor.toUppercase dst) = some v →
        ∀ src ∈ op.sources, Contains v.getTaint (executor.taintOf state src)

variable (executor state op) in
/-- The operands that an operation drops have no taint but what it carries from the others. -/
def DropsNoTaint : Prop :=
  ∀ src ∈ executor.droppedOperands state op,
    Contains (executor.carriedTaint state op) (executor.taintOf state src)

theorem keepsTaint_iff (isDst : op.dst = some dst) :
    KeepsTaint executor state op ↔ DropsNoTaint executor state op := by
  constructor
  · intro keeps src isDropped
    have drops : executor.droppedOperands state op ≠ [] := ne_nil_of_mem isDropped
    have isSource := droppedOperands_subset isDropped
    obtain ⟨after, n', steps⟩ := step_ends isDst drops 0
    have noSource : ∀ dst, op ≠ .Phi dst [] := by
      rintro dst' rfl
      cases isSource
    obtain ⟨v, stored, isTaint⟩ := step_carries isDst noSource steps
    rw [← isTaint]
    exact keeps dst isDst after [] 0 n' steps v stored src isSource
  · intro drops dst' isDst' after forked n n' steps v stored src isSource
    have noSource : ∀ dst, op ≠ .Phi dst [] := by
      rintro dst'' rfl
      cases isSource
    obtain ⟨v', stored', isTaint⟩ := step_carries isDst' noSource steps
    rw [stored'] at stored
    cases stored
    rw [isTaint]
    by_cases isDropped : src ∈ executor.droppedOperands state op
    · exact drops src isDropped
    · exact carriedTaint_contains isSource isDropped isDst'

end Operations

end R2Sleigh.Sym
