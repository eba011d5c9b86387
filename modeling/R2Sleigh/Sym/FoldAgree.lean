import R2Sleigh.Ssa.ConstExact
import R2Sleigh.Sym.Executor

/-!
Contract: the symbolic executor against the constant folder, operation by
operation.

Owns `ValidWidths` and `FoldsAlike`.

The folder extends the operands of a signed comparison from the width of its
one-byte destination, counts bits in the width of the destination and folds
truncations of floating-point numbers as if they were integers. The executor
takes bitwise operations for boolean ones and computes the offset of a pointer
in the width of the index.
-/

namespace R2Sleigh.Sym

open Il Lib Ssa List Option Except

variable {raw x y : Word} {kind : BinaryOp} {src : SSAVar}

/-- The sizes that `validate_op_semantic` asks for, for the operations that the
folder evaluates. -/
def ValidWidths : SSAOp → Prop
  | .Copy dst src => dst.size = src.size
  | .unary op dst src =>
    match op with
    | .IntZExt | .IntSExt => src.size < dst.size
    | .Trunc => dst.size < src.size
    | .IntNegate | .IntNot => dst.size = src.size
    | .BoolNot => src.size = 1 ∧ dst.size = 1
    | _ => True
  | .binary op dst a b =>
    match op with
    | .IntAdd | .IntSub | .IntMult | .IntDiv | .IntSDiv | .IntRem | .IntSRem | .IntAnd | .IntOr
    | .IntXor => a.size = b.size ∧ dst.size = a.size
    | .IntLeft | .IntRight | .IntSRight => dst.size = a.size
    | .IntCarry | .IntSCarry | .IntSBorrow | .IntEqual | .IntNotEqual | .IntLess | .IntSLess
    | .IntLessEqual | .IntSLessEqual => a.size = b.size ∧ dst.size = 1
    | .BoolAnd | .BoolOr | .BoolXor => a.size = 1 ∧ b.size = 1 ∧ dst.size = 1
    | _ => True
  | .Piece dst hi lo => dst.size = hi.size + lo.size
  | .Subpiece dst src offset => offset < src.size ∧ offset + dst.size ≤ src.size
  | _ => True

/-- Every variable of the operation has from 1 to 8 bytes. -/
def WordSized (op : SSAOp) : Prop :=
  ∀ var ∈ op.dst.toList ++ op.sources, 1 ≤ var.size ∧ var.size ≤ 8

/-! ## Where the two agree -/

def binaryAgrees (size : Nat) (x y : Word) : BinaryOp → Prop
  | .IntSLess => (signExtend x 8).slt (signExtend y 8) =
      (signExtend x (size * 8)).slt (signExtend y (size * 8))
  | .IntSLessEqual => (signExtend x 8).sle (signExtend y 8) =
      (signExtend x (size * 8)).sle (signExtend y (size * 8))
  | .BoolAnd => x = 0 ∨ y = 0 ∨ x &&& y = 1
  | .BoolOr => x.toNat ≤ 1 ∧ y.toNat ≤ 1
  | .BoolXor => x = y ∨ (x = 0 ∧ y = 1) ∨ (x = 1 ∧ y = 0)
  | _ => True

def unaryAgrees (dstSize srcSize : Nat) (x : Word) : UnaryOp → Prop
  | .Trunc => False
  | .PopCount => x.toNat < 2 ^ (dstSize * 8)
  | .Lzcount => leadingZerosIn x (srcSize * 8) = leadingZerosIn x (dstSize * 8)
  | _ => True

/-- The scaled index fits the width of the index and the address fits the wider
of base and index, as far as the destination has bits for them. -/
def pointerAgrees (apply : Word → Word → Word) (dst base index : SSAVar) (elementSize : Nat)
    (x y : Word) : Prop :=
  let offset := y * BitVec.ofNat 64 elementSize
  let widest := max base.size index.size
  offset.toNat % 2 ^ (min (widest * 8) (dst.size * 8)) < 2 ^ (index.size * 8) ∧
    (apply x offset).toNat % 2 ^ (dst.size * 8) < 2 ^ (widest * 8)

/-- The constants known for the operands are ones on which folder and executor
agree. -/
def FoldsAlike (consts : VarKey → Option Word) : SSAOp → Prop
  | .binary op _ a b => ∀ x y, constForVar a consts = some x → constForVar b consts = some y →
      binaryAgrees a.size x y op
  | .unary op dst src => ∀ x, constForVar src consts = some x →
      unaryAgrees dst.size src.size x op
  | .PtrAdd dst base index elementSize => ∀ x y, constForVar base consts = some x →
      constForVar index consts = some y → pointerAgrees (· + ·) dst base index elementSize x y
  | .PtrSub dst base index elementSize => ∀ x y, constForVar base consts = some x →
      constForVar index consts = some y → pointerAgrees (· - ·) dst base index elementSize x y
  | _ => True

section Statement

variable {BV Formula Model : Type} [Z3Arith BV Formula Model]

/-- The state holds, in the width of each operand, the constant that the folder
knows for it. -/
def Holding (executor : SymExecutor BV Formula) (state : SymState BV Formula)
    (consts : VarKey → Option Word) (op : SSAOp) : Prop :=
  ∀ src ∈ op.sources, ∃ value taint, constForVar src consts = some value ∧
    executor.readVar state src = .concrete value (src.size * 8) taint ∧
    value.toNat < 2 ^ (src.size * 8)

/-- In every model the value is a constant, in the low bits. -/
def Denotes (value : SymValue BV) (bits : Nat) (c : Word) : Prop :=
  ∀ m : Model, (value.denote m).map (· % 2 ^ bits) = some c.toNat

/-- The operation leaves, in the register of its destination, a value that is
the constant when read at the destination's width. -/
def Stores (executor : SymExecutor BV Formula) (state : SymState BV Formula) (op : SSAOp)
    (c : Word) (fresh : Nat) : Prop :=
  ∃ dst state' fresh' value, op.dst = some dst ∧
    executor.step state op fresh = .ok ((state', .ok []), fresh') ∧
    state'.registers.lookup (displayName executor.toUppercase dst) = some value ∧
    Denotes value (dst.size * 8) c

end Statement

/-! ## Words -/

theorem maskForBits_eq (bits : Nat) : maskForBits bits = SymValue.lowMask bits := by
  unfold maskForBits SymValue.lowMask
  by_cases none : bits = 0
  · subst none
    rfl
  · rw [if_neg none]

theorem toNat_and_lowMask (value : Word) {bits : Nat} (small : bits ≤ 64) :
    (value &&& SymValue.lowMask bits).toNat = value.toNat % 2 ^ bits := by
  rw [← maskForBits_eq, toNat_and_maskForBits value small]

theorem and_lowMask_of_lt {value : Word} {bits : Nat} (small : bits ≤ 64)
    (fits : value.toNat < 2 ^ bits) : value &&& SymValue.lowMask bits = value := by
  apply BitVec.eq_of_toNat_eq
  rw [toNat_and_lowMask value small, Nat.mod_eq_of_lt fits]

theorem getLsbD_lowMask {bits i : Nat} (small : bits ≤ 64) :
    (SymValue.lowMask bits).getLsbD i = decide (i < bits) := by
  rw [← maskForBits_eq, getLsbD_maskForBits small]

section

variable {bits : Nat} (value : Word) (small : bits ≤ 64)
include value small

private theorem countOnes_and_lowMask_iff :
    countOnes (value &&& SymValue.lowMask bits) = countOnes value ↔ value.toNat < 2 ^ bits := by
  rw [← maskForBits_eq]
  exact countOnes_and_maskForBits_iff value small

theorem leadingZerosIn_eq :
    leadingZeros (value &&& SymValue.lowMask bits) - (64 - bits) = leadingZerosIn value bits := by
  have fits : (value &&& SymValue.lowMask bits).toNat < 2 ^ bits := by
    rw [toNat_and_lowMask value small]
    exact Nat.mod_lt _ (Nat.two_pow_pos bits)
  have total := leadingZeros_le (value &&& SymValue.lowMask bits)
  unfold leadingZerosIn
  split
  · have full : bits = 64 := by omega
    subst full
    rw [and_lowMask_of_lt (Nat.le_refl _) value.isLt]
    omega
  · dsimp only
    split
    · rename_i zero
      rw [zero]
      simp only [leadingZeros, if_pos]
      omega
    · omega

theorem leadingZerosIn_le :
    leadingZerosIn value bits ≤ bits := by
  have total := leadingZeros_le (value &&& SymValue.lowMask bits)
  rw [← leadingZerosIn_eq value small]
  omega

end

/-! ## Results that are the same in every model -/

section Values

variable {BV Formula Model : Type} [Z3Arith BV Formula Model]

/-- The computation gives a value that denotes `k` in every model. -/
def Yields (run : Exec (SymValue BV)) (k : Nat) : Prop :=
  ∀ fresh, ∃ value fresh', run fresh = .ok (value, fresh') ∧ ∀ m : Model, value.denote m = some k

private theorem denotes_iff {value : SymValue BV} {k bits : Nat} {c : Word}
    (constant : ∀ m : Model, value.denote m = some k) :
    Denotes value bits c ↔ k % 2 ^ bits = c.toNat := by
  constructor
  · intro denotes
    obtain ⟨m, -⟩ : ∃ m : Model, ∀ name bits,
        Z3.value m (Z3.newConst name bits : BV) = 0 % 2 ^ bits := Z3.exists_model fun _ _ => 0
    have read := denotes m
    rw [constant m] at read
    exact some.inj read
  · intro equal m
    rw [constant m, map_some, equal]

variable {run : Exec (SymValue BV)}

theorem yields_concrete {word : Word} {bits : Nat} {taint : Word}
    (computes : ∀ fresh, run fresh = .ok (.concrete word bits taint, fresh)) :
    Yields run (word.toNat % 2 ^ bits) :=
  fun fresh => ⟨_, fresh, computes fresh, fun _ => rfl⟩

/-- A value operation stores a constant exactly if what it yields is that
constant at the destination's width. -/
theorem stores_iff {executor : SymExecutor BV Formula} {state : SymState BV Formula} {op : SSAOp}
    {dst : SSAVar} (isDst : op.dst = some dst)
    (steps : executor.step state op = do return (executor.writeVar state dst (← run), .ok []))
    {k : Nat} (yields : Yields run k) (c : Word) (fresh : Nat) :
    Stores executor state op c fresh ↔ k % 2 ^ (dst.size * 8) = c.toNat := by
  obtain ⟨value, fresh', ran, constant⟩ := yields fresh
  have stepped : executor.step state op fresh =
      .ok ((executor.writeVar state dst value, .ok []), fresh') := by
    rw [steps]
    simp only [bind, StateT.bind, bind, ran]
    rfl
  have stored : (executor.writeVar state dst value).registers.lookup
      (displayName executor.toUppercase dst) = some value := AList.lookup_insert _
  rw [← denotes_iff constant]
  constructor
  · rintro ⟨dst', state', fresh'', value', isDst', stepped', stored', denotes⟩
    rw [isDst] at isDst'
    rw [stepped] at stepped'
    cases isDst'
    simp only [ok.injEq, Prod.mk.injEq, and_true] at stepped'
    rw [← stepped'.1, stored] at stored'
    rw [some.inj stored']
    exact denotes
  · exact fun denotes => ⟨dst, _, fresh', value, isDst, stepped, stored, denotes⟩

/-! ## Operations on two words -/

theorem word_fromU64 (m : Model) (value : Word) (bits : Nat) :
    Z3.word bits m (Z3.fromU64 value bits : BV) = value.setWidth bits := by
  apply BitVec.eq_of_toNat_eq
  simp [Z3.word, Z3.value_fromU64]

theorem yields_combineSigned (op : BvOp) (x y : Word) {bits : Nat} (positive : 1 ≤ bits)
    (tx ty : Word) : Yields (liftM (SymValue.combineSigned op (.concrete x bits tx)
      (.concrete y bits ty) : Fresh (SymValue BV)))
      (op.apply (x.setWidth bits) (y.setWidth bits)).toNat := by
  intro fresh
  have normal : SymValue.normalizeBvBits bits = bits := max_eq_left positive
  refine ⟨.symbolic (Z3Arith.binary op (Z3.fromU64 x bits) (Z3.fromU64 y bits)) bits (tx ||| ty),
    fresh + 2, ?_, fun m => ?_⟩
  · show ok ((SymValue.combineSigned op _ _ : Fresh (SymValue BV)) fresh) = _
    simp [SymValue.combineSigned, SymValue.normalizeWidthsSigned, SymValue.normalizeWith,
      SymValue.toBv, SymValue.bits, SymValue.getTaint, normal, nextFresh, bind, StateT.bind, pure,
      stateT_pure]
  · rw [SymValue.denote, Z3Arith.value_binary m op _ _ bits (Z3.size_fromU64 _ _)
      (Z3.size_fromU64 _ _), word_fromU64, word_fromU64]

theorem yields_compareSigned (rel : BvRel) (x y : Word) {bits : Nat} (positive : 1 ≤ bits)
    (tx ty : Word) : Yields (liftM (SymValue.compareSigned rel (.concrete x bits tx)
      (.concrete y bits ty) : Fresh (SymValue BV)))
      (ofBool (rel.apply (x.setWidth bits) (y.setWidth bits))).toNat := by
  intro fresh
  have normal : SymValue.normalizeBvBits bits = bits := max_eq_left positive
  refine ⟨SymValue.flag (Z3Arith.compare rel (Z3.fromU64 x bits : BV) (Z3.fromU64 y bits))
    (tx ||| ty), fresh + 2, ?_, fun m => ?_⟩
  · show ok ((SymValue.compareSigned rel _ _ : Fresh (SymValue BV)) fresh) = _
    simp [SymValue.compareSigned, SymValue.normalizeWidthsSigned, SymValue.normalizeWith,
      SymValue.toBv, SymValue.bits, SymValue.getTaint, normal, nextFresh, bind, StateT.bind, pure,
      stateT_pure]
  · have holds := Z3Arith.holds_compare m rel (Z3.fromU64 x bits : BV) (Z3.fromU64 y bits) bits
      (Z3.size_fromU64 _ _) (Z3.size_fromU64 _ _)
    rw [word_fromU64, word_fromU64] at holds
    have sizes : Z3.size (Z3.fromU64 1 1 : BV) = Z3.size (Z3.fromU64 0 1 : BV) := by
      rw [Z3.size_fromU64, Z3.size_fromU64]
    rw [SymValue.flag, SymValue.denote]
    cases outcome : rel.apply (x.setWidth bits) (y.setWidth bits) with
    | true =>
      rw [Z3.value_ite_of_holds m _ _ _ sizes (holds.mpr outcome), Z3.value_fromU64]
      rfl
    | false =>
      rw [Z3.value_ite_of_not m _ _ _ sizes (by rw [holds, outcome]; simp), Z3.value_fromU64]
      rfl

private theorem yields_ashr (x y : Word) {bits amountBits : Nat} (positive : 1 ≤ bits)
    (positive' : 1 ≤ amountBits) (inside : y.toNat < bits) (fits : y.toNat < 2 ^ amountBits)
    (tx ty : Word) : Yields (liftM (SymValue.ashr (.concrete x bits tx)
      (.concrete y amountBits ty) : Fresh (SymValue BV)))
      ((x.setWidth bits).sshiftRight y.toNat).toNat := by
  have normal : SymValue.normalizeBvBits bits = bits := max_eq_left positive
  have normal' : SymValue.normalizeBvBits amountBits = amountBits := max_eq_left positive'
  have small : y.toNat < 2 ^ bits := lt_trans inside Nat.lt_two_pow_self
  obtain ⟨amountBv, normalized, size, value⟩ : ∃ amountBv : BV,
      (∀ fresh, SymValue.normalizeShiftAmount (.concrete x bits tx) (.concrete y amountBits ty) fresh
        = (amountBv, fresh + 1)) ∧ Z3.size amountBv = bits ∧
      ∀ m : Model, Z3.value m amountBv = y.toNat := by
    have amount : ∀ m : Model, Z3.value m (Z3.fromU64 y amountBits : BV) = y.toNat := fun m => by
      rw [Z3.value_fromU64, Nat.mod_eq_of_lt fits]
    rcases Nat.lt_trichotomy amountBits bits with narrow | same | wide
    · refine ⟨Z3.zeroExt (Z3.fromU64 y amountBits) (bits - amountBits), fun fresh => ?_, ?_,
        fun m => ?_⟩
      · simp [SymValue.normalizeShiftAmount, SymValue.bits, SymValue.toBv, normal', nextFresh, bind,
          StateT.bind, pure, stateT_pure, Nat.ne_of_lt narrow, narrow]
      · rw [Z3.size_zeroExt, Z3.size_fromU64]
        omega
      · rw [Z3.value_zeroExt, amount]
    · subst same
      refine ⟨Z3.fromU64 y amountBits, fun fresh => ?_, Z3.size_fromU64 _ _, amount⟩
      simp [SymValue.normalizeShiftAmount, SymValue.bits, SymValue.toBv, normal', nextFresh, bind,
        StateT.bind, pure, stateT_pure]
    · have ordered : 0 ≤ bits - 1 := Nat.zero_le _
      have covered : bits - 1 < Z3.size (Z3.fromU64 y amountBits : BV) := by
        rw [Z3.size_fromU64]
        omega
      refine ⟨Z3.extract (Z3.fromU64 y amountBits) (bits - 1) 0, fun fresh => ?_, ?_, fun m => ?_⟩
      · simp [SymValue.normalizeShiftAmount, SymValue.bits, SymValue.toBv, normal', nextFresh, bind,
          StateT.bind, pure, stateT_pure, Nat.ne_of_gt wide, Nat.not_lt.mpr (Nat.le_of_lt wide)]
      · rw [Z3.size_extract _ _ _ ordered covered]
        omega
      · rw [Z3.value_extract m _ _ _ ordered covered, amount, Nat.sub_zero,
          Nat.sub_add_cancel positive, Nat.pow_zero, Nat.div_one, Nat.mod_eq_of_lt small]
  intro fresh
  refine ⟨.symbolic (Z3Arith.binary .bvashr (Z3.fromU64 x bits) amountBv) bits (tx ||| ty),
    fresh + 2, ?_, fun m => ?_⟩
  · show ok ((SymValue.shiftTerm .bvashr _ _ : Fresh (SymValue BV)) fresh) = _
    simp [SymValue.shiftTerm, SymValue.toBv, SymValue.bits, SymValue.getTaint, normal, nextFresh,
      bind, StateT.bind, pure, stateT_pure, normalized]
  · have amount : (Z3.word bits m amountBv).toNat = y.toNat := by
      rw [Z3.word, value, BitVec.toNat_ofNat, Nat.mod_eq_of_lt small]
    rw [SymValue.denote, Z3Arith.value_binary m .bvashr _ _ bits (Z3.size_fromU64 _ _) size,
      word_fromU64]
    show some ((x.setWidth bits).sshiftRight (Z3.word bits m amountBv).toNat).toNat = _
    rw [amount]

/-- Where the operation of the folder and that of the executor meet: `k` is what
the executor yields, `raw` the word of the folder before masking. -/
def Meets (run : Exec (SymValue BV)) (bits : Nat) (raw : Word) (agrees : Prop) : Prop :=
  ∃ k, Yields run k ∧ (k % 2 ^ bits = raw.toNat % 2 ^ bits ↔ agrees)

theorem meets_concrete {word : Word} {own bits : Nat} {taint : Word}
    {agrees : Prop} (computes : ∀ fresh, run fresh = .ok (.concrete word own taint, fresh))
    (same : word.toNat % 2 ^ own % 2 ^ bits = raw.toNat % 2 ^ bits ↔ agrees) :
    Meets run bits raw agrees :=
  ⟨_, yields_concrete computes, same⟩

theorem ofBool_mod (b : Bool) : (ofBool b).toNat % 2 ^ 1 % 2 ^ 8 = (ofBool b).toNat % 2 ^ 8 := by
  cases b <;> decide

theorem ofBool_inj {b b' : Bool} :
    (ofBool b).toNat % 2 ^ 8 = (ofBool b').toNat % 2 ^ 8 ↔ b' = b := by
  cases b <;> cases b' <;> decide

section Binary

variable (checks : Bool) {size : Nat} (positive : 1 ≤ size) (small : size ≤ 8)
  {x y raw : Word} (tx ty : Word)
include positive small

section

variable (folds : evalBinary checks (size * 8) x y kind = .ok (some raw))
include folds

private theorem sized_meets (sized : kind ∈ ([.IntAdd, .IntSub, .IntMult, .IntAnd, .IntOr,
      .IntXor] : List BinaryOp)) :
    Meets (binaryValue checks (size * 8) (.concrete x (size * 8) tx : SymValue BV)
      (.concrete y (size * 8) ty) kind) (size * 8) raw True := by
  have bound : size * 8 ≤ 64 := by omega
  have width : max (size * 8) (size * 8) = size * 8 := max_self _
  simp only [mem_cons, not_mem_nil, or_false] at sized
  rcases sized with rfl | rfl | rfl | rfl | rfl | rfl
  all_goals
    obtain rfl := some.inj (ok.inj folds)
    refine meets_concrete (fun fresh => rfl) (iff_true_intro ?_)
    simp only [width, toNat_and_lowMask _ bound, Nat.mod_mod]

omit positive small in
private theorem division_meets (isDivision : kind = .IntDiv ∨ kind = .IntRem) :
    Meets (binaryValue checks (size * 8) (.concrete x (size * 8) tx : SymValue BV)
      (.concrete y (size * 8) ty) kind) (size * 8) raw True := by
  have nonzero := ne_zero_of_folds (by rcases isDivision with rfl | rfl <;> decide) folds
  have computes : ∀ fresh, binaryValue checks (size * 8)
      (.concrete x (size * 8) tx : SymValue BV) (.concrete y (size * 8) ty) kind fresh =
        .ok (.concrete raw (size * 8) (tx ||| ty), fresh) := by
    intro fresh
    rcases isDivision with rfl | rfl
    all_goals
      simp only [evalBinary, if_neg nonzero, ok.injEq, Option.some.injEq] at folds
      simp only [binaryValue, SymValue.udiv, SymValue.urem, SymValue.combine, max_self,
        if_neg nonzero, folds]
      rfl
  exact meets_concrete computes (iff_true_intro (by rw [Nat.mod_mod]))

private theorem signed_division_meets (isDivision : kind = .IntSDiv ∨ kind = .IntSRem)
    (fits : y.toNat < 2 ^ (size * 8)) :
    Meets (binaryValue checks (size * 8) (.concrete x (size * 8) tx : SymValue BV)
      (.concrete y (size * 8) ty) kind) (size * 8) raw True := by
  have bound : size * 8 ≤ 64 := by omega
  have width : 1 ≤ size * 8 := by omega
  have nonzero := ne_zero_of_folds (by rcases isDivision with rfl | rfl <;> decide) folds
  rcases isDivision with rfl | rfl
  · simp only [evalBinary, if_neg nonzero] at folds
    refine ⟨_, yields_combineSigned .bvsdiv x y width tx ty, iff_true_intro ?_⟩
    have narrow : y.setWidth (size * 8) ≠ 0 := by
      intro zero
      have value := congrArg BitVec.toNat zero
      rw [BitVec.toNat_setWidth, Nat.mod_eq_of_lt fits] at value
      exact nonzero (BitVec.eq_of_toNat_eq value)
    rw [Nat.mod_eq_of_lt (BitVec.isLt _), ← BitVec.toNat_setWidth, signedDivision_some folds,
      signExtend_eq x width bound, signExtend_eq y width bound, setWidth_sdiv bound, BvOp.apply,
      smtSDiv_eq_sdiv narrow]
  · simp only [evalBinary, if_neg nonzero] at folds
    refine ⟨_, yields_combineSigned .bvsrem x y width tx ty, iff_true_intro ?_⟩
    rw [Nat.mod_eq_of_lt (BitVec.isLt _), ← BitVec.toNat_setWidth, signedDivision_some folds,
      signExtend_eq x width bound, signExtend_eq y width bound, setWidth_srem bound, BvOp.apply]

/-- Shifts, of which the folder evaluates those by less than the width. -/
theorem shift_meets
    (isShift : kind = .IntLeft ∨ kind = .IntRight ∨ kind = .IntSRight) {amountBits : Nat}
    (positive' : 1 ≤ amountBits) (fits : y.toNat < 2 ^ amountBits) :
    Meets (binaryValue checks (size * 8) (.concrete x (size * 8) tx : SymValue BV)
      (.concrete y amountBits ty) kind) (size * 8) raw True := by
  have bound : size * 8 ≤ 64 := by omega
  have width : 1 ≤ size * 8 := by omega
  have within := not_le_of_folds isShift folds
  have amount : y.toNat % 64 = y.toNat := Nat.mod_eq_of_lt (by omega)
  have amount32 : y.toNat % 2 ^ 32 = y.toNat := Nat.mod_eq_of_lt (by omega)
  have noPanic : ¬ (checks = true ∧ 64 ≤ y.toNat) := by omega
  have shifted : ∀ (apply : Word → Nat → Word) fresh,
      SymValue.shiftWord checks apply x y fresh = .ok (apply x y.toNat, fresh) := by
    intro apply fresh
    unfold SymValue.shiftWord
    rw [amount32, if_neg noPanic, amount]
    rfl
  rcases isShift with rfl | rfl | rfl
  · simp only [evalBinary, if_neg within, amount, ok.injEq, Option.some.injEq] at folds
    have computes : ∀ fresh, binaryValue checks (size * 8)
        (.concrete x (size * 8) tx : SymValue BV) (.concrete y amountBits ty) .IntLeft fresh =
          .ok (.concrete ((x <<< y.toNat) &&& SymValue.lowMask (size * 8)) (size * 8) (tx ||| ty),
            fresh) := by
      intro fresh
      simp only [binaryValue, SymValue.shl, bind, StateT.bind, shifted, bind]
      rfl
    refine meets_concrete computes (iff_true_intro ?_)
    rw [toNat_and_lowMask _ bound, folds, Nat.mod_mod, Nat.mod_mod]
  · simp only [evalBinary, if_neg within] at folds
    have computes : ∀ fresh, binaryValue checks (size * 8)
        (.concrete x (size * 8) tx : SymValue BV) (.concrete y amountBits ty) .IntRight fresh =
          .ok (.concrete (x >>> y.toNat) (size * 8) (tx ||| ty), fresh) := by
      intro fresh
      simp only [binaryValue, SymValue.lshr, bind, StateT.bind, shifted, bind]
      rfl
    obtain rfl := rightShift_some (by omega) folds
    refine meets_concrete computes (iff_true_intro ?_)
    rw [Nat.mod_mod]
    rfl
  · simp only [evalBinary, if_neg within] at folds
    obtain rfl := rightShift_some (by omega) folds
    refine ⟨_, yields_ashr x y width positive' (by omega) fits tx ty, iff_true_intro ?_⟩
    rw [Nat.mod_eq_of_lt (BitVec.isLt _), ← BitVec.toNat_setWidth, signExtend_eq x width bound,
      setWidth_sshiftRight bound]

end

omit positive small in
private theorem compare_meets
    (isCompare : kind ∈ ([.IntEqual, .IntNotEqual, .IntLess, .IntLessEqual] : List BinaryOp))
    {xBits yBits : Nat} (folds : evalBinary checks 8 x y kind = .ok (some raw)) :
    Meets (binaryValue checks 8 (.concrete x xBits tx : SymValue BV)
      (.concrete y yBits ty) kind) 8 raw True := by
  simp only [mem_cons, not_mem_nil, or_false] at isCompare
  rcases isCompare with rfl | rfl | rfl | rfl
  case inr.inl =>
    obtain rfl := some.inj (ok.inj folds)
    have inverted : ofBool (ofBool (x == y) == 0) = ofBool (x != y) := by
      cases equal : x == y <;> simp [bne, equal, ofBool]
    have computes : ∀ fresh, binaryValue checks 8 (.concrete x xBits tx : SymValue BV)
        (.concrete y yBits ty) .IntNotEqual fresh = .ok (.concrete (ofBool (x != y)) 1 0, fresh) := by
      intro fresh
      rw [← inverted]
      rfl
    exact meets_concrete computes (iff_true_intro (ofBool_mod _))
  all_goals
    obtain rfl := some.inj (ok.inj folds)
    exact meets_concrete (fun fresh => rfl) (iff_true_intro (ofBool_mod _))

private theorem signed_compare_meets (isCompare : kind = .IntSLess ∨ kind = .IntSLessEqual)
    (folds : evalBinary checks 8 x y kind = .ok (some raw)) :
    Meets (binaryValue checks 8 (.concrete x (size * 8) tx : SymValue BV)
      (.concrete y (size * 8) ty) kind) 8 raw (binaryAgrees size x y kind) := by
  have bound : size * 8 ≤ 64 := by omega
  have width : 1 ≤ size * 8 := by omega
  rcases isCompare with rfl | rfl
  · obtain rfl := some.inj (ok.inj folds)
    refine ⟨_, yields_compareSigned .bvslt x y width tx ty, ?_⟩
    rw [ofBool_inj, binaryAgrees, signExtend_eq x width bound, signExtend_eq y width bound,
      slt_signExtend bound]
    rfl
  · obtain rfl := some.inj (ok.inj folds)
    refine ⟨_, yields_compareSigned .bvsle x y width tx ty, ?_⟩
    rw [ofBool_inj, binaryAgrees, signExtend_eq x width bound, signExtend_eq y width bound,
      sle_signExtend bound]
    rfl

omit positive small in
/-- The executor takes the bits of boolean operands, the folder whether they are
zero. -/
theorem boolean_meets (isBoolean : kind ∈ ([.BoolAnd, .BoolOr, .BoolXor] :
      List BinaryOp)) (fitsX : x.toNat < 2 ^ 8) (fitsY : y.toNat < 2 ^ 8)
    (folds : evalBinary checks 8 x y kind = .ok (some raw)) :
    Meets (binaryValue checks 8 (.concrete x 8 tx : SymValue BV) (.concrete y 8 ty) kind) 8
      raw (binaryAgrees 1 x y kind) := by
  have truth : ∀ (word : Word) (b : Bool), word.toNat < 2 ^ 8 →
      (word.toNat % 2 ^ 8 % 2 ^ 8 = (ofBool b).toNat % 2 ^ 8 ↔ word = ofBool b) := by
    intro word b fits
    have flag : (ofBool b).toNat < 2 ^ 8 := lt_trans (ofBool_lt b) (by decide)
    rw [Nat.mod_mod, Nat.mod_eq_of_lt fits, Nat.mod_eq_of_lt flag]
    exact ⟨BitVec.eq_of_toNat_eq, congrArg _⟩
  simp only [mem_cons, not_mem_nil, or_false] at isBoolean
  rcases isBoolean with rfl | rfl | rfl
  · obtain rfl := some.inj (ok.inj folds)
    have fits : (x &&& y).toNat < 2 ^ 8 := by
      rw [BitVec.toNat_and]
      exact Nat.and_lt_two_pow _ fitsY
    refine meets_concrete (fun fresh => rfl) ((truth _ _ fits).trans ?_)
    rw [binaryAgrees]
    by_cases zeroX : x = 0#64
    · simp [zeroX, ofBool]
    · by_cases zeroY : y = 0#64
      · simp [zeroY, ofBool]
      · simp [zeroX, zeroY, ofBool]
  · obtain rfl := some.inj (ok.inj folds)
    have fits : (x ||| y).toNat < 2 ^ 8 := by
      rw [BitVec.toNat_or]
      exact Nat.or_lt_two_pow fitsX fitsY
    refine meets_concrete (fun fresh => rfl) ((truth _ _ fits).trans ?_)
    rw [binaryAgrees]
    constructor
    · intro equal
      have value := congrArg BitVec.toNat equal
      rw [BitVec.toNat_or] at value
      have le : x.toNat ||| y.toNat ≤ 1 := by
        rw [value]
        exact Nat.le_of_lt_succ (ofBool_lt _)
      exact ⟨le_trans Nat.left_le_or le, le_trans Nat.right_le_or le⟩
    · rintro ⟨leX, leY⟩
      have bits : ∀ word : Word, word.toNat ≤ 1 → word = 0 ∨ word = 1 := by
        intro word le
        rcases Nat.le_one_iff_eq_zero_or_eq_one.mp le with zero | one
        · exact .inl (BitVec.eq_of_toNat_eq zero)
        · exact .inr (BitVec.eq_of_toNat_eq one)
      rcases bits x leX with rfl | rfl <;> rcases bits y leY with rfl | rfl <;> decide
  · obtain rfl := some.inj (ok.inj folds)
    have fits : (x ^^^ y).toNat < 2 ^ 8 := by
      rw [BitVec.toNat_xor]
      exact Nat.xor_lt_two_pow fitsX fitsY
    refine meets_concrete (fun fresh => rfl) ((truth _ _ fits).trans ?_)
    rw [binaryAgrees]
    by_cases zeroX : x = 0#64
    · by_cases zeroY : y = 0#64
      · simp [zeroX, zeroY, ofBool]
      · simp [zeroX, zeroY, Ne.symm zeroY, ofBool]
    · by_cases zeroY : y = 0#64
      · simp [zeroX, zeroY, ofBool]
      · have nonzero : (x != 0#64) = (y != 0#64) := by simp [bne, zeroX, zeroY]
        simp [zeroX, zeroY, ofBool, nonzero, BitVec.xor_eq_zero_iff]

end Binary

/-- A binary operation on constants against its folded value. -/
theorem binary_meets (checks : Bool) {dst a b : SSAVar}
    (tx ty : Word) (widths : ValidWidths (.binary kind dst a b)) (sized : WordSized (.binary kind dst a b))
    (fitsX : x.toNat < 2 ^ (a.size * 8)) (fitsY : y.toNat < 2 ^ (b.size * 8))
    (folds : evalBinary checks (dst.size * 8) x y kind = .ok (some raw)) :
    Meets (binaryValue checks (dst.size * 8) (.concrete x (a.size * 8) tx : SymValue BV)
      (.concrete y (b.size * 8) ty) kind) (dst.size * 8) raw (binaryAgrees a.size x y kind) := by
  obtain ⟨positive, small⟩ := sized a (by simp [SSAOp.sources])
  obtain ⟨positive', -⟩ := sized b (by simp [SSAOp.sources])
  cases kind with
  | IntAdd | IntSub | IntMult | IntAnd | IntOr | IntXor =>
    obtain ⟨sameB, sameDst⟩ := widths
    rw [sameDst] at folds ⊢
    rw [← sameB]
    exact sized_meets checks positive small tx ty folds (by simp)
  | IntDiv | IntRem =>
    obtain ⟨sameB, sameDst⟩ := widths
    rw [sameDst] at folds ⊢
    rw [← sameB]
    exact division_meets checks tx ty folds (by simp)
  | IntSDiv | IntSRem =>
    obtain ⟨sameB, sameDst⟩ := widths
    rw [sameDst] at folds ⊢
    rw [← sameB] at fitsY ⊢
    exact signed_division_meets checks positive small tx ty folds (by simp) fitsY
  | IntLeft | IntRight | IntSRight =>
    have sameDst : dst.size = a.size := widths
    rw [sameDst] at folds ⊢
    exact shift_meets checks positive small tx ty folds (by simp) (by omega) fitsY
  | IntEqual | IntNotEqual | IntLess | IntLessEqual =>
    obtain ⟨-, byteDst⟩ := widths
    rw [byteDst] at folds ⊢
    exact compare_meets checks tx ty (by simp) folds
  | IntSLess | IntSLessEqual =>
    obtain ⟨sameB, byteDst⟩ := widths
    rw [byteDst] at folds ⊢
    rw [← sameB]
    exact signed_compare_meets checks positive small tx ty (by simp) folds
  | BoolAnd | BoolOr | BoolXor =>
    obtain ⟨byteA, byteB, byteDst⟩ := widths
    rw [byteDst] at folds ⊢
    rw [byteA] at fitsX ⊢
    rw [byteB] at fitsY ⊢
    exact boolean_meets checks tx ty (by simp) fitsX fitsY folds
  | _ => cases folds

/-! ## Operations on one word -/

section

variable {bits newBits : Nat} (checks : Bool) (positive : 1 ≤ bits) (wider : bits < newBits)
include checks positive wider

/-- The executor's sign extension of a word of at most 64 bits, bit by bit. -/
theorem signExtendWord_spec
    (small : bits ≤ 64)
    (fits : x.toNat < 2 ^ bits) (n : Nat) :
    SymValue.signExtendWord checks x bits newBits n =
      .ok (((x.setWidth bits).signExtend newBits).setWidth 64, n) := by
  have noPanic : ¬ (checks = true ∧ 64 ≤ bits - 1) := by omega
  have low : x &&& SymValue.lowMask bits = x := and_lowMask_of_lt small fits
  have shifted : (bits - 1) % 64 = bits - 1 := Nat.mod_eq_of_lt (by omega)
  have sign : (x >>> ((bits - 1) % 64)) &&& 1 = 1 ↔ x.getLsbD (bits - 1) = true := by
    rw [shifted]
    constructor
    · intro one
      have bit := congrArg (BitVec.getLsbD · 0) one
      simpa using bit
    · intro one
      apply BitVec.eq_of_getLsbD_eq
      intro i inside
      by_cases zero : i = 0
      · simp [zero, one]
      · simp [zero, BitVec.getLsbD_one]
  have msb : (x.setWidth bits).msb = x.getLsbD (bits - 1) := by
    simp [BitVec.msb_setWidth, show 0 < bits by omega]
  have extended : ∀ i < 64, (((x.setWidth bits).signExtend newBits).setWidth 64).getLsbD i =
      (decide (i < newBits) && if i < bits then x.getLsbD i else x.getLsbD (bits - 1)) := by
    intro i inside
    rw [BitVec.getLsbD_setWidth, BitVec.getLsbD_signExtend, msb]
    by_cases inLow : i < bits
    · simp [inside, inLow]
    · simp [inside, inLow]
  have ofBits : ∀ word : Word, (∀ i < 64, word.getLsbD i =
      (decide (i < newBits) && if i < bits then x.getLsbD i else x.getLsbD (bits - 1))) →
      word = ((x.setWidth bits).signExtend newBits).setWidth 64 := fun word read =>
    BitVec.eq_of_getLsbD_eq fun i inside => by rw [read i inside, extended i inside]
  cases isNegative : x.getLsbD (bits - 1) with
  | true =>
    rw [← ofBits (x ||| (if 64 ≤ newBits then if 64 ≤ bits then 0 else ~~~SymValue.lowMask bits
      else SymValue.lowMask newBits &&& ~~~SymValue.lowMask bits)) fun i inside => ?_]
    · simp only [SymValue.signExtendWord, low, if_neg noPanic, if_neg (by omega : ¬ bits = 0),
        if_pos (sign.mpr isNegative)]
      rfl
    · rw [BitVec.getLsbD_or, isNegative]
      by_cases inLow : i < bits
      · have masked : (~~~SymValue.lowMask bits).getLsbD i = false := by
          rw [BitVec.getLsbD_not, getLsbD_lowMask small]
          simp [inLow]
        have inNew : i < newBits := by omega
        split_ifs <;> simp [masked, inNew]
      · have filled : (~~~SymValue.lowMask bits).getLsbD i = true := by
          rw [BitVec.getLsbD_not, getLsbD_lowMask small]
          simp [inside, inLow]
        have above : x.getLsbD i = false := getLsbD_of_fits fits (Nat.not_lt.mp inLow)
        have notFull : ¬ 64 ≤ bits := by omega
        by_cases wide : 64 ≤ newBits
        · have inNew : i < newBits := by omega
          simp [wide, notFull, filled, above, inLow, inNew]
        · have narrow : newBits ≤ 64 := by omega
          simp [wide, filled, above, inLow, getLsbD_lowMask narrow]
  | false =>
    rw [← ofBits x fun i inside => ?_]
    · have notSign : ¬ ((x >>> ((bits - 1) % 64)) &&& 1 = 1) := by
        rw [sign, isNegative]
        simp
      simp only [SymValue.signExtendWord, low, if_neg noPanic, if_neg (by omega : ¬ bits = 0),
        if_neg notSign]
      rfl
    · rw [isNegative]
      by_cases inLow : i < bits
      · have inNew : i < newBits := by omega
        simp [inLow, inNew]
      · simp [inLow, getLsbD_of_fits fits (Nat.not_lt.mp inLow)]

private theorem signExtendWord_meets
    (small : newBits ≤ 64)
    (fits : x.toNat < 2 ^ bits) :
    ∃ word, (∀ fresh, SymValue.signExtendWord checks x bits newBits fresh =
        .ok (word, fresh)) ∧
      word &&& SymValue.lowMask newBits = signExtend x bits &&& SymValue.lowMask newBits := by
  refine ⟨_, signExtendWord_spec checks positive wider (by omega) fits, ?_⟩
  rw [signExtend_eq x (by omega) (by omega)]
  apply BitVec.eq_of_getLsbD_eq
  intro i inside
  rw [BitVec.getLsbD_and, BitVec.getLsbD_and, getLsbD_lowMask small, BitVec.getLsbD_setWidth,
    BitVec.getLsbD_signExtend, BitVec.getLsbD_signExtend]
  by_cases beyond : i < newBits
  · simp [beyond, inside]
  · simp [beyond]

end

/-- A unary operation on constants against its folded value. -/
theorem unary_meets (checks : Bool) {kind : UnaryOp} {dst : SSAVar}
    (tx : Word) (notTrunc : kind ≠ .Trunc) (widths : ValidWidths (.unary kind dst src))
    (sized : WordSized (.unary kind dst src)) (fits : x.toNat < 2 ^ (src.size * 8))
    (folds : evalUnary (dst.size * 8) (src.size * 8) x kind = some raw) :
    Meets (unaryValue checks (dst.size * 8) (.concrete x (src.size * 8) tx : SymValue BV)
      kind) (dst.size * 8) raw (unaryAgrees dst.size src.size x kind) := by
  obtain ⟨positive, small⟩ := sized dst (by simp [SSAOp.dst])
  obtain ⟨positive', small'⟩ := sized src (by simp [SSAOp.sources])
  have bound : dst.size * 8 ≤ 64 := by omega
  have bound' : src.size * 8 ≤ 64 := by omega
  have byte : 2 ^ 8 ≤ 2 ^ (dst.size * 8) := Nat.pow_le_pow_right (by decide) (by omega)
  have normal : SymValue.normalizeBvBits (dst.size * 8) = dst.size * 8 :=
    max_eq_left (by omega : 1 ≤ dst.size * 8)
  have counts : ∀ count ≤ 64, count % 2 ^ 64 % 2 ^ (dst.size * 8) = count := by
    intro count le
    rw [Nat.mod_eq_of_lt (by omega), Nat.mod_eq_of_lt (by omega)]
  have longer : src.size < dst.size →
      ¬ dst.size * 8 ≤ (SymValue.concrete x (src.size * 8) tx : SymValue BV).bits :=
    fun wider => by
      show ¬ dst.size * 8 ≤ src.size * 8
      omega
  cases kind with
  | IntNegate | IntNot =>
    have same : dst.size = src.size := widths
    cases folds
    refine meets_concrete (fun fresh => rfl) (iff_true_intro ?_)
    rw [toNat_and_lowMask _ bound', same, Nat.mod_mod, Nat.mod_mod]
  | IntZExt =>
    have wider : src.size < dst.size := widths
    obtain rfl := some.inj folds
    have computes : ∀ fresh, unaryValue checks (dst.size * 8)
        (.concrete x (src.size * 8) tx : SymValue BV) .IntZExt fresh =
          .ok (.concrete x (dst.size * 8) tx, fresh) := by
      intro fresh
      simp only [unaryValue, SymValue.zeroExtend, if_neg (longer wider)]
      rfl
    exact meets_concrete computes (iff_true_intro (by rw [Nat.mod_mod]))
  | IntSExt =>
    have wider : src.size < dst.size := widths
    cases folds
    obtain ⟨word, extended, same⟩ := signExtendWord_meets checks
      (by omega : 1 ≤ src.size * 8) (by omega : src.size * 8 < dst.size * 8) bound fits
    have computes : ∀ fresh, unaryValue checks (dst.size * 8)
        (.concrete x (src.size * 8) tx : SymValue BV) .IntSExt fresh =
          .ok (.concrete word (dst.size * 8) tx, fresh) := by
      intro fresh
      simp only [unaryValue, SymValue.signExtend, if_neg (longer wider), bind, StateT.bind, extended,
        bind]
      rfl
    refine meets_concrete computes (iff_true_intro ?_)
    rw [Nat.mod_mod, ← toNat_and_lowMask _ bound, same, toNat_and_lowMask _ bound]
  | BoolNot =>
    obtain ⟨-, byteDst⟩ := widths
    cases folds
    rw [byteDst]
    exact meets_concrete (fun fresh => rfl) (iff_true_intro (ofBool_mod _))
  | PopCount =>
    cases folds
    refine ⟨_, yields_concrete (fun fresh => rfl), ?_⟩
    rw [normal, Nat.mod_mod, maskForBits_eq, BitVec.toNat_ofNat, BitVec.toNat_ofNat,
      counts _ (countOnes_le _), counts _ (countOnes_le _), eq_comm,
      countOnes_and_lowMask_iff x bound]
    rfl
  | Lzcount =>
    have width : min (dst.size * 8) 64 = dst.size * 8 := Nat.min_eq_left bound
    simp only [evalUnary, width, if_neg (by omega : ¬ dst.size * 8 = 0), maskForBits_eq,
      leadingZerosIn_eq x bound, Option.some.injEq] at folds
    subst folds
    have own := leadingZerosIn_le x bound
    have other := leadingZerosIn_le x bound'
    have computes : ∀ fresh, unaryValue checks (dst.size * 8)
        (.concrete x (src.size * 8) tx : SymValue BV) .Lzcount fresh =
          .ok (.ofWord (BitVec.ofNat 64 (leadingZerosIn x (src.size * 8))) (dst.size * 8),
            fresh) := fun _ => rfl
    refine meets_concrete computes ?_
    rw [normal, Nat.mod_mod, BitVec.toNat_ofNat, BitVec.toNat_ofNat, counts _ (by omega),
      counts _ (by omega)]
    rfl
  | Trunc => exact absurd rfl notTrunc
  | _ => cases folds

/-! ## Pieces and pointers -/

private theorem piece_meets {dst hi lo : SSAVar} (tx ty : Word)
    (widths : ValidWidths (.Piece dst hi lo)) (sized : WordSized (.Piece dst hi lo))
    (fits : y.toNat < 2 ^ (lo.size * 8)) :
    Meets (liftM (SymValue.concat (.concrete x (hi.size * 8) tx) (.concrete y (lo.size * 8) ty) :
      Fresh (SymValue BV))) (dst.size * 8)
      (x <<< (lo.size * 8) ||| (y &&& SymValue.lowMask (lo.size * 8))) True := by
  obtain ⟨-, small⟩ := sized dst (by simp [SSAOp.dst])
  have total : dst.size = hi.size + lo.size := widths
  have computes : ∀ fresh, (liftM (SymValue.concat (.concrete x (hi.size * 8) tx)
      (.concrete y (lo.size * 8) ty) : Fresh (SymValue BV)) : Exec (SymValue BV)) fresh =
        .ok (.concrete (x <<< (lo.size * 8) ||| y) (hi.size * 8 + lo.size * 8) (tx ||| ty),
          fresh) := by
    intro fresh
    have narrow : decide ((SymValue.concrete x (hi.size * 8) tx : SymValue BV).bits +
        (SymValue.concrete y (lo.size * 8) ty : SymValue BV).bits ≤ 64) = true := by
      show decide (hi.size * 8 + lo.size * 8 ≤ 64) = true
      rw [decide_eq_true_eq]
      omega
    simp only [SymValue.concat, narrow]
    rfl
  refine meets_concrete computes (iff_true_intro ?_)
  rw [and_lowMask_of_lt (by omega) fits, ← Nat.add_mul, ← total, Nat.mod_mod]

private theorem subpiece_meets {dst : SSAVar} {offset : Nat} (tx : Word)
    (widths : ValidWidths (.Subpiece dst src offset)) (sized : WordSized (.Subpiece dst src offset)) :
    Meets (pure (takeBits (.concrete x (src.size * 8) tx : SymValue BV) (offset * 8)
      (max (dst.size * 8) 8))) (dst.size * 8) (x >>> (offset * 8)) True := by
  obtain ⟨positive, -⟩ := sized dst (by simp [SSAOp.dst])
  obtain ⟨inside, range⟩ := widths
  have sorted : (SymValue.concrete x (src.size * 8) tx : SymValue BV).WellSorted := by
    show 1 ≤ src.size * 8
    omega
  have ordered : offset * 8 ≤ offset * 8 + (dst.size * 8 - 1) := Nat.le_add_right _ _
  have covered : offset * 8 + (dst.size * 8 - 1) <
      (SymValue.concrete x (src.size * 8) tx : SymValue BV).bits := by
    show offset * 8 + (dst.size * 8 - 1) < src.size * 8
    omega
  have width : offset * 8 + (dst.size * 8 - 1) - offset * 8 + 1 = dst.size * 8 := by omega
  have taken : takeBits (.concrete x (src.size * 8) tx : SymValue BV) (offset * 8)
      (max (dst.size * 8) 8) = SymValue.extract (.concrete x (src.size * 8) tx)
        (offset * 8 + (dst.size * 8 - 1)) (offset * 8) := by
    have wide : max (dst.size * 8) 8 = dst.size * 8 := max_eq_left (by omega)
    have clamped : min (offset * 8 + (dst.size * 8 - 1)) (max (src.size * 8) 1 - 1) =
        offset * 8 + (dst.size * 8 - 1) := by omega
    have notBeyond : ¬ max (src.size * 8) 1 ≤ offset * 8 := by omega
    simp only [takeBits, wide, SymValue.bits, clamped, if_neg notBeyond]
    rw [if_neg]
    show ¬ (SymValue.extract _ _ _).bits < dst.size * 8
    rw [SymValue.bits_extract ordered covered, width]
    omega
  refine ⟨x.toNat % 2 ^ (src.size * 8) / 2 ^ (offset * 8) % 2 ^ (dst.size * 8),
    fun fresh => ⟨_, fresh, rfl, fun m => ?_⟩, iff_true_intro ?_⟩
  · rw [taken, SymValue.denote_extract sorted ordered covered, width]
    rfl
  · rw [SymValue.mod_div_mod _ (by omega), Nat.mod_mod, BitVec.toNat_ushiftRight,
      Nat.shiftRight_eq_div_pow]

theorem mod_pow_mod_pow (n a b : Nat) : n % 2 ^ a % 2 ^ b = n % 2 ^ min a b := by
  refine Nat.eq_of_testBit_eq fun i => ?_
  grind

/-- An operation under which the low bits of the second operand are those of the
result, the first operand being given. -/
def Cancels (apply : Word → Word → Word) : Prop :=
  ∀ (x a b : Word) (bits : Nat), bits ≤ 64 →
    ((apply x a).toNat % 2 ^ bits = (apply x b).toNat % 2 ^ bits ↔
      a.toNat % 2 ^ bits = b.toNat % 2 ^ bits)

theorem toNat_mod_eq_iff (a b : Word) (bits : Nat) :
    a.toNat % 2 ^ bits = b.toNat % 2 ^ bits ↔ a.setWidth bits = b.setWidth bits := by
  rw [← BitVec.toNat_inj, BitVec.toNat_setWidth, BitVec.toNat_setWidth]

private theorem cancels_add : Cancels (· + ·) := by
  intro x a b bits small
  rw [toNat_mod_eq_iff, toNat_mod_eq_iff, BitVec.setWidth_add _ _ small,
    BitVec.setWidth_add _ _ small]
  exact add_right_inj _

private theorem cancels_sub : Cancels (· - ·) := by
  intro x a b bits small
  -- Both differences complete their subtrahend to `x`.
  have completes (c : Word) : (x - c).setWidth bits + c.setWidth bits = x.setWidth bits := by
    rw [← BitVec.setWidth_add _ _ small, sub_add_cancel]
  rw [toNat_mod_eq_iff, toNat_mod_eq_iff]
  constructor
  · intro same
    have sums := (completes a).trans (completes b).symm
    rw [same] at sums
    exact add_left_cancel sums
  · intro same
    have sums := (completes a).trans (completes b).symm
    rw [same] at sums
    exact add_right_cancel sums

/-- The two addresses agree in the low bits exactly if the offset loses nothing
in the width of the index and the address nothing in the wider width. -/
theorem masked_address_iff {apply : Word → Word → Word} (cancels : Cancels apply) (x offset : Word)
    {own widest bits : Nat} (smallOwn : own ≤ 64) (small : bits ≤ 64) :
    (apply x (offset &&& SymValue.lowMask own)).toNat % 2 ^ widest % 2 ^ bits =
        (apply x offset).toNat % 2 ^ bits ↔
      offset.toNat % 2 ^ min widest bits < 2 ^ own ∧
        (apply x offset).toNat % 2 ^ bits < 2 ^ widest := by
  have smallMin : min widest bits ≤ 64 := by omega
  have offsets : (apply x (offset &&& SymValue.lowMask own)).toNat % 2 ^ min widest bits =
      (apply x offset).toNat % 2 ^ min widest bits ↔ offset.toNat % 2 ^ min widest bits < 2 ^ own := by
    rw [cancels x _ _ _ smallMin, toNat_and_lowMask _ smallOwn, mod_pow_mod_pow, Nat.min_comm,
      ← mod_pow_mod_pow]
    constructor
    · intro same
      rw [← same]
      exact Nat.mod_lt _ (Nat.two_pow_pos own)
    · exact Nat.mod_eq_of_lt
  have narrow : (apply x offset).toNat % 2 ^ bits < 2 ^ widest →
      (apply x offset).toNat % 2 ^ min widest bits = (apply x offset).toNat % 2 ^ bits := by
    intro fits
    rw [Nat.min_comm, ← mod_pow_mod_pow, Nat.mod_eq_of_lt fits]
  rw [mod_pow_mod_pow, ← offsets]
  constructor
  · intro same
    have fits : (apply x offset).toNat % 2 ^ bits < 2 ^ widest := by
      rw [← same]
      exact lt_of_lt_of_le (Nat.mod_lt _ (Nat.two_pow_pos _))
        (Nat.pow_le_pow_right (by decide) (Nat.min_le_left _ _))
    exact ⟨by rw [same, narrow fits], fits⟩
  · rintro ⟨same, fits⟩
    rw [same, narrow fits]

section

variable {executor : SymExecutor BV Formula} {state : SymState BV Formula} {dst : SSAVar}

theorem pointer_meets {dst base index : SSAVar} {elementSize : Nat} (tx ty : Word)
    {combine : SymValue BV → SymValue BV → Fresh (SymValue BV)} {apply : Word → Word → Word}
    (combines : ∀ a aBits ta b bBits tb fresh, combine (.concrete a aBits ta) (.concrete b bBits tb)
      fresh = (.concrete (apply a b &&& SymValue.lowMask (max aBits bBits)) (max aBits bBits)
        (ta ||| tb), fresh))
    (cancels : Cancels apply) (sizes : ∀ var ∈ [dst, base, index], 1 ≤ var.size ∧ var.size ≤ 8) :
    Meets (do
        let offset ← (SymValue.mul (.concrete y (index.size * 8) ty)
          (.ofWord (BitVec.ofNat 64 elementSize) (index.size * 8)) : Fresh (SymValue BV))
        combine (.concrete x (base.size * 8) tx) offset) (dst.size * 8)
      (apply x (y * BitVec.ofNat 64 elementSize)) (pointerAgrees apply dst base index elementSize x y)
      := by
  obtain ⟨-, smallDst⟩ := sizes dst (by simp)
  obtain ⟨-, smallBase⟩ := sizes base (by simp)
  obtain ⟨positive, smallIndex⟩ := sizes index (by simp)
  have normal : max (index.size * 8) (SymValue.normalizeBvBits (index.size * 8)) =
      index.size * 8 := by
    show max (index.size * 8) (max (index.size * 8) 1) = index.size * 8
    omega
  have widest : max (base.size * 8) (index.size * 8) = max base.size index.size * 8 := by omega
  have bound : max base.size index.size * 8 ≤ 64 := by omega
  have computes : ∀ fresh, (do
        let offset ← (SymValue.mul (.concrete y (index.size * 8) ty)
          (.ofWord (BitVec.ofNat 64 elementSize) (index.size * 8)) : Fresh (SymValue BV))
        combine (.concrete x (base.size * 8) tx) offset : Exec (SymValue BV)) fresh =
      .ok (.concrete (apply x (y * BitVec.ofNat 64 elementSize &&&
        SymValue.lowMask (index.size * 8)) &&& SymValue.lowMask (max base.size index.size * 8))
        (max base.size index.size * 8) (tx ||| (ty ||| 0)), fresh) := by
    intro fresh
    have scaled : (SymValue.mul (.concrete y (index.size * 8) ty)
        (.ofWord (BitVec.ofNat 64 elementSize) (index.size * 8)) : Fresh (SymValue BV)) fresh =
          (.concrete (y * BitVec.ofNat 64 elementSize &&& SymValue.lowMask (index.size * 8))
            (index.size * 8) (ty ||| 0), fresh) := by
      simp only [SymValue.mul, SymValue.ofWord, SymValue.combine, normal]
      rfl
    show ok (combine (.concrete x (base.size * 8) tx) ((SymValue.mul
      (.concrete y (index.size * 8) ty) (.ofWord (BitVec.ofNat 64 elementSize) (index.size * 8)) :
        Fresh (SymValue BV)) fresh).1 ((SymValue.mul
      (.concrete y (index.size * 8) ty) (.ofWord (BitVec.ofNat 64 elementSize) (index.size * 8)) :
        Fresh (SymValue BV)) fresh).2) = _
    rw [scaled, combines, widest]
  refine meets_concrete computes ?_
  rw [toNat_and_lowMask _ bound, Nat.mod_mod]
  exact masked_address_iff cancels x _ (by omega) (by omega)

/-! ## The two side by side -/

theorem stores_iff_of_meets
    {op : SSAOp} (isDst : op.dst = some dst)
    (steps : executor.step state op = do return (executor.writeVar state dst (← run), .ok []))
    {c : Word} {agrees : Prop} (meets : Meets run (dst.size * 8) raw agrees)
    (masked : c.toNat = raw.toNat % 2 ^ (dst.size * 8)) (fresh : Nat) :
    Stores executor state op c fresh ↔ agrees := by
  obtain ⟨k, yields, same⟩ := meets
  rw [stores_iff isDst steps yields, masked, same]

/-- A truncation of a floating-point number is a new constant, which takes more
than one value. -/
theorem trunc_not_stores
    (positive : 1 ≤ dst.size) (c : Word) (fresh : Nat) :
    ¬ Stores executor state (.unary .Trunc dst src) c fresh := by
  rintro ⟨dst', state', fresh', value, isDst, stepped, stored, denotes⟩
  cases isDst
  have isState : executor.writeVar state dst (.newSymbolic "float_op" (dst.size * 8)) = state' := by
    exact (Prod.mk.inj (Prod.mk.inj (ok.inj stepped)).1).1
  rw [← isState] at stored
  obtain rfl := some.inj ((AList.lookup_insert _).symm.trans stored)
  have values : ∀ n : Nat, n % 2 ^ (dst.size * 8) = c.toNat := by
    intro n
    obtain ⟨m, assigned⟩ : ∃ m : Model, ∀ name bits,
        Z3.value m (Z3.newConst name bits : BV) = n % 2 ^ bits := Z3.exists_model fun _ _ => n
    have read := denotes m
    have normal : SymValue.normalizeBvBits (dst.size * 8) = dst.size * 8 :=
      max_eq_left (by omega : 1 ≤ dst.size * 8)
    simp only [SymValue.newSymbolic, SymValue.denote, normal, assigned, map_some,
      Option.some.injEq, Nat.mod_mod] at read
    exact read
  have large : 1 < 2 ^ (dst.size * 8) := Nat.one_lt_two_pow (by omega)
  have zero := values 0
  have one := values 1
  rw [Nat.zero_mod] at zero
  rw [Nat.mod_eq_of_lt large] at one
  omega

end

end Values

/-- For every operation of valid widths, on a state that holds its operands: a
constant that the folder gives is the value that the executor stores, exactly if
the operands are ones on which the two agree. -/
theorem step_stores_iff {BV Formula Model : Type} [Z3Arith BV Formula Model]
    (executor : SymExecutor BV Formula) (state : SymState BV Formula) (op : SSAOp)
    (widths : ValidWidths op) (sized : WordSized op) (consts : VarKey → Option Word)
    (holding : Holding executor state consts op) (c : Word)
    (folds : evalConstOp executor.checks op consts = .ok (some c)) (fresh : Nat) :
    Stores executor state op c fresh ↔ FoldsAlike consts op := by
  cases op with
  | Copy dst src =>
    obtain ⟨-, small⟩ := sized dst (by simp [SSAOp.dst])
    obtain ⟨raw, unmasked, masked⟩ := evalConstOp_some rfl small folds
    obtain ⟨x, tx, known, read, -⟩ := holding src (by simp [SSAOp.sources])
    simp only [evalUnmasked, known, ok.injEq, Option.some.injEq] at unmasked
    subst unmasked
    have same : dst.size = src.size := widths
    refine stores_iff_of_meets rfl rfl ?_ masked fresh
    rw [read]
    refine meets_concrete (fun _ => rfl) (iff_true_intro ?_)
    rw [same, Nat.mod_mod]
  | unary kind dst src =>
    obtain ⟨positive, small⟩ := sized dst (by simp [SSAOp.dst])
    obtain ⟨-, small'⟩ := sized src (by simp [SSAOp.sources])
    obtain ⟨raw, unmasked, masked⟩ := evalConstOp_some rfl small folds
    obtain ⟨x, tx, known, read, fits⟩ := holding src (by simp [SSAOp.sources])
    simp only [evalUnmasked, known, bind_some, ok.injEq, bitsOf_eq small'] at unmasked
    have condition : FoldsAlike consts (.unary kind dst src) ↔
        unaryAgrees dst.size src.size x kind := by
      simp only [FoldsAlike, known, Option.some.injEq, forall_eq']
    rw [condition]
    by_cases isTrunc : kind = .Trunc
    · subst isTrunc
      exact iff_of_false (trunc_not_stores positive c fresh) id
    · refine stores_iff_of_meets rfl rfl ?_ masked fresh
      rw [read]
      exact unary_meets executor.checks tx isTrunc widths sized fits unmasked
  | binary kind dst a b =>
    obtain ⟨-, small⟩ := sized dst (by simp [SSAOp.dst])
    obtain ⟨raw, unmasked, masked⟩ := evalConstOp_some rfl small folds
    obtain ⟨x, tx, knownX, readX, fitsX⟩ := holding a (by simp [SSAOp.sources])
    obtain ⟨y, ty, knownY, readY, fitsY⟩ := holding b (by simp [SSAOp.sources])
    simp only [evalUnmasked, knownX, knownY] at unmasked
    have condition : FoldsAlike consts (.binary kind dst a b) ↔ binaryAgrees a.size x y kind :=
      forall_known knownX knownY
    rw [condition]
    refine stores_iff_of_meets rfl rfl ?_ masked fresh
    rw [readX, readY]
    exact binary_meets executor.checks tx ty widths sized fitsX fitsY unmasked
  | Piece dst hi lo =>
    obtain ⟨-, small⟩ := sized dst (by simp [SSAOp.dst])
    obtain ⟨-, smallLo⟩ := sized lo (by simp [SSAOp.sources])
    obtain ⟨raw, unmasked, masked⟩ := evalConstOp_some rfl small folds
    obtain ⟨x, tx, knownX, readX, -⟩ := holding hi (by simp [SSAOp.sources])
    obtain ⟨y, ty, knownY, readY, fitsY⟩ := holding lo (by simp [SSAOp.sources])
    simp only [evalUnmasked, knownX, knownY, bitsOf_eq smallLo, maskForBits_eq] at unmasked
    split at unmasked
    · cases unmasked
    · obtain rfl := some.inj (ok.inj unmasked)
      refine stores_iff_of_meets rfl rfl ?_ masked fresh
      rw [readX, readY]
      exact piece_meets tx ty widths sized fitsY
  | Subpiece dst src offset =>
    obtain ⟨-, small⟩ := sized dst (by simp [SSAOp.dst])
    obtain ⟨-, small'⟩ := sized src (by simp [SSAOp.sources])
    obtain ⟨raw, unmasked, masked⟩ := evalConstOp_some rfl small folds
    obtain ⟨x, tx, known, read, -⟩ := holding src (by simp [SSAOp.sources])
    have inside : offset ≤ 8 := by
      have bound := widths.1
      omega
    simp only [evalUnmasked, known, bind_some, bitsOf_eq inside, ok.injEq] at unmasked
    split at unmasked
    · cases unmasked
    · obtain rfl := some.inj unmasked
      refine stores_iff_of_meets rfl rfl ?_ masked fresh
      rw [read]
      exact subpiece_meets tx widths sized
  | PtrAdd dst base index elementSize =>
    obtain ⟨-, small⟩ := sized dst (by simp [SSAOp.dst])
    obtain ⟨raw, unmasked, masked⟩ := evalConstOp_some rfl small folds
    obtain ⟨x, tx, knownX, readX, -⟩ := holding base (by simp [SSAOp.sources])
    obtain ⟨y, ty, knownY, readY, -⟩ := holding index (by simp [SSAOp.sources])
    simp only [evalUnmasked, knownX, knownY, ok.injEq, Option.some.injEq] at unmasked
    subst unmasked
    have condition : FoldsAlike consts (.PtrAdd dst base index elementSize) ↔
        pointerAgrees (· + ·) dst base index elementSize x y :=
      forall_known knownX knownY
    rw [condition]
    refine stores_iff_of_meets rfl rfl ?_ masked fresh
    rw [readX, readY]
    exact pointer_meets tx ty (fun _ _ _ _ _ _ _ => rfl) cancels_add sized
  | PtrSub dst base index elementSize =>
    obtain ⟨-, small⟩ := sized dst (by simp [SSAOp.dst])
    obtain ⟨raw, unmasked, masked⟩ := evalConstOp_some rfl small folds
    obtain ⟨x, tx, knownX, readX, -⟩ := holding base (by simp [SSAOp.sources])
    obtain ⟨y, ty, knownY, readY, -⟩ := holding index (by simp [SSAOp.sources])
    simp only [evalUnmasked, knownX, knownY, ok.injEq, Option.some.injEq] at unmasked
    subst unmasked
    have condition : FoldsAlike consts (.PtrSub dst base index elementSize) ↔
        pointerAgrees (· - ·) dst base index elementSize x y :=
      forall_known knownX knownY
    rw [condition]
    refine stores_iff_of_meets rfl rfl ?_ masked fresh
    rw [readX, readY]
    exact pointer_meets tx ty (fun _ _ _ _ _ _ _ => rfl) cancels_sub sized
  | CallOther output userop inputs =>
    cases output <;> simp [evalConstOp, SSAOp.dst, evalUnmasked, Except.map] at folds
  | StoreConditional result space addr val ordering =>
    cases result <;> simp [evalConstOp, SSAOp.dst, evalUnmasked, Except.map] at folds
  | _ => simp [evalConstOp, SSAOp.dst, evalUnmasked, Except.map] at folds

/-! ## A comparison of two-byte words -/

/-- An executor without hooks, for which no address has targets. -/
def plainExecutor : SymExecutor Term (Assignment → Bool) := ⟨true, id, fun _ _ _ => ([], false), ∅⟩

def plainState : SymState Term (Assignment → Bool) where
  registers := ∅
  memory := .new false
  constraints := []
  pc := 4096
  prevPc := none
  active := true
  exitStatus := none
  depth := 0

theorem wordSized_wideCompare : WordSized wideCompare := by
  unfold WordSized
  decide

theorem wideCompare_holding : Holding plainExecutor plainState (fun _ => none) wideCompare := by
  intro src mem
  simp only [wideCompare, SSAOp.sources, mem_cons, not_mem_nil, or_false] at mem
  rcases mem with rfl | rfl
  · exact ⟨128, 0, by decide +kernel, rfl, by decide⟩
  · exact ⟨0, 0, by decide +kernel, rfl, by decide⟩

/-- The folder takes 128 for less than 0, the executor does not. -/
theorem wideCompare_differs :
    ValidWidths wideCompare ∧ WordSized wideCompare ∧
      Holding plainExecutor plainState (fun _ => none) wideCompare ∧
      evalConstOp plainExecutor.checks wideCompare (fun _ => none) = .ok (some 1) ∧
      ¬ Stores plainExecutor plainState wideCompare 1 0 := by
  refine ⟨⟨rfl, rfl⟩, wordSized_wideCompare, wideCompare_holding, wideCompare_folds, ?_⟩
  have widths : ValidWidths wideCompare := ⟨rfl, rfl⟩
  have meets : Meets (binaryValue true 8 (.concrete 128 16 0 : SymValue Term)
      (.concrete 0 16 0) .IntSLess) 8 1 (binaryAgrees 2 128 0 .IntSLess) :=
    binary_meets true 0 0 widths wordSized_wideCompare (by decide) (by decide) rfl
  have stores : Stores plainExecutor plainState wideCompare 1 0 ↔
      binaryAgrees 2 128 0 .IntSLess :=
    stores_iff_of_meets rfl rfl meets rfl 0
  rw [stores]
  show ¬ ((signExtend 128 8).slt (signExtend 0 8) = (signExtend 128 16).slt (signExtend 0 16))
  decide +kernel

theorem step_stores_iff_wideCompare :
    Stores plainExecutor plainState wideCompare 1 0 ↔ FoldsAlike (fun _ => none) wideCompare :=
  step_stores_iff plainExecutor plainState wideCompare ⟨rfl, rfl⟩ wordSized_wideCompare
    (fun _ => none) wideCompare_holding 1 wideCompare_folds 0

end R2Sleigh.Sym
