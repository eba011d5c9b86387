import R2Sleigh.Lib.Digits
import R2Sleigh.Ssa.ConstWords
import R2Sleigh.Ssa.Sccp

/-!
Contract: instruction combining.

Owns `simplifyOp`.
-/

namespace R2Sleigh.Ssa

open Il Lib BitVec

/-! ## The pass -/

/-- `make_const`. -/
def makeConst (dst : SSAVar) (val : Word) : SSAOp :=
  .Copy dst (.constant (val &&& maskForBits (bitsOf dst.size)).toNat dst.size)

/-- The arms of `simplify_op` for two literals. -/
def foldLiterals (checks : Bool) (bits : Nat) (av bv : Word) :
    BinaryOp → Except Panic (Option Word)
  | .IntAdd => .ok (av + bv)
  | .IntSub => .ok (av - bv)
  | .IntMult => .ok (av * bv)
  | .IntDiv => .ok (if bv = 0 then none else some (av / bv))
  | .IntSDiv =>
    if bv = 0 then .ok none
    else (signedDivision BitVec.sdiv (signExtend av bits) (signExtend bv bits)).map some
  | .IntRem => .ok (if bv = 0 then none else some (av % bv))
  | .IntSRem =>
    if bv = 0 then .ok none
    else (signedDivision BitVec.srem (signExtend av bits) (signExtend bv bits)).map some
  | .IntAnd => .ok (av &&& bv)
  | .IntOr => .ok (av ||| bv)
  | .IntXor => .ok (av ^^^ bv)
  | .IntLeft => .ok (if bits ≤ bv.toNat then none else some (av <<< (bv.toNat % 64)))
  | .IntRight =>
    if bits ≤ bv.toNat then .ok none
    else (rightShift checks BitVec.ushiftRight av bv).map some
  | .IntSRight =>
    if bits ≤ bv.toNat then .ok none
    else (rightShift checks BitVec.sshiftRight (signExtend av bits) bv).map some
  | .IntEqual => .ok (ofBool (av == bv))
  | .IntNotEqual => .ok (ofBool (av != bv))
  | .IntLess => .ok (ofBool (av.ult bv))
  | .IntLessEqual => .ok (ofBool (av.ule bv))
  | .IntSLess => .ok (ofBool ((signExtend av bits).slt (signExtend bv bits)))
  | .IntSLessEqual => .ok (ofBool ((signExtend av bits).sle (signExtend bv bits)))
  | .BoolAnd => .ok (ofBool (av != 0 && bv != 0))
  | .BoolOr => .ok (ofBool (av != 0 || bv != 0))
  | .BoolXor => .ok (ofBool ((av != 0) ^^ (bv != 0)))
  | .IntCarry | .IntSCarry | .IntSBorrow | .FloatAdd | .FloatSub | .FloatMult | .FloatDiv
  | .FloatEqual | .FloatNotEqual | .FloatLess | .FloatLessEqual => .ok none

/-- Fold an operation on two literals. -/
def foldBoth (checks : Bool) (dst a b : SSAVar) (op : BinaryOp) :
    Except Panic (Option SSAOp) :=
  match constValue a, constValue b with
  | some av, some bv =>
    (foldLiterals checks (bitsOf dst.size) av bv op).map (Option.map (makeConst dst))
  | _, _ => .ok none

/-- The result of `a op b` where both are the same variable. -/
def sameOperands (op : BinaryOp) : Bool :=
  op = .IntEqual || op = .IntLessEqual || op = .IntSLessEqual

def simplifyBinary (checks : Bool) (dst a b : SSAVar) (op : BinaryOp) :
    Except Panic (Option SSAOp) :=
  let mask := maskForBits (bitsOf dst.size)
  let both := foldBoth checks dst a b op
  match op with
  | .IntAdd =>
    if constValue a = some 0 then .ok (some (.Copy dst b))
    else if constValue b = some 0 then .ok (some (.Copy dst a))
    else both
  | .IntSub =>
    if constValue b = some 0 then .ok (some (.Copy dst a))
    else if a = b then .ok (some (makeConst dst 0))
    else both
  | .IntMult =>
    if constValue a = some 0 ∨ constValue b = some 0 then .ok (some (makeConst dst 0))
    else if constValue a = some 1 then .ok (some (.Copy dst b))
    else if constValue b = some 1 then .ok (some (.Copy dst a))
    else both
  | .IntDiv | .IntSDiv =>
    if constValue b = some 1 then .ok (some (.Copy dst a)) else both
  | .IntRem | .IntSRem => both
  | .IntAnd =>
    if constValue a = some 0 ∨ constValue b = some 0 then .ok (some (makeConst dst 0))
    else if (constValue a).isSome ∧ (constValue b).isSome then both
    else if constValue a = some mask then .ok (some (.Copy dst b))
    else if constValue b = some mask then .ok (some (.Copy dst a))
    else .ok none
  | .IntOr =>
    if constValue a = some 0 then .ok (some (.Copy dst b))
    else if constValue b = some 0 then .ok (some (.Copy dst a))
    else both
  | .IntXor =>
    if constValue a = some 0 then .ok (some (.Copy dst b))
    else if constValue b = some 0 then .ok (some (.Copy dst a))
    else if (constValue a).isSome ∧ (constValue b).isSome then both
    else if a = b then .ok (some (makeConst dst 0))
    else .ok none
  | .IntLeft | .IntRight | .IntSRight =>
    if (constValue a).isSome ∧ (constValue b).isSome then both
    else if constValue b = some 0 then .ok (some (.Copy dst a))
    else .ok none
  | .IntEqual | .IntNotEqual | .IntLess | .IntLessEqual | .IntSLess | .IntSLessEqual =>
    if a = b then .ok (some (makeConst dst (ofBool (sameOperands op)))) else both
  | .BoolAnd =>
    if (constValue a).isSome ∧ (constValue b).isSome then both
    else if constValue a = some 0 ∨ constValue b = some 0 then .ok (some (makeConst dst 0))
    else .ok none
  | .BoolOr =>
    if (constValue a).isSome ∧ (constValue b).isSome then both
    else if constValue a = some 1 ∨ constValue b = some 1 then .ok (some (makeConst dst 1))
    else .ok none
  | .BoolXor => both
  | .IntCarry | .IntSCarry | .IntSBorrow | .FloatAdd | .FloatSub | .FloatMult | .FloatDiv
  | .FloatEqual | .FloatNotEqual | .FloatLess | .FloatLessEqual => .ok none

def simplifyUnary (dst src : SSAVar) (op : UnaryOp) : Option SSAOp :=
  match op with
  | .IntNegate => (constValue src).map fun val => makeConst dst (~~~val + 1)
  | .IntNot => (constValue src).map fun val => makeConst dst (~~~val)
  | .BoolNot => (constValue src).map fun val => makeConst dst (ofBool (val == 0))
  | .IntZExt =>
    match constValue src with
    | some val => some (makeConst dst val)
    | none => if src.size = dst.size then some (.Copy dst src) else none
  | .IntSExt =>
    match constValue src with
    | some val => some (makeConst dst (signExtend val (bitsOf src.size)))
    | none => if src.size = dst.size then some (.Copy dst src) else none
  | .Trunc => (constValue src).map fun val => makeConst dst (val &&& maskForBits (bitsOf dst.size))
  | .PopCount | .Lzcount | .FloatNeg | .FloatAbs | .FloatSqrt | .FloatCeil | .FloatFloor
  | .FloatRound | .FloatNaN | .Int2Float | .Float2Int | .FloatFloat | .Cast => none

def simplifyOp (checks : Bool) : SSAOp → Except Panic (Option SSAOp)
  | .binary op dst a b => simplifyBinary checks dst a b op
  | .unary op dst src => .ok (simplifyUnary dst src op)
  | .Piece dst hi lo =>
    match constValue hi, constValue lo with
    | some h, some l =>
      if 64 ≤ bitsOf lo.size then .ok none
      else .ok (some (makeConst dst
        (h <<< bitsOf lo.size ||| (l &&& maskForBits (bitsOf lo.size)))))
    | _, _ => .ok none
  | .Subpiece dst src offset =>
    .ok ((constValue src).bind fun val =>
      if 64 ≤ bitsOf offset then none else some (makeConst dst (val >>> bitsOf offset)))
  | .PtrAdd dst base index elementSize =>
    match constValue base, constValue index with
    | some b, some i => .ok (some (makeConst dst (b + i * BitVec.ofNat 64 elementSize)))
    | _, _ => .ok none
  | .PtrSub dst base index elementSize =>
    match constValue base, constValue index with
    | some b, some i => .ok (some (makeConst dst (b - i * BitVec.ofNat 64 elementSize)))
    | _, _ => .ok none
  | _ => .ok none

/-! ## Literals -/

private theorem digitValue_digitChar {base d : Nat} (sixteen : base ≤ 16) (small : d < base) :
    digitValue base d.digitChar = some d := by
  have all : ∀ base : Fin 17, ∀ d : Fin base, digitValue base d.val.digitChar = some d.val := by
    decide
  exact all ⟨base, Nat.lt_succ_of_le sixteen⟩ ⟨d, small⟩

theorem fromStrRadix_toDigits_base {base n : Nat} (two : 1 < base) (sixteen : base ≤ 16)
    (small : n < 2 ^ 64) : fromStrRadix base (Nat.toDigits base n) = some (BitVec.ofNat 64 n) := by
  have reads : (Nat.toDigits base n).foldlM
      (fun value c => (digitValue base c).map (value * base + ·)) 0 = some n := by
    refine foldlM_toDigits base two (fun value d digit => ?_) n
    rw [digitValue_digitChar sixteen digit, Option.map_some, Nat.mul_comm]
  have noSign : ∀ rest, Nat.toDigits base n ≠ '+' :: rest := by
    intro rest shape
    obtain ⟨d, digit, isPlus⟩ := mem_toDigits base two n '+' (by rw [shape]; exact List.mem_cons_self)
    have none : ∀ d : Fin 16, '+' ≠ d.val.digitChar := by decide
    exact none ⟨d, Nat.lt_of_lt_of_le digit sixteen⟩ isPlus
  unfold fromStrRadix
  split
  · rename_i rest shape
    exact absurd shape (noSign rest)
  · rw [if_neg Nat.toDigits_ne_nil, reads, Option.bind_some, if_pos small]

theorem fromStrRadix_toDigits {n : Nat} (small : n < 2 ^ 64) :
    fromStrRadix 16 (Nat.toDigits 16 n) = some (BitVec.ofNat 64 n) :=
  fromStrRadix_toDigits_base (by decide) (by decide) small

theorem constValue_constant (val : Word) (size : Nat) :
    constValue (.constant val.toNat size) = some val := by
  have name : (SSAVar.constant val.toNat size).name.toList.drop 6 = Nat.toDigits 16 val.toNat := by
    simp [SSAVar.constant, hex]
  have noX : ∀ rest, Nat.toDigits 16 val.toNat ≠ '0' :: 'x' :: rest ∧
      Nat.toDigits 16 val.toNat ≠ '0' :: 'X' :: rest := by
    have none : ∀ d : Fin 16, 'x' ≠ d.val.digitChar ∧ 'X' ≠ d.val.digitChar := by decide
    intro rest
    constructor
    · intro shape
      obtain ⟨d, digit, same⟩ := mem_toDigits 16 (by decide) val.toNat 'x' (by simp [shape])
      exact (none ⟨d, digit⟩).1 same
    · intro shape
      obtain ⟨d, digit, same⟩ := mem_toDigits 16 (by decide) val.toNat 'X' (by simp [shape])
      exact (none ⟨d, digit⟩).2 same
  rw [constValue, if_pos (SSAVar.isConst_constant ..), name]
  split
  · rename_i rest shape
    exact absurd shape (noX rest).1
  · rename_i rest shape
    exact absurd shape (noX rest).2
  · rw [fromStrRadix_toDigits val.isLt, ofNat_toNat, setWidth_eq]
    rfl

theorem constForVar_of_constValue {var : SSAVar} {val : Word} {consts : VarKey → Option Word}
    (literal : constValue var = some val) : constForVar var consts = some val := by
  rw [constForVar, literal]
  rfl

/-! ## Traps -/

theorem foldLiterals_eq (checks : Bool) (bits : Nat) (av bv : Word) (op : BinaryOp) :
    foldLiterals checks bits av bv op = evalBinary checks bits av bv op := by
  cases op <;> rfl

private theorem simplifyBinary_cases (checks : Bool) (dst a b : SSAVar) (op : BinaryOp) :
    (∃ result, simplifyBinary checks dst a b op = .ok result) ∨
      simplifyBinary checks dst a b op = foldBoth checks dst a b op := by
  unfold simplifyBinary
  cases op <;> dsimp only <;> (try split_ifs) <;>
    first
    | exact Or.inl ⟨_, rfl⟩
    | exact Or.inr rfl

private theorem foldBoth_error {checks : Bool} {dst a b : SSAVar} {op : BinaryOp} {panic : Panic}
    (traps : foldBoth checks dst a b op = .error panic) :
    ∃ av bv, constValue a = some av ∧ constValue b = some bv ∧
      evalBinary checks (bitsOf dst.size) av bv op = .error panic := by
  unfold foldBoth at traps
  split at traps
  · rename_i av bv first second
    refine ⟨av, bv, first, second, ?_⟩
    rw [foldLiterals_eq] at traps
    cases folded : evalBinary checks (bitsOf dst.size) av bv op with
    | error other =>
      rw [folded] at traps
      exact congrArg Except.error (Except.error.inj traps)
    | ok result =>
      rw [folded] at traps
      cases traps
  · cases traps

private theorem evalConstOp_error_of_simplifyOp {checks : Bool} {op : SSAOp} {panic : Panic}
    (consts : VarKey → Option Word) (traps : simplifyOp checks op = .error panic) :
    ∃ panic', evalConstOp checks op consts = .error panic' := by
  cases op with
  | binary kind dst a b =>
    rcases simplifyBinary_cases checks dst a b kind with ⟨result, returns⟩ | both
    · rw [simplifyOp, returns] at traps
      cases traps
    · rw [simplifyOp, both] at traps
      obtain ⟨av, bv, first, second, failed⟩ := foldBoth_error traps
      refine (evalConstOp_error_iff checks _ consts).mpr ⟨kind, dst, a, b, av, bv, rfl,
        constForVar_of_constValue first, constForVar_of_constValue second, ?_⟩
      exact (evalBinary_error_iff checks _ av bv kind).mp ⟨panic, failed⟩
  | Piece dst hi lo =>
    simp only [simplifyOp] at traps
    split at traps
    · split_ifs at traps
    · cases traps
  | PtrAdd dst base index size | PtrSub dst base index size =>
    simp only [simplifyOp] at traps
    split at traps <;> cases traps
  | _ => cases traps

/-- Operands on which an arm divides by a divisor that is zero in the width of
the destination, divides the least number by minus one, or shifts right by 64 or
more. -/
def TrapsOn (bits : Nat) (x y : Word) : BinaryOp → Prop
  | .IntSDiv | .IntSRem => (y ≠ 0 ∧ y.toNat % 2 ^ bits = 0) ∨
      (64 ≤ bits ∧ x = BitVec.intMin 64 ∧ y = BitVec.allOnes 64)
  | .IntRight | .IntSRight => 64 ≤ y.toNat ∧ y.toNat < bits
  | _ => False

/-- A binary operation on two constants that it traps on. -/
def FoldTraps (consts : VarKey → Option Word) (op : SSAOp) : Prop :=
  ∃ kind dst a b x y, op = .binary kind dst a b ∧ constForVar a consts = some x ∧
    constForVar b consts = some y ∧ TrapsOn (bitsOf dst.size) x y kind

private theorem signExtend_eq_zero_iff (value : Word) (bits : Nat) :
    signExtend value bits = 0 ↔ value.toNat % 2 ^ bits = 0 ∨ bits = 0 := by
  by_cases none : bits = 0
  · simp [signExtend, none]
  · by_cases wide : 64 ≤ bits
    · have small : value.toNat < 2 ^ bits :=
        Nat.lt_of_lt_of_le value.isLt (Nat.pow_le_pow_right (by decide) wide)
      rw [signExtend, if_neg none, if_pos wide, Nat.mod_eq_of_lt small]
      simp only [none, or_false]
      exact toNat_eq.trans Iff.rfl
    · have low : (value.setWidth bits).toNat = value.toNat % 2 ^ bits := toNat_setWidth ..
      have zero : (0 : Word).toInt = (0 : BitVec bits).toInt := by simp
      rw [← toInt_inj, toInt_signExtend_word value (by omega), zero, toInt_inj, ← low]
      simp only [none, or_false]
      exact toNat_eq.trans (by simp)

private theorem signExtend_eq_intMin_iff (value : Word) (bits : Nat) :
    signExtend value bits = BitVec.intMin 64 ↔ 64 ≤ bits ∧ value = BitVec.intMin 64 := by
  by_cases wide : 64 ≤ bits
  · rw [signExtend, if_neg (by omega), if_pos wide]
    simp [wide]
  · constructor
    · intro least
      have narrow : (value.setWidth bits).toInt = (BitVec.intMin 64).toInt := by
        rw [← toInt_signExtend_word value (by omega), least]
      have bound := le_two_mul_toInt (x := value.setWidth bits)
      have power : (2 : Int) ^ bits ≤ 2 ^ 63 := by
        have := Nat.pow_le_pow_right (n := 2) (by decide) (by omega : bits ≤ 63)
        exact_mod_cast this
      have value63 : (BitVec.intMin 64).toInt = -(2 ^ 63) := by decide
      omega
    · rintro ⟨large, _⟩
      exact absurd large wide

/-- The checks fail exactly on the operands at which the operation traps. -/
theorem overflows_iff_trapsOn (bits : Nat) (x y : Word) (op : BinaryOp) :
    overflows true bits x y op = true ↔ TrapsOn bits x y op := by
  have division : (y ≠ 0 ∧ (signExtend y bits = 0 ∨
      (signExtend x bits = BitVec.intMin 64 ∧ signExtend y bits = BitVec.allOnes 64))) ↔
      (y ≠ 0 ∧ y.toNat % 2 ^ bits = 0) ∨
        (64 ≤ bits ∧ x = BitVec.intMin 64 ∧ y = BitVec.allOnes 64) := by
    rw [signExtend_eq_zero_iff, signExtend_eq_intMin_iff]
    constructor
    · rintro ⟨nonzero, (zero | none) | ⟨⟨wide, least⟩, minusOne⟩⟩
      · exact Or.inl ⟨nonzero, zero⟩
      · subst none
        exact Or.inl ⟨nonzero, Nat.mod_one _⟩
      · rw [signExtend, if_neg (by omega), if_pos wide] at minusOne
        exact Or.inr ⟨wide, least, minusOne⟩
    · rintro (⟨nonzero, zero⟩ | ⟨wide, rfl, rfl⟩)
      · exact ⟨nonzero, Or.inl (Or.inl zero)⟩
      · refine ⟨by decide, Or.inr ⟨⟨wide, rfl⟩, ?_⟩⟩
        rw [signExtend, if_neg (by omega), if_pos wide]
  cases op with
  | IntSDiv | IntSRem =>
    simp only [overflows, decide_eq_true_eq]
    exact division
  | IntRight | IntSRight =>
    simp only [overflows, TrapsOn, decide_eq_true_eq, true_and]
    exact And.comm
  | _ => simp [overflows, TrapsOn]

/-- Folding an operation returns, and every shift in it is by less than 64,
exactly when the operation is not one that traps on its constants. With
overflow checks a longer shift is an error. -/
theorem folding_returns_iff (op : SSAOp) (consts : VarKey → Option Word) :
    (∀ checks panic, evalConstOp checks op consts ≠ .error panic ∧
      simplifyOp checks op ≠ .error panic) ↔ ¬ FoldTraps consts op := by
  constructor
  · rintro returns ⟨kind, dst, a, b, x, y, rfl, first, second, traps⟩
    obtain ⟨panic, failed⟩ := (evalConstOp_error_iff true _ consts).mpr
      ⟨kind, dst, a, b, x, y, rfl, first, second, (overflows_iff_trapsOn _ x y kind).mpr traps⟩
    exact (returns true panic).1 failed
  · intro noTrap
    have evaluates : ∀ checks panic, evalConstOp checks op consts ≠ .error panic := by
      intro checks panic failed
      obtain ⟨kind, dst, a, b, x, y, isBinary, first, second, overflow⟩ :=
        (evalConstOp_error_iff checks op consts).mp ⟨panic, failed⟩
      refine noTrap ⟨kind, dst, a, b, x, y, isBinary, first, second,
        (overflows_iff_trapsOn _ x y kind).mp ?_⟩
      cases checks with
      | true => exact overflow
      | false => cases kind <;> simp_all [overflows]
    intro checks panic
    refine ⟨evaluates checks panic, fun traps => ?_⟩
    obtain ⟨other, failed⟩ := evalConstOp_error_of_simplifyOp consts traps
    exact evaluates checks other failed

def leastOverMinusOne : SSAOp :=
  .binary .IntSDiv ⟨"q", 1, 8⟩ ⟨"const:8000000000000000", 0, 8⟩ ⟨"const:ffffffffffffffff", 0, 8⟩

theorem folding_traps : ¬ ∀ (op : SSAOp) (consts : VarKey → Option Word) (checks : Bool)
    (panic : Panic), evalConstOp checks op consts ≠ .error panic ∧
      simplifyOp checks op ≠ .error panic := by
  intro returns
  exact (returns leastOverMinusOne (fun _ => none) false .divideOverflow).2 (by decide +kernel)

end R2Sleigh.Ssa
