import R2Sleigh.Sym.FoldAgree
import R2Sleigh.Sym.Terms

/-!
Contract: operations on constants, computed on words and as terms.

Owns `Fold`.
-/

namespace R2Sleigh.Sym

open Ssa Except

structure Constant where
  word : Word
  bits : Nat
  taint : Word
  positive : 1 ≤ bits
  fits : word.toNat < 2 ^ bits

namespace Constant

variable {BV Formula Model : Type}

def concrete (c : Constant) : SymValue BV := .concrete c.word c.bits c.taint

def term [Z3 BV Formula Model] (c : Constant) : SymValue BV :=
  .symbolic (Z3.fromU64 c.word c.bits) c.bits c.taint

def wide (c : Constant) (width : Nat) : BitVec width := c.word.setWidth width

theorem toNat_wide (c : Constant) {width : Nat} (wider : c.bits ≤ width) :
    (c.wide width).toNat = c.word.toNat := by
  have fits := lt_of_lt_of_le c.fits (Nat.pow_le_pow_right (by decide) wider)
  rw [wide, BitVec.toNat_setWidth, Nat.mod_eq_of_lt fits]

section

variable [Z3 BV Formula Model] (c : Constant)
include c

private theorem concrete_wellSorted :
    (c.concrete : SymValue BV).WellSorted := c.positive

theorem term_wellSorted :
    (c.term : SymValue BV).WellSorted := ⟨c.positive, Z3.size_fromU64 _ _⟩

theorem value_term (m : Model) (n : Nat) :
    Z3.value m ((c.term : SymValue BV).toBv n) = c.word.toNat := by
  rw [term, SymValue.toBv, Z3.value_fromU64, Nat.mod_eq_of_lt c.fits]

end

end Constant

/-- A value whose constant fits its width. -/
def SymValue.Proper {BV Formula Model : Type} [Z3 BV Formula Model] (v : SymValue BV) : Prop :=
  v.WellSorted ∧ ∀ word, v.asConcrete = some word → word.toNat < 2 ^ v.bits

/-! ## Operations -/

inductive BinaryFold where
  | add | sub | mul | udiv | urem
  | and | or | xor
  | eq | ult | ule
  | concat
deriving DecidableEq, Repr

inductive UnaryFold where
  | neg | not
  | zeroExtend (newBits : Nat)
  | signExtend (newBits : Nat)
  | extract (high low : Nat)
deriving DecidableEq, Repr

/-- An operation applied to operands. -/
inductive Fold (V : Type) where
  | binary (op : BinaryFold) (a b : V)
  | unary (op : UnaryFold) (v : V)

namespace BinaryFold

def run {BV Formula Model : Type} [Z3Arith BV Formula Model] :
    BinaryFold → SymValue BV → SymValue BV → Fresh (SymValue BV)
  | .add => SymValue.add
  | .sub => SymValue.sub
  | .mul => SymValue.mul
  | .udiv => SymValue.udiv
  | .urem => SymValue.urem
  | .and => SymValue.and
  | .or => SymValue.or
  | .xor => SymValue.xor
  | .eq => SymValue.eq
  | .ult => SymValue.ult
  | .ule => SymValue.ule
  | .concat => SymValue.concat

def width (op : BinaryFold) (a b : Constant) : Nat :=
  match op with
  | .add | .sub | .mul | .udiv | .urem | .and | .or | .xor => max a.bits b.bits
  | .eq | .ult | .ule => 1
  | .concat => a.bits + b.bits

def arithExact (op : BvOp) (a b : Constant) : Nat :=
  (op.apply (a.wide (max a.bits b.bits)) (b.wide _)).toNat

def compareExact (rel : {w : Nat} → BitVec w → BitVec w → Bool) (a b : Constant) : Nat :=
  (ofBool (rel (a.wide (max a.bits b.bits)) (b.wide _))).toNat

/-- The result as a bitvector of the width. -/
def exact (op : BinaryFold) (a b : Constant) : Nat :=
  match op with
  | .add => arithExact .bvadd a b
  | .sub => arithExact .bvsub a b
  | .mul => arithExact .bvmul a b
  | .udiv => arithExact .bvudiv a b
  | .urem => arithExact .bvurem a b
  | .and => arithExact .bvand a b
  | .or => arithExact .bvor a b
  | .xor => arithExact .bvxor a b
  | .eq => compareExact (fun x y => x == y) a b
  | .ult => compareExact BvRel.bvult.apply a b
  | .ule => compareExact BvRel.bvule.apply a b
  | .concat => (a.wide a.bits ++ b.wide b.bits).toNat

/-- For constants the result is a word. -/
def StaysConcrete (op : BinaryFold) (a b : Constant) : Prop :=
  match op with
  | .udiv | .urem => b.word ≠ 0
  | .concat => a.bits + b.bits ≤ 64
  | _ => True

end BinaryFold

namespace UnaryFold

def run {BV Formula Model : Type} [Z3Arith BV Formula Model] (checks : Bool) :
    UnaryFold → SymValue BV → Exec (SymValue BV)
  | .neg, v => v.neg
  | .not, v => v.not
  | .zeroExtend newBits, v => return v.zeroExtend newBits
  | .signExtend newBits, v => v.signExtend checks newBits
  | .extract high low, v => return v.extract high low

def width (op : UnaryFold) (c : Constant) : Nat :=
  match op with
  | .neg | .not => c.bits
  | .zeroExtend newBits | .signExtend newBits => max c.bits newBits
  | .extract high low => min high (c.bits - 1) - low + 1

/-- The result as a bitvector of the width. -/
def exact (op : UnaryFold) (c : Constant) : Nat :=
  match op with
  | .neg => (BvUnary.bvneg.apply (c.wide c.bits)).toNat
  | .not => (BvUnary.bvnot.apply (c.wide c.bits)).toNat
  | .zeroExtend newBits => ((c.wide c.bits).setWidth (max c.bits newBits)).toNat
  | .signExtend newBits => ((c.wide c.bits).signExtend (max c.bits newBits)).toNat
  | .extract high low => ((c.wide c.bits).extractLsb (min high (c.bits - 1)) low).toNat

/-- The operation takes some bits of its operand. -/
def InRange (op : UnaryFold) (c : Constant) : Prop :=
  match op with
  | .extract high low => low ≤ high ∧ low < c.bits
  | _ => True

/-- For constants the result is a word. -/
def StaysConcrete (op : UnaryFold) (c : Constant) : Prop :=
  match op with
  | .extract high _ => op.InRange c ∧ min high (c.bits - 1) < 64
  | _ => True

/-- The operation shifts a word by 64 bits or more. -/
def OverShifts (op : UnaryFold) (c : Constant) : Prop :=
  match op with
  | .signExtend newBits => c.bits < newBits ∧ 64 < c.bits
  | _ => False

end UnaryFold

namespace Fold

variable {V W : Type}

def map (f : V → W) : Fold V → Fold W
  | .binary op a b => .binary op (f a) (f b)
  | .unary op v => .unary op (f v)

def operands : Fold V → List V
  | .binary _ a b => [a, b]
  | .unary _ v => [v]

def run {BV Formula Model : Type} [Z3Arith BV Formula Model] (checks : Bool) :
    Fold (SymValue BV) → Exec (SymValue BV)
  | .binary op a b => op.run a b
  | .unary op v => op.run checks v

def width : Fold Constant → Nat
  | .binary op a b => op.width a b
  | .unary op c => op.width c

def exact : Fold Constant → Nat
  | .binary op a b => op.exact a b
  | .unary op c => op.exact c

def InRange : Fold Constant → Prop
  | .binary _ _ _ => True
  | .unary op c => op.InRange c

def StaysConcrete : Fold Constant → Prop
  | .binary op a b => op.StaysConcrete a b
  | .unary op c => op.StaysConcrete c

def OverShifts : Fold Constant → Prop
  | .binary _ _ _ => False
  | .unary op c => op.OverShifts c

end Fold

/-! ## Words -/

theorem toNat_masked (value : Word) (bits : Nat) :
    (value &&& SymValue.lowMask bits).toNat = value.toNat % 2 ^ bits := by
  by_cases small : bits ≤ 64
  · exact toNat_and_lowMask value small
  · have bound : value.toNat < 2 ^ bits :=
      lt_of_lt_of_le value.isLt (Nat.pow_le_pow_right (by decide) (by omega))
    rw [SymValue.lowMask, if_pos (by omega), BitVec.and_allOnes, Nat.mod_eq_of_lt bound]

/-- The low bits of the result depend on those of the operands only. -/
def BvOp.Truncates (op : BvOp) : Prop :=
  ∀ {w i : Nat} (_ : i ≤ w) (x y : BitVec w),
    (op.apply x y).setWidth i = op.apply (x.setWidth i) (y.setWidth i)

private theorem truncates_add : BvOp.bvadd.Truncates := fun le x y => BitVec.setWidth_add x y le

private theorem truncates_mul : BvOp.bvmul.Truncates := fun le x y => BitVec.setWidth_mul x y le

private theorem truncates_sub : BvOp.bvsub.Truncates := fun le x y => by
  simp only [BvOp.apply, BitVec.sub_eq_add_neg, BitVec.setWidth_add _ _ le,
    BitVec.setWidth_neg_of_le le]

theorem toNat_masked_of_setWidth {value : Word} {w : Nat} {result : BitVec w}
    (same : value.setWidth (min 64 w) = result.setWidth (min 64 w)) :
    (value &&& SymValue.lowMask w).toNat = result.toNat % 2 ^ 64 := by
  have low := congrArg BitVec.toNat same
  rw [BitVec.toNat_setWidth, BitVec.toNat_setWidth] at low
  calc (value &&& SymValue.lowMask w).toNat
      = value.toNat % 2 ^ 64 % 2 ^ w := by rw [toNat_masked, Nat.mod_eq_of_lt value.isLt]
    _ = value.toNat % 2 ^ min 64 w := mod_pow_mod_pow _ _ _
    _ = result.toNat % 2 ^ min 64 w := low
    _ = result.toNat % 2 ^ 64 := by
        rw [min_comm, ← mod_pow_mod_pow, Nat.mod_eq_of_lt result.isLt]

/-- The masked result of an operation on words is its result at any width, modulo
two to the 64. -/
theorem toNat_masked_apply {op : BvOp} (truncates : op.Truncates) (x y : Word) (w : Nat) :
    (op.apply x y &&& SymValue.lowMask w).toNat =
      (op.apply (x.setWidth w) (y.setWidth w)).toNat % 2 ^ 64 := by
  apply toNat_masked_of_setWidth
  rw [truncates (min_le_left 64 w), truncates (min_le_right 64 w),
    BitVec.setWidth_setWidth_of_le _ (min_le_right 64 w),
    BitVec.setWidth_setWidth_of_le _ (min_le_right 64 w)]

theorem fits_of_lt {c : Constant} {width : Nat} (wider : c.bits ≤ width) :
    c.word.toNat < 2 ^ width :=
  lt_of_lt_of_le c.fits (Nat.pow_le_pow_right (by decide) wider)

theorem mod_word_of_le {n bound : Nat} (le : n ≤ bound) (word : bound < 2 ^ 64) :
    n % 2 ^ 64 = n := Nat.mod_eq_of_lt (lt_of_le_of_lt le word)

/-! ## Constants -/

section Words

variable {BV Formula Model : Type} [Z3Arith BV Formula Model]

/-- On constants the operation gives a constant, which holds the exact result modulo
two to the 64. -/
def HoldsLow (run : Exec (SymValue BV)) (width exact : Nat) : Prop :=
  ∀ n, ∃ word taint, run n = .ok (.concrete word width taint, n) ∧ word.toNat = exact % 2 ^ 64

/-- On constants a binary operation gives its exact result. -/
theorem binary_holdsLow (op : BinaryFold) (a b : Constant) (stays : op.StaysConcrete a b) :
    HoldsLow (op.run (a.concrete : SymValue BV) b.concrete) (op.width a b) (op.exact a b) := by
  have wideA : (a.wide (max a.bits b.bits)).toNat = a.word.toNat := a.toNat_wide (le_max_left _ _)
  have wideB : (b.wide (max a.bits b.bits)).toNat = b.word.toNat := b.toNat_wide (le_max_right _ _)
  have equal : (a.word == b.word) =
      (a.wide (max a.bits b.bits) == b.wide (max a.bits b.bits)) := by
    rw [Bool.eq_iff_iff, beq_iff_eq, beq_iff_eq, ← BitVec.toNat_inj, ← BitVec.toNat_inj, wideA,
      wideB]
  intro n
  cases op with
  | add => exact ⟨_, _, rfl, toNat_masked_apply truncates_add a.word b.word _⟩
  | sub => exact ⟨_, _, rfl, toNat_masked_apply truncates_sub a.word b.word _⟩
  | mul => exact ⟨_, _, rfl, toNat_masked_apply truncates_mul a.word b.word _⟩
  | udiv =>
    have nonzero : b.word ≠ 0 := stays
    have wideNonzero : b.wide (max a.bits b.bits) ≠ 0 := by
      intro zero
      rw [zero, BitVec.ofNat_eq_ofNat, BitVec.toNat_ofNat, Nat.zero_mod] at wideB
      exact nonzero (BitVec.eq_of_toNat_eq wideB.symm)
    refine ⟨a.word / b.word, a.taint ||| b.taint, ?_, ?_⟩
    · show ok ((SymValue.udiv (.concrete a.word a.bits a.taint) (.concrete b.word b.bits b.taint) :
        Fresh (SymValue BV)) n) = _
      simp only [SymValue.udiv, SymValue.combine, if_neg nonzero]
      rfl
    · have quotient : BinaryFold.exact .udiv a b = a.word.toNat / b.word.toNat := by
        rw [BinaryFold.exact, BinaryFold.arithExact, BvOp.apply, BitVec.smtUDiv, if_neg wideNonzero]
        show (a.wide _ / b.wide _).toNat = _
        rw [BitVec.toNat_udiv, wideA, wideB]
      rw [quotient, mod_word_of_le (Nat.div_le_self _ _) a.word.isLt, BitVec.toNat_udiv]
  | urem =>
    have nonzero : b.word ≠ 0 := stays
    refine ⟨a.word % b.word, a.taint ||| b.taint, ?_, ?_⟩
    · show ok ((SymValue.urem (.concrete a.word a.bits a.taint) (.concrete b.word b.bits b.taint) :
        Fresh (SymValue BV)) n) = _
      simp only [SymValue.urem, SymValue.combine, if_neg nonzero]
      rfl
    · have remainder : BinaryFold.exact .urem a b = a.word.toNat % b.word.toNat := by
        show (a.wide _ % b.wide _).toNat = _
        rw [BitVec.toNat_umod, wideA, wideB]
      rw [remainder, mod_word_of_le (Nat.mod_le _ _) a.word.isLt, BitVec.toNat_umod]
  | and =>
    refine ⟨_, _, rfl, ?_⟩
    show (a.word &&& b.word).toNat = (a.wide _ &&& b.wide _).toNat % 2 ^ 64
    rw [BitVec.toNat_and, BitVec.toNat_and, wideA, wideB, ← BitVec.toNat_and,
      Nat.mod_eq_of_lt (BitVec.isLt _)]
  | or =>
    refine ⟨_, _, rfl, ?_⟩
    show (a.word ||| b.word).toNat = (a.wide _ ||| b.wide _).toNat % 2 ^ 64
    rw [BitVec.toNat_or, BitVec.toNat_or, wideA, wideB, ← BitVec.toNat_or,
      Nat.mod_eq_of_lt (BitVec.isLt _)]
  | xor =>
    refine ⟨_, _, rfl, ?_⟩
    show (a.word ^^^ b.word).toNat = (a.wide _ ^^^ b.wide _).toNat % 2 ^ 64
    rw [BitVec.toNat_xor, BitVec.toNat_xor, wideA, wideB, ← BitVec.toNat_xor,
      Nat.mod_eq_of_lt (BitVec.isLt _)]
  | eq =>
    refine ⟨ofBool (a.word == b.word), _, rfl, ?_⟩
    show _ = (ofBool (a.wide _ == b.wide _)).toNat % 2 ^ 64
    rw [← equal, Nat.mod_eq_of_lt (BitVec.isLt _)]
  | ult =>
    refine ⟨ofBool (a.word.ult b.word), _, rfl, ?_⟩
    show _ = (ofBool ((a.wide _).ult (b.wide _))).toNat % 2 ^ 64
    rw [BitVec.ult, BitVec.ult, wideA, wideB, Nat.mod_eq_of_lt (BitVec.isLt _)]
  | ule =>
    refine ⟨ofBool (a.word.ule b.word), _, rfl, ?_⟩
    show _ = (ofBool ((a.wide _).ule (b.wide _))).toNat % 2 ^ 64
    rw [BitVec.ule, BitVec.ule, wideA, wideB, Nat.mod_eq_of_lt (BitVec.isLt _)]
  | concat =>
    have narrow : a.bits + b.bits ≤ 64 := stays
    have inner : a.word.toNat * 2 ^ b.bits < 2 ^ 64 := by
      calc a.word.toNat * 2 ^ b.bits < 2 ^ a.bits * 2 ^ b.bits :=
            Nat.mul_lt_mul_of_pos_right a.fits (Nat.two_pow_pos _)
        _ = 2 ^ (a.bits + b.bits) := (Nat.pow_add _ _ _).symm
        _ ≤ 2 ^ 64 := Nat.pow_le_pow_right (by decide) narrow
    refine ⟨(a.word <<< b.bits) ||| b.word, a.taint ||| b.taint, ?_, ?_⟩
    · have decided : decide ((SymValue.concrete a.word a.bits a.taint : SymValue BV).bits +
          (SymValue.concrete b.word b.bits b.taint : SymValue BV).bits ≤ 64) = true :=
        decide_eq_true narrow
      show ok ((SymValue.concat (.concrete a.word a.bits a.taint)
        (.concrete b.word b.bits b.taint) : Fresh (SymValue BV)) n) = _
      simp only [SymValue.concat, decided]
      rfl
    · show _ = (a.wide a.bits ++ b.wide b.bits).toNat % 2 ^ 64
      have joined : (a.wide a.bits ++ b.wide b.bits).toNat =
          ((a.word <<< b.bits) ||| b.word).toNat := by
        rw [BitVec.toNat_append, BitVec.toNat_or, BitVec.toNat_shiftLeft,
          a.toNat_wide (Nat.le_refl _), b.toNat_wide (Nat.le_refl _), Nat.shiftLeft_eq,
          Nat.mod_eq_of_lt inner]
      rw [joined, Nat.mod_eq_of_lt (BitVec.isLt _)]

private theorem signExtendWord_wide {x : Word} {bits newBits : Nat} (wide : 64 < bits)
    (wider : bits < newBits) (n : Nat) :
    SymValue.signExtendWord false x bits newBits n = .ok (x, n) := by
  have low : x &&& SymValue.lowMask bits = x := by
    rw [SymValue.lowMask, if_pos (by omega), BitVec.and_allOnes]
  simp only [SymValue.signExtendWord, low, if_neg (by omega : ¬ bits = 0),
    if_pos (by omega : 64 ≤ bits), Bool.false_eq_true, false_and, if_false]
  by_cases negative : (x >>> ((bits - 1) % 64)) &&& 1 = 1
  · have full : 64 ≤ newBits := by omega
    rw [if_pos negative, if_pos full]
    simp only [BitVec.ofNat_eq_ofNat, BitVec.or_zero]
    rfl
  · rw [if_neg negative]
    rfl

theorem extract_clamped {v : SymValue BV} {high low : Nat} (sorted : v.WellSorted)
    (ordered : low ≤ high) (inside : low < v.bits) :
    v.extract high low = v.extract (min high (v.bits - 1)) low := by
  have positive : max v.bits 1 = v.bits := max_eq_left sorted.one_le_bits
  have idempotent : min (min high (v.bits - 1)) (v.bits - 1) = min high (v.bits - 1) := by omega
  unfold SymValue.extract
  simp only [positive, idempotent]
  rw [if_neg (by omega), if_neg (by omega : ¬ (min high (v.bits - 1) < low ∨ v.bits ≤ low))]

theorem toNat_extractLsb (c : Constant) (high low : Nat) :
    ((c.wide c.bits).extractLsb high low).toNat =
      c.word.toNat / 2 ^ low % 2 ^ (high - low + 1) := by
  rw [BitVec.extractLsb_toNat, c.toNat_wide (Nat.le_refl _), Nat.shiftRight_eq_div_pow]

/-- On constants a unary operation gives its exact result. -/
theorem unary_holdsLow {checks : Bool} (op : UnaryFold) (c : Constant)
    (stays : op.StaysConcrete c) (noPanic : ¬ (checks = true ∧ op.OverShifts c)) :
    HoldsLow (op.run checks (c.concrete : SymValue BV)) (op.width c) (op.exact c) := by
  have self : (c.wide c.bits).toNat = c.word.toNat := c.toNat_wide (Nat.le_refl _)
  intro n
  cases op with
  | neg =>
    refine ⟨(~~~c.word + 1) &&& SymValue.lowMask c.bits, c.taint, rfl, ?_⟩
    have negated : ~~~c.word + 1 = -c.word := (BitVec.neg_eq_not_add c.word).symm
    rw [negated]
    apply toNat_masked_of_setWidth
    show _ = (-c.wide c.bits).setWidth _
    rw [BitVec.setWidth_neg_of_le (min_le_left _ _), BitVec.setWidth_neg_of_le (min_le_right _ _),
      Constant.wide, BitVec.setWidth_setWidth_of_le _ (min_le_right _ _)]
  | not =>
    refine ⟨~~~c.word &&& SymValue.lowMask c.bits, c.taint, rfl, ?_⟩
    apply toNat_masked_of_setWidth
    show _ = (~~~c.wide c.bits).setWidth _
    rw [BitVec.setWidth_not (min_le_left _ _), BitVec.setWidth_not (min_le_right _ _),
      Constant.wide, BitVec.setWidth_setWidth_of_le _ (min_le_right _ _)]
  | zeroExtend newBits =>
    refine ⟨c.word, c.taint, ?_, ?_⟩
    · show ok ((c.concrete : SymValue BV).zeroExtend newBits, n) = _
      unfold SymValue.zeroExtend
      split
      · rename_i narrow
        have narrow : newBits ≤ c.bits := narrow
        rw [UnaryFold.width, max_eq_left narrow, Constant.concrete]
      · rename_i wide
        have wide : ¬ newBits ≤ c.bits := wide
        rw [UnaryFold.width, max_eq_right (Nat.le_of_not_le wide)]
        rfl
    · rw [UnaryFold.exact, BitVec.toNat_setWidth, self,
        Nat.mod_eq_of_lt (fits_of_lt (le_max_left _ _)), Nat.mod_eq_of_lt c.word.isLt]
  | signExtend newBits =>
    by_cases narrow : newBits ≤ c.bits
    · refine ⟨c.word, c.taint, ?_, ?_⟩
      · have shorter : newBits ≤ (c.concrete : SymValue BV).bits := narrow
        show SymValue.signExtend checks (c.concrete : SymValue BV) newBits n = _
        simp only [SymValue.signExtend, if_pos shorter, UnaryFold.width, max_eq_left narrow]
        rfl
      · rw [UnaryFold.exact, max_eq_left narrow, BitVec.signExtend_eq, self,
          Nat.mod_eq_of_lt c.word.isLt]
    · have wider : c.bits < newBits := Nat.lt_of_not_le narrow
      have widest : max c.bits newBits = newBits := max_eq_right (Nat.le_of_lt wider)
      have longer : ¬ newBits ≤ (c.concrete : SymValue BV).bits := narrow
      have steps : ∀ word, SymValue.signExtendWord checks c.word c.bits newBits n =
          .ok (word, n) → UnaryFold.run checks (.signExtend newBits)
            (c.concrete : SymValue BV) n = .ok (.concrete word newBits c.taint, n) := by
        intro word computes
        show SymValue.signExtend checks (c.concrete : SymValue BV) newBits n = _
        simp only [SymValue.signExtend, if_neg longer]
        simp only [Constant.concrete, StateT.bind, bind, bind, computes]
        rfl
      rw [UnaryFold.width, UnaryFold.exact, widest]
      by_cases small : c.bits ≤ 64
      · refine ⟨_, c.taint, steps _ (signExtendWord_spec checks c.positive wider small
          c.fits n), ?_⟩
        rw [BitVec.toNat_setWidth, Constant.wide]
      · have unchecked : checks = false := by
          cases checks
          · rfl
          · exact absurd ⟨rfl, wider, Nat.lt_of_not_le small⟩ noPanic
        subst unchecked
        refine ⟨c.word, c.taint, steps _ (signExtendWord_wide (by omega) wider n), ?_⟩
        have large : 2 * 2 ^ 64 ≤ 2 ^ c.bits := by
          calc 2 * 2 ^ 64 = 2 ^ 65 := by decide
            _ ≤ 2 ^ c.bits := Nat.pow_le_pow_right (by decide) (by omega)
        have nonnegative : (c.wide c.bits).msb = false := by
          rw [BitVec.msb_eq_false_iff_two_mul_lt, self]
          have := c.word.isLt
          omega
        rw [BitVec.signExtend_eq_setWidth_of_msb_false nonnegative, BitVec.toNat_setWidth, self,
          Nat.mod_eq_of_lt (fits_of_lt (Nat.le_of_lt wider)), Nat.mod_eq_of_lt c.word.isLt]
  | extract high low =>
    obtain ⟨⟨ordered, inside⟩, short⟩ := stays
    have sorted : (c.concrete : SymValue BV).WellSorted := c.concrete_wellSorted
    have inside' : low < (c.concrete : SymValue BV).bits := inside
    have clamped : min high (c.bits - 1) < c.bits := by omega
    refine ⟨(c.word >>> low) &&& SymValue.lowMask (min high (c.bits - 1) - low + 1), c.taint,
      ?_, ?_⟩
    · show ok ((c.concrete : SymValue BV).extract high low, n) = _
      rw [extract_clamped sorted ordered inside']
      show ok ((c.concrete : SymValue BV).extract (min high (c.bits - 1)) low, n) = _
      rw [SymValue.extract_eq (by omega) clamped]
      simp only [Constant.concrete]
      rw [if_neg (by omega)]
      rfl
    · rw [UnaryFold.exact, toNat_extractLsb,
        SymValue.toNat_shift_and_lowMask _ (by omega : min high (c.bits - 1) - low + 1 ≤ 64)]
      have bound : c.word.toNat / 2 ^ low % 2 ^ (min high (c.bits - 1) - low + 1) ≤
          c.word.toNat := (Nat.mod_le _ _).trans (Nat.div_le_self _ _)
      rw [mod_word_of_le bound c.word.isLt]

/-! ## Terms -/

/-- On terms of constants the operation gives a term, which has the exact result in
every model. -/
def TermIs (run : Exec (SymValue BV)) (width exact : Nat) : Prop :=
  ∀ n, ∃ t taint n', run n = .ok (.symbolic t width taint, n') ∧ ∀ m : Model, Z3.value m t = exact

theorem ofNat_value_term (c : Constant) (m : Model) (n width : Nat) :
    BitVec.ofNat width (Z3.value m ((c.term : SymValue BV).toBv n)) = c.wide width := by
  rw [c.value_term, BitVec.ofNat_toNat, Constant.wide]

theorem combineTerm_termIs (op : BvOp) (a b : Constant) :
    TermIs (liftM (SymValue.combineTerm op a.term b.term) : Exec (SymValue BV))
      (max a.bits b.bits) (BinaryFold.arithExact op a b) := by
  intro n
  obtain ⟨t, computes, -, values⟩ := SymValue.combineTerm_spec (a := (a.term : SymValue BV))
    op a.term_wellSorted b.term_wellSorted n
  refine ⟨t, _, n + 2, congrArg ok computes, fun m => ?_⟩
  rw [values m, ofNat_value_term, ofNat_value_term]
  rfl

theorem compareTerm_termIs {term : BV → BV → Formula}
    (rel : {w : Nat} → BitVec w → BitVec w → Bool)
    (means : ∀ (m : Model) (s t : BV) (w : Nat), Z3.size s = w → Z3.size t = w →
      (Z3.holds BV m (term s t) ↔ rel (Z3.word w m s) (Z3.word w m t) = true))
    (a b : Constant) :
    TermIs (liftM (SymValue.compareTerm term a.term b.term) : Exec (SymValue BV)) 1
      (BinaryFold.compareExact rel a b) := by
  classical
  intro n
  obtain ⟨s, t, computes, sizeS, sizeT, values⟩ := SymValue.compareTerm_spec term
    a.term_wellSorted b.term_wellSorted n
  refine ⟨_, _, n + 2, congrArg ok computes, fun m => ?_⟩
  have outcome : decide (Z3.holds BV m (term s t)) =
      rel (a.wide (max a.bits b.bits)) (b.wide _) := by
    have meaning := means m s t _ sizeS sizeT
    rw [Z3.word, Z3.word, (values m).1, (values m).2] at meaning
    rw [Bool.eq_iff_iff, decide_eq_true_eq, meaning, ofNat_value_term, ofNat_value_term]
    rfl
  rw [SymValue.value_flag, outcome]
  rfl

/-- On terms a binary operation denotes its exact result. -/
theorem binary_termIs (op : BinaryFold) (a b : Constant) :
    TermIs (op.run (a.term : SymValue BV) b.term) (op.width a b) (op.exact a b) := by
  cases op with
  | add => exact combineTerm_termIs .bvadd a b
  | sub => exact combineTerm_termIs .bvsub a b
  | mul => exact combineTerm_termIs .bvmul a b
  | udiv => exact combineTerm_termIs .bvudiv a b
  | urem => exact combineTerm_termIs .bvurem a b
  | and => exact combineTerm_termIs .bvand a b
  | or => exact combineTerm_termIs .bvor a b
  | xor => exact combineTerm_termIs .bvxor a b
  | eq =>
    refine compareTerm_termIs (fun x y => x == y) (fun m s t w sizeS sizeT => ?_) a b
    have below := Z3.value_lt m s
    have below' := Z3.value_lt m t
    rw [sizeS] at below
    rw [sizeT] at below'
    rw [Z3.holds_eq m s t (sizeS.trans sizeT.symm), beq_iff_eq, ← BitVec.toNat_inj, Z3.word,
      Z3.word, BitVec.toNat_ofNat, BitVec.toNat_ofNat, Nat.mod_eq_of_lt below,
      Nat.mod_eq_of_lt below']
  | ult => exact compareTerm_termIs BvRel.bvult.apply (fun m => Z3Arith.holds_compare m .bvult) a b
  | ule => exact compareTerm_termIs BvRel.bvule.apply (fun m => Z3Arith.holds_compare m .bvule) a b
  | concat =>
    intro n
    have total : SymValue.normalizeBvBits (a.bits + b.bits) = a.bits + b.bits :=
      max_eq_left (Nat.le_add_right_of_le a.positive)
    refine ⟨Z3Arith.concat (Z3.fromU64 a.word a.bits) (Z3.fromU64 b.word b.bits),
      a.taint ||| b.taint, n + 2, ?_, fun m => ?_⟩
    · rw [BinaryFold.width, ← total]
      rfl
    · have below : (b.wide b.bits).toNat < 2 ^ b.bits := BitVec.isLt _
      rw [Z3Arith.value_concat, Z3.value_fromU64, Z3.value_fromU64, Z3.size_fromU64,
        Nat.mod_eq_of_lt a.fits, Nat.mod_eq_of_lt b.fits, BinaryFold.exact, BitVec.toNat_append,
        ← Nat.shiftLeft_add_eq_or_of_lt below, Nat.shiftLeft_eq, a.toNat_wide (Nat.le_refl _),
        b.toNat_wide (Nat.le_refl _)]

theorem transform_termIs (op : BvUnary) (fold : Word → Word) (c : Constant) :
    TermIs (liftM (SymValue.transform op fold c.term) : Exec (SymValue BV)) c.bits
      (op.apply (c.wide c.bits)).toNat := by
  intro n
  obtain ⟨t, computes, -, values⟩ := SymValue.transform_term (v := (c.term : SymValue BV)) op fold rfl
    c.term_wellSorted n
  refine ⟨t, _, n + 1, congrArg ok computes, fun m => ?_⟩
  rw [values m, ofNat_value_term]
  rfl

/-- On terms a unary operation denotes its exact result. -/
theorem unary_termIs (checks : Bool) (op : UnaryFold) (c : Constant)
    (inRange : op.InRange c) :
    TermIs (op.run checks (c.term : SymValue BV)) (op.width c) (op.exact c) := by
  have self : (c.wide c.bits).toNat = c.word.toNat := c.toNat_wide (Nat.le_refl _)
  have value : ∀ m : Model, Z3.value m (Z3.fromU64 c.word c.bits : BV) = c.word.toNat := fun m =>
    c.value_term m 0
  have word : ∀ m : Model, Z3.word c.bits m (Z3.fromU64 c.word c.bits : BV) = c.wide c.bits :=
    fun m => @ofNat_value_term BV Formula Model _ c m 0 c.bits
  cases op with
  | neg => exact transform_termIs .bvneg _ c
  | not => exact transform_termIs .bvnot _ c
  | zeroExtend newBits =>
    have exact : UnaryFold.exact (.zeroExtend newBits) c = c.word.toNat := by
      rw [UnaryFold.exact, BitVec.toNat_setWidth, self,
        Nat.mod_eq_of_lt (fits_of_lt (le_max_left _ _))]
    intro n
    rw [exact]
    by_cases narrow : newBits ≤ c.bits
    · refine ⟨_, c.taint, n, ?_, value⟩
      have shorter : newBits ≤ (c.term : SymValue BV).bits := narrow
      rw [UnaryFold.width, max_eq_left narrow]
      show ok ((c.term : SymValue BV).zeroExtend newBits, n) = _
      simp only [SymValue.zeroExtend, if_pos shorter]
      rfl
    · refine ⟨Z3.zeroExt (Z3.fromU64 c.word c.bits) (newBits - c.bits), c.taint, n, ?_,
        fun m => by rw [Z3.value_zeroExt, value]⟩
      have longer : ¬ newBits ≤ (c.term : SymValue BV).bits := narrow
      rw [UnaryFold.width, max_eq_right (Nat.le_of_not_le narrow)]
      show ok ((c.term : SymValue BV).zeroExtend newBits, n) = _
      simp only [SymValue.zeroExtend, if_neg longer]
      rfl
  | signExtend newBits =>
    intro n
    by_cases narrow : newBits ≤ c.bits
    · refine ⟨Z3.fromU64 c.word c.bits, c.taint, n, ?_, fun m => ?_⟩
      · have shorter : newBits ≤ (c.term : SymValue BV).bits := narrow
        show SymValue.signExtend checks (c.term : SymValue BV) newBits n = _
        simp only [SymValue.signExtend, if_pos shorter, UnaryFold.width, max_eq_left narrow]
        rfl
      · rw [value, UnaryFold.exact, max_eq_left narrow, BitVec.signExtend_eq, self]
    · have wider : c.bits ≤ newBits := Nat.le_of_not_le narrow
      refine ⟨Z3Arith.signExt (Z3.fromU64 c.word c.bits) (newBits - c.bits), c.taint, n, ?_,
        fun m => ?_⟩
      · have longer : ¬ newBits ≤ (c.term : SymValue BV).bits := narrow
        rw [UnaryFold.width, max_eq_right wider]
        show SymValue.signExtend checks (c.term : SymValue BV) newBits n = _
        simp only [SymValue.signExtend, if_neg longer]
        rfl
      · rw [Z3Arith.value_signExt, Z3.size_fromU64, word, UnaryFold.exact, max_eq_right wider,
          Nat.add_sub_cancel' wider]
  | extract high low =>
    obtain ⟨ordered, inside⟩ := inRange
    have clamped : min high (c.bits - 1) < c.bits := by omega
    have covered : min high (c.bits - 1) < Z3.size (Z3.fromU64 c.word c.bits : BV) := by
      rw [Z3.size_fromU64]
      exact clamped
    intro n
    refine ⟨Z3.extract (Z3.fromU64 c.word c.bits) (min high (c.bits - 1)) low, c.taint, n, ?_,
      fun m => ?_⟩
    · show ok ((c.term : SymValue BV).extract high low, n) = _
      rw [extract_clamped c.term_wellSorted ordered inside]
      show ok ((c.term : SymValue BV).extract (min high (c.bits - 1)) low, n) = _
      rw [SymValue.extract_eq (by omega) clamped]
      rfl
    · rw [Z3.value_extract m _ _ _ (by omega) covered, value, UnaryFold.exact, toNat_extractLsb]

/-! ## Agreement -/

/-- The word path gives the exact result as a constant that fits its width; the bitvector
path gives a value of that width with that result in every model. -/
structure Agrees (op : Fold Constant) (v v' : SymValue BV) : Prop where
  known : ∃ word taint, v = .concrete word op.width taint ∧ word.toNat = op.exact
  fits : op.exact < 2 ^ op.width
  bits : v'.bits = op.width
  denote : ∀ m : Model, v'.denote m = some op.exact

end Words

/-- The divisor of a division is not zero. -/
def Fold.NonzeroDivisor : Fold Constant → Prop
  | .binary .udiv _ b | .binary .urem _ b => b.word ≠ 0
  | _ => True

theorem BinaryFold.exact_lt (op : BinaryFold) (a b : Constant) :
    op.exact a b < 2 ^ op.width a b := by
  have flag : ∀ c : Bool, (ofBool c).toNat < 2 ^ 1 := by decide
  cases op <;> first | exact BitVec.isLt _ | exact flag _

theorem UnaryFold.exact_lt (op : UnaryFold) (c : Constant) : op.exact c < 2 ^ op.width c := by
  cases op <;> exact BitVec.isLt _

/-- For constants of at most 64 bits, an operation computed on words gives what its
term means: the exact result, within the width. An extraction of bits that its operand does
not have is one unknown bit on both paths. -/
theorem fold_agrees {BV Formula Model : Type} [Z3Arith BV Formula Model] (checks : Bool)
    (op : Fold Constant) (narrow : ∀ c ∈ op.operands, c.bits ≤ 64) (narrowResult : op.width ≤ 64)
    (nonzero : op.NonzeroDivisor) (n : Nat) :
    ∃ (v v' : SymValue BV) (n' n'' : Nat),
      (op.map Constant.concrete).run checks n = .ok (v, n') ∧
      (op.map Constant.term).run checks n = .ok (v', n'') ∧ (op.InRange → Agrees op v v') ∧
      (¬ op.InRange → ∃ taint, v = .unknown 1 taint ∧ v' = .unknown 1 taint) := by
  have agrees : ∀ {run run' : Exec (SymValue BV)}, op.InRange → op.exact < 2 ^ op.width →
      HoldsLow run op.width op.exact → TermIs run' op.width op.exact →
      ∃ (v v' : SymValue BV) (n' n'' : Nat), run n = .ok (v, n') ∧ run' n = .ok (v', n'') ∧
        (op.InRange → Agrees op v v') ∧
        (¬ op.InRange → ∃ taint, v = .unknown 1 taint ∧ v' = .unknown 1 taint) := by
    intro run run' inRange below low isTerm
    obtain ⟨word, taint, ran, holds⟩ := low n
    obtain ⟨t, taint', n'', ran', value⟩ := isTerm n
    have inWord : op.exact < 2 ^ 64 :=
      lt_of_lt_of_le below (Nat.pow_le_pow_right (by decide) narrowResult)
    rw [Nat.mod_eq_of_lt inWord] at holds
    refine ⟨_, _, n, n'', ran, ran', fun _ => ⟨⟨word, taint, rfl, holds⟩, below, rfl, fun m => ?_⟩,
      absurd inRange⟩
    rw [SymValue.denote, value m]
  cases op with
  | binary op a b =>
    have stays : op.StaysConcrete a b := by
      cases op with
      | udiv | urem => exact nonzero
      | concat => exact narrowResult
      | _ => trivial
    exact agrees trivial (op.exact_lt a b) (binary_holdsLow op a b stays) (binary_termIs op a b)
  | unary op c =>
    have small : c.bits ≤ 64 := narrow c (List.mem_singleton.mpr rfl)
    have noPanic : ¬ (checks = true ∧ op.OverShifts c) := by
      rintro ⟨-, shifts⟩
      cases op with
      | signExtend newBits => exact absurd shifts.2 (Nat.not_lt.mpr small)
      | _ => exact shifts
    by_cases inRange : op.InRange c
    · have stays : op.StaysConcrete c := by
        cases op with
        | extract high low => exact ⟨inRange, by have := c.positive; omega⟩
        | _ => trivial
      exact agrees inRange (op.exact_lt c) (unary_holdsLow op c stays noPanic)
        (unary_termIs checks op c inRange)
    · -- Only an extraction can be out of range; both paths then give one unknown bit.
      cases op with
      | extract high low =>
        have positive : max c.bits 1 = c.bits := max_eq_left c.positive
        have outside : high < low ∨ c.bits ≤ low := by
          by_contra inside
          exact inRange ⟨by omega, by omega⟩
        have unknown : ∀ v : SymValue BV, v.bits = c.bits →
            v.extract high low = .unknown 1 v.getTaint := by
          intro v bits
          simp only [SymValue.extract, bits, positive]
          rw [if_pos outside]
        refine ⟨.unknown 1 c.taint, .unknown 1 c.taint, n, n, ?_, ?_,
          fun inside => absurd inside inRange, fun _ => ⟨c.taint, rfl, rfl⟩⟩
        · exact congrArg (fun v => ok (v, n)) (unknown c.concrete rfl)
        · exact congrArg (fun v => ok (v, n)) (unknown c.term rfl)
      | neg | not | zeroExtend | signExtend => exact absurd trivial inRange

/-- A negative byte extended to 32 bits. -/
def minusOneByte : Constant := ⟨255, 8, 0, by decide, by decide⟩

theorem fold_agrees_signExtend : ∃ (v v' : SymValue Term) (n' n'' : Nat),
    ((Fold.unary (.signExtend 32) minusOneByte).map Constant.concrete).run true 0 = .ok (v, n') ∧
    ((Fold.unary (.signExtend 32) minusOneByte).map Constant.term).run true 0 = .ok (v', n'') ∧
    (∃ taint, v = .concrete 0xFFFFFFFF 32 taint) ∧ v'.bits = 32 ∧
      ∀ m : Assignment, v'.denote m = some 0xFFFFFFFF := by
  obtain ⟨v, v', n', n'', ran, ran', agrees, -⟩ :=
    @fold_agrees Term _ Assignment _ true (.unary (.signExtend 32) minusOneByte)
      (fun c isOperand => by
        obtain rfl := List.mem_singleton.mp isOperand
        decide)
      (by decide) trivial 0
  obtain ⟨⟨word, taint, isValue, exact⟩, -, bits, denote⟩ := agrees trivial
  have isWord : word = 0xFFFFFFFF := BitVec.eq_of_toNat_eq exact
  exact ⟨v, v', n', n'', ran, ran', ⟨taint, isWord ▸ isValue⟩, bits, denote⟩

end R2Sleigh.Sym
