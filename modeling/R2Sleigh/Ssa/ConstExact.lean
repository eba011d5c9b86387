import Mathlib.Data.Int.ModEq
import R2Sleigh.Il.PcodeValue
import R2Sleigh.Ssa.ConstWords

/-!
Contract: the constant folder against the exact results of P-code.

Owns `pcodeResult` and `FoldsExactly`.
-/

namespace R2Sleigh.Ssa

open Il Lib List Option BitVec Except

variable {raw x : Word} {bits size : Nat} {checks : Bool} {kind : BinaryOp}

/-! ## The reference -/

/-- Integer, boolean, shift, comparison, extension, bit and pointer
operations. -/
def IsIntegerOp : SSAOp → Bool
  | .unary op _ _ => op ∈ ([.IntNegate, .IntNot, .IntZExt, .IntSExt, .BoolNot, .PopCount,
      .Lzcount] : List UnaryOp)
  | .binary op _ _ _ => op ∉ ([.FloatAdd, .FloatSub, .FloatMult, .FloatDiv, .FloatEqual,
      .FloatNotEqual, .FloatLess, .FloatLessEqual] : List BinaryOp)
  | .Piece .. | .Subpiece .. | .PtrAdd .. | .PtrSub .. => true
  | _ => false

/-- The exact result of an operation whose operands are constants. -/
def pcodeResult (consts : VarKey → Option Word) : SSAOp → Option Int
  | .unary op _ src => (constForVar src consts).bind fun x => op.result src.size x.toNat
  | .binary op _ a b => (constForVar a consts).bind fun x => (constForVar b consts).bind fun y =>
    op.result a.size b.size x.toNat y.toNat
  | .Piece _ hi lo => (constForVar hi consts).bind fun x => (constForVar lo consts).bind fun y =>
    some (x.toNat * 2 ^ (lo.size * 8) + y.toNat)
  | .Subpiece _ src offset => (constForVar src consts).bind fun x =>
    some (x.toNat / 2 ^ (offset * 8))
  | .PtrAdd _ base index elementSize => (constForVar base consts).bind fun x =>
    (constForVar index consts).bind fun y => some (x.toNat + y.toNat * elementSize)
  | .PtrSub _ base index elementSize => (constForVar base consts).bind fun x =>
    (constForVar index consts).bind fun y => some (x.toNat - y.toNat * elementSize)
  | _ => none

/-- The constant is the exact result, reduced to the size of the destination. -/
def IsResult (consts : VarKey → Option Word) (op : SSAOp) (c : Word) : Prop :=
  ∃ dst r, op.dst = some dst ∧ pcodeResult consts op = some r ∧
    (c.toNat : Int) = r % 2 ^ (dst.size * 8)

/-! ## Where the folder is exact -/

/-- Signed operands say the same in the size of the destination as in their own
sizes. -/
def signedAlike (dstSize aSize bSize x y : Nat) : BinaryOp → Prop
  | .IntSDiv => (signedValue dstSize x).tdiv (signedValue dstSize y) ≡
      (signedValue aSize x).tdiv (signedValue bSize y) [ZMOD 2 ^ (dstSize * 8)]
  | .IntSRem => (signedValue dstSize x).tmod (signedValue dstSize y) ≡
      (signedValue aSize x).tmod (signedValue bSize y) [ZMOD 2 ^ (dstSize * 8)]
  | .IntSRight => signedValue dstSize x / 2 ^ y ≡
      signedValue aSize x / 2 ^ y [ZMOD 2 ^ (dstSize * 8)]
  | .IntSLess => dstSize = 0 ∨
      (signedValue dstSize x < signedValue dstSize y ↔ signedValue aSize x < signedValue bSize y)
  | .IntSLessEqual => dstSize = 0 ∨
      (signedValue dstSize x ≤ signedValue dstSize y ↔ signedValue aSize x ≤ signedValue bSize y)
  | _ => True

/-- The count of the operand's bits in the size of the destination is the one in
its own size. -/
def countedAlike (dstSize srcSize x : Nat) : UnaryOp → Prop
  | .PopCount => dstSize = 0 ∨ x < 2 ^ (dstSize * 8)
  | .Lzcount => dstSize = 0 ∨
      srcSize * 8 + Nat.size (x % 2 ^ (dstSize * 8)) = dstSize * 8 + Nat.size x
  | _ => True

def FoldsExactly (consts : VarKey → Option Word) : SSAOp → Prop
  | .binary op dst a b => ∀ x y, constForVar a consts = some x → constForVar b consts = some y →
      signedAlike dst.size a.size b.size x.toNat y.toNat op
  | .unary op dst src => ∀ x, constForVar src consts = some x →
      countedAlike dst.size src.size x.toNat op
  | _ => True

/-! ## Words that hold integers -/

/-- The word holds an integer modulo its 64 bits. -/
def Represents (raw : Word) (i : Int) : Prop := (raw.toNat : Int) ≡ i [ZMOD 2 ^ 64]

theorem represents_self (raw : Word) : Represents raw raw.toNat := Int.ModEq.refl _

theorem represents_ofNat (n : Nat) : Represents (BitVec.ofNat 64 n) n := by
  rw [Represents, toNat_ofNat]
  push_cast
  exact Int.mod_modEq _ _

theorem represents_toInt (raw : Word) : Represents raw raw.toInt := by
  rw [Represents, toInt_eq_toNat_cond]
  unfold Int.ModEq
  split <;> omega

private theorem Represents.of_bmod {i : Int} (reads : raw.toInt = i.bmod (2 ^ 64)) :
    Represents raw i := by
  have own := represents_toInt raw
  rw [reads] at own
  exact own.trans Int.bmod_emod

theorem represents_add (x y : Word) : Represents (x + y) (x.toNat + y.toNat) := by
  rw [Represents, toNat_add]
  push_cast
  exact Int.mod_modEq _ _

theorem represents_sub (x y : Word) : Represents (x - y) (x.toNat - y.toNat) := by
  rw [Represents, toNat_sub]
  unfold Int.ModEq
  omega

theorem represents_mul (x y : Word) : Represents (x * y) (x.toNat * y.toNat) := by
  rw [Represents, toNat_mul]
  push_cast
  exact Int.mod_modEq _ _

private theorem represents_neg (x : Word) : Represents (~~~x + 1) (-x.toNat) := by
  have one : (1 : Word).toNat = 1 := rfl
  rw [Represents, toNat_add, toNat_not, one]
  unfold Int.ModEq
  omega

private theorem represents_not (x : Word) : Represents (~~~x) (-x.toNat - 1) := by
  rw [Represents, toNat_not]
  unfold Int.ModEq
  omega

theorem represents_ofBool (b : Bool) : Represents (ofBool b) (truth b) := by
  cases b
  · exact Int.ModEq.refl 0
  · exact Int.ModEq.refl 1

theorem represents_shiftLeft (x : Word) (amount : Nat) :
    Represents (x <<< amount) (x.toNat * 2 ^ amount) := by
  rw [Represents, toNat_shiftLeft, Nat.shiftLeft_eq]
  push_cast
  exact Int.mod_modEq _ _

private theorem Represents.residue_iff {c : Word} {i r : Int} (holds : Represents raw i)
    (small : bits ≤ 64) (masked : c.toNat = raw.toNat % 2 ^ bits) :
    (c.toNat : Int) = r % 2 ^ bits ↔ i ≡ r [ZMOD 2 ^ bits] := by
  have narrow : (raw.toNat : Int) ≡ i [ZMOD 2 ^ bits] := holds.of_dvd (pow_dvd_pow 2 small)
  rw [masked]
  exact ⟨fun same => narrow.symm.trans same, fun same => narrow.trans same⟩

theorem truth_modEq_iff {b b' : Bool} :
    truth b ≡ truth b' [ZMOD 2 ^ (size * 8)] ↔ size = 0 ∨ b = b' := by
  by_cases none : size = 0
  · subst none
    simp [Int.modEq_one]
  · have large : (1 : Int) < 2 ^ (size * 8) := by
      exact_mod_cast Nat.one_lt_two_pow (by omega : size * 8 ≠ 0)
    have unequal : ¬ (0 : Int) ≡ 1 [ZMOD 2 ^ (size * 8)] := by
      rw [Int.ModEq, Int.emod_eq_of_lt (by omega) (by omega), Int.emod_eq_of_lt (by omega) large]
      decide
    have unequal' : ¬ (1 : Int) ≡ 0 [ZMOD 2 ^ (size * 8)] := fun same => unequal same.symm
    cases b <;> cases b' <;> simp [truth, none, unequal, unequal']

private theorem signedValue_toNat (size : Nat) (x : Word) :
    signedValue size x.toNat = (x.setWidth (size * 8)).toInt := by
  rw [signedValue, ofNat_toNat]

theorem toInt_signExtend_size (x : Word) (small : size * 8 ≤ 64) :
    (signExtend x (size * 8)).toInt = signedValue size x.toNat := by
  rw [toInt_signExtend_word x small, signedValue_toNat]

/-! ## The arms of the folder -/

def ExactUnder (raw : Word) (result : Option Int) (bits : Nat) (condition : Prop) : Prop :=
  ∃ i r, Represents raw i ∧ result = some r ∧ (i ≡ r [ZMOD 2 ^ bits] ↔ condition)

theorem exactUnder_of_represents {r : Int} (holds : Represents raw r) :
    ExactUnder raw (some r) bits True :=
  ⟨r, r, holds, rfl, iff_true_intro (Int.ModEq.refl r)⟩

theorem exactUnder_flag {b b' : Bool} (same : b = b') :
    ExactUnder (ofBool b) (some (truth b')) bits True := by
  subst same
  exact exactUnder_of_represents (represents_ofBool b)

theorem beq_zero_eq (word : Word) : (word == 0) = decide (word.toNat = 0) :=
  decide_eq_decide.mpr toNat_inj.symm

theorem bne_zero_eq (word : Word) : (word != 0) = decide (word.toNat ≠ 0) := by
  rw [bne, beq_zero_eq, decide_not]

section Binary

variable {checks : Bool} {size aSize bSize : Nat} {x y raw : Word} (small : size * 8 ≤ 64)
  (folds : evalBinary checks (size * 8) x y kind = .ok (some raw))
include small folds

theorem division_exact (divides : kind ∈ ([.IntDiv, .IntSDiv, .IntRem, .IntSRem] : List BinaryOp)) :
    ExactUnder raw (kind.result aSize bSize x.toNat y.toNat) (size * 8)
      (signedAlike size aSize bSize x.toNat y.toNat kind) := by
  have nonzero := ne_zero_of_folds divides folds
  have nonzero' : y.toNat ≠ 0 := fun zero => nonzero (eq_of_toNat_eq zero)
  simp only [mem_cons, not_mem_nil, or_false] at divides
  rcases divides with rfl | rfl | rfl | rfl
  all_goals simp only [evalBinary, if_neg nonzero] at folds
  all_goals simp only [BinaryOp.result, if_neg nonzero']
  · obtain rfl := some.inj (ok.inj folds)
    have exact := represents_self (x / y)
    exact exactUnder_of_represents exact
  · obtain rfl := signedDivision_some folds
    have quotient := Represents.of_bmod (toInt_sdiv (signExtend x (size * 8))
      (signExtend y (size * 8)))
    rw [toInt_signExtend_size x small, toInt_signExtend_size y small] at quotient
    exact ⟨_, _, quotient, rfl, Iff.rfl⟩
  · obtain rfl := some.inj (ok.inj folds)
    have exact := represents_self (x % y)
    exact exactUnder_of_represents exact
  · obtain rfl := signedDivision_some folds
    have remainder := represents_toInt ((signExtend x (size * 8)).srem (signExtend y (size * 8)))
    rw [toInt_srem, toInt_signExtend_size x small, toInt_signExtend_size y small] at remainder
    exact ⟨_, _, remainder, rfl, Iff.rfl⟩

private theorem shift_exact (isShift : kind = .IntLeft ∨ kind = .IntRight ∨ kind = .IntSRight) :
    ExactUnder raw (kind.result aSize bSize x.toNat y.toNat) (size * 8)
      (signedAlike size aSize bSize x.toNat y.toNat kind) := by
  have inside := not_le_of_folds isShift folds
  have amount : y.toNat < 64 := by omega
  rcases isShift with rfl | rfl | rfl
  all_goals simp only [evalBinary, if_neg inside] at folds
  · obtain rfl := some.inj (ok.inj folds)
    rw [Nat.mod_eq_of_lt amount]
    exact exactUnder_of_represents (represents_shiftLeft x y.toNat)
  · obtain rfl := rightShift_some amount folds
    have exact := represents_self (x >>> y.toNat)
    rw [toNat_ushiftRight, Nat.shiftRight_eq_div_pow] at exact
    exact exactUnder_of_represents exact
  · obtain rfl := rightShift_some amount folds
    have exact := represents_toInt ((signExtend x (size * 8)).sshiftRight y.toNat)
    rw [toInt_sshiftRight, toInt_signExtend_size x small, Int.shiftRight_eq_div_pow] at exact
    exact ⟨_, _, exact, rfl, Iff.rfl⟩

/-- Comparisons give a truth value; signed ones read their operands in the size
of the destination. -/
theorem comparison_exact (compares : kind ∈ ([.IntEqual, .IntNotEqual, .IntLess,
      .IntLessEqual, .IntSLess, .IntSLessEqual] : List BinaryOp)) :
    ExactUnder raw (kind.result aSize bSize x.toNat y.toNat) (size * 8)
      (signedAlike size aSize bSize x.toNat y.toNat kind) := by
  have equal : (x == y) = decide (x.toNat = y.toNat) := decide_eq_decide.mpr toNat_inj.symm
  simp only [mem_cons, not_mem_nil, or_false] at compares
  rcases compares with rfl | rfl | rfl | rfl | rfl | rfl
  all_goals obtain rfl := some.inj (ok.inj folds)
  · exact exactUnder_flag equal
  · exact exactUnder_flag (by rw [bne, equal, decide_not])
  · exact exactUnder_flag rfl
  · exact exactUnder_flag rfl
  · refine ⟨_, _, represents_ofBool _, rfl, truth_modEq_iff.trans ?_⟩
    rw [BitVec.slt, toInt_signExtend_size x small, toInt_signExtend_size y small, decide_eq_decide]
    rfl
  · refine ⟨_, _, represents_ofBool _, rfl, truth_modEq_iff.trans ?_⟩
    rw [BitVec.sle, toInt_signExtend_size x small, toInt_signExtend_size y small, decide_eq_decide]
    rfl

omit small in
private theorem boolean_exact (isBoolean : kind ∈ ([.BoolAnd, .BoolOr, .BoolXor] : List BinaryOp)) :
    ExactUnder raw (kind.result aSize bSize x.toNat y.toNat) (size * 8) True := by
  simp only [mem_cons, not_mem_nil, or_false] at isBoolean
  rcases isBoolean with rfl | rfl | rfl
  all_goals obtain rfl := some.inj (ok.inj folds)
  · exact exactUnder_flag (by rw [bne_zero_eq, bne_zero_eq, Bool.decide_and])
  · exact exactUnder_flag (by rw [bne_zero_eq, bne_zero_eq, Bool.decide_or])
  · exact exactUnder_flag (by rw [bne_zero_eq, bne_zero_eq])

/-- A folded binary operation is exact unless the signs are read differently. -/
theorem binary_exact :
    ExactUnder raw (kind.result aSize bSize x.toNat y.toNat) (size * 8)
      (signedAlike size aSize bSize x.toNat y.toNat kind) := by
  cases kind with
  | IntAdd =>
    obtain rfl := some.inj (ok.inj folds)
    exact exactUnder_of_represents (represents_add x y)
  | IntSub =>
    obtain rfl := some.inj (ok.inj folds)
    exact exactUnder_of_represents (represents_sub x y)
  | IntMult =>
    obtain rfl := some.inj (ok.inj folds)
    exact exactUnder_of_represents (represents_mul x y)
  | IntAnd =>
    obtain rfl := some.inj (ok.inj folds)
    exact exactUnder_of_represents (toNat_and x y ▸ represents_self (x &&& y))
  | IntOr =>
    obtain rfl := some.inj (ok.inj folds)
    exact exactUnder_of_represents (toNat_or x y ▸ represents_self (x ||| y))
  | IntXor =>
    obtain rfl := some.inj (ok.inj folds)
    exact exactUnder_of_represents (toNat_xor x y ▸ represents_self (x ^^^ y))
  | IntDiv | IntSDiv | IntRem | IntSRem => exact division_exact small folds (by simp)
  | IntLeft | IntRight | IntSRight => exact shift_exact small folds (by simp)
  | IntEqual | IntNotEqual | IntLess | IntLessEqual | IntSLess | IntSLessEqual =>
    exact comparison_exact small folds (by simp)
  | BoolAnd | BoolOr | BoolXor => exact boolean_exact folds (by simp)
  | _ => cases folds

end Binary

/-! ## Operations with one operand -/

private theorem onesIn_eq (small : size * 8 ≤ 64) (fits : x.toNat < 2 ^ (size * 8)) :
    onesIn size x.toNat = countOnes x := by
  obtain ⟨rest, total⟩ := Nat.exists_eq_add_of_le small
  have none : ((List.range rest).map (size * 8 + ·)).countP x.getLsbD = 0 := by
    rw [countP_eq_zero]
    intro i mem
    obtain ⟨j, -, rfl⟩ := List.mem_map.mp mem
    rw [getLsbD_of_fits fits (Nat.le_add_right _ _)]
    decide
  have split : List.range 64 = List.range (size * 8) ++ (List.range rest).map (size * 8 + ·) := by
    rw [← range_add, ← total]
  rw [countOnes, split, countP_append, none]
  rfl

private theorem leadingZeros_eq (x : Word) : leadingZeros x = 64 - Nat.size x.toNat := by
  unfold leadingZeros
  split
  · rename_i zero
    rw [zero]
    rfl
  · rename_i nonzero
    have positive : x.toNat ≠ 0 := fun zero => nonzero (eq_of_toNat_eq zero)
    have above : Nat.size x.toNat ≤ x.toNat.log2 + 1 := Nat.size_le.mpr Nat.lt_log2_self
    have below : x.toNat.log2 < Nat.size x.toNat := Nat.lt_size.mpr (Nat.log2_self_le positive)
    omega

theorem count_modEq_iff {m n : Nat} (smallM : m ≤ 64) (smallN : n ≤ 64) :
    (m : Int) ≡ n [ZMOD 2 ^ (size * 8)] ↔ size = 0 ∨ m = n := by
  by_cases none : size = 0
  · subst none
    simp [Int.modEq_one]
  · have byte : 2 ^ 8 ≤ 2 ^ (size * 8) := Nat.pow_le_pow_right (by decide) (by omega)
    have cast : (m : Int) ≡ n [ZMOD 2 ^ (size * 8)] ↔ m ≡ n [MOD 2 ^ (size * 8)] := by
      exact_mod_cast Int.natCast_modEq_iff
    rw [cast, Nat.ModEq, Nat.mod_eq_of_lt (by omega), Nat.mod_eq_of_lt (by omega)]
    simp [none]

section Unary

variable {dstSize srcSize : Nat} {x : Word} (small : dstSize * 8 ≤ 64) (small' : srcSize * 8 ≤ 64)
  (fits : x.toNat < 2 ^ (srcSize * 8))
include small small' fits

theorem ones_exact : ExactUnder (BitVec.ofNat 64 (countOnes (x &&& maskForBits (dstSize * 8))))
    (some (onesIn srcSize x.toNat)) (dstSize * 8)
    (countedAlike dstSize srcSize x.toNat .PopCount) := by
  have few := countOnes_le (x &&& maskForBits (dstSize * 8))
  refine ⟨_, _, represents_ofNat _, rfl, ?_⟩
  rw [onesIn_eq small' fits, count_modEq_iff few (countOnes_le x),
    countOnes_and_maskForBits_iff x small]
  rfl

private theorem zeros_exact :
    ExactUnder (if dstSize * 8 = 0 then 0 else BitVec.ofNat 64
        (leadingZeros (x &&& maskForBits (dstSize * 8)) - (64 - dstSize * 8)))
      (some ((srcSize * 8 - Nat.size x.toNat : Nat) : Int)) (dstSize * 8)
      (countedAlike dstSize srcSize x.toNat .Lzcount) := by
  have own : Nat.size x.toNat ≤ srcSize * 8 := Nat.size_le.mpr fits
  have masked : Nat.size (x.toNat % 2 ^ (dstSize * 8)) ≤ dstSize * 8 :=
    Nat.size_le.mpr (Nat.mod_lt _ (Nat.two_pow_pos _))
  have counts : (if dstSize * 8 = 0 then 0 else BitVec.ofNat 64
      (leadingZeros (x &&& maskForBits (dstSize * 8)) - (64 - dstSize * 8))) =
        BitVec.ofNat 64 (dstSize * 8 - Nat.size (x.toNat % 2 ^ (dstSize * 8))) := by
    rw [leadingZeros_eq, toNat_and_maskForBits x small]
    split
    · rename_i none
      rw [none, Nat.zero_sub]
      rfl
    · congr 1
      omega
  rw [counts]
  refine ⟨_, _, represents_ofNat _, rfl, ?_⟩
  rw [count_modEq_iff (by omega) (by omega), countedAlike]
  exact or_congr Iff.rfl (by omega)

/-- A folded unary operation is exact unless the bits are counted differently. -/
theorem unary_exact {kind : UnaryOp} (notTrunc : kind ≠ .Trunc)
    (folds : evalUnary (dstSize * 8) (srcSize * 8) x kind = some raw) :
    ExactUnder raw (kind.result srcSize x.toNat) (dstSize * 8)
      (countedAlike dstSize srcSize x.toNat kind) := by
  cases kind with
  | IntNegate =>
    cases folds
    exact exactUnder_of_represents (represents_neg x)
  | IntNot =>
    cases folds
    exact exactUnder_of_represents (represents_not x)
  | IntZExt =>
    obtain rfl := some.inj folds
    exact exactUnder_of_represents (represents_self x)
  | IntSExt =>
    cases folds
    exact exactUnder_of_represents
      (toInt_signExtend_size x small' ▸ represents_toInt (signExtend x (srcSize * 8)))
  | BoolNot =>
    cases folds
    exact exactUnder_flag (beq_zero_eq x)
  | PopCount =>
    cases folds
    exact ones_exact small small' fits
  | Lzcount =>
    simp only [evalUnary, Nat.min_eq_left small, Option.some.injEq] at folds
    subst folds
    exact zeros_exact small small' fits
  | Trunc => exact absurd rfl notTrunc
  | _ => cases folds

end Unary

/-! ## Operations -/

theorem isResult_iff {consts : VarKey → Option Word} {op : SSAOp} {dst : SSAVar} {c : Word}
    {condition : Prop} (isDst : op.dst = some dst) (small : dst.size * 8 ≤ 64)
    (masked : c.toNat = raw.toNat % 2 ^ (dst.size * 8))
    (exact : ExactUnder raw (pcodeResult consts op) (dst.size * 8) condition) :
    IsResult consts op c ↔ condition := by
  obtain ⟨i, r, holds, isResult, alike⟩ := exact
  rw [← alike, ← holds.residue_iff small masked]
  constructor
  · rintro ⟨dst', r', isDst', isResult', residue⟩
    obtain rfl := some.inj (isDst.symm.trans isDst')
    obtain rfl := some.inj (isResult.symm.trans isResult')
    exact residue
  · exact fun residue => ⟨dst, r, isDst, isResult, residue⟩

private theorem represents_piece {hi lo : Word} (fits : lo.toNat < 2 ^ bits) (small : bits < 64) :
    Represents (hi <<< bits ||| (lo &&& maskForBits bits)) (hi.toNat * 2 ^ bits + lo.toNat) := by
  have low : lo &&& maskForBits bits = lo := by
    apply eq_of_toNat_eq
    rw [toNat_and_maskForBits lo (by omega), Nat.mod_eq_of_lt fits]
  have disjoint : hi <<< bits ||| lo = hi <<< bits + lo := by
    refine (add_eq_or_of_and_eq_zero _ _ ?_).symm
    apply eq_of_getLsbD_eq
    intro i inside
    by_cases inLow : i < bits
    · simp [inLow]
    · simp [getLsbD_of_fits fits (Nat.not_lt.mp inLow)]
  rw [low, disjoint]
  have sum := represents_add (hi <<< bits) lo
  exact sum.trans ((represents_shiftLeft hi bits).add_right _)

/-- For every integer operation on constants that fit their sizes: the folder
gives the result of P-code exactly if signs and counts are the same in the size
of the destination. -/
theorem evalConstOp_exact_iff (checks : Bool) (op : SSAOp) (integer : IsIntegerOp op)
    (consts : VarKey → Option Word)
    (sized : ∀ var ∈ op.dst.toList ++ op.sources, var.size ≤ 8)
    (fits : ∀ src ∈ op.sources, ∀ value, constForVar src consts = some value →
      value.toNat < 2 ^ (src.size * 8))
    (c : Word) (folds : evalConstOp checks op consts = .ok (some c)) :
    IsResult consts op c ↔ FoldsExactly consts op := by
  cases op with
  | unary kind dst src =>
    have small := sized dst (by simp [SSAOp.dst])
    have small' := sized src (by simp [SSAOp.sources])
    obtain ⟨raw, unmasked, masked⟩ := evalConstOp_some rfl small folds
    have notTrunc : kind ≠ .Trunc := by
      rintro rfl
      simp [IsIntegerOp] at integer
    simp only [evalUnmasked, ok.injEq] at unmasked
    obtain ⟨x, known, evaluated⟩ := bind_eq_some_iff.mp unmasked
    rw [bitsOf_eq small'] at evaluated
    have exact := unary_exact (by omega) (by omega) (fits src (by simp [SSAOp.sources]) x known)
      notTrunc evaluated
    have condition : FoldsExactly consts (.unary kind dst src) ↔
        countedAlike dst.size src.size x.toNat kind := by
      simp only [FoldsExactly, known, Option.some.injEq, forall_eq']
    rw [condition]
    refine isResult_iff rfl (by omega) masked ?_
    simpa only [pcodeResult, known, bind_some] using exact
  | binary kind dst a b =>
    have small := sized dst (by simp [SSAOp.dst])
    obtain ⟨raw, unmasked, masked⟩ := evalConstOp_some rfl small folds
    simp only [evalUnmasked] at unmasked
    split at unmasked
    · rename_i x y knownX knownY
      have exact : ExactUnder raw (kind.result a.size b.size x.toNat y.toNat) (dst.size * 8)
          (signedAlike dst.size a.size b.size x.toNat y.toNat kind) :=
        binary_exact (by omega) unmasked
      have condition : FoldsExactly consts (.binary kind dst a b) ↔
          signedAlike dst.size a.size b.size x.toNat y.toNat kind :=
        forall_known knownX knownY
      rw [condition]
      refine isResult_iff rfl (by omega) masked ?_
      simpa only [pcodeResult, knownX, knownY, bind_some] using exact
    · cases unmasked
  | Piece dst hi lo =>
    have small := sized dst (by simp [SSAOp.dst])
    have small' := sized lo (by simp [SSAOp.sources])
    obtain ⟨raw, unmasked, masked⟩ := evalConstOp_some rfl small folds
    simp only [evalUnmasked, bitsOf_eq small'] at unmasked
    split at unmasked
    · rename_i x y knownX knownY
      split at unmasked
      · cases unmasked
      · obtain rfl := some.inj (ok.inj unmasked)
        refine isResult_iff rfl (by omega) masked ?_
        simp only [pcodeResult, knownX, knownY, bind_some]
        have fitsLo := fits lo (by simp [SSAOp.sources]) y knownY
        exact exactUnder_of_represents (represents_piece fitsLo (by omega))
    · cases unmasked
  | Subpiece dst src offset =>
    have small := sized dst (by simp [SSAOp.dst])
    obtain ⟨raw, unmasked, masked⟩ := evalConstOp_some rfl small folds
    simp only [evalUnmasked, ok.injEq] at unmasked
    obtain ⟨x, known, evaluated⟩ := bind_eq_some_iff.mp unmasked
    split at evaluated
    · cases evaluated
    · rename_i inside
      cases evaluated
      have near : bitsOf offset = offset * 8 := by
        unfold bitsOf at inside ⊢
        omega
      refine isResult_iff rfl (by omega) masked ?_
      simp only [pcodeResult, known, bind_some]
      have holds := represents_self (x >>> bitsOf offset)
      rw [toNat_ushiftRight, Nat.shiftRight_eq_div_pow, near] at holds
      rw [near]
      exact exactUnder_of_represents holds
  | PtrAdd dst base index elementSize =>
    have small := sized dst (by simp [SSAOp.dst])
    obtain ⟨raw, unmasked, masked⟩ := evalConstOp_some rfl small folds
    simp only [evalUnmasked] at unmasked
    split at unmasked
    · rename_i x y knownX knownY
      obtain rfl := some.inj (ok.inj unmasked)
      refine isResult_iff rfl (by omega) masked ?_
      simp only [pcodeResult, knownX, knownY, bind_some]
      have offset := (represents_mul y (BitVec.ofNat 64 elementSize)).trans
        ((represents_ofNat elementSize).mul_left _)
      exact exactUnder_of_represents ((represents_add x _).trans (offset.add_left _))
    · cases unmasked
  | PtrSub dst base index elementSize =>
    have small := sized dst (by simp [SSAOp.dst])
    obtain ⟨raw, unmasked, masked⟩ := evalConstOp_some rfl small folds
    simp only [evalUnmasked] at unmasked
    split at unmasked
    · rename_i x y knownX knownY
      obtain rfl := some.inj (ok.inj unmasked)
      refine isResult_iff rfl (by omega) masked ?_
      simp only [pcodeResult, knownX, knownY, bind_some]
      have offset := (represents_mul y (BitVec.ofNat 64 elementSize)).trans
        ((represents_ofNat elementSize).mul_left _)
      exact exactUnder_of_represents ((represents_sub x _).trans (offset.sub_left _))
    · cases unmasked
  | _ => simp [IsIntegerOp] at integer

/-- 128 against 0 as signed two-byte numbers; in one byte, the first is negative. -/
def wideCompare : SSAOp :=
  .binary .IntSLess ⟨"tmp:1", 1, 1⟩ ⟨"const:80", 0, 2⟩ ⟨"const:0", 0, 2⟩

theorem wideCompare_sized : ∀ var ∈ wideCompare.dst.toList ++ wideCompare.sources, var.size ≤ 8 := by
  decide

theorem wideCompare_fits : ∀ src ∈ wideCompare.sources, ∀ value,
    constForVar src (fun _ => none) = some value → value.toNat < 2 ^ (src.size * 8) := by
  intro src mem value known
  simp only [wideCompare, SSAOp.sources, mem_cons, not_mem_nil, or_false] at mem
  rcases mem with rfl | rfl
  · have isValue : constForVar ⟨"const:80", 0, 2⟩ (fun _ => none) = some 128 := by decide +kernel
    obtain rfl := some.inj (isValue.symm.trans known)
    decide
  · have isValue : constForVar ⟨"const:0", 0, 2⟩ (fun _ => none) = some 0 := by decide +kernel
    obtain rfl := some.inj (isValue.symm.trans known)
    decide

theorem wideCompare_folds :
    evalConstOp true wideCompare (fun _ => none) = .ok (some 1) := by
  decide +kernel

/-- In one byte 128 is negative, so the folder takes it for less than 0. -/
theorem wideCompare_not_exact :
    IsIntegerOp wideCompare ∧
      (∀ var ∈ wideCompare.dst.toList ++ wideCompare.sources, var.size ≤ 8) ∧
      (∀ src ∈ wideCompare.sources, ∀ value, constForVar src (fun _ => none) = some value →
        value.toNat < 2 ^ (src.size * 8)) ∧
      evalConstOp true wideCompare (fun _ => none) = .ok (some 1) ∧
      ¬ IsResult (fun _ => none) wideCompare 1 := by
  refine ⟨rfl, wideCompare_sized, wideCompare_fits, wideCompare_folds, ?_⟩
  rintro ⟨dst, r, isDst, isResult, residue⟩
  have exact : pcodeResult (fun _ => none) wideCompare = some 0 := by decide +kernel
  obtain rfl := some.inj (exact.symm.trans isResult)
  simp at residue

theorem evalConstOp_exact_iff_wideCompare :
    IsResult (fun _ => none) wideCompare 1 ↔ FoldsExactly (fun _ => none) wideCompare :=
  evalConstOp_exact_iff true wideCompare rfl (fun _ => none) wideCompare_sized wideCompare_fits 1
    wideCompare_folds

end R2Sleigh.Ssa
