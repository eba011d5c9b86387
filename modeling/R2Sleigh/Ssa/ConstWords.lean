import R2Sleigh.Lib.Words
import R2Sleigh.Ssa.ConstEval

/-!
Contract: the arithmetic helpers of the constant folder, in terms of numbers.
-/

namespace R2Sleigh.Ssa

open Il Lib BitVec

/-! ## Masks -/

variable {bits : Nat}

theorem toNat_maskForBits (small : bits ≤ 64) :
    (maskForBits bits).toNat = 2 ^ bits - 1 := by
  unfold maskForBits
  split
  · have full : bits = 64 := by omega
    subst full
    simp
  · split
    · rename_i none
      subst none
      rfl
    · have fits : 2 ^ bits - 1 < 2 ^ 64 := by
        have := Nat.pow_lt_pow_right (a := 2) (by decide) (by omega : bits < 64)
        omega
      rw [toNat_ofNat, Nat.mod_eq_of_lt fits]

variable (value : Word)

theorem toNat_and_maskForBits (small : bits ≤ 64) :
    (value &&& maskForBits bits).toNat = value.toNat % 2 ^ bits := by
  rw [toNat_and, toNat_maskForBits small, Nat.and_two_pow_sub_one_eq_mod]

theorem getLsbD_maskForBits {bits i : Nat} (small : bits ≤ 64) :
    (maskForBits bits).getLsbD i = decide (i < bits) := by
  rw [BitVec.getLsbD, toNat_maskForBits small, Nat.testBit_two_pow_sub_one]

theorem bitsOf_eq {size : Nat} (small : size ≤ 8) : bitsOf size = size * 8 :=
  Nat.min_eq_left (by omega)

/-! ## Signs -/

theorem signExtend_eq (positive : 0 < bits) (small : bits ≤ 64) :
    signExtend value bits = (value.setWidth bits).signExtend 64 := by
  unfold signExtend
  rw [if_neg (by omega)]
  split
  · have full : bits = 64 := by omega
    subst full
    simp
  · exact sshiftRight_shiftLeft positive small

theorem toInt_signExtend_word (small : bits ≤ 64) :
    (signExtend value bits).toInt = (value.setWidth bits).toInt := by
  by_cases none : bits = 0
  · subst none
    simp [signExtend]
  · rw [signExtend_eq value (Nat.pos_of_ne_zero none) small, toInt_signExtend_of_le small]

/-! ## Counts -/

theorem getLsbD_of_fits {value : Word} {bits i : Nat} (fits : value.toNat < 2 ^ bits)
    (beyond : bits ≤ i) : value.getLsbD i = false :=
  Nat.testBit_lt_two_pow (lt_of_lt_of_le fits (Nat.pow_le_pow_right (by decide) beyond))

private theorem fits_iff {value : Word} :
    value.toNat < 2 ^ bits ↔ ∀ i, bits ≤ i → value.getLsbD i = false :=
  ⟨fun fits _ => getLsbD_of_fits fits, fun none => Nat.lt_pow_two_of_testBit _ none⟩

private theorem countOnes_and_maskForBits (small : bits ≤ 64) :
    countOnes (value &&& maskForBits bits) =
      ((List.range 64).filter (· < bits)).countP value.getLsbD := by
  rw [List.countP_filter, countOnes]
  refine List.countP_congr fun i _ => ?_
  rw [getLsbD_and, getLsbD_maskForBits small]

theorem countOnes_and_maskForBits_iff (small : bits ≤ 64) :
    countOnes (value &&& maskForBits bits) = countOnes value ↔ value.toNat < 2 ^ bits := by
  have split : countOnes value = ((List.range 64).filter (· < bits)).countP value.getLsbD +
      ((List.range 64).filter fun i => ¬ i < bits).countP value.getLsbD := by
    rw [countOnes, List.countP_eq_countP_filter_add _ _ (· < bits)]
    simp only [decide_not]
  rw [countOnes_and_maskForBits value small, split, fits_iff, Nat.left_eq_add, List.countP_eq_zero]
  constructor
  · intro none i beyond
    by_cases inside : i < 64
    · simpa using none i (by simp [inside, beyond])
    · exact getLsbD_of_ge value i (by omega)
  · intro none i mem
    have beyond : ¬ i < bits := by simpa using (List.mem_filter.mp mem).2
    simp [none i (Nat.not_lt.mp beyond)]

theorem countOnes_le : countOnes value ≤ 64 :=
  le_trans List.countP_le_length (by simp)

theorem leadingZeros_le : leadingZeros value ≤ 64 := by
  unfold leadingZeros
  split <;> omega

theorem le_leadingZeros {value : Word} (small : bits ≤ 64)
    (fits : value.toNat < 2 ^ bits) : 64 - bits ≤ leadingZeros value := by
  unfold leadingZeros
  split
  · omega
  · rename_i nonzero
    have positive : value.toNat ≠ 0 := fun zero => nonzero (eq_of_toNat_eq zero)
    have bound : value.toNat.log2 < bits := (Nat.log2_lt positive).mpr fits
    omega

/-! ## Results -/

theorem ofBool_lt (b : Bool) : (ofBool b).toNat < 2 := by
  cases b <;> decide

variable {checks : Bool} {kind : BinaryOp} {x y raw : Word}

theorem signedDivision_some {apply : Word → Word → Word} {a b : Word}
    (divides : (signedDivision apply a b).map some = .ok (some raw)) : raw = apply a b := by
  unfold signedDivision at divides
  split at divides
  · cases divides
  · split at divides
    · cases divides
    · exact (Option.some_inj.mp (Except.ok.inj divides)).symm

theorem rightShift_some {apply : Word → Nat → Word} {a b : Word}
    (small : b.toNat < 64) (shifts : (rightShift checks apply a b).map some = .ok (some raw)) :
    raw = apply a b.toNat := by
  unfold rightShift at shifts
  rw [if_neg (by omega), Nat.mod_eq_of_lt small] at shifts
  exact (Option.some_inj.mp (Except.ok.inj shifts)).symm

theorem not_le_of_folds (isShift : kind = .IntLeft ∨ kind = .IntRight ∨ kind = .IntSRight)
    (folds : evalBinary checks bits x y kind = .ok (some raw)) : ¬ bits ≤ y.toNat := by
  intro outside
  rcases isShift with rfl | rfl | rfl <;> simp [evalBinary, outside] at folds

theorem ne_zero_of_folds
    (divides : kind ∈ ([.IntDiv, .IntSDiv, .IntRem, .IntSRem] : List BinaryOp))
    (folds : evalBinary checks bits x y kind = .ok (some raw)) : y ≠ 0 := by
  rintro rfl
  simp only [List.mem_cons, List.not_mem_nil, or_false] at divides
  rcases divides with rfl | rfl | rfl | rfl <;> simp [evalBinary] at folds

theorem evalConstOp_some {checks : Bool} {op : SSAOp} {dst : SSAVar}
    {consts : VarKey → Option Word} {c : Word} (isDst : op.dst = some dst) (small : dst.size ≤ 8)
    (folds : evalConstOp checks op consts = .ok (some c)) :
    ∃ raw, evalUnmasked checks (dst.size * 8) consts op = .ok (some raw) ∧
      c.toNat = raw.toNat % 2 ^ (dst.size * 8) := by
  rw [evalConstOp, isDst] at folds
  simp only [bitsOf_eq small] at folds
  cases unmasked : evalUnmasked checks (dst.size * 8) consts op with
  | error panic => simp [unmasked, Except.map] at folds
  | ok result =>
    cases result with
    | none => simp [unmasked, Except.map] at folds
    | some raw =>
      refine ⟨raw, rfl, ?_⟩
      simp only [unmasked, Except.map, Option.map_some, Except.ok.injEq, Option.some.injEq] at folds
      rw [← folds, toNat_and_maskForBits raw (by omega)]

theorem forall_known {first second : Option Word} {x y : Word} {p : Word → Word → Prop}
    (isFirst : first = some x) (isSecond : second = some y) :
    (∀ x' y', first = some x' → second = some y' → p x' y') ↔ p x y := by
  subst isFirst isSecond
  simp

end R2Sleigh.Ssa
