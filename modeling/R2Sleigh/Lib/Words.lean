import Mathlib.Data.BitVec

/-!
Contract: operations on narrow words carried out on wide ones.
-/

namespace R2Sleigh.Lib

open BitVec

variable {n w : Nat}

theorem setWidth_eq_ofInt (narrow : n ≤ w) (x : BitVec w) : x.setWidth n = BitVec.ofInt n x.toInt :=
  (signExtend_eq_setWidth_of_le x narrow).symm

theorem setWidth_eq_of_toInt (narrow : n ≤ w) {x : BitVec w} {y : BitVec n} {i : Int}
    (wide : x.toInt = i.bmod (2 ^ w)) (own : y.toInt = i.bmod (2 ^ n)) : x.setWidth n = y := by
  apply eq_of_toInt_eq
  rw [setWidth_eq_ofInt narrow, toInt_ofInt, wide, own]
  exact Int.bmod_bmod_of_dvd (Nat.pow_dvd_pow 2 narrow)

theorem bmod_toInt (x : BitVec w) : x.toInt.bmod (2 ^ w) = x.toInt := by
  rw [← toInt_ofInt, ofInt_toInt]

section

variable (narrow : n ≤ w)
include narrow

theorem setWidth_sdiv (x y : BitVec n) :
    ((x.signExtend w).sdiv (y.signExtend w)).setWidth n = x.sdiv y := by
  refine setWidth_eq_of_toInt narrow ?_ (toInt_sdiv x y)
  rw [toInt_sdiv, toInt_signExtend_of_le narrow, toInt_signExtend_of_le narrow]

theorem setWidth_srem (x y : BitVec n) :
    ((x.signExtend w).srem (y.signExtend w)).setWidth n = x.srem y := by
  have wide := toInt_srem (x.signExtend w) (y.signExtend w)
  rw [toInt_signExtend_of_le narrow, toInt_signExtend_of_le narrow] at wide
  refine setWidth_eq_of_toInt narrow ?_ (bmod_toInt (x.srem y)).symm
  rw [← bmod_toInt, wide, toInt_srem]

theorem setWidth_sshiftRight (x : BitVec n) (amount : Nat) :
    ((x.signExtend w).sshiftRight amount).setWidth n = x.sshiftRight amount := by
  have wide := toInt_sshiftRight (x := x.signExtend w) (n := amount)
  rw [toInt_signExtend_of_le narrow] at wide
  refine setWidth_eq_of_toInt narrow ?_ (bmod_toInt (x.sshiftRight amount)).symm
  rw [← bmod_toInt, wide, toInt_sshiftRight]

theorem slt_signExtend (x y : BitVec n) :
    (x.signExtend w).slt (y.signExtend w) = x.slt y := by
  simp only [BitVec.slt, toInt_signExtend_of_le narrow]

theorem sle_signExtend (x y : BitVec n) :
    (x.signExtend w).sle (y.signExtend w) = x.sle y := by
  simp only [BitVec.sle, toInt_signExtend_of_le narrow]

end

theorem smtSDiv_eq_sdiv {x y : BitVec w} (nonzero : y ≠ 0) : x.smtSDiv y = x.sdiv y := by
  have negated : -y ≠ 0 := by simpa using nonzero
  rw [smtSDiv_eq, sdiv_eq]
  simp only [BitVec.smtUDiv, if_neg nonzero, if_neg negated]

theorem sshiftRight_shiftLeft {x : BitVec w} (positive : 0 < n) (narrow : n ≤ w) :
    (x <<< (w - n)).sshiftRight (w - n) = (x.setWidth n).signExtend w := by
  ext i inside
  rw [getElem_sshiftRight, getElem_signExtend]
  by_cases low : i < n
  · simp [low, show w - n + i < w by omega, show ¬ w - n + i < w - n by omega,
      getLsbD_eq_getElem inside]
  · have top : ((x <<< (w - n)).msb) = (x.setWidth n).msb := by
      rw [msb_eq_getLsbD_last, msb_eq_getLsbD_last, getLsbD_shiftLeft, getLsbD_setWidth]
      simp [show w - 1 - (w - n) = n - 1 by omega, show ¬ w - 1 < w - n by omega,
        show w - 1 < w by omega, show n - 1 < n by omega]
    simp [low, show ¬ w - n + i < w by omega, top]

end R2Sleigh.Lib
