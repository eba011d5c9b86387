import R2Sleigh.Sym.Z3

/-!
Contract: symbolic values: concrete, symbolic and unknown words of some width.

Owns `SymValue`, `denote` and `byte`.

An unknown value denotes nothing: each use of it is a fresh constant. Operations
that make constants count them in a state.
-/

namespace R2Sleigh.Sym

open Option

open Ssa (Word)

/-- Counts the constants made fresh so far. -/
abbrev Fresh := StateM Nat

def nextFresh : Fresh Nat := fun n => (n, n + 1)

inductive SymValue (BV : Type) where
  | concrete (value : Word) (bits : Nat) (taint : Word)
  | symbolic (ast : BV) (bits : Nat) (taint : Word)
  | unknown (bits : Nat) (taint : Word)

namespace SymValue

section Widths

variable {BV : Type}

def normalizeBvBits (bits : Nat) : Nat := max bits 1

/-- An untainted constant. -/
def ofWord (value : Word) (bits : Nat) : SymValue BV := .concrete value (normalizeBvBits bits) 0

def getTaint : SymValue BV → Word
  | .concrete _ _ taint => taint
  | .symbolic _ _ taint => taint
  | .unknown _ taint => taint

def bits : SymValue BV → Nat
  | .concrete _ bits _ => bits
  | .symbolic _ bits _ => bits
  | .unknown bits _ => bits

def asConcrete : SymValue BV → Option Word
  | .concrete value _ _ => some value
  | _ => none

def isConcrete (v : SymValue BV) : Bool := v.asConcrete.isSome

end Widths

variable {BV Formula Model : Type} [Z3 BV Formula Model]

/-- The term of a value, `fresh` being the constant made for an unknown one. -/
def toBv (fresh : Nat) : SymValue BV → BV
  | .concrete value bits _ => Z3.fromU64 value (normalizeBvBits bits)
  | .symbolic ast _ _ => ast
  | .unknown bits _ => Z3.freshConst fresh "unknown" (normalizeBvBits bits)

def newSymbolic (name : String) (bits : Nat) : SymValue BV :=
  let bits := normalizeBvBits bits
  .symbolic (Z3.newConst name bits) bits 0

def zeroExtend (v : SymValue BV) (newBits : Nat) : SymValue BV :=
  if newBits ≤ v.bits then v
  else
    match v with
    | .concrete value _ taint => .concrete value newBits taint
    | .symbolic ast bits taint => .symbolic (Z3.zeroExt ast (newBits - bits)) newBits taint
    | .unknown _ taint => .unknown newBits taint

def lowMask (bits : Nat) : Word :=
  if 64 ≤ bits then BitVec.allOnes 64 else BitVec.ofNat 64 (2 ^ bits - 1)

def extract (v : SymValue BV) (high low : Nat) : SymValue BV :=
  let srcBits := max v.bits 1
  if high < low ∨ srcBits ≤ low then .unknown 1 v.getTaint
  else
    let clampedHigh := min high (srcBits - 1)
    if clampedHigh < low then .unknown 1 v.getTaint
    else
      let newBits := clampedHigh - low + 1
      match v with
      | .concrete value bits taint =>
        if 64 < newBits ∨ 64 ≤ clampedHigh then
          .symbolic (Z3.extract (Z3.fromU64 value (normalizeBvBits bits)) clampedHigh low)
            (normalizeBvBits newBits) taint
        else .concrete ((value >>> low) &&& lowMask newBits) newBits taint
      | .symbolic ast _ taint => .symbolic (Z3.extract ast clampedHigh low) newBits taint
      | .unknown _ taint => .unknown newBits taint

/-! ## Denotation -/

/-- The width of a value is that of its term, and positive. -/
def WellSorted : SymValue BV → Prop
  | .concrete _ bits _ => 1 ≤ bits
  | .symbolic ast bits _ => 1 ≤ bits ∧ Z3.size ast = bits
  | .unknown bits _ => 1 ≤ bits

/-- What a value stands for in a model. -/
def denote (m : Model) : SymValue BV → Option Nat
  | .concrete value bits _ => some (value.toNat % 2 ^ bits)
  | .symbolic ast _ _ => some (Z3.value m ast)
  | .unknown _ _ => none

/-- The bytes of a value, least significant first. -/
def byte (m : Model) (v : SymValue BV) (i : Nat) : Option Nat :=
  (denote m v).map fun n => n / 2 ^ (i * 8) % 2 ^ 8

section

variable {v : SymValue BV} (sorted : v.WellSorted)
include sorted

theorem WellSorted.one_le_bits : 1 ≤ v.bits := by
  cases v with
  | concrete | unknown => exact sorted
  | symbolic ast bits taint => exact sorted.1

theorem denote_lt {m : Model} {n : Nat}
    (denotes : denote m v = some n) : n < 2 ^ v.bits := by
  cases v with
  | concrete value bits taint =>
    cases denotes
    exact Nat.mod_lt _ (Nat.two_pow_pos bits)
  | symbolic ast bits taint =>
    cases denotes
    have bound := Z3.value_lt m ast
    rwa [sorted.2] at bound
  | unknown bits taint => simp [denote] at denotes

theorem size_toBv (fresh : Nat) :
    Z3.size (v.toBv fresh) = v.bits := by
  cases v with
  | concrete value bits taint =>
    have positive : 1 ≤ bits := sorted
    rw [toBv, Z3.size_fromU64, normalizeBvBits, SymValue.bits]
    omega
  | symbolic ast bits taint => exact sorted.2
  | unknown bits taint =>
    have positive : 1 ≤ bits := sorted
    rw [toBv, Z3.size_freshConst, normalizeBvBits, SymValue.bits]
    omega

theorem value_toBv {m : Model} (fresh : Nat) {x : Nat}
    (denotes : v.denote m = some x) :
    Z3.value m (v.toBv fresh) = x := by
  cases v with
  | concrete value bits taint =>
    have positive : 1 ≤ bits := sorted
    cases denotes
    rw [toBv, Z3.value_fromU64, normalizeBvBits, max_eq_left positive]
  | symbolic ast bits taint => exact some.inj denotes
  | unknown bits taint => simp [denote] at denotes

end

theorem toNat_lowMask {bits : Nat} (small : bits ≤ 64) : (lowMask bits).toNat = 2 ^ bits - 1 := by
  unfold lowMask
  split
  · have full : bits = 64 := by omega
    subst full
    simp
  · have fits : 2 ^ bits - 1 < 2 ^ 64 := by
      have := Nat.pow_lt_pow_right (a := 2) (by decide) (by omega : bits < 64)
      omega
    rw [BitVec.toNat_ofNat, Nat.mod_eq_of_lt fits]

/-! ## Extraction and extension -/

theorem mod_div_mod (n : Nat) {bits low width : Nat} (fits : low + width ≤ bits) :
    n % 2 ^ bits / 2 ^ low % 2 ^ width = n / 2 ^ low % 2 ^ width := by
  obtain ⟨extra, rfl⟩ := Nat.exists_eq_add_of_le fits
  rw [Nat.pow_add, Nat.pow_add, Nat.mul_assoc, Nat.mod_mul_right_div_self, Nat.mod_mul_right_mod]

section Extract

variable {v : SymValue BV} {high low : Nat}

theorem extract_eq (ordered : low ≤ high) (inside : high < v.bits) :
    v.extract high low = match v with
      | .concrete value bits taint =>
        if 64 < high - low + 1 ∨ 64 ≤ high then
          .symbolic (Z3.extract (Z3.fromU64 value bits) high low) (high - low + 1) taint
        else .concrete ((value >>> low) &&& lowMask (high - low + 1)) (high - low + 1) taint
      | .symbolic ast _ taint => .symbolic (Z3.extract ast high low) (high - low + 1) taint
      | .unknown _ taint => .unknown (high - low + 1) taint := by
  have positive : max v.bits 1 = v.bits := by omega
  have clamped : min high (v.bits - 1) = high := by omega
  unfold extract
  simp only [positive, clamped]
  rw [if_neg (by omega), if_neg (by omega)]
  cases v with
  | concrete value bits taint =>
    have inside : high < bits := inside
    simp only [normalizeBvBits, show max bits 1 = bits by omega,
      show max (high - low + 1) 1 = high - low + 1 by omega]
  | symbolic ast bits taint => rfl
  | unknown bits taint => rfl

theorem bits_extract (ordered : low ≤ high) (inside : high < v.bits) :
    (v.extract high low).bits = high - low + 1 := by
  rw [extract_eq ordered inside]
  cases v with
  | concrete value bits taint => split_ifs <;> rfl
  | symbolic ast bits taint => rfl
  | unknown bits taint => rfl

theorem WellSorted.extract (sorted : v.WellSorted) (ordered : low ≤ high)
    (inside : high < v.bits) : (v.extract high low).WellSorted := by
  have positive : 1 ≤ high - low + 1 := Nat.le_add_left _ _
  rw [extract_eq ordered inside]
  cases v with
  | concrete value bits taint =>
    split_ifs
    · refine ⟨positive, Z3.size_extract _ _ _ ordered ?_⟩
      rw [Z3.size_fromU64]
      exact inside
    · exact positive
  | symbolic ast bits taint =>
    refine ⟨positive, Z3.size_extract _ _ _ ordered ?_⟩
    rw [sorted.2]
    exact inside
  | unknown bits taint => exact positive

theorem toNat_shift_and_lowMask (value : Word) {width : Nat} (small : width ≤ 64) :
    ((value >>> low) &&& lowMask width).toNat = value.toNat / 2 ^ low % 2 ^ width := by
  rw [BitVec.toNat_and, toNat_lowMask small, Nat.and_two_pow_sub_one_eq_mod,
    BitVec.toNat_ushiftRight, Nat.shiftRight_eq_div_pow]

theorem denote_extract (sorted : v.WellSorted) (ordered : low ≤ high) (inside : high < v.bits)
    (m : Model) : denote m (v.extract high low) =
      (denote m v).map fun n => n / 2 ^ low % 2 ^ (high - low + 1) := by
  rw [extract_eq ordered inside]
  cases v with
  | concrete value bits taint =>
    have inside : high < bits := inside
    have width : low + (high - low + 1) ≤ bits := by omega
    split_ifs with wide
    · simp only [denote, map_some]
      rw [Z3.value_extract _ _ _ _ ordered (by rwa [Z3.size_fromU64]), Z3.value_fromU64]
    · simp only [denote, map_some]
      rw [toNat_shift_and_lowMask value (by omega), Nat.mod_mod, mod_div_mod _ width]
  | symbolic ast bits taint =>
    simp only [denote, map_some]
    rw [Z3.value_extract _ _ _ _ ordered (by rw [sorted.2]; exact inside)]
  | unknown bits taint => rfl

end Extract

theorem bits_zeroExtend {v : SymValue BV} {newBits : Nat} (wider : v.bits ≤ newBits) :
    (v.zeroExtend newBits).bits = newBits := by
  unfold zeroExtend
  split
  · omega
  · cases v <;> rfl

private theorem one_le_of_lt_of_not_le {old new : Nat} (positive : 1 ≤ old) (wider : ¬ new ≤ old) :
    1 ≤ new := by
  omega

theorem WellSorted.zeroExtend {v : SymValue BV} (sorted : v.WellSorted) (newBits : Nat) :
    (v.zeroExtend newBits).WellSorted := by
  unfold SymValue.zeroExtend
  split
  · exact sorted
  · rename_i wider
    have positive := sorted.one_le_bits
    cases v with
    | concrete | unknown => exact one_le_of_lt_of_not_le positive wider
    | symbolic ast bits taint =>
      simp only [SymValue.bits] at wider positive
      refine ⟨by omega, ?_⟩
      rw [Z3.size_zeroExt, sorted.2]
      omega

end SymValue

end R2Sleigh.Sym
