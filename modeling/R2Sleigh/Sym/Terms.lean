import R2Sleigh.Sym.Arith

/-!
Contract: the terms that operations on symbolic values build.

A value stands for `Z3.value m (v.toBv n)`, which is what it denotes if it denotes
anything, and a constant made fresh for this use if it is unknown.
-/

namespace R2Sleigh.Sym

open Ssa

namespace SymValue

variable {BV Formula Model : Type}

section Operands

variable [Z3Arith BV Formula Model] {a b : SymValue BV}

/-- The terms of two values have one width and the values of these. -/
theorem normalizeWidths_spec (sortedA : a.WellSorted) (sortedB : b.WellSorted) (n : Nat) :
    ∃ s t : BV, normalizeWidths a b n = ((s, t, max a.bits b.bits), n + 2) ∧
      Z3.size s = max a.bits b.bits ∧ Z3.size t = max a.bits b.bits ∧
      ∀ m : Model, Z3.value m s = Z3.value m (a.toBv n) ∧
        Z3.value m t = Z3.value m (b.toBv (n + 1)) := by
  have sizeA := size_toBv sortedA n
  have sizeB := size_toBv sortedB (n + 1)
  rcases Nat.lt_trichotomy a.bits b.bits with narrow | same | wide
  · refine ⟨Z3.zeroExt (a.toBv n) (b.bits - a.bits), b.toBv (n + 1), ?_, ?_, ?_, fun m => ?_⟩
    · simp [normalizeWidths, normalizeWith, nextFresh, bind, StateT.bind, pure, stateT_pure,
        Nat.ne_of_lt narrow, Nat.not_lt.mpr (Nat.le_of_lt narrow),
        max_eq_right (Nat.le_of_lt narrow)]
    · rw [Z3.size_zeroExt, sizeA]
      omega
    · omega
    · exact ⟨Z3.value_zeroExt m _ _, rfl⟩
  · refine ⟨a.toBv n, b.toBv (n + 1), ?_, ?_, ?_, fun m => ⟨rfl, rfl⟩⟩
    · simp [normalizeWidths, normalizeWith, nextFresh, bind, StateT.bind, pure, stateT_pure, same]
    · omega
    · omega
  · refine ⟨a.toBv n, Z3.zeroExt (b.toBv (n + 1)) (a.bits - b.bits), ?_, ?_, ?_, fun m => ?_⟩
    · simp [normalizeWidths, normalizeWith, nextFresh, bind, StateT.bind, pure, stateT_pure,
        Nat.ne_of_gt wide, wide, max_eq_left (Nat.le_of_lt wide)]
    · omega
    · rw [Z3.size_zeroExt, sizeB]
      omega
    · exact ⟨rfl, Z3.value_zeroExt m _ _⟩

/-- The amount of a shift keeps its value modulo two to the width of the value
shifted. -/
theorem normalizeShiftAmount_spec {value amount : SymValue BV} (sorted : value.WellSorted)
    (amountSorted : amount.WellSorted) (n : Nat) :
    ∃ t : BV, normalizeShiftAmount value amount n = (t, n + 1) ∧ Z3.size t = value.bits ∧
      ∀ m : Model, Z3.value m t = Z3.value m (amount.toBv n) % 2 ^ value.bits := by
  have positive := sorted.one_le_bits
  have size := size_toBv amountSorted n
  have below : ∀ m : Model, Z3.value m (amount.toBv n) < 2 ^ amount.bits := fun m => by
    rw [← size]
    exact Z3.value_lt m _
  rcases Nat.lt_trichotomy amount.bits value.bits with narrow | same | wide
  · refine ⟨Z3.zeroExt (amount.toBv n) (value.bits - amount.bits), ?_, ?_, fun m => ?_⟩
    · simp [normalizeShiftAmount, nextFresh, bind, StateT.bind, pure, stateT_pure,
        Nat.ne_of_lt narrow, narrow]
    · rw [Z3.size_zeroExt, size]
      omega
    · have fits := lt_of_lt_of_le (below m) (Nat.pow_le_pow_right (by decide) (Nat.le_of_lt narrow))
      rw [Z3.value_zeroExt, Nat.mod_eq_of_lt fits]
  · refine ⟨amount.toBv n, ?_, by omega, fun m => ?_⟩
    · simp [normalizeShiftAmount, nextFresh, bind, StateT.bind, pure, stateT_pure, same]
    · rw [← same, Nat.mod_eq_of_lt (below m)]
  · have covered : value.bits - 1 < Z3.size (amount.toBv n) := by omega
    refine ⟨Z3.extract (amount.toBv n) (value.bits - 1) 0, ?_, ?_, fun m => ?_⟩
    · simp [normalizeShiftAmount, nextFresh, bind, StateT.bind, pure, stateT_pure,
        Nat.ne_of_gt wide, Nat.not_lt.mpr (Nat.le_of_lt wide)]
    · rw [Z3.size_extract _ _ _ (Nat.zero_le _) covered]
      omega
    · rw [Z3.value_extract m _ _ _ (Nat.zero_le _) covered, Nat.sub_zero,
        Nat.sub_add_cancel positive, Nat.pow_zero, Nat.div_one]

end Operands

section Results

variable [Z3Arith BV Formula Model] {a b v : SymValue BV}

/-- The term of an operation on two values. -/
def combineTerm (op : BvOp) (a b : SymValue BV) : Fresh (SymValue BV) := do
  let (aBv, bBv, resultBits) ← normalizeWidths a b
  return .symbolic (Z3Arith.binary op aBv bBv) resultBits (a.getTaint ||| b.getTaint)

theorem combine_eq_combineTerm (op : BvOp) (fold : Word → Word → Nat → Word → SymValue BV)
    (notBoth : a.isConcrete = false ∨ b.isConcrete = false) :
    combine op fold a b = combineTerm op a b := by
  cases a with
  | concrete x xBits tx =>
    cases b with
    | concrete y yBits ty => simp [isConcrete, asConcrete] at notBoth
    | symbolic _ _ _ => rfl
    | unknown _ _ => rfl
  | symbolic _ _ _ => rfl
  | unknown _ _ => rfl

theorem combineTerm_spec (op : BvOp) (sortedA : a.WellSorted) (sortedB : b.WellSorted) (n : Nat) :
    ∃ t : BV, combineTerm op a b n =
        (.symbolic t (max a.bits b.bits) (a.getTaint ||| b.getTaint), n + 2) ∧
      Z3.size t = max a.bits b.bits ∧
      ∀ m : Model, Z3.value m t =
        (op.apply (BitVec.ofNat (max a.bits b.bits) (Z3.value m (a.toBv n)))
          (BitVec.ofNat _ (Z3.value m (b.toBv (n + 1))))).toNat := by
  obtain ⟨s, t, normalized, sizeS, sizeT, values⟩ := normalizeWidths_spec sortedA sortedB n
  refine ⟨Z3Arith.binary op s t, ?_, Z3Arith.size_binary op s t _ sizeS sizeT, fun m => ?_⟩
  · simp only [combineTerm, bind, StateT.bind, normalized, pure, stateT_pure]
  · rw [Z3Arith.value_binary m op s t _ sizeS sizeT, Z3.word, Z3.word, (values m).1, (values m).2]

theorem value_flag (cond : Formula) (m : Model) [Decidable (Z3.holds BV m cond)] :
    Z3.value m (Z3.ite cond (Z3.fromU64 1 1) (Z3.fromU64 0 1) : BV) =
      (ofBool (decide (Z3.holds BV m cond))).toNat := by
  have sizes : Z3.size (Z3.fromU64 1 1 : BV) = Z3.size (Z3.fromU64 0 1 : BV) := by
    rw [Z3.size_fromU64, Z3.size_fromU64]
  by_cases holds : Z3.holds BV m cond
  · rw [Z3.value_ite_of_holds m _ _ _ sizes holds, Z3.value_fromU64, decide_eq_true holds]
    rfl
  · rw [Z3.value_ite_of_not m _ _ _ sizes holds, Z3.value_fromU64, decide_eq_false holds]
    rfl

theorem size_flag (cond : Formula) :
    Z3.size (Z3.ite cond (Z3.fromU64 1 1) (Z3.fromU64 0 1) : BV) = 1 := by
  rw [Z3.size_ite _ _ _ (by rw [Z3.size_fromU64, Z3.size_fromU64]), Z3.size_fromU64]

/-- The term of a comparison of two values. -/
def compareTerm (term : BV → BV → Formula) (a b : SymValue BV) : Fresh (SymValue BV) := do
  let (aBv, bBv, _) ← normalizeWidths a b
  return flag (term aBv bBv) (a.getTaint ||| b.getTaint)

theorem compareWith_eq_compareTerm (term : BV → BV → Formula) (fold : Word → Word → Bool)
    (notBoth : a.isConcrete = false ∨ b.isConcrete = false) :
    compareWith term fold a b = compareTerm term a b := by
  cases a with
  | concrete x xBits tx =>
    cases b with
    | concrete y yBits ty => simp [isConcrete, asConcrete] at notBoth
    | symbolic _ _ _ => rfl
    | unknown _ _ => rfl
  | symbolic _ _ _ => rfl
  | unknown _ _ => rfl

theorem compareTerm_spec (term : BV → BV → Formula) (sortedA : a.WellSorted)
    (sortedB : b.WellSorted) (n : Nat) :
    ∃ s t : BV, compareTerm term a b n =
        (flag (term s t) (a.getTaint ||| b.getTaint), n + 2) ∧
      Z3.size s = max a.bits b.bits ∧ Z3.size t = max a.bits b.bits ∧
      ∀ m : Model, Z3.value m s = Z3.value m (a.toBv n) ∧
        Z3.value m t = Z3.value m (b.toBv (n + 1)) := by
  obtain ⟨s, t, normalized, sizeS, sizeT, values⟩ := normalizeWidths_spec sortedA sortedB n
  refine ⟨s, t, ?_, sizeS, sizeT, values⟩
  simp only [compareTerm, bind, StateT.bind, normalized, pure, stateT_pure]

theorem transform_term (op : BvUnary) (fold : Word → Word) (notConcrete : v.isConcrete = false)
    (sorted : v.WellSorted) (n : Nat) :
    ∃ t : BV, transform op fold v n = (.symbolic t v.bits v.getTaint, n + 1) ∧
      Z3.size t = v.bits ∧
      ∀ m : Model, Z3.value m t =
        (op.apply (BitVec.ofNat v.bits (Z3.value m (v.toBv n)))).toNat := by
  refine ⟨Z3Arith.unary op (v.toBv n), ?_, ?_, fun m => ?_⟩
  · cases v with
    | concrete word bits taint => simp [isConcrete, asConcrete] at notConcrete
    | symbolic _ _ _ => rfl
    | unknown _ _ => rfl
  · rw [Z3Arith.size_unary, size_toBv sorted]
  · rw [Z3Arith.value_unary, Z3.word, size_toBv sorted]

theorem shiftTerm_spec (op : BvOp) {value amount : SymValue BV} (sorted : value.WellSorted)
    (amountSorted : amount.WellSorted) (n : Nat) :
    ∃ t : BV, shiftTerm op value amount n =
        (.symbolic t value.bits (value.getTaint ||| amount.getTaint), n + 2) ∧
      Z3.size t = value.bits ∧
      ∀ m : Model, Z3.value m t =
        (op.apply (BitVec.ofNat value.bits (Z3.value m (value.toBv n)))
          (BitVec.ofNat _ (Z3.value m (amount.toBv (n + 1))))).toNat := by
  obtain ⟨t, normalized, size, values⟩ := normalizeShiftAmount_spec sorted amountSorted (n + 1)
  refine ⟨Z3Arith.binary op (value.toBv n) t, ?_,
    Z3Arith.size_binary op _ _ _ (size_toBv sorted n) size, fun m => ?_⟩
  · simp only [shiftTerm, nextFresh, bind, StateT.bind, normalized, pure, stateT_pure]
  · have reduced : BitVec.ofNat value.bits (Z3.value m (amount.toBv (n + 1)) % 2 ^ value.bits) =
        BitVec.ofNat value.bits (Z3.value m (amount.toBv (n + 1))) := by
      apply BitVec.eq_of_toNat_eq
      rw [BitVec.toNat_ofNat, BitVec.toNat_ofNat, Nat.mod_mod]
    rw [Z3Arith.value_binary m op _ _ _ (size_toBv sorted n) size, Z3.word, Z3.word, values m,
      reduced]

end Results

end SymValue

end R2Sleigh.Sym
