import R2Sleigh.Ssa.Simplify
import R2Sleigh.Ssa.SccpFixpoint

/-!
Contract: instruction combining agrees with the constant evaluator.
-/

namespace R2Sleigh.Ssa

open Il Lib Option Except

variable {checks : Bool} {consts : VarKey → Option Word}
variable {dst src : SSAVar} {op op' : SSAOp} {value c : Word}

/-! ## Copies -/

theorem evalConstOp_copy {x : Word} (reads : constForVar src consts = some x) :
    evalConstOp checks (.Copy dst src) consts =
      .ok (some (x &&& maskForBits (bitsOf dst.size))) := by
  simp only [evalConstOp, SSAOp.dst, evalUnmasked, reads]
  rfl

theorem and_mask_self (x mask : Word) : x &&& mask &&& mask = x &&& mask := by
  rw [BitVec.and_assoc, BitVec.and_self]

private theorem evalConstOp_makeConst (dst : SSAVar) (val : Word) :
    evalConstOp checks (makeConst dst val) consts =
      .ok (some (val &&& maskForBits (bitsOf dst.size))) := by
  rw [makeConst, evalConstOp_copy (constForVar_of_constValue (constValue_constant _ _)),
    and_mask_self]

theorem evalConstOp_eq_of_dst {v : Word} (isDst : op.dst = some dst)
    (folds : evalConstOp checks op consts = .ok (some v)) :
    ∃ raw, evalUnmasked checks (bitsOf dst.size) consts op = .ok (some raw) ∧
      v = raw &&& maskForBits (bitsOf dst.size) := by
  rw [evalConstOp, isDst] at folds
  dsimp only at folds
  cases unmasked : evalUnmasked checks (bitsOf dst.size) consts op with
  | error panic =>
    rw [unmasked] at folds
    cases folds
  | ok result =>
    rw [unmasked] at folds
    cases result with
    | none => cases folds
    | some raw => exact ⟨raw, rfl, (some.inj (ok.inj folds)).symm⟩

/-! ## Binary operations -/

section Binary

variable {dst a b : SSAVar} {x y raw : Word} {op' : SSAOp}

private theorem foldBoth_value {op : BinaryOp} (first : constForVar a consts = some x)
    (second : constForVar b consts = some y)
    (computes : evalBinary checks (bitsOf dst.size) x y op = .ok (some raw))
    (folds : foldBoth checks dst a b op = .ok (some op')) : op' = makeConst dst raw := by
  unfold foldBoth at folds
  split at folds
  · rename_i av bv isFirst isSecond
    rw [constForVar_of_constValue isFirst] at first
    rw [constForVar_of_constValue isSecond] at second
    cases first
    cases second
    rw [foldLiterals_eq, computes] at folds
    exact (some.inj (ok.inj folds)).symm
  · cases folds

/-- The operation is a copy that has the value of the original. -/
def CopiesValue (checks : Bool) (consts : VarKey → Option Word) (dst : SSAVar)
    (raw : Word) (op' : SSAOp) : Prop :=
  evalConstOp checks op' consts = .ok (some (raw &&& maskForBits (bitsOf dst.size)))

theorem copiesValue_copy (reads : constForVar src consts = some value)
    (same : value &&& maskForBits (bitsOf dst.size) = raw &&& maskForBits (bitsOf dst.size)) :
    CopiesValue checks consts dst raw (.Copy dst src) := by
  rw [CopiesValue, evalConstOp_copy reads, same]

theorem copiesValue_makeConst
    (same : value &&& maskForBits (bitsOf dst.size) = raw &&& maskForBits (bitsOf dst.size)) :
    CopiesValue checks consts dst raw (makeConst dst value) := by
  rw [CopiesValue, evalConstOp_makeConst, same]

theorem value_of_literal {var : SSAVar} (reads : constForVar var consts = some value)
    (literal : constValue var = some c) : value = c := by
  rw [constForVar_of_constValue literal] at reads
  exact (some.inj reads).symm

theorem signExtend_and_mask (value : Word) (bits : Nat) :
    signExtend value bits &&& maskForBits bits = value &&& maskForBits bits := by
  by_cases none : bits = 0
  · simp [none, maskForBits]
  · by_cases wide : 64 ≤ bits
    · rw [signExtend, if_neg none, if_pos wide]
    · apply BitVec.eq_of_getLsbD_eq
      intro i inside
      rw [BitVec.getLsbD_and, BitVec.getLsbD_and, getLsbD_maskForBits (by omega),
        signExtend_eq value (Nat.pos_of_ne_zero none) (by omega), BitVec.getLsbD_signExtend]
      by_cases low : i < bits
      · simp [low, inside]
      · simp [low]

private theorem signExtend_one {bits : Nat} (bytes : 8 ≤ bits) : signExtend 1 bits = 1 := by
  by_cases wide : 64 ≤ bits
  · rw [signExtend, if_neg (by omega), if_pos wide]
  · have narrow : signExtend 1 bits = ((1 : Word).setWidth bits).signExtend 64 :=
      signExtend_eq 1 (by omega) (by omega)
    rw [narrow]
    apply BitVec.eq_of_toInt_eq
    rw [BitVec.toInt_signExtend_of_le (by omega), BitVec.toInt_eq_toNat_of_lt, BitVec.toNat_setWidth]
    · have power : 2 ^ 8 ≤ 2 ^ bits := Nat.pow_le_pow_right (by decide) bytes
      have one : (1 : Word).toNat = 1 := rfl
      rw [one, Nat.mod_eq_of_lt (by omega)]
      rfl
    · have power : 2 ^ 8 ≤ 2 ^ bits := Nat.pow_le_pow_right (by decide) bytes
      have one : (1 : Word).toNat = 1 := rfl
      rw [BitVec.toNat_setWidth, one, Nat.mod_eq_of_lt (by omega)]
      omega

private theorem bitsOf_cases (size : Nat) : bitsOf size = 0 ∨ 8 ≤ bitsOf size := by
  unfold bitsOf
  omega

theorem returned_copy (reads : constForVar src consts = some value)
    (returns : (ok (some (.Copy dst src)) : Except Panic (Option SSAOp)) = .ok (some op'))
    (same : value &&& maskForBits (bitsOf dst.size) = raw &&& maskForBits (bitsOf dst.size)) :
    CopiesValue checks consts dst raw op' := by
  obtain rfl := some.inj (ok.inj returns)
  exact copiesValue_copy reads same

theorem returned_makeConst
    (returns : (ok (some (makeConst dst value)) : Except Panic (Option SSAOp)) = .ok (some op'))
    (same : value &&& maskForBits (bitsOf dst.size) = raw &&& maskForBits (bitsOf dst.size)) :
    CopiesValue checks consts dst raw op' := by
  obtain rfl := some.inj (ok.inj returns)
  exact copiesValue_makeConst same

theorem ok_some_inj
    (same : (ok (some value) : Except Panic (Option Word)) = .ok (some raw)) :
    value = raw := some.inj (ok.inj same)

private theorem simplifyBinary_value {op : BinaryOp} (first : constForVar a consts = some x)
    (second : constForVar b consts = some y)
    (computes : evalBinary checks (bitsOf dst.size) x y op = .ok (some raw))
    (simplified : simplifyBinary checks dst a b op = .ok (some op')) :
    CopiesValue checks consts dst raw op' := by
  have folded : foldBoth checks dst a b op = .ok (some op') →
      CopiesValue checks consts dst raw op' := by
    intro folds
    rw [foldBoth_value first second computes folds]
    exact copiesValue_makeConst rfl
  have sameValue : a = b → x = y := by
    rintro rfl
    rw [first] at second
    exact some.inj second
  unfold simplifyBinary at simplified
  cases op with
  | IntAdd | IntOr =>
    obtain rfl := ok_some_inj computes
    dsimp only at simplified
    split_ifs at simplified with left right
    · refine returned_copy second simplified ?_
      rw [value_of_literal first left]
      simp
    · refine returned_copy first simplified ?_
      rw [value_of_literal second right]
      simp
    · exact folded simplified
  | IntSub =>
    obtain rfl := ok_some_inj computes
    dsimp only at simplified
    split_ifs at simplified with right same
    · refine returned_copy first simplified ?_
      rw [value_of_literal second right, sub_zero]
    · refine returned_makeConst simplified ?_
      rw [sameValue same, sub_self]
    · exact folded simplified
  | IntMult =>
    obtain rfl := ok_some_inj computes
    dsimp only at simplified
    split_ifs at simplified with zero left right
    · refine returned_makeConst simplified ?_
      rcases zero with left | right
      · rw [value_of_literal first left, zero_mul]
      · rw [value_of_literal second right, mul_zero]
    · refine returned_copy second simplified ?_
      rw [value_of_literal first left, one_mul]
    · refine returned_copy first simplified ?_
      rw [value_of_literal second right, mul_one]
    · exact folded simplified
  | IntDiv =>
    dsimp only at simplified
    split_ifs at simplified with right
    · refine returned_copy first simplified ?_
      rw [value_of_literal second right] at computes
      obtain rfl := ok_some_inj computes
      exact congrArg (· &&& _) (BitVec.udiv_one).symm
    · exact folded simplified
  | IntSDiv =>
    dsimp only at simplified
    split_ifs at simplified with right
    · refine returned_copy first simplified ?_
      rw [value_of_literal second right, evalBinary, if_neg (by decide)] at computes
      rcases bitsOf_cases dst.size with none | bytes
      · simp [none, maskForBits]
      · rw [signExtend_one bytes, signedDivision, if_neg (by decide),
          if_neg (fun least => absurd least.2 (by decide))] at computes
        obtain rfl := ok_some_inj computes
        have whole : (signExtend x (bitsOf dst.size)).sdiv 1 = signExtend x (bitsOf dst.size) :=
          BitVec.sdiv_one
        rw [whole, signExtend_and_mask]
    · exact folded simplified
  | IntAnd =>
    obtain rfl := ok_some_inj computes
    dsimp only at simplified
    split_ifs at simplified with zero both left right
    · refine returned_makeConst simplified ?_
      rcases zero with left | right
      · rw [value_of_literal first left]
        simp
      · rw [value_of_literal second right]
        simp
    · exact folded simplified
    · refine returned_copy second simplified ?_
      rw [value_of_literal first left, BitVec.and_comm _ y, and_mask_self]
    · refine returned_copy first simplified ?_
      rw [value_of_literal second right, and_mask_self]
    · cases simplified
  | IntXor =>
    obtain rfl := ok_some_inj computes
    dsimp only at simplified
    split_ifs at simplified with left right both same
    · refine returned_copy second simplified ?_
      rw [value_of_literal first left]
      simp
    · refine returned_copy first simplified ?_
      rw [value_of_literal second right]
      simp
    · exact folded simplified
    · refine returned_makeConst simplified ?_
      rw [sameValue same]
      simp
    · cases simplified
  | IntLeft | IntRight | IntSRight =>
    dsimp only at simplified
    split_ifs at simplified with both right
    · exact folded simplified
    · refine returned_copy first simplified ?_
      rw [value_of_literal second right, evalBinary] at computes
      split_ifs at computes
      · cases computes
      · try rw [rightShift, if_neg (by simp)] at computes
        obtain rfl := ok_some_inj computes
        simp [signExtend_and_mask]
    · cases simplified
  | IntEqual | IntNotEqual | IntLess | IntLessEqual | IntSLess | IntSLessEqual =>
    obtain rfl := ok_some_inj computes
    dsimp only at simplified
    split_ifs at simplified with same
    · refine returned_makeConst simplified ?_
      rw [sameValue same]
      simp [sameOperands, BitVec.ult, BitVec.ule, BitVec.slt, BitVec.sle]
    · exact folded simplified
  | BoolAnd | BoolOr =>
    obtain rfl := ok_some_inj computes
    dsimp only at simplified
    split_ifs at simplified with both decided
    · exact folded simplified
    · refine returned_makeConst simplified ?_
      rcases decided with left | right
      · rw [value_of_literal first left]
        rfl
      · rw [value_of_literal second right]
        simp [ofBool]
    · cases simplified
  | IntRem | IntSRem | BoolXor => exact folded simplified
  | _ => cases simplified

end Binary

/-! ## Operations -/

theorem simplifyUnary_value {op : UnaryOp} {x raw : Word} (reads : constForVar src consts = some x)
    (computes : evalUnary (bitsOf dst.size) (bitsOf src.size) x op = some raw)
    (simplified : simplifyUnary dst src op = some op') :
    CopiesValue checks consts dst raw op' := by
  cases literal : constValue src with
  | some val =>
    obtain rfl := value_of_literal reads literal
    cases op <;> simp only [simplifyUnary, literal, map_some, reduceCtorEq] at simplified <;>
      (cases simplified; cases computes; exact copiesValue_makeConst rfl)
  | none =>
    cases op with
    | IntZExt =>
      simp only [simplifyUnary, literal] at simplified
      split_ifs at simplified
      cases simplified
      cases computes
      exact copiesValue_copy reads rfl
    | IntSExt =>
      simp only [simplifyUnary, literal] at simplified
      split_ifs at simplified with sameSize
      cases simplified
      cases computes
      refine copiesValue_copy reads ?_
      rw [sameSize, signExtend_and_mask]
    | _ => simp [simplifyUnary, literal] at simplified

/-- What the simplified operation folds to is what the original does. -/
theorem simplifyOp_value {v : Word} (simplified : simplifyOp checks op = .ok (some op'))
    (folds : evalConstOp checks op consts = .ok (some v)) :
    evalConstOp checks op' consts = .ok (some v) := by
  cases op with
  | binary kind dst a b =>
    obtain ⟨raw, computes, rfl⟩ := evalConstOp_eq_of_dst rfl folds
    simp only [evalUnmasked] at computes
    split at computes
    · rename_i x y first second
      exact simplifyBinary_value first second computes simplified
    · cases computes
  | unary kind dst src =>
    obtain ⟨raw, computes, rfl⟩ := evalConstOp_eq_of_dst rfl folds
    obtain ⟨x, reads, arm⟩ := bind_eq_some_iff.mp (ok.inj computes)
    exact simplifyUnary_value reads arm (ok.inj simplified)
  | Piece dst hi lo =>
    obtain ⟨raw, computes, rfl⟩ := evalConstOp_eq_of_dst rfl folds
    simp only [simplifyOp] at simplified
    split at simplified
    · rename_i h l first second
      split_ifs at simplified with wide
      · cases simplified
      · obtain rfl := some.inj (ok.inj simplified)
        simp only [evalUnmasked, constForVar_of_constValue first,
          constForVar_of_constValue second, if_neg wide] at computes
        obtain rfl := ok_some_inj computes
        exact copiesValue_makeConst rfl
    · cases simplified
  | Subpiece dst src offset =>
    obtain ⟨raw, computes, rfl⟩ := evalConstOp_eq_of_dst rfl folds
    obtain ⟨val, literal, arm⟩ := bind_eq_some_iff.mp (ok.inj simplified)
    split_ifs at arm with wide
    cases arm
    simp only [evalUnmasked, constForVar_of_constValue literal, bind_some, if_neg wide] at computes
    obtain rfl := ok_some_inj computes
    exact copiesValue_makeConst rfl
  | PtrAdd dst base index size | PtrSub dst base index size =>
    obtain ⟨raw, computes, rfl⟩ := evalConstOp_eq_of_dst rfl folds
    simp only [simplifyOp] at simplified
    split at simplified
    · rename_i b i first second
      obtain rfl := some.inj (ok.inj simplified)
      simp only [evalUnmasked, constForVar_of_constValue first,
        constForVar_of_constValue second] at computes
      obtain rfl := ok_some_inj computes
      exact copiesValue_makeConst rfl
    · cases simplified
  | _ => cases simplified

/-- A copy to the destination of an operation, from one of its operands or from a
literal. -/
def CopiesOperand (op op' : SSAOp) : Prop :=
  ∃ dst src, op.dst = some dst ∧ op' = .Copy dst src ∧
    (src ∈ op.sources ∨ ∃ val : Word, src = .constant val.toNat dst.size)

theorem copiesOperand_makeConst (isDst : op.dst = some dst)
    (val : Word) : CopiesOperand op (makeConst dst val) :=
  ⟨dst, _, isDst, rfl, Or.inr ⟨_, rfl⟩⟩

private theorem foldBoth_copies {a b : SSAVar} {kind : BinaryOp}
    (folds : foldBoth checks dst a b kind = .ok (some op')) :
    ∃ val, op' = makeConst dst val := by
  unfold foldBoth at folds
  split at folds
  · rename_i av bv _ _
    cases computed : foldLiterals checks (bitsOf dst.size) av bv kind with
    | error panic =>
      rw [computed] at folds
      cases folds
    | ok result =>
      rw [computed] at folds
      cases result with
      | none => cases folds
      | some val => exact ⟨val, (some.inj (ok.inj folds)).symm⟩
  · cases folds

private theorem simplifyBinary_copies {a b : SSAVar} {kind : BinaryOp}
    (simplified : simplifyBinary checks dst a b kind = .ok (some op')) :
    CopiesOperand (.binary kind dst a b) op' := by
  have folded : foldBoth checks dst a b kind = .ok (some op') →
      CopiesOperand (.binary kind dst a b) op' := by
    intro folds
    obtain ⟨val, rfl⟩ := foldBoth_copies folds
    exact copiesOperand_makeConst rfl val
  have left : CopiesOperand (.binary kind dst a b) (.Copy dst a) :=
    ⟨dst, a, rfl, rfl, Or.inl (by simp [SSAOp.sources])⟩
  have right : CopiesOperand (.binary kind dst a b) (.Copy dst b) :=
    ⟨dst, b, rfl, rfl, Or.inl (by simp [SSAOp.sources])⟩
  have literal : ∀ val, CopiesOperand (.binary kind dst a b) (makeConst dst val) :=
    copiesOperand_makeConst rfl
  unfold simplifyBinary at simplified
  cases kind <;> dsimp only at simplified <;> (try split_ifs at simplified) <;>
    first
    | exact folded simplified
    | (cases simplified <;> first | exact left | exact right | exact literal _)

theorem simplifyOp_copies
    (simplified : simplifyOp checks op = .ok (some op')) : CopiesOperand op op' := by
  cases op with
  | binary kind dst a b => exact simplifyBinary_copies simplified
  | unary kind dst src =>
    have self : CopiesOperand (.unary kind dst src) (.Copy dst src) :=
      ⟨dst, src, rfl, rfl, Or.inl (by simp [SSAOp.sources])⟩
    have literal : ∀ val, CopiesOperand (.unary kind dst src) (makeConst dst val) :=
      copiesOperand_makeConst rfl
    have arm : simplifyUnary dst src kind = some op' := ok.inj simplified
    cases known : constValue src with
    | some val =>
      cases kind <;> simp only [simplifyUnary, known, map_some, reduceCtorEq] at arm <;>
        (cases arm; exact literal _)
    | none =>
      cases kind <;> simp only [simplifyUnary, known, map_none, reduceCtorEq] at arm <;>
        (split_ifs at arm; cases arm; exact self)
  | Piece dst hi lo =>
    simp only [simplifyOp] at simplified
    split at simplified
    · split_ifs at simplified
      · cases simplified
      · cases simplified
        exact copiesOperand_makeConst rfl _
    · cases simplified
  | Subpiece dst src offset =>
    obtain ⟨val, _, arm⟩ := bind_eq_some_iff.mp (ok.inj simplified)
    split_ifs at arm
    cases arm
    exact copiesOperand_makeConst rfl _
  | PtrAdd dst base index size | PtrSub dst base index size =>
    simp only [simplifyOp] at simplified
    split at simplified
    · cases simplified
      exact copiesOperand_makeConst rfl _
    · cases simplified
  | _ => cases simplified

/-! ## Lattices -/

def latticeEnv (lattice : Lattice) (key : VarKey) : Option Word :=
  match latticeAt lattice key with
  | .Const c => some c
  | _ => none

private theorem constForVar_latticeEnv {lattice : Lattice} {var : SSAVar}
    (value : getLatticeValue var lattice = .Const c) :
    constForVar var (latticeEnv lattice) = some c := by
  unfold getLatticeValue at value
  unfold constForVar latticeEnv
  cases literal : constValue var with
  | some d =>
    rw [literal] at value
    exact congrArg some (LatticeValue.Const.inj value)
  | none =>
    rw [literal] at value
    dsimp only at value
    rw [value]
    rfl

/-- An operation is constant where its operands are and the evaluator folds
them. -/
theorem evaluateOpSccp_const_iff {lattice : Lattice} :
    evaluateOpSccp checks op lattice = .ok (.Const c) ↔
      isOpaque op = false ∧ (∀ src ∈ op.sources, ∃ d, getLatticeValue src lattice = .Const d) ∧
        evalConstOp checks op (latticeEnv lattice) = .ok (some c) := by
  unfold evaluateOpSccp
  cases opaqueOp : isOpaque op with
  | true => simp
  | false =>
    cases gathered : gatherSources lattice op.sources with
    | none =>
      obtain ⟨src, mem, bottom⟩ := gatherSources_none.mp gathered
      constructor
      · intro isConst
        cases isConst
      · rintro ⟨_, all, _⟩
        obtain ⟨d, value⟩ := all src mem
        rw [bottom] at value
        cases value
    | some pair =>
      obtain ⟨hasTop, tempConsts⟩ := pair
      obtain ⟨top, stored⟩ := gatherSources_some gathered
      dsimp only
      cases hasTop with
      | true =>
        obtain ⟨src, mem, isTop⟩ := top.mp rfl
        constructor
        · intro isConst
          cases isConst
        · rintro ⟨_, all, _⟩
          obtain ⟨d, value⟩ := all src mem
          rw [isTop] at value
          cases value
      | false =>
        have all : ∀ src ∈ op.sources, ∃ d, getLatticeValue src lattice = .Const d := by
          intro src mem
          cases value : getLatticeValue src lattice with
          | Const d => exact ⟨d, rfl⟩
          | Top => exact absurd (top.mpr ⟨src, mem, value⟩) (by simp)
          | Bottom =>
            rw [gatherSources_none.mpr ⟨src, mem, value⟩] at gathered
            cases gathered
        have same : evalConstOp checks op tempConsts.lookup =
            evalConstOp checks op (latticeEnv lattice) := by
          refine evalConstOp_congr fun src mem => ?_
          obtain ⟨d, value⟩ := all src mem
          rw [stored src mem d value, constForVar_latticeEnv value]
        rw [if_neg (by simp), same]
        cases evalConstOp checks op (latticeEnv lattice) with
        | error panic => simp [Except.map]
        | ok result =>
          cases result with
          | none => simp [Except.map]
          | some d =>
            constructor
            · intro isConst
              cases isConst
              exact ⟨rfl, all, rfl⟩
            · rintro ⟨_, _, folds⟩
              cases folds
              rfl

/-- A simplified operation has the destination of the original and the constants
that the evaluator and constant propagation give it. -/
theorem simplifyOp_agrees (op op' : SSAOp)
    (simplified : simplifyOp checks op = .ok (some op')) :
    op'.dst = op.dst ∧
      (∀ (consts : VarKey → Option Word) (v : Word),
        evalConstOp checks op consts = .ok (some v) →
          evalConstOp checks op' consts = .ok (some v)) ∧
      ∀ (lattice : Lattice) (c : Word), evaluateOpSccp checks op lattice = .ok (.Const c) →
        evaluateOpSccp checks op' lattice = .ok (.Const c) := by
  obtain ⟨dst, src, isDst, rfl, source⟩ := simplifyOp_copies simplified
  refine ⟨isDst.symm, fun consts v folds => simplifyOp_value simplified folds, ?_⟩
  intro lattice c isConst
  obtain ⟨_, all, folds⟩ := evaluateOpSccp_const_iff.mp isConst
  refine evaluateOpSccp_const_iff.mpr ⟨rfl, ?_, simplifyOp_value simplified folds⟩
  intro src' mem
  obtain rfl := List.mem_singleton.mp mem
  rcases source with operand | ⟨val, rfl⟩
  · exact all src' operand
  · exact ⟨val, by rw [getLatticeValue, constValue_constant]⟩

/-- Adding zero to a narrower operand. -/
theorem simplifyOp_agrees_addZero :
    simplifyOp false (.binary .IntAdd ⟨"x", 1, 8⟩ ⟨"y", 0, 4⟩ ⟨"const:0", 0, 8⟩) =
      .ok (some (.Copy ⟨"x", 1, 8⟩ ⟨"y", 0, 4⟩)) ∧
    evalConstOp false (.Copy ⟨"x", 1, 8⟩ ⟨"y", 0, 4⟩) (fun _ => some 7) = .ok (some 7) := by
  have simplified : simplifyOp false (.binary .IntAdd ⟨"x", 1, 8⟩ ⟨"y", 0, 4⟩ ⟨"const:0", 0, 8⟩) =
      .ok (some (.Copy ⟨"x", 1, 8⟩ ⟨"y", 0, 4⟩)) := by decide +kernel
  exact ⟨simplified, (simplifyOp_agrees _ _ simplified).2.1 (fun _ => some 7) 7 (by decide +kernel)⟩

end R2Sleigh.Ssa
