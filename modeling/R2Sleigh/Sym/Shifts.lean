import R2Sleigh.Sym.FastPaths

/-!
Contract: shifts of symbolic values.

Owns `Shift`.

Two constants are shifted as words, by the amount modulo 64, or not at all where
overflow is checked and the amount is 64 or more in its low 32 bits. An amount that
is wider than the value is cut to the width of the value in a term.
-/

namespace R2Sleigh.Sym

open Ssa Option BitVec

inductive Shift where
  | shl
  | lshr
  | ashr
deriving DecidableEq, Repr

namespace Shift

variable {w : Nat}

/-- The value shifted by the full amount. -/
def apply : Shift → BitVec w → Nat → BitVec w
  | .shl, x, amount => x <<< amount
  | .lshr, x, amount => x >>> amount
  | .ashr, x, amount => x.sshiftRight amount

/-- What is left once the amount reaches the width. -/
def fill : Shift → BitVec w → BitVec w
  | .shl, _ | .lshr, _ => 0
  | .ashr, x => if x.msb then BitVec.allOnes w else 0

theorem apply_of_le (shift : Shift) (x : BitVec w) {amount : Nat} (reached : w ≤ amount) :
    shift.apply x amount = shift.fill x := by
  cases shift with
  | shl => exact shiftLeft_eq_zero reached
  | lshr => exact ushiftRight_eq_zero reached
  | ashr =>
    apply eq_of_getLsbD_eq
    intro i inside
    have beyond : ¬ amount + i < w := by omega
    rw [apply, fill, getLsbD_sshiftRight]
    cases x.msb <;> simp [beyond, inside]

def op : Shift → BvOp
  | .shl => .bvshl
  | .lshr => .bvlshr
  | .ashr => .bvashr

private theorem op_apply (shift : Shift) (x : BitVec w) (amount : Nat) :
    shift.op.apply x (BitVec.ofNat w amount) = shift.apply x (amount % 2 ^ w) := by
  have toNat : (BitVec.ofNat w amount).toNat = amount % 2 ^ w := toNat_ofNat _ _
  cases shift with
  | shl | lshr | ashr => rw [apply, ← toNat]; rfl

variable {BV Formula Model : Type} [Z3Arith BV Formula Model]

def run (checks : Bool) : Shift → SymValue BV → SymValue BV → Exec (SymValue BV)
  | .shl => SymValue.shl checks
  | .lshr => SymValue.lshr checks
  | .ashr => fun value amount => value.ashr amount

def words (shift : Shift) (value amount : SymValue BV) : Option (Word × Word) :=
  match shift with
  | .ashr => none
  | .shl | .lshr => value.asConcrete.bind fun word => amount.asConcrete.map fun amt => (word, amt)

end Shift

section Words

variable {BV Formula Model : Type} [Z3Arith BV Formula Model]

def ShiftTraps (checks : Bool) (amount : Word) : Prop :=
  checks = true ∧ 64 ≤ amount.toNat % 2 ^ 32

private theorem shiftWord_of_traps {checks : Bool} {amount : Word}
    (traps : ShiftTraps checks amount) (apply : Word → Nat → Word) (word : Word) (n : Nat) :
    SymValue.shiftWord checks apply word amount n = .error .shiftOverflow := by
  have traps : checks = true ∧ 64 ≤ amount.toNat % 2 ^ 32 := traps
  rw [SymValue.shiftWord, if_pos traps]
  rfl

theorem shiftWord_of_not_traps {checks : Bool} {amount : Word}
    (runs : ¬ ShiftTraps checks amount) (apply : Word → Nat → Word) (word : Word)
    (n : Nat) : SymValue.shiftWord checks apply word amount n =
      .ok (apply word (amount.toNat % 64), n) := by
  have reduced : amount.toNat % 2 ^ 32 % 64 = amount.toNat % 64 := Nat.mod_mod_of_dvd _ (by decide)
  have runs : ¬ (checks = true ∧ 64 ≤ amount.toNat % 2 ^ 32) := runs
  rw [SymValue.shiftWord, if_neg runs, reduced]
  rfl

section

variable {checks : Bool} {shift : Shift} (value amount : Constant) (onWords : shift ≠ .ashr)
include value amount onWords

theorem shift_concrete
    (runs : ¬ ShiftTraps checks amount.word) :
    HoldsLow (shift.run checks (value.concrete : SymValue BV) amount.concrete) value.bits
      (shift.apply (value.wide value.bits) (amount.word.toNat % 64)).toNat := by
  have self : (value.wide value.bits).toNat = value.word.toNat := value.toNat_wide (Nat.le_refl _)
  intro n
  cases shift with
  | ashr => exact absurd rfl onWords
  | shl =>
    refine ⟨(value.word <<< (amount.word.toNat % 64)) &&& SymValue.lowMask value.bits,
      value.taint ||| amount.taint, ?_, ?_⟩
    · simp only [Shift.run, Constant.concrete, SymValue.shl, bind, StateT.bind, Except.bind,
        shiftWord_of_not_traps runs]
      rfl
    · rw [toNat_masked, Shift.apply, toNat_shiftLeft, toNat_shiftLeft, self,
        mod_pow_mod_pow, mod_pow_mod_pow, min_comm]
  | lshr =>
    refine ⟨value.word >>> (amount.word.toNat % 64), value.taint ||| amount.taint, ?_, ?_⟩
    · simp only [Shift.run, Constant.concrete, SymValue.lshr, bind, StateT.bind, Except.bind,
        shiftWord_of_not_traps runs]
      rfl
    · have same : (value.word >>> (amount.word.toNat % 64)).toNat =
          (value.wide value.bits >>> (amount.word.toNat % 64)).toNat := by
        rw [toNat_ushiftRight, toNat_ushiftRight, self]
      rw [Shift.apply, ← same, Nat.mod_eq_of_lt (BitVec.isLt _)]

theorem shift_traps
    (traps : ShiftTraps checks amount.word) (n : Nat) :
    shift.run checks (value.concrete : SymValue BV) amount.concrete n =
      .error .shiftOverflow := by
  cases shift with
  | ashr => exact absurd rfl onWords
  | shl | lshr =>
    simp only [Shift.run, Constant.concrete, SymValue.shl, SymValue.lshr, bind, StateT.bind,
      Except.bind, shiftWord_of_traps traps]

end

/-- Other operands are shifted as terms, by the amount modulo two to the width. -/
theorem shift_term (checks : Bool) {shift : Shift} {value amount : SymValue BV}
    (noWords : shift.words value amount = none) (sorted : value.WellSorted)
    (amountSorted : amount.WellSorted) (n : Nat) :
    ∃ t taint, shift.run checks value amount n =
        .ok (.symbolic t value.bits taint, n + 2) ∧
      ∀ m : Model, Z3.value m t =
        (shift.apply (BitVec.ofNat value.bits (Z3.value m (value.toBv n)))
          (Z3.value m (amount.toBv (n + 1)) % 2 ^ value.bits)).toNat := by
  obtain ⟨t, computes, -, values⟩ := SymValue.shiftTerm_spec shift.op sorted amountSorted n
  refine ⟨t, value.getTaint ||| amount.getTaint, ?_, fun m => by rw [values m, shift.op_apply]⟩
  rw [← computes]
  cases shift with
  | ashr => rfl
  | shl | lshr =>
    cases value with
    | concrete word bits taint =>
      cases amount with
      | concrete amt amtBits amtTaint => simp [Shift.words, SymValue.asConcrete] at noWords
      | symbolic _ _ _ => rfl
      | unknown _ _ => rfl
    | symbolic _ _ _ => rfl
    | unknown _ _ => rfl

end Words

/-! ## Full amounts -/

section Full

variable {BV Formula Model : Type} [Z3Arith BV Formula Model]

def ShiftsFully (checks : Bool) (shift : Shift) (value amount : SymValue BV) : Prop :=
  ∀ n, ∃ v n', shift.run checks value amount n = .ok (v, n') ∧ v.bits = value.bits ∧
    ∀ (m : Model) x k, value.denote m = some x → amount.denote m = some k →
      v.denote m = some (shift.apply (BitVec.ofNat value.bits x) k).toNat

/-- The shift does not trap, and the amount is one that it shifts by in full, or the
reduced amount already leaves what the full one does. -/
def AmountKept (checks : Bool) (shift : Shift) (value amount : SymValue BV) : Prop :=
  match shift.words value amount with
  | some (word, amt) => ¬ ShiftTraps checks amt ∧
      (amt.toNat < 64 ∨ shift.apply (word.setWidth value.bits) (amt.toNat % 64) =
        shift.fill (word.setWidth value.bits))
  | none => ∀ (m : Model) x k, value.denote m = some x → amount.denote m = some k →
      k < 2 ^ value.bits ∨ shift.apply (BitVec.ofNat value.bits x) (k % 2 ^ value.bits) =
        shift.fill (BitVec.ofNat value.bits x)

/-- A reduced amount serves for the full one if it is the full one or leaves what the
width leaves. -/
theorem apply_reduced_iff (shift : Shift) {w bound : Nat} (x : BitVec w) (amount : Nat)
    (wide : w ≤ bound) :
    shift.apply x (amount % bound) = shift.apply x amount ↔
      amount < bound ∨ shift.apply x (amount % bound) = shift.fill x := by
  by_cases below : amount < bound
  · rw [Nat.mod_eq_of_lt below]
    exact iff_of_true rfl (.inl below)
  · rw [shift.apply_of_le x (wide.trans (Nat.le_of_not_lt below))]
    exact (or_iff_right below).symm

/-- Shifts on terms. -/
theorem shiftsFully_term_iff (checks : Bool) {shift : Shift} {value amount : SymValue BV}
    (noWords : shift.words value amount = none) (sorted : value.WellSorted)
    (amountSorted : amount.WellSorted) :
    ShiftsFully checks shift value amount ↔
      ∀ (m : Model) x k, value.denote m = some x → amount.denote m = some k →
        k < 2 ^ value.bits ∨ shift.apply (BitVec.ofNat value.bits x) (k % 2 ^ value.bits) =
          shift.fill (BitVec.ofNat value.bits x) := by
  have below : value.bits ≤ 2 ^ value.bits := Nat.le_of_lt Nat.lt_two_pow_self
  have shifted : ∀ n, ∃ t taint, shift.run checks value amount n =
      .ok (.symbolic t value.bits taint, n + 2) ∧
      ∀ (m : Model) x k, value.denote m = some x → amount.denote m = some k →
        (SymValue.symbolic t value.bits taint).denote m =
          some (shift.apply (BitVec.ofNat value.bits x) (k % 2 ^ value.bits)).toNat := by
    intro n
    obtain ⟨t, taint, computes, values⟩ := shift_term checks noWords sorted amountSorted n
    refine ⟨t, taint, computes, fun m x k isValue isAmount => ?_⟩
    rw [SymValue.denote, values m, SymValue.value_toBv sorted n isValue,
      SymValue.value_toBv amountSorted (n + 1) isAmount]
  constructor
  · intro full m x k isValue isAmount
    obtain ⟨t, taint, computes, denotes⟩ := shifted 0
    obtain ⟨v, n', ran, -, means⟩ := full 0
    rw [computes] at ran
    obtain ⟨rfl, -⟩ := Prod.mk.inj (Except.ok.inj ran)
    have same := (denotes m x k isValue isAmount).symm.trans (means m x k isValue isAmount)
    exact (apply_reduced_iff shift _ k below).mp (eq_of_toNat_eq (some.inj same))
  · intro kept n
    obtain ⟨t, taint, computes, denotes⟩ := shifted n
    refine ⟨_, _, computes, rfl, fun m x k isValue isAmount => ?_⟩
    rw [denotes m x k isValue isAmount,
      (apply_reduced_iff shift _ k below).mpr (kept m x k isValue isAmount)]

theorem denote_concrete (c : Constant) (m : Model) :
    (c.concrete : SymValue BV).denote m = some c.word.toNat := by
  rw [Constant.concrete, SymValue.denote, Nat.mod_eq_of_lt c.fits]

/-- Shifts on words. -/
theorem shiftsFully_words_iff (checks : Bool) {shift : Shift} (onWords : shift ≠ .ashr)
    (value amount : Constant) (narrow : value.bits ≤ 64) :
    ShiftsFully checks shift (value.concrete : SymValue BV) amount.concrete ↔
      ¬ ShiftTraps checks amount.word ∧ (amount.word.toNat < 64 ∨
        shift.apply (value.wide value.bits) (amount.word.toNat % 64) =
          shift.fill (value.wide value.bits)) := by
  have reduced := apply_reduced_iff shift (value.wide value.bits) amount.word.toNat narrow
  have same : BitVec.ofNat value.bits value.word.toNat = value.wide value.bits := ofNat_toNat _ _
  have denotes : ∀ {result : Word} {taint : Word} (m : Model), result.toNat =
      (shift.apply (value.wide value.bits) (amount.word.toNat % 64)).toNat % 2 ^ 64 →
      (SymValue.concrete result value.bits taint : SymValue BV).denote m =
        some (shift.apply (value.wide value.bits) (amount.word.toNat % 64)).toNat := by
    intro result taint m holds
    have bound := (shift.apply (value.wide value.bits) (amount.word.toNat % 64)).isLt
    have inWord := lt_of_lt_of_le bound (Nat.pow_le_pow_right (by decide) narrow)
    rw [SymValue.denote, holds, Nat.mod_eq_of_lt inWord, Nat.mod_eq_of_lt bound]
  constructor
  · intro full
    obtain ⟨v, n', ran, -, means⟩ := full 0
    have runs : ¬ ShiftTraps checks amount.word := by
      intro traps
      rw [shift_traps value amount onWords traps 0] at ran
      cases ran
    refine ⟨runs, reduced.mp (eq_of_toNat_eq ?_)⟩
    obtain ⟨result, taint, computes, holds⟩ :=
      @shift_concrete BV Formula Model _ checks shift value amount onWords runs 0
    rw [computes] at ran
    obtain ⟨rfl, -⟩ := Prod.mk.inj (Except.ok.inj ran)
    obtain ⟨m, -⟩ : ∃ m : Model, ∀ name bits,
      Z3.value m (Z3.newConst name bits : BV) = 0 % 2 ^ bits := Z3.exists_model fun _ _ => 0
    have meant := means m _ _ (denote_concrete value m) (denote_concrete amount m)
    have width : (value.concrete : SymValue BV).bits = value.bits := rfl
    rw [denotes m holds, width, same] at meant
    exact some.inj meant
  · rintro ⟨runs, kept⟩ n
    obtain ⟨result, taint, computes, holds⟩ :=
      @shift_concrete BV Formula Model _ checks shift value amount onWords runs n
    refine ⟨_, n, computes, rfl, fun m x k isValue isAmount => ?_⟩
    rw [denote_concrete] at isValue isAmount
    cases isValue
    cases isAmount
    have width : (value.concrete : SymValue BV).bits = value.bits := rfl
    rw [denotes m holds, reduced.mpr kept, width, same]

/-- Only two constants have words, and only for the logical shifts. -/
theorem exists_constants {shift : Shift} {value amount : SymValue BV} {word amt : Word}
    (words : shift.words value amount = some (word, amt)) (proper : value.Proper)
    (amountProper : amount.Proper) :
    shift ≠ .ashr ∧ ∃ c k : Constant, value = c.concrete ∧ amount = k.concrete ∧
      c.word = word ∧ k.word = amt := by
  have onWords : shift ≠ .ashr := by
    rintro rfl
    cases words
  have both : (value.asConcrete.bind fun word => amount.asConcrete.map fun amt => (word, amt)) =
      some (word, amt) := by
    cases shift with
    | ashr => exact absurd rfl onWords
    | shl | lshr => exact words
  obtain ⟨word', isWord, rest⟩ := bind_eq_some_iff.mp both
  obtain ⟨amt', isAmt, pair⟩ := map_eq_some_iff.mp rest
  cases pair
  cases value with
  | concrete w bits taint =>
    obtain rfl := some.inj isWord
    cases amount with
    | concrete k amountBits amountTaint =>
      obtain rfl := some.inj isAmt
      exact ⟨onWords, ⟨w, bits, taint, proper.1, proper.2 w rfl⟩,
        ⟨k, amountBits, amountTaint, amountProper.1, amountProper.2 k rfl⟩, rfl, rfl, rfl, rfl⟩
    | symbolic | unknown => cases isAmt
  | symbolic | unknown => cases isWord

/-- A shift returns, and is by the full amount, exactly if the amount is kept. -/
theorem shiftsFully_iff (checks : Bool) (shift : Shift) {value amount : SymValue BV}
    (proper : value.Proper) (amountProper : amount.Proper) (narrow : value.bits ≤ 64) :
    ShiftsFully checks shift value amount ↔
      AmountKept checks shift value amount := by
  unfold AmountKept
  cases words : shift.words value amount with
  | none => exact shiftsFully_term_iff checks words proper.1 amountProper.1
  | some pair =>
    obtain ⟨word, amt⟩ := pair
    obtain ⟨onWords, c, k, rfl, rfl, rfl, rfl⟩ := exists_constants words proper amountProper
    exact shiftsFully_words_iff checks onWords c k narrow

end Full

def oneInFull : Constant := ⟨1, 64, 0, by decide, by decide⟩

def three : Constant := ⟨3, 8, 0, minusOneByte.positive, by decide⟩

def sixtyFour : Constant := ⟨64, 8, 0, minusOneByte.positive, by decide⟩

theorem proper_concrete (c : Constant) : (c.concrete : SymValue Term).Proper :=
  ⟨c.positive, fun word isWord => by
    cases isWord
    exact c.fits⟩

theorem one_shifted_by_three : ShiftsFully true .shl (oneInFull.concrete : SymValue Term)
    three.concrete :=
  (shiftsFully_iff true .shl (proper_concrete oneInFull) (proper_concrete three)
    (Nat.le_refl _)).mpr ⟨by unfold ShiftTraps; decide, .inl (by decide)⟩

/-- A shift by 64 traps where overflow is checked, and elsewhere leaves the value as it
is. -/
theorem one_not_shifted_by_sixtyFour :
    ¬ ShiftsFully true .shl (oneInFull.concrete : SymValue Term) sixtyFour.concrete ∧
    ¬ ShiftsFully false .shl (oneInFull.concrete : SymValue Term) sixtyFour.concrete := by
  have onWords : Shift.shl ≠ .ashr := by decide
  rw [shiftsFully_words_iff true onWords _ _ (Nat.le_refl _),
    shiftsFully_words_iff false onWords _ _ (Nat.le_refl _)]
  unfold ShiftTraps
  decide

end R2Sleigh.Sym
