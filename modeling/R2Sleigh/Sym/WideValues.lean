import R2Sleigh.Sym.Shifts

/-!
Contract: operations on constants of any width.

Owns `WideOp`.
-/

namespace R2Sleigh.Sym

open Ssa BitVec

inductive WideOp (V : Type) where
  | fold (op : Fold V)
  | shift (kind : Shift) (value amount : V)
  | slt (a b : V)
  | sle (a b : V)

namespace WideOp

variable {V W : Type}

def map (f : V → W) : WideOp V → WideOp W
  | .fold op => .fold (op.map f)
  | .shift kind value amount => .shift kind (f value) (f amount)
  | .slt a b => .slt (f a) (f b)
  | .sle a b => .sle (f a) (f b)

def operands : WideOp V → List V
  | .fold op => op.operands
  | .shift _ value amount => [value, amount]
  | .slt a b | .sle a b => [a, b]

def run {BV Formula Model : Type} [Z3Arith BV Formula Model] (checks : Bool) :
    WideOp (SymValue BV) → Exec (SymValue BV)
  | .fold op => op.run checks
  | .shift kind value amount => kind.run checks value amount
  | .slt a b => a.slt b
  | .sle a b => a.sle b

/-- The result as a bitvector of the width. -/
def exact : WideOp Constant → Nat
  | .fold op => op.exact
  | .shift kind value amount => (kind.apply (value.wide value.bits) amount.word.toNat).toNat
  | .slt a b => BinaryFold.compareExact BvRel.bvslt.apply a b
  | .sle a b => BinaryFold.compareExact BvRel.bvsle.apply a b

def width : WideOp Constant → Nat
  | .fold op => op.width
  | .shift _ value _ => value.bits
  | .slt _ _ | .sle _ _ => 1

/-- The operation does not trap; where its result is a constant, the exact result fits
a word; and a shift of words by 64 or more would leave nothing, as the one by the
reduced amount does. -/
def Kept (checks : Bool) : WideOp Constant → Prop
  | .fold op => ¬ (checks = true ∧ op.OverShifts) ∧ (op.StaysConcrete → op.exact < 2 ^ 64)
  | .shift .ashr _ _ => True
  | .shift kind value amount => ¬ ShiftTraps checks amount.word ∧
      (amount.word.toNat < 64 ∧
          (kind.apply (value.wide value.bits) amount.word.toNat).toNat < 2 ^ 64 ∨
        64 ≤ amount.word.toNat ∧
          (kind.apply (value.wide value.bits) (amount.word.toNat % 64)).toNat % 2 ^ 64 = 0 ∧
          kind.apply (value.wide value.bits) amount.word.toNat = 0)
  | .slt _ _ | .sle _ _ => True

end WideOp

section Runs

variable {BV Formula Model : Type} [Z3Arith BV Formula Model]

/-- The computation returns, and a constant that it returns is the exact result. -/
def ExactIfConcrete (run : Exec (SymValue BV)) (width exact : Nat) : Prop :=
  ∀ n, ∃ v n', run n = .ok (v, n') ∧
    ∀ word bits taint, v = .concrete word bits taint → bits = width ∧ word.toNat = exact

/-- The computation returns no constant. -/
def NeverConcrete (run : Exec (SymValue BV)) : Prop :=
  ∀ n, ∃ v n', run n = .ok (v, n') ∧ v.isConcrete = false

variable {run : Exec (SymValue BV)}

theorem NeverConcrete.exactIfConcrete (never : NeverConcrete run)
    (width exact : Nat) : ExactIfConcrete run width exact := by
  intro n
  obtain ⟨v, n', ran, notConcrete⟩ := never n
  refine ⟨v, n', ran, ?_⟩
  rintro word bits taint rfl
  simp [SymValue.isConcrete, SymValue.asConcrete] at notConcrete

theorem exactIfConcrete_low_iff {width low exact : Nat}
    (holdsLow : HoldsLow run width low) :
    ExactIfConcrete run width exact ↔ low % 2 ^ 64 = exact := by
  constructor
  · intro isExact
    obtain ⟨word, taint, ran, holds⟩ := holdsLow 0
    obtain ⟨v, n', ran', same⟩ := isExact 0
    rw [ran] at ran'
    obtain ⟨rfl, -⟩ := Prod.mk.inj (Except.ok.inj ran')
    rw [← holds]
    exact (same word width taint rfl).2
  · intro isExact n
    obtain ⟨word, taint, ran, holds⟩ := holdsLow n
    refine ⟨_, n, ran, fun word' bits taint' isConcrete => ?_⟩
    obtain ⟨rfl, rfl, -⟩ := SymValue.concrete.inj isConcrete
    exact ⟨rfl, holds.trans isExact⟩

theorem exactIfConcrete_iff {width exact : Nat}
    (holdsLow : HoldsLow run width exact) : ExactIfConcrete run width exact ↔ exact < 2 ^ 64 :=
  (exactIfConcrete_low_iff holdsLow).trans (Nat.mod_eq_iff_lt (by decide))

theorem not_exactIfConcrete_of_error {panic : Panic} {width exact : Nat}
    (traps : run 0 = .error panic) : ¬ ExactIfConcrete run width exact := by
  intro isExact
  obtain ⟨v, n', ran, -⟩ := isExact 0
  rw [traps] at ran
  cases ran

/-! ## Operands that are no constants -/

private theorem combineTerm_neverConcrete (op : BvOp) (a b : SymValue BV) :
    NeverConcrete (liftM (SymValue.combineTerm op a b) : Exec (SymValue BV)) := by
  intro n
  rcases normalized : SymValue.normalizeWidths a b n with ⟨⟨s, t, bits⟩, n'⟩
  refine ⟨.symbolic (Z3Arith.binary op s t) bits (a.getTaint ||| b.getTaint), n', ?_, rfl⟩
  show Except.ok (SymValue.combineTerm op a b n) = _
  simp only [SymValue.combineTerm, bind, StateT.bind, normalized]
  rfl

private theorem compareTerm_neverConcrete (term : BV → BV → Formula) (a b : SymValue BV) :
    NeverConcrete (liftM (SymValue.compareTerm term a b) : Exec (SymValue BV)) := by
  intro n
  rcases normalized : SymValue.normalizeWidths a b n with ⟨⟨s, t, bits⟩, n'⟩
  refine ⟨SymValue.flag (term s t) (a.getTaint ||| b.getTaint), n', ?_, rfl⟩
  show Except.ok (SymValue.compareTerm term a b n) = _
  simp only [SymValue.compareTerm, bind, StateT.bind, normalized]
  rfl

theorem compareSigned_neverConcrete (rel : BvRel) (a b : SymValue BV) :
    NeverConcrete (liftM (SymValue.compareSigned rel a b) : Exec (SymValue BV)) := by
  intro n
  rcases normalized : SymValue.normalizeWidthsSigned a b n with ⟨⟨s, t, bits⟩, n'⟩
  refine ⟨SymValue.flag (Z3Arith.compare rel s t) (a.getTaint ||| b.getTaint), n', ?_, rfl⟩
  show Except.ok (SymValue.compareSigned rel a b n) = _
  simp only [SymValue.compareSigned, bind, StateT.bind, normalized]
  rfl

theorem shiftTerm_neverConcrete (op : BvOp) (value amount : SymValue BV) :
    NeverConcrete (liftM (SymValue.shiftTerm op value amount) : Exec (SymValue BV)) :=
  fun _ => ⟨_, _, rfl, rfl⟩

theorem concat_neverConcrete {a b : SymValue BV}
    (notWords : a.isConcrete = false ∨ b.isConcrete = false ∨ ¬ a.bits + b.bits ≤ 64) :
    NeverConcrete (liftM (SymValue.concat a b) : Exec (SymValue BV)) := by
  intro n
  refine ⟨.symbolic (Z3Arith.concat (a.toBv n) (b.toBv (n + 1)))
    (SymValue.normalizeBvBits (a.bits + b.bits)) (a.getTaint ||| b.getTaint), n + 2, ?_, rfl⟩
  cases a with
  | symbolic _ _ _ => rfl
  | unknown _ _ => rfl
  | concrete x xBits tx =>
    cases b with
    | symbolic _ _ _ => rfl
    | unknown _ _ => rfl
    | concrete y yBits ty =>
      have wide : decide ((SymValue.concrete x xBits tx : SymValue BV).bits +
          (SymValue.concrete y yBits ty : SymValue BV).bits ≤ 64) = false := by
        simpa [SymValue.isConcrete, SymValue.asConcrete] using notWords
      simp only [SymValue.concat, wide]
      rfl

private theorem binary_neverConcrete (op : BinaryFold) {a b : SymValue BV}
    (notBoth : a.isConcrete = false ∨ b.isConcrete = false) :
    NeverConcrete (liftM (op.run a b) : Exec (SymValue BV)) := by
  have arith : ∀ (term : BvOp) (fold : Word → Word → Nat → Word → SymValue BV),
      NeverConcrete (liftM (SymValue.combine term fold a b) : Exec (SymValue BV)) := by
    intro term fold
    rw [SymValue.combine_eq_combineTerm term fold notBoth]
    exact combineTerm_neverConcrete term a b
  have compare : ∀ (term : BV → BV → Formula) (fold : Word → Word → Bool),
      NeverConcrete (liftM (SymValue.compareWith term fold a b) : Exec (SymValue BV)) := by
    intro term fold
    rw [SymValue.compareWith_eq_compareTerm term fold notBoth]
    exact compareTerm_neverConcrete term a b
  cases op with
  | add => unfold BinaryFold.run SymValue.add; exact arith _ _
  | sub => unfold BinaryFold.run SymValue.sub; exact arith _ _
  | mul => unfold BinaryFold.run SymValue.mul; exact arith _ _
  | udiv => unfold BinaryFold.run SymValue.udiv; exact arith _ _
  | urem => unfold BinaryFold.run SymValue.urem; exact arith _ _
  | and | or | xor => exact arith _ _
  | eq | ult | ule => exact compare _ _
  | concat => exact concat_neverConcrete (notBoth.imp_right .inl)

variable (checks : Bool)

private theorem unary_neverConcrete (op : UnaryFold) {v : SymValue BV}
    (notConcrete : v.isConcrete = false) : NeverConcrete (op.run checks v) := by
  have extended : ∀ newBits, (v.zeroExtend newBits).isConcrete = false := by
    intro newBits
    unfold SymValue.zeroExtend
    split
    · exact notConcrete
    · cases v with
      | concrete _ _ _ => exact notConcrete
      | symbolic _ _ _ => rfl
      | unknown _ _ => rfl
  have extracted : ∀ high low, (v.extract high low).isConcrete = false := by
    intro high low
    cases v with
    | concrete _ _ _ => cases notConcrete
    | symbolic | unknown =>
      simp only [SymValue.extract]
      split_ifs <;> rfl
  intro n
  cases op with
  | neg | not =>
    cases v with
    | concrete _ _ _ => cases notConcrete
    | symbolic _ _ _ | unknown _ _ => exact ⟨_, _, rfl, rfl⟩
  | zeroExtend newBits => exact ⟨_, _, rfl, extended newBits⟩
  | signExtend newBits =>
    show ∃ v' n', SymValue.signExtend checks v newBits n = .ok (v', n') ∧ _
    unfold SymValue.signExtend
    split
    · exact ⟨v, n, rfl, notConcrete⟩
    · cases v with
      | concrete _ _ _ => cases notConcrete
      | symbolic _ _ _ | unknown _ _ => exact ⟨_, _, rfl, rfl⟩
  | extract high low => exact ⟨_, _, rfl, extracted high low⟩

theorem shift_neverConcrete (kind : Shift) {value amount : SymValue BV}
    (notBoth : kind = .ashr ∨ value.isConcrete = false ∨ amount.isConcrete = false) :
    NeverConcrete (kind.run checks value amount) := by
  cases value with
  | concrete _ _ _ =>
    cases amount with
    | concrete _ _ _ =>
      cases kind with
      | ashr => exact shiftTerm_neverConcrete .bvashr _ _
      | _ => simp [SymValue.isConcrete, SymValue.asConcrete] at notBoth
    | _ => cases kind <;> exact shiftTerm_neverConcrete _ _ _
  | _ => cases kind <;> exact shiftTerm_neverConcrete _ _ _

theorem WideOp.neverConcrete (op : WideOp (SymValue BV))
    (some : ∃ v ∈ op.operands, v.isConcrete = false) : NeverConcrete (op.run checks) := by
  have either : ∀ {a b : SymValue BV}, (∃ v ∈ [a, b], v.isConcrete = false) →
      a.isConcrete = false ∨ b.isConcrete = false := by
    rintro a b ⟨v, mem, notConcrete⟩
    rcases List.mem_pair.mp mem with rfl | rfl
    · exact .inl notConcrete
    · exact .inr notConcrete
  cases op with
  | fold op =>
    cases op with
    | binary op a b => exact binary_neverConcrete op (either some)
    | unary op v =>
      obtain ⟨v', mem, notConcrete⟩ := some
      obtain rfl := List.mem_singleton.mp mem
      exact unary_neverConcrete checks op notConcrete
  | shift kind value amount => exact shift_neverConcrete checks kind (.inr (either some))
  | slt a b => exact compareSigned_neverConcrete .bvslt a b
  | sle a b => exact compareSigned_neverConcrete .bvsle a b

/-! ## Constants -/

private theorem fold_binary_exact_iff (op : BinaryFold) (a b : Constant) :
    ExactIfConcrete (liftM (op.run (a.concrete : SymValue BV) b.concrete) : Exec (SymValue BV))
      (op.width a b) (op.exact a b) ↔
      WideOp.Kept checks (.fold (.binary op a b)) := by
  have kept : WideOp.Kept checks (.fold (.binary op a b)) ↔
      (op.StaysConcrete a b → op.exact a b < 2 ^ 64) := and_iff_right fun traps => traps.2
  rw [kept]
  by_cases stays : op.StaysConcrete a b
  · rw [exactIfConcrete_iff (binary_holdsLow op a b stays)]
    exact ⟨fun fits _ => fits, fun fits => fits stays⟩
  · refine iff_of_true (NeverConcrete.exactIfConcrete ?_ _ _) fun isConcrete =>
      absurd isConcrete stays
    cases op with
    | udiv =>
      have zero : b.word = 0 := not_not.mp stays
      refine fun n => ⟨.unknown (max a.bits b.bits) (a.taint ||| b.taint), n, ?_, rfl⟩
      show Except.ok (SymValue.udiv (.concrete a.word a.bits a.taint)
        (.concrete b.word b.bits b.taint) n) = _
      simp only [SymValue.udiv, SymValue.combine, if_pos zero]
      rfl
    | urem =>
      have zero : b.word = 0 := not_not.mp stays
      refine fun n => ⟨.unknown (max a.bits b.bits) (a.taint ||| b.taint), n, ?_, rfl⟩
      show Except.ok (SymValue.urem (.concrete a.word a.bits a.taint)
        (.concrete b.word b.bits b.taint) n) = _
      simp only [SymValue.urem, SymValue.combine, if_pos zero]
      rfl
    | concat => exact concat_neverConcrete (.inr (.inr stays))
    | _ => exact absurd trivial stays

private theorem signExtend_traps {c : Constant} {newBits : Nat} (wider : c.bits < newBits)
    (wide : 64 < c.bits) (n : Nat) :
    UnaryFold.run true (.signExtend newBits) (c.concrete : SymValue BV) n =
      .error .shiftOverflow := by
  have longer : ¬ newBits ≤ (c.concrete : SymValue BV).bits := Nat.not_le.mpr wider
  have nonzero : ¬ c.bits = 0 := by omega
  have far : 64 ≤ c.bits - 1 := by omega
  have word : SymValue.signExtendWord true c.word c.bits newBits n = .error .shiftOverflow := by
    simp only [SymValue.signExtendWord, if_neg nonzero, true_and, if_pos far]
    rfl
  show SymValue.signExtend true (c.concrete : SymValue BV) newBits n = _
  simp only [SymValue.signExtend, if_neg longer]
  simp only [Constant.concrete, StateT.bind, bind, Except.bind, word]

private theorem fold_unary_exact_iff (op : UnaryFold) (c : Constant) :
    ExactIfConcrete (op.run checks (c.concrete : SymValue BV)) (op.width c) (op.exact c) ↔
      WideOp.Kept checks (.fold (.unary op c)) := by
  by_cases traps : checks = true ∧ op.OverShifts c
  · refine iff_of_false ?_ fun kept => kept.1 traps
    obtain ⟨rfl, shifts⟩ := traps
    cases op with
    | signExtend newBits =>
      exact not_exactIfConcrete_of_error (signExtend_traps shifts.1 shifts.2 0)
    | neg | not | zeroExtend | extract => cases shifts
  · have kept : WideOp.Kept checks (.fold (.unary op c)) ↔
        (op.StaysConcrete c → op.exact c < 2 ^ 64) := and_iff_right traps
    rw [kept]
    by_cases stays : op.StaysConcrete c
    · rw [exactIfConcrete_iff (unary_holdsLow op c stays traps)]
      exact ⟨fun fits _ => fits, fun fits => fits stays⟩
    · refine iff_of_true (NeverConcrete.exactIfConcrete ?_ _ _) fun isConcrete =>
        absurd isConcrete stays
      cases op with
      | extract high low =>
        -- Out of range the result is unknown; with a bit from 64 on it is a term.
        refine fun n => ⟨(c.concrete : SymValue BV).extract high low, n, rfl, ?_⟩
        have positive : max c.bits 1 = c.bits := max_eq_left c.positive
        simp only [Constant.concrete, SymValue.extract, SymValue.bits, positive]
        split_ifs with outside crossed large
        · rfl
        · rfl
        · rfl
        · exact absurd ⟨⟨by omega, by omega⟩, by omega⟩ stays
      | _ => exact absurd trivial stays

theorem shifted_eq_zero {kind : Shift} (onWords : kind ≠ .ashr) (c : Constant) {amount : Nat}
    (large : 64 ≤ amount) (small : (kind.apply (c.wide c.bits) amount).toNat < 2 ^ 64) :
    kind.apply (c.wide c.bits) amount = 0 := by
  have self : (c.wide c.bits).toNat = c.word.toNat := c.toNat_wide (Nat.le_refl _)
  apply eq_of_toNat_eq
  rw [ofNat_eq_ofNat, toNat_ofNat, Nat.zero_mod]
  cases kind with
  | ashr => exact absurd rfl onWords
  | shl =>
    by_cases reached : c.bits ≤ amount
    · rw [Shift.apply_of_le _ _ reached]
      rfl
    · have multiple : 2 ^ 64 ∣ (Shift.shl.apply (c.wide c.bits) amount).toNat := by
        rw [Shift.apply, toNat_shiftLeft, self, Nat.shiftLeft_eq]
        exact (Nat.dvd_mod_iff (Nat.pow_dvd_pow 2 (by omega))).mpr
          (Dvd.dvd.mul_left (Nat.pow_dvd_pow 2 large) _)
      exact Nat.eq_zero_of_dvd_of_lt multiple small
  | lshr =>
    have bound : c.word.toNat < 2 ^ amount :=
      lt_of_lt_of_le c.word.isLt (Nat.pow_le_pow_right (by decide) large)
    rw [Shift.apply, toNat_ushiftRight, self, Nat.shiftRight_eq_div_pow, Nat.div_eq_of_lt bound]

private theorem shift_exact_iff (kind : Shift) (value amount : Constant) :
    ExactIfConcrete (kind.run checks (value.concrete : SymValue BV) amount.concrete)
      value.bits (kind.apply (value.wide value.bits) amount.word.toNat).toNat ↔
      WideOp.Kept checks (.shift kind value amount) := by
  by_cases onWords : kind = .ashr
  · subst onWords
    exact iff_of_true ((shift_neverConcrete checks .ashr (.inl rfl)).exactIfConcrete _ _)
      trivial
  · have kept : WideOp.Kept checks (.shift kind value amount) ↔
        ¬ ShiftTraps checks amount.word ∧
          (amount.word.toNat < 64 ∧
              (kind.apply (value.wide value.bits) amount.word.toNat).toNat < 2 ^ 64 ∨
            64 ≤ amount.word.toNat ∧
              (kind.apply (value.wide value.bits) (amount.word.toNat % 64)).toNat % 2 ^ 64 = 0 ∧
              kind.apply (value.wide value.bits) amount.word.toNat = 0) := by
      cases kind with
      | ashr => exact absurd rfl onWords
      | shl => rfl
      | lshr => rfl
    rw [kept]
    by_cases traps : ShiftTraps checks amount.word
    · exact iff_of_false (not_exactIfConcrete_of_error (shift_traps value amount onWords traps 0))
        fun both => both.1 traps
    · have low := @shift_concrete BV Formula Model _ checks kind value amount onWords traps
      rw [exactIfConcrete_low_iff low, and_iff_right traps]
      by_cases small : amount.word.toNat < 64
      · rw [Nat.mod_eq_of_lt small, (Nat.mod_eq_iff_lt (by decide))]
        exact ⟨fun fits => .inl ⟨small, fits⟩, fun either => either.elim And.right
          fun large => absurd small (Nat.not_lt.mpr large.1)⟩
      · have large : 64 ≤ amount.word.toNat := Nat.le_of_not_lt small
        constructor
        · intro same
          have bound : (kind.apply (value.wide value.bits) amount.word.toNat).toNat < 2 ^ 64 := by
            rw [← same]
            exact Nat.mod_lt _ (by decide)
          have nothing := shifted_eq_zero onWords value large bound
          refine .inr ⟨large, ?_, nothing⟩
          rw [same, nothing]
          rfl
        · rintro (both | ⟨-, cleared, nothing⟩)
          · exact absurd both.1 small
          · rw [cleared, nothing]
            rfl

/-- An operation on constants of any widths gives the exact result or no constant,
exactly if what it needs is kept. -/
theorem WideOp.exactIfConcrete_iff (op : WideOp Constant) :
    ExactIfConcrete ((op.map (Constant.concrete : Constant → SymValue BV)).run checks)
      op.width op.exact ↔ op.Kept checks := by
  cases op with
  | fold op =>
    cases op with
    | binary op a b => exact fold_binary_exact_iff checks op a b
    | unary op c => exact fold_unary_exact_iff checks op c
  | shift kind value amount => exact shift_exact_iff checks kind value amount
  | slt a b =>
    exact iff_of_true ((compareSigned_neverConcrete .bvslt _ _).exactIfConcrete _ _) trivial
  | sle a b =>
    exact iff_of_true ((compareSigned_neverConcrete .bvsle _ _).exactIfConcrete _ _) trivial

end Runs

end R2Sleigh.Sym
