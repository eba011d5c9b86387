import R2Sleigh.Types.Inference

/-!
Contract: the multiplications of constraint generation.
-/

namespace R2Sleigh.Types

open Il Lib Ssa Option

/-! ## Large elements -/

/-- A literal scale whose low 32 bits are `2 ^ 29` or more, or a literal shift whose low 32
bits are 29, 30 or 31. -/
def LargeScale : SSAOp → Prop
  | .binary .IntMult _ a b =>
    ∃ scale, (parseConstU64 a).or (parseConstU64 b) = some scale ∧ 2 ^ 29 ≤ scale % 2 ^ 32
  | .binary .IntLeft _ _ b =>
    ∃ shift, parseConstU64 b = some shift ∧ 29 ≤ shift % 2 ^ 32 ∧ shift % 2 ^ 32 < 32
  | _ => False

section Patterns

variable (toUppercase : String → String) (defs : HashMap String SSAOp)

/-- The address is defined with elements of `2 ^ 29` bytes or more. -/
inductive LargeElement (addr : SSAVar) : Prop
  | ptrAdd {dst base index : SSAVar} {elementSize : Nat}
      (defined : defs.lookup (displayName toUppercase addr) =
        some (.PtrAdd dst base index elementSize))
      (large : 2 ^ 29 ≤ elementSize)
  | ptrSub {dst base index : SSAVar} {elementSize : Nat}
      (defined : defs.lookup (displayName toUppercase addr) =
        some (.PtrSub dst base index elementSize))
      (large : 2 ^ 29 ≤ elementSize)
  | right {dst a b : SSAVar} {scaled : SSAOp}
      (defined : defs.lookup (displayName toUppercase addr) = some (.binary .IntAdd dst a b))
      (noOffset : parseConstU64 a = none ∧ parseConstU64 b = none)
      (index : defs.lookup (displayName toUppercase b) = some scaled) (large : LargeScale scaled)
  | left {dst a b : SSAVar} {scaled : SSAOp}
      (defined : defs.lookup (displayName toUppercase addr) = some (.binary .IntAdd dst a b))
      (noOffset : parseConstU64 a = none ∧ parseConstU64 b = none)
      (notRight : matchBasePlusScaledIndex toUppercase defs a b = none)
      (index : defs.lookup (displayName toUppercase a) = some scaled) (large : LargeScale scaled)

variable {toUppercase defs}

theorem checkedShlOne_large_iff {shift : Nat} :
    (∃ scale, checkedShlOne shift = some scale ∧ 2 ^ 29 ≤ scale) ↔
      29 ≤ shift % 2 ^ 32 ∧ shift % 2 ^ 32 < 32 := by
  unfold checkedShlOne
  split
  · rename_i small
    simp only [Option.some.injEq, exists_eq_left', small, and_true]
    exact Nat.pow_le_pow_iff_right (by decide)
  · rename_i large
    simp only [reduceCtorEq, false_and, exists_false, large, and_false]

theorem matchBasePlusScaledIndex_large_iff {base candidate : SSAVar} :
    (∃ base' stride,
        matchBasePlusScaledIndex toUppercase defs base candidate = some (base', stride) ∧
          2 ^ 29 ≤ stride) ↔
      ∃ scaled, defs.lookup (displayName toUppercase candidate) = some scaled ∧
        LargeScale scaled := by
  unfold matchBasePlusScaledIndex
  cases defs.lookup (displayName toUppercase candidate) with
  | none => simp
  | some scaled =>
    simp only [Option.some.injEq, exists_eq_left']
    split
    · rename_i dst a b isOp
      cases isOp
      unfold LargeScale
      cases ofA : parseConstU64 a <;> cases ofB : parseConstU64 b <;> simp [ofA, ofB]
    · rename_i dst a b isOp
      cases isOp
      unfold LargeScale
      cases ofB : parseConstU64 b with
      | none => simp [ofB]
      | some shift =>
        simp only [ofB, bind_some, map_eq_some_iff, Prod.mk.injEq]
        constructor
        · rintro ⟨base', stride, ⟨scale, isScale, -, rfl⟩, large⟩
          exact ⟨shift, rfl, checkedShlOne_large_iff.mp ⟨scale, isScale, large⟩⟩
        · rintro ⟨shift', same, large⟩
          cases same
          obtain ⟨scale, isScale, isLarge⟩ := checkedShlOne_large_iff.mpr large
          exact ⟨base, scale, ⟨scale, isScale, rfl, rfl⟩, isLarge⟩
    · rename_i notMult notLeft
      refine iff_of_false (by simp) ?_
      unfold LargeScale
      split
      · exact absurd rfl (notMult _ _ _)
      · exact absurd rfl (notLeft _ _ _)
      · exact id

theorem largeElement_iff {addr : SSAVar} : LargeElement toUppercase defs addr ↔
    ∃ base offset stride,
      detectAddrPattern toUppercase defs addr = some (base, offset, some stride) ∧
        2 ^ 29 ≤ stride := by
  constructor
  · intro large
    unfold detectAddrPattern
    cases large with
    | ptrAdd defined large | ptrSub defined large => rw [defined]; exact ⟨_, _, _, rfl, large⟩
    | @right dst a b scaled defined noOffset index large =>
      obtain ⟨base, stride, isMatch, isLarge⟩ :=
        (@matchBasePlusScaledIndex_large_iff toUppercase defs a b).mpr ⟨scaled, index, large⟩
      rw [defined]
      dsimp only
      rw [noOffset.1, noOffset.2, isMatch]
      exact ⟨base, 0, stride, rfl, isLarge⟩
    | @left dst a b scaled defined noOffset notRight index large =>
      obtain ⟨base, stride, isMatch, isLarge⟩ :=
        (@matchBasePlusScaledIndex_large_iff toUppercase defs b a).mpr ⟨scaled, index, large⟩
      rw [defined]
      dsimp only
      rw [noOffset.1, noOffset.2, notRight, isMatch]
      exact ⟨base, 0, stride, rfl, isLarge⟩
  · rintro ⟨base, offset, stride, detects, large⟩
    unfold detectAddrPattern at detects
    split at detects
    · rename_i defined
      cases detects
      exact .ptrAdd defined large
    · rename_i defined
      cases detects
      exact .ptrSub defined large
    · rename_i dst a b defined
      split at detects
      · cases detects
      · rename_i notA
        split at detects
        · cases detects
        · rename_i notB
          split at detects
          · rename_i base stride isMatch
            cases detects
            obtain ⟨scaled, index, isLarge⟩ :=
              matchBasePlusScaledIndex_large_iff.mp ⟨_, _, isMatch, large⟩
            exact .right defined ⟨notA, notB⟩ index isLarge
          · rename_i noMatch
            obtain ⟨⟨base', stride'⟩, isMatch, same⟩ := map_eq_some_iff.mp detects
            cases same
            obtain ⟨scaled, index, isLarge⟩ :=
              matchBasePlusScaledIndex_large_iff.mp ⟨_, _, isMatch, large⟩
            exact .left defined ⟨notA, notB⟩ noMatch index isLarge
    · obtain ⟨offset', isOffset, same⟩ := map_eq_some_iff.mp detects
      cases same
    · cases detects

end Patterns

/-! ## Products -/

private theorem isSome_timesEight_iff {size : Nat} : (timesEight size).isSome ↔ size < 2 ^ 29 := by
  unfold timesEight
  split
  · exact iff_of_true rfl (by omega)
  · exact iff_of_false (by simp) (by omega)

theorem isSome_foldlM_iff {S A : Type} {step : S → A → Option S} {P : A → Prop}
    (each : ∀ s item, (step s item).isSome ↔ P item) (items : List A) :
    ∀ s, (items.foldlM step s).isSome ↔ ∀ item ∈ items, P item := by
  induction items with
  | nil => simp
  | cons item rest ih =>
    intro s
    rw [List.foldlM_cons, List.forall_mem_cons, ← each s item]
    cases step s item with
    | none => simp
    | some next => simp [ih]

theorem isSome_bind_iff {A B : Type} {x : Option A} {next : A → Option B}
    (total : ∀ a, (next a).isSome) : (x.bind next).isSome ↔ x.isSome := by
  cases x with
  | none => rfl
  | some a => exact iff_of_true (total a) rfl

section Emit

variable {toUppercase : String → String} {db : ExternalTypeDb} {defs : HashMap String SSAOp}
  {derefConsumers : HashMap String Nat} {structHints : HashMap SSAVar String}

/-- The operation takes the pattern of the address: it accesses memory there, or computes
it by a sum or difference that reaches an access. -/
def Takes (toUppercase : String → String) (derefConsumers : HashMap String Nat) (op : SSAOp)
    (addr : SSAVar) : Prop :=
  (∃ size, accessOf op = some (addr, size)) ∨
    (∃ a b, op = .binary .IntAdd addr a b ∨ op = .binary .IntSub addr a b) ∧
      (derefConsumers.lookup (displayName toUppercase addr)).isSome

namespace Emission

theorem isSome_arrayPointer_iff (emission : Emission) {elementSize : Nat} :
    (emission.arrayPointer elementSize).isSome ↔ elementSize < 2 ^ 29 := by
  rw [← isSome_timesEight_iff]
  unfold arrayPointer
  cases timesEight elementSize <;> rfl

theorem not_largeElement_of_stride {addr base : SSAVar} {offset : Nat} {stride : Option Nat}
    (detects : detectAddrPattern toUppercase defs addr = some (base, offset, stride)) :
    ¬ LargeElement toUppercase defs addr ↔ ∀ elementSize, stride = some elementSize →
      elementSize < 2 ^ 29 := by
  rw [largeElement_iff]
  constructor
  · rintro notLarge elementSize rfl
    exact Nat.lt_of_not_le fun large => notLarge ⟨base, offset, elementSize, detects, large⟩
  · rintro small ⟨base', offset', elementSize, detects', large⟩
    obtain ⟨⟩ := some.inj (detects.symm.trans detects')
    exact absurd (small elementSize rfl) (Nat.not_lt_of_le large)

theorem not_largeElement_of_none {addr : SSAVar}
    (detects : detectAddrPattern toUppercase defs addr = none) :
    ¬ LargeElement toUppercase defs addr := by
  rw [largeElement_iff]
  rintro ⟨base, offset, elementSize, detects', -⟩
  cases detects.symm.trans detects'

private theorem isSome_access_iff (emission : Emission) {addr : SSAVar} {elem : TypeId} :
    (emission.access toUppercase db defs structHints addr elem).isSome ↔
      ¬ LargeElement toUppercase defs addr := by
  unfold access
  split
  · rename_i detects
    exact iff_of_true rfl (not_largeElement_of_none detects)
  · rename_i base offset stride detects
    rw [not_largeElement_of_stride detects]
    cases stride with
    | none => simp
    | some elementSize => simp [isSome_arrayPointer_iff]

private theorem isSome_emitPtrArith_iff (emission : Emission) {dst a b : SSAVar} :
    (emission.emitPtrArithConstraintsForDeref toUppercase db defs derefConsumers structHints dst a
        b).isSome ↔
      ((derefConsumers.lookup (displayName toUppercase dst)).isSome →
        ¬ LargeElement toUppercase defs dst) := by
  unfold emitPtrArithConstraintsForDeref
  cases derefConsumers.lookup (displayName toUppercase dst) with
  | none => simp
  | some elemSize =>
    simp only [isSome_some, forall_true_left]
    split
    · rename_i detects
      exact iff_of_true rfl (not_largeElement_of_none detects)
    · rename_i base offset stride detects
      rw [not_largeElement_of_stride detects]
      cases stride with
      | none =>
        refine iff_of_true ?_ (by simp)
        refine (isSome_bind_iff ?_).mpr rfl
        intro emission
        split <;> rfl
      | some elementSize =>
        refine (isSome_bind_iff ?_).trans ?_
        · intro emission
          split <;> rfl
        rw [isSome_map, isSome_arrayPointer_iff]
        simp

/-- An operation is passed without overflow exactly if no element is too large. -/
theorem isSome_op_iff (emission : Emission) {op : SSAOp} :
    (emission.op toUppercase db defs derefConsumers structHints op).isSome ↔
      ∀ addr, Takes toUppercase derefConsumers op addr → ¬ LargeElement toUppercase defs addr := by
  have access : ∀ {emission : Emission} {addr : SSAVar} {size : Nat} {elem : TypeId},
      accessOf op = some (addr, size) → (∀ dst a b, op ≠ .binary .IntAdd dst a b) →
      (∀ dst a b, op ≠ .binary .IntSub dst a b) →
      ((emission.access toUppercase db defs structHints addr elem).isSome ↔
        ∀ addr, Takes toUppercase derefConsumers op addr →
          ¬ LargeElement toUppercase defs addr) := by
    intro emission addr size elem accesses notAdd notSub
    rw [isSome_access_iff]
    constructor
    · rintro small other (⟨_, accesses'⟩ | ⟨⟨a, b, isAdd | isSub⟩, -⟩)
      · cases accesses.symm.trans accesses'
        exact small
      · exact absurd isAdd (notAdd _ _ _)
      · exact absurd isSub (notSub _ _ _)
    · exact fun small => small addr (.inl ⟨size, accesses⟩)
  have nothing : accessOf op = none → (∀ dst a b, op ≠ .binary .IntAdd dst a b) →
      (∀ dst a b, op ≠ .binary .IntSub dst a b) →
      ∀ addr, Takes toUppercase derefConsumers op addr → ¬ LargeElement toUppercase defs addr := by
    rintro noAccess notAdd notSub addr (⟨_, accesses⟩ | ⟨⟨a, b, isAdd | isSub⟩, -⟩)
    · cases noAccess.symm.trans accesses
    · exact absurd isAdd (notAdd _ _ _)
    · exact absurd isSub (notSub _ _ _)
  have arith : ∀ {dst a b : SSAVar}, op = .binary .IntAdd dst a b ∨ op = .binary .IntSub dst a b →
      (((emission.emitPtrArithConstraintsForDeref toUppercase db defs derefConsumers structHints
          dst a b).bind fun emitted => some (if emitted.1 then emitted.2
            else emitted.2.integers dst.size .unknown [dst, a, b])).isSome ↔
        ∀ addr, Takes toUppercase derefConsumers op addr →
          ¬ LargeElement toUppercase defs addr) := by
    intro dst a b isArith
    rw [isSome_bind_iff fun _ => rfl, isSome_emitPtrArith_iff]
    constructor
    · rintro small addr (⟨_, accesses⟩ | ⟨⟨a', b', isArith'⟩, reached⟩)
      · rcases isArith with rfl | rfl <;> cases accesses
      · rcases isArith with rfl | rfl <;> rcases isArith' with same | same <;> cases same <;>
          exact small reached
    · exact fun small reached => small dst (.inr ⟨⟨a, b, isArith⟩, reached⟩)
  cases op with
  | Load | Store => exact access rfl (by simp) (by simp)
  | binary op dst a b =>
    cases op with
    | IntAdd => exact arith (.inl rfl)
    | IntSub => exact arith (.inr rfl)
    | _ => exact iff_of_true rfl (nothing rfl (by simp) (by simp))
  | _ => exact iff_of_true rfl (nothing rfl (by simp) (by simp))

end Emission

/-- Constraint generation has no product beyond 32 bits exactly if no address that is
loaded from or stored to, and no sum or difference that reaches one, has elements of
`2 ^ 29` bytes or more. -/
theorem isSome_inferredConstraints_iff (toUppercase : String → String) (db : ExternalTypeDb)
    (func : SSAFunction) :
    (inferredConstraints toUppercase db func).isSome ↔
      ∀ block ∈ func.blockList, ∀ op ∈ block.ops, ∀ addr,
        Takes toUppercase (collectDerefConsumers toUppercase (buildDefMap toUppercase func) func) op
          addr → ¬ LargeElement toUppercase (buildDefMap toUppercase func) addr := by
  refine isSome_foldlM_iff (fun emission block => ?_) func.blockList _
  exact isSome_foldlM_iff (fun emission op => emission.isSome_op_iff) block.ops _

/-! ## An index shifted by 29 -/

def shiftedIndex : SSAFunction :=
  (fromBlocksRaw [⟨0, 4, [.binary .IntLeft ⟨.Unique, 0, 8⟩ ⟨.Unique, 32, 8⟩ ⟨.Const, 29, 8⟩,
    .binary .IntAdd ⟨.Unique, 8, 8⟩ ⟨.Unique, 40, 8⟩ ⟨.Unique, 0, 8⟩,
    .Load ⟨.Unique, 16, 8⟩ .Ram ⟨.Unique, 8, 8⟩, .Return ⟨.Unique, 24, 8⟩], none⟩] none).get
    (by decide +kernel)

/-- Eight times the element size of an index shifted by 29 does not fit in 32 bits. -/
theorem shiftedIndex_overflows :
    (inferredConstraints id ⟨∅, ∅⟩ shiftedIndex).isSome = false := by decide +kernel

end Emit

end R2Sleigh.Types
