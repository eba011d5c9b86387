import Mathlib.Data.List.TakeWhile
import R2Sleigh.Lib.Text
import R2Sleigh.Ssa.Block
import R2Sleigh.Ssa.Family

/-!
Contract: the readers of literals in the analyses.

Owns `Semantic.constValue`, `DefUse.constValue` and `findConstants`.
-/

namespace R2Sleigh.Ssa

open Il Lib List Option

/-- The address or number a name stands for, up to the first underscore. -/
def Semantic.constValue (var : SSAVar) : Option Word :=
  ((stripPrefix "const:" var.name).or (stripPrefix "ram:" var.name)).bind fun text =>
    match text.takeWhile (· ≠ '_') with
    | '0' :: 'd' :: dec | '0' :: 'D' :: dec => fromStrRadix 10 dec
    | '0' :: 'x' :: hex | '0' :: 'X' :: hex => fromStrRadix 16 hex
    | text => fromStrRadix 16 text

namespace DefUse

def constValue (var : SSAVar) : Option Word :=
  (stripPrefix "const:" var.name).bind fun text =>
    match text with
    | '0' :: 'x' :: hex | '0' :: 'X' :: hex => fromStrRadix 16 hex
    | text => fromStrRadix 10 text

/-- What `findConstants` records for an operation. -/
def constantOf : SSAOp → Option (SSAVar × Word)
  | .Copy dst src =>
    (stripPrefix "const:" src.name).bind fun text =>
      (match text with
        | '0' :: 'x' :: hex => fromStrRadix 16 hex
        | text => fromStrRadix 10 text).map fun value => (dst, value)
  | _ => none

def recordConstant (toUppercase : String → String) (constants : HashMap String Word) (op : SSAOp) :
    HashMap String Word :=
  match constantOf op with
  | some (dst, value) => constants.insert (displayName toUppercase dst) value
  | none => constants

def findConstants (toUppercase : String → String) (block : Block.SSABlock) : HashMap String Word :=
  block.ops.foldl (recordConstant toUppercase) ∅

end DefUse

/-! ## Numerals -/

theorem stripPrefix_constant (value size : Nat) :
    stripPrefix "const:" (SSAVar.constant value size).name = some (Nat.toDigits 16 value) := by
  have literal : "const:".toList.isPrefixOf (SSAVar.constant value size).name.toList = true :=
    SSAVar.isConst_constant value size
  rw [stripPrefix, if_pos literal]
  simp [SSAVar.constant, hex]

private theorem head_toDigits_ne_zero (n : Nat) : 0 < n → (Nat.toDigits 16 n).head? ≠ some '0' := by
  induction n using Nat.strongRecOn with
  | _ n ih =>
    intro positive
    rw [Nat.toDigits_eq_if (by decide)]
    split
    · rename_i small
      have digits : ∀ d : Fin 16, 0 < d.val → some d.val.digitChar ≠ some '0' := by decide
      exact digits ⟨n, small⟩ positive
    · rename_i large
      rw [head?_append_of_ne_nil _ Nat.toDigits_ne_nil]
      exact ih _ (Nat.div_lt_self positive (by decide))
        (Nat.div_pos (Nat.le_of_not_lt large) (by decide))

theorem toDigits_ne_zero_cons (n : Nat) (c : Char) (rest : List Char) :
    Nat.toDigits 16 n ≠ '0' :: c :: rest := by
  intro shape
  rcases Nat.eq_zero_or_pos n with rfl | positive
  · cases (List.cons.inj shape).2
  · exact head_toDigits_ne_zero n positive (by rw [shape]; rfl)

theorem not_mem_toDigits {c : Char} (other : ∀ d : Fin 16, c ≠ d.val.digitChar) (n : Nat) :
    c ∉ Nat.toDigits 16 n := by
  intro mem
  obtain ⟨d, digit, same⟩ := mem_toDigits 16 (by decide) n c mem
  exact other ⟨d, digit⟩ same

theorem takeWhile_toDigits (n : Nat) :
    (Nat.toDigits 16 n).takeWhile (· ≠ '_') = Nat.toDigits 16 n := by
  refine takeWhile_eq_self_iff.mpr fun c mem => ?_
  have other : c ≠ '_' := by
    rintro rfl
    exact not_mem_toDigits (by decide) n mem
  simpa using other

/-- Read as a decimal, a hexadecimal numeral has a smaller value, unless it has one
digit. -/
theorem foldlM_decimal (n : Nat) : ∀ m, (Nat.toDigits 16 n).foldlM
    (fun value c => (digitValue 10 c).map (value * 10 + ·)) 0 = some m →
      m ≤ n ∧ (m = n → n < 10) := by
  have digits : ∀ d : Fin 16, ∀ k ∈ digitValue 10 d.val.digitChar, k = d.val ∧ d.val < 10 := by
    decide
  induction n using Nat.strongRecOn with
  | _ n ih =>
    intro m reads
    rw [Nat.toDigits_eq_if (by decide)] at reads
    split at reads
    · rename_i small
      rw [foldlM_cons, bind_eq_bind, bind_eq_some_iff] at reads
      obtain ⟨value, digit, same⟩ := reads
      obtain ⟨k, isDigit, rfl⟩ := map_eq_some_iff.mp digit
      obtain ⟨rfl, below⟩ := digits ⟨n, small⟩ k isDigit
      cases same
      dsimp only at below ⊢
      omega
    · rw [foldlM_append, bind_eq_bind, bind_eq_some_iff] at reads
      obtain ⟨front, isFront, last⟩ := reads
      rw [foldlM_cons, bind_eq_bind, bind_eq_some_iff] at last
      obtain ⟨value, digit, same⟩ := last
      obtain ⟨k, isDigit, rfl⟩ := map_eq_some_iff.mp digit
      obtain ⟨rfl, -⟩ := digits ⟨n % 16, Nat.mod_lt n (by decide)⟩ k isDigit
      cases same
      obtain ⟨atMost, -⟩ := ih (n / 16) (Nat.div_lt_self (by omega) (by decide)) front isFront
      dsimp only
      omega

/-- The decimal reader reads a hexadecimal numeral back exactly if it has one decimal
digit. -/
theorem fromStrRadix_decimal_iff (value : Word) :
    fromStrRadix 10 (Nat.toDigits 16 value.toNat) = some value ↔ value.toNat < 10 := by
  have noSign : ∀ rest, Nat.toDigits 16 value.toNat ≠ '+' :: rest := fun rest shape =>
    not_mem_toDigits (c := '+') (by decide) value.toNat (by rw [shape]; exact mem_cons_self)
  have unfolded : fromStrRadix 10 (Nat.toDigits 16 value.toNat) =
      ((Nat.toDigits 16 value.toNat).foldlM
        (fun value c => (digitValue 10 c).map (value * 10 + ·)) 0).bind
        fun value => if value < 2 ^ 64 then some (BitVec.ofNat 64 value) else none := by
    unfold fromStrRadix
    split
    · rename_i rest shape
      exact absurd shape (noSign rest)
    · rw [if_neg Nat.toDigits_ne_nil]
  rw [unfolded]
  constructor
  · intro reads
    obtain ⟨m, isRead, isValue⟩ := bind_eq_some_iff.mp reads
    obtain ⟨atMost, oneDigit⟩ := foldlM_decimal value.toNat m isRead
    rw [if_pos (Nat.lt_of_le_of_lt atMost value.isLt)] at isValue
    refine oneDigit ?_
    rw [← some.inj isValue, BitVec.toNat_ofNat,
      Nat.mod_eq_of_lt (Nat.lt_of_le_of_lt atMost value.isLt)]
  · intro small
    have digit : ∀ d : Fin 10, digitValue 10 d.val.digitChar = some d.val := by decide
    rw [Nat.toDigits_of_lt_base (by omega), foldlM_cons, digit ⟨value.toNat, small⟩]
    simp [value.isLt]

/-! ## Readers -/

private theorem family_constValue_constant (value : Word) (size : Nat) :
    Family.constValue (.constant value.toNat size) = some value := by
  have name : (SSAVar.constant value.toNat size).name.toList.drop 6 =
      Nat.toDigits 16 value.toNat := by
    simp [SSAVar.constant, hex]
  rw [Family.constValue, if_pos (SSAVar.isConst_constant ..), name,
    fromStrRadix_toDigits value.isLt, BitVec.ofNat_toNat, BitVec.setWidth_eq]

private theorem semantic_constValue_constant (value : Word) (size : Nat) :
    Semantic.constValue (.constant value.toNat size) = some value := by
  rw [Semantic.constValue, stripPrefix_constant, some_or, bind_some, takeWhile_toDigits]
  split
  all_goals first
    | exact absurd ‹_› (toDigits_ne_zero_cons value.toNat _ _)
    | rw [fromStrRadix_toDigits value.isLt, BitVec.ofNat_toNat, BitVec.setWidth_eq]

namespace DefUse

theorem constValue_constant (value size : Nat) :
    constValue (.constant value size) = fromStrRadix 10 (Nat.toDigits 16 value) := by
  rw [constValue, stripPrefix_constant, bind_some]
  split
  · rename_i shape
    exact absurd shape (toDigits_ne_zero_cons value _ _)
  · rename_i shape
    exact absurd shape (toDigits_ne_zero_cons value _ _)
  · rfl

private theorem constantOf_copy (dst : SSAVar) (value size : Nat) :
    constantOf (.Copy dst (.constant value size)) =
      (fromStrRadix 10 (Nat.toDigits 16 value)).map fun value => (dst, value) := by
  rw [constantOf, stripPrefix_constant, bind_some]
  split
  · rename_i shape
    exact absurd shape (toDigits_ne_zero_cons value _ _)
  · rfl

theorem dst_of_constantOf {op : SSAOp} {dst : SSAVar} {value : Word}
    (records : constantOf op = some (dst, value)) : op.dst = some dst := by
  unfold constantOf at records
  split at records
  · obtain ⟨text, -, isValue⟩ := bind_eq_some_iff.mp records
    obtain ⟨_, -, same⟩ := map_eq_some_iff.mp isValue
    rw [← (Prod.mk.inj same).1]
    rfl
  · cases records

/-- Where the names of the destinations are distinct, each literal copied is recorded
under the name of its destination. -/
theorem lookup_findConstants {toUppercase : String → String} {block : Block.SSABlock}
    (distinct : ((block.ops.filterMap SSAOp.dst).map (displayName toUppercase)).Nodup)
    {op : SSAOp} (mem : op ∈ block.ops) {dst : SSAVar} {value : Word}
    (records : constantOf op = some (dst, value)) :
    (findConstants toUppercase block).lookup (displayName toUppercase dst) = some value := by
  obtain ⟨before, after, split⟩ := append_of_mem mem
  have notLater : ∀ later ∈ after, ∀ dst' value', constantOf later = some (dst', value') →
      displayName toUppercase dst' ≠ displayName toUppercase dst := by
    intro later inAfter dst' value' records' same
    rw [split, filterMap_append, filterMap_cons_some (dst_of_constantOf records),
      map_append, map_cons] at distinct
    have fresh := (nodup_cons.mp (nodup_append.mp distinct).2.1).1
    refine fresh (mem_map.mpr ⟨dst', ?_, same⟩)
    exact mem_filterMap.mpr ⟨later, inAfter, dst_of_constantOf records'⟩
  have kept : ∀ (ops : List SSAOp) (constants : HashMap String Word),
      (∀ later ∈ ops, ∀ dst' value', constantOf later = some (dst', value') →
        displayName toUppercase dst' ≠ displayName toUppercase dst) →
      (ops.foldl (recordConstant toUppercase) constants).lookup (displayName toUppercase dst) =
        constants.lookup (displayName toUppercase dst) := by
    intro ops
    induction ops with
    | nil => exact fun _ _ => rfl
    | cons later rest ih =>
      intro constants others
      obtain ⟨here, there⟩ := forall_mem_cons.mp others
      refine (ih _ there).trans ?_
      rw [recordConstant]
      cases isLiteral : constantOf later with
      | none => rfl
      | some pair =>
        obtain ⟨dst', value'⟩ := pair
        exact AList.lookup_insert_ne (here dst' value' isLiteral).symm
  rw [findConstants, split, foldl_append, foldl_cons, kept after _ notLater,
    recordConstant, records]
  exact AList.lookup_insert _

end DefUse

/-- All readers read a literal back exactly if it has one decimal digit. -/
theorem constant_round_trips_iff (toUppercase : String → String) (value : Word) (size : Nat) :
    (constValue (.constant value.toNat size) = some value ∧
      Family.constValue (.constant value.toNat size) = some value ∧
      Semantic.constValue (.constant value.toNat size) = some value ∧
      DefUse.constValue (.constant value.toNat size) = some value ∧
      ∀ block dst, ((block.ops.filterMap SSAOp.dst).map (displayName toUppercase)).Nodup →
        .Copy dst (.constant value.toNat size) ∈ block.ops →
        (DefUse.findConstants toUppercase block).lookup (displayName toUppercase dst) = some value) ↔
      value.toNat < 10 := by
  rw [DefUse.constValue_constant, fromStrRadix_decimal_iff]
  constructor
  · exact fun all => all.2.2.2.1
  · intro small
    refine ⟨constValue_constant value size, family_constValue_constant value size,
      semantic_constValue_constant value size, small, fun block dst distinct mem => ?_⟩
    refine DefUse.lookup_findConstants distinct mem ?_
    rw [DefUse.constantOf_copy, (fromStrRadix_decimal_iff value).mpr small]
    rfl

/-- Sixteen is written `10`, and read back as ten; 255 is not read back at all. -/
theorem sixteen_reads_as_ten : DefUse.constValue (.constant 16 8) = some 10 ∧
    (DefUse.findConstants id ⟨0, 4, [.Copy ⟨"rax", 1, 8⟩ (.constant 16 8)]⟩).lookup "rax_1" =
      some 10 ∧
    DefUse.constValue (.constant 255 8) = none ∧ constValue (.constant 16 8) = some 16 ∧
    ¬ ∀ (value : Word) (size : Nat), DefUse.constValue (.constant value.toNat size) = some value := by
  refine ⟨by decide +kernel, by decide +kernel, by decide +kernel, by decide +kernel, fun all => ?_⟩
  have sixteen : DefUse.constValue (.constant (16 : Word).toNat 8) ≠ some 16 := by decide +kernel
  exact sixteen (all 16 8)

end R2Sleigh.Ssa
