import R2Sleigh.Dec.CExpr
import R2Sleigh.Types.AddrPattern

/-!
Contract: the readers of literals in the decompiler.

Owns `parseConstValue`.
-/

namespace R2Sleigh.Dec

open Il Lib Ssa Option

variable {F : Type}

def isAsciiHexdigit (c : Char) : Bool := (hexDigit c).isSome

/-- Hexadecimal where the text is marked so, has a letter or is long, else decimal. -/
def parseConstValue (name : String) : Option Word :=
  (stripPrefix "const:" name).bind fun text =>
    match text.takeWhile (· ≠ '_') with
    | '0' :: 'x' :: hex | '0' :: 'X' :: hex => fromStrRadix 16 hex
    | '0' :: 'd' :: dec | '0' :: 'D' :: dec => fromStrRadix 10 dec
    | valStr =>
      if valStr.all isAsciiHexdigit then
        if valStr.any Char.isAlpha || 4 < valStr.length then fromStrRadix 16 valStr
        else fromStrRadix 10 valStr
      else fromStrRadix 10 valStr

def parseCompareConstValueWithWidth (var : SSAVar) (compareWidth : Nat) : Option Word :=
  (stripPrefix "const:" var.name).bind fun text =>
    match text.takeWhile (· ≠ '_') with
    | '0' :: 'd' :: dec | '0' :: 'D' :: dec => fromStrRadix 10 dec
    | raw =>
      if 8 ≤ compareWidth ∧ 1 < raw.length ∧ raw.all isAsciiHexdigit = true ∧
          ¬ ['0', 'x'] <+: raw ∧ ¬ ['0', 'X'] <+: raw then
        fromStrRadix 16 raw
      else parseConstValue var.name

/-- `compare_const_expr_from_name`: a literal, unsigned above `i32::MAX`. -/
def compareConstExprFromName (name : String) : Option (CExpr F) :=
  (stripPrefix "const:" name).bind fun text =>
    (match text.takeWhile (· ≠ '_') with
      | '0' :: 'd' :: dec | '0' :: 'D' :: dec => fromStrRadix 10 dec
      | '0' :: 'x' :: hex | '0' :: 'X' :: hex => fromStrRadix 16 hex
      | raw =>
        if 1 < raw.length ∧ raw.all isAsciiHexdigit = true then fromStrRadix 16 raw
        else fromStrRadix 10 raw).map fun value =>
      if 0x7fffffff < value then .uintLit value else .intLit value

/-- `parse_const_offset`, which type inference has a copy of. -/
def parseConstOffset (var : SSAVar) : Option Int := Types.parseConstOffset var

/-! ## What they make of a numeral -/

/-- A numeral of more than four digits, or with a letter. -/
def ReadAsHex (value : Word) : Prop :=
  16 ^ 4 ≤ value.toNat ∨ ∃ c ∈ Nat.toDigits 16 value.toNat, c.isAlpha = true

theorem all_isAsciiHexdigit (n : Nat) : (Nat.toDigits 16 n).all isAsciiHexdigit = true := by
  refine List.all_eq_true.mpr fun c mem => ?_
  obtain ⟨d, small, rfl⟩ := mem_toDigits 16 (by decide) n c mem
  rw [isAsciiHexdigit, hexDigit_digitChar small]
  rfl

theorem readAsHex_iff (value : Word) : ReadAsHex value ↔
    ((Nat.toDigits 16 value.toNat).any Char.isAlpha ||
      4 < (Nat.toDigits 16 value.toNat).length) = true := by
  have length := Nat.length_toDigits_le_iff (b := 16) (n := value.toNat) (k := 4) (by decide)
    (by decide)
  rw [Bool.or_eq_true, List.any_eq_true, decide_eq_true_eq, ReadAsHex, or_comm, ← not_le (b := 4),
    length, not_lt]

theorem one_lt_length_iff (value : Word) :
    1 < (Nat.toDigits 16 value.toNat).length ↔ 16 ≤ value.toNat := by
  have length := Nat.length_toDigits_le_iff (b := 16) (n := value.toNat) (k := 1) (by decide)
    (by decide)
  rw [← not_le, length, not_lt, pow_one]

section Constant

variable (value : Word) (size : Nat)

theorem fromStrRadix_word : fromStrRadix 16 (Nat.toDigits 16 value.toNat) = some value := by
  rw [fromStrRadix_toDigits value.isLt, BitVec.ofNat_toNat, BitVec.setWidth_eq]

/-- From ten on the value is read only where the text is taken as hexadecimal. -/
theorem parseConstValue_constant_iff :
    parseConstValue (SSAVar.constant value.toNat size).name = some value ↔
      value.toNat < 10 ∨ ReadAsHex value := by
  rw [parseConstValue, stripPrefix_constant, bind_some, takeWhile_toDigits]
  split
  iterate 4 exact absurd ‹_› (toDigits_ne_zero_cons value.toNat _ _)
  rw [if_pos (all_isAsciiHexdigit _)]
  split
  · rename_i asHex
    exact iff_of_true (fromStrRadix_word value) (.inr ((readAsHex_iff value).mpr asHex))
  · rename_i asDecimal
    rw [fromStrRadix_decimal_iff,
      or_iff_left fun asHex => asDecimal ((readAsHex_iff value).mp asHex)]

private theorem parseCompareConstValueWithWidth_constant (compareWidth : Nat) :
    parseCompareConstValueWithWidth (.constant value.toNat size) compareWidth =
      if 8 ≤ compareWidth ∧ 16 ≤ value.toNat then some value
      else parseConstValue (SSAVar.constant value.toNat size).name := by
  rw [parseCompareConstValueWithWidth, stripPrefix_constant, bind_some, takeWhile_toDigits]
  split
  iterate 2 exact absurd ‹_› (toDigits_ne_zero_cons value.toNat _ _)
  have noMark : ∀ c, ¬ ['0', c] <+: Nat.toDigits 16 value.toNat := by
    rintro c ⟨rest, shape⟩
    exact toDigits_ne_zero_cons value.toNat c rest shape.symm
  simp only [one_lt_length_iff, all_isAsciiHexdigit, noMark, not_false_eq_true, and_true,
    fromStrRadix_word]

/-- The literal made from a name has the value except from ten to fifteen. -/
theorem compareConstExprFromName_constant_iff :
    (∃ lit : CExpr F, compareConstExprFromName (SSAVar.constant value.toNat size).name = some lit ∧
        (lit = .intLit value ∨ lit = .uintLit value)) ↔
      value.toNat < 10 ∨ 16 ≤ value.toNat := by
  have literal : ∀ word : Word,
      ((if 0x7fffffff < word then .uintLit word else .intLit word : CExpr F) = .intLit value ∨
        (if 0x7fffffff < word then .uintLit word else .intLit word : CExpr F) = .uintLit value) ↔
      word = value := by
    intro word
    split <;> simp
  rw [compareConstExprFromName, stripPrefix_constant, bind_some, takeWhile_toDigits]
  split
  iterate 4 exact absurd ‹_› (toDigits_ne_zero_cons value.toNat _ _)
  simp only [one_lt_length_iff, all_isAsciiHexdigit, and_true, map_eq_some_iff]
  have reads : ∀ read : Option Word,
      (∃ lit : CExpr F, (∃ word, read = some word ∧
        (if 0x7fffffff < word then .uintLit word else .intLit word) = lit) ∧
          (lit = .intLit value ∨ lit = .uintLit value)) ↔ read = some value := by
    intro read
    constructor
    · rintro ⟨-, ⟨word, isWord, rfl⟩, isValue⟩
      rw [isWord, (literal word).mp isValue]
    · exact fun isValue => ⟨_, ⟨value, isValue, rfl⟩, (literal value).mpr rfl⟩
  rw [reads]
  split
  · rename_i long
    exact iff_of_true (fromStrRadix_word value) (.inr long)
  · rename_i short
    rw [fromStrRadix_decimal_iff, or_iff_left short]

private theorem parseConstOffset_constant :
    parseConstOffset (.constant value.toNat size) = some value.toInt := by
  rw [parseConstOffset, Types.parseConstOffset, Types.parseConstWord_constant, map_some]
  refine congrArg some ?_
  split
  · rename_i negative
    have above : Types.likelyNegativeThreshold.toNat < value.toNat := BitVec.lt_def.mp negative
    have threshold : Types.likelyNegativeThreshold.toNat = 0xffffffffffff0000 := by decide
    have complement : (~~~value + 1).toNat = 2 ^ 64 - value.toNat := by
      have one : (1 : Word).toNat = 1 := rfl
      rw [BitVec.toNat_add, BitVec.toNat_not, one]
      omega
    rw [BitVec.toInt_eq_toNat_cond, BitVec.toInt_eq_toNat_cond, complement]
    split <;> split <;> omega
  · rfl

/-- The readers all read a literal back exactly if it has one decimal digit, or at least
two digits of which one is a letter or which are more than four. -/
theorem constants_read_back_iff :
    (parseConstValue (SSAVar.constant value.toNat size).name = some value ∧
      (∀ compareWidth, parseCompareConstValueWithWidth (.constant value.toNat size) compareWidth =
        some value) ∧
      (∃ lit : CExpr F,
        compareConstExprFromName (SSAVar.constant value.toNat size).name = some lit ∧
          (lit = .intLit value ∨ lit = .uintLit value)) ∧
      parseConstOffset (.constant value.toNat size) = some value.toInt) ↔
      value.toNat < 10 ∨ 16 ≤ value.toNat ∧ ReadAsHex value := by
  rw [parseConstValue_constant_iff, compareConstExprFromName_constant_iff,
    and_iff_left (parseConstOffset_constant value size)]
  constructor
  · rintro ⟨small | asHex, -, short | long⟩
    · exact .inl small
    · exact .inl small
    · exact .inl short
    · exact .inr ⟨long, asHex⟩
  · intro readable
    have general : value.toNat < 10 ∨ ReadAsHex value := readable.imp_right And.right
    refine ⟨general, fun compareWidth => ?_, readable.imp_right And.left⟩
    rw [parseCompareConstValueWithWidth_constant]
    split
    · rfl
    · exact (parseConstValue_constant_iff value size).mpr general

end Constant

/-- Sixteen, written `10`, is read as ten, but not in a comparison of eight bytes; a
comparison does not read ten, written `a`. -/
theorem sixteen_and_ten_not_read_back :
    parseConstValue (SSAVar.constant 16 8).name = some 10 ∧
      parseCompareConstValueWithWidth (.constant 16 8) 4 = some 10 ∧
      parseCompareConstValueWithWidth (.constant 16 8) 8 = some 16 ∧
      parseConstOffset (.constant 16 8) = some 16 ∧
      compareConstExprFromName (F := Unit) (SSAVar.constant 10 8).name = none ∧
      ¬ ∀ (value : Word) (size : Nat),
        parseConstValue (SSAVar.constant value.toNat size).name = some value := by
  refine ⟨by decide +kernel, by decide +kernel, by decide +kernel, by decide +kernel, rfl,
    fun all => ?_⟩
  have sixteen : parseConstValue (SSAVar.constant (16 : Word).toNat 8).name ≠ some 16 := by
    decide +kernel
  exact sixteen (all 16 8)

end R2Sleigh.Dec
