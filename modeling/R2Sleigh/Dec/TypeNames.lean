import R2Sleigh.Dec.CExpr
import R2Sleigh.Ssa.Simplify
import R2Sleigh.Types.TypeSpec

/-!
Contract: the text of a C type, read back by the parser of textual types.

Owns `typeLikeToCtype`.
-/

namespace R2Sleigh.Dec

open Lib Ssa Types List

def typeLikeToCtype : CTypeLike → CType
  | .void => .void
  | .bool => .bool
  | .int bits .unsigned => .uint bits
  | .int bits _ => .int bits
  | .float bits => .float bits
  | .pointer inner => .pointer (typeLikeToCtype inner)
  | .array inner len => .array (typeLikeToCtype inner) len
  | .struct name => .struct name
  | .union name => .union name
  | .enum name => .enum name
  | .function | .unknown => .unknown

/-! ## Types from bases, pointers and arrays -/

local instance (priority := 2000) decidableEach (p : Char → Prop) [DecidablePred p]
    (text : List Char) : Decidable (∀ c ∈ text, p c) :=
  decidableBAll p text

def Plain (c : Char) : Prop := c.isAlphanum = true ∨ c = '_'

instance (c : Char) : Decidable (Plain c) := inferInstanceAs (Decidable (_ ∨ _))

def IsIdentifier (name : String) : Prop :=
  ∃ c rest, name.toList = c :: rest ∧ c.isDigit = false ∧ ∀ c ∈ name.toList, Plain c

namespace CType

/-- A type without parts, with a width of 32 bits or a name. -/
def IsBase : CType → Prop
  | .void | .bool => True
  | .int bits | .uint bits => bits < 2 ^ 32
  | .float bits => bits = 32 ∨ bits = 64
  | .struct name | .union name | .enum name => IsIdentifier name
  | _ => False

inductive Nested : CType → Prop where
  | base {ty : CType} (isBase : ty.IsBase) : Nested ty
  | pointer {inner : CType} (nested : Nested inner) : Nested (.pointer inner)
  | array {inner : CType} (nested : Nested inner) (size : Option Nat)
      (small : ∀ n ∈ size, n < 2 ^ 64) : Nested (.array inner size)

/-- The same structure. -/
def like : CType → CTypeLike
  | .void => .void
  | .bool => .bool
  | .int bits => .int bits .signed
  | .uint bits => .int bits .unsigned
  | .float bits => .float bits
  | .pointer inner => .pointer inner.like
  | .array inner len => .array inner.like len
  | .struct name => .struct name
  | .union name => .union name
  | .enum name => .enum name
  | .function _ _ | .typedef _ | .unknown => .unknown

/-- The name after the tag is a qualifier's, in some letter case. -/
def NamedAsQualifier : CType → Prop
  | .struct name | .union name | .enum name => isQualifier name.toList = true
  | _ => False

theorem typeLikeToCtype_like {ty : CType} (nested : ty.Nested) : typeLikeToCtype ty.like = ty := by
  induction nested with
  | @base ty isBase =>
    cases ty <;> first | rfl | exact isBase.elim
  | pointer _ ih | array _ size _ ih => rw [like, typeLikeToCtype, ih]

end CType

/-! ## Characters and words -/

theorem plain_facts {c : Char} (plain : Plain c) :
    isWhitespace c = false ∧ c ≠ '*' ∧ c ≠ ']' ∧ c ≠ '[' := by
  have ascii : c.toNat < 128 := by
    rcases plain with alphanum | rfl
    · delta Char.isAlphanum Char.isAlpha Char.isUpper Char.isLower Char.isDigit at alphanum
      simp only [Bool.or_eq_true, Bool.and_eq_true, decide_eq_true_eq, ge_iff_le,
        UInt32.le_iff_toNat_le] at alphanum
      have small : c.val.toNat ≤ 122 := by
        rcases alphanum with (⟨-, upper⟩ | ⟨-, upper⟩) | ⟨-, upper⟩ <;>
          exact upper.trans (by decide)
      exact Nat.lt_of_le_of_lt small (by decide)
    · decide
  have all : ∀ n : Fin 128, (Char.ofNat n).isAlphanum = true ∨ Char.ofNat n = '_' →
      isWhitespace (Char.ofNat n) = false ∧ Char.ofNat n ≠ '*' ∧ Char.ofNat n ≠ ']' ∧
        Char.ofNat n ≠ '[' := by decide +kernel
  have here := all ⟨c.toNat, ascii⟩
  rw [Char.ofNat_toNat] at here
  exact here plain

theorem plain_digits {n : Nat} {c : Char} (digit : c ∈ digits n) :
    Plain c ∧ c.toLower = c := by
  obtain ⟨d, small, rfl⟩ := mem_toDigits 10 (by decide) n c digit
  have all : ∀ d : Fin 10, d.val.digitChar.isAlphanum = true ∧
      d.val.digitChar.toLower = d.val.digitChar := by decide
  exact ⟨.inl (all ⟨d, small⟩).1, (all ⟨d, small⟩).2⟩

theorem parseUnsigned_digits {bits n : Nat} (within : bits ≤ 64) (small : n < 2 ^ bits) :
    parseUnsigned bits (digits n) = some n := by
  have fits : n < 2 ^ 64 := Nat.lt_of_lt_of_le small (Nat.pow_le_pow_right (by decide) within)
  rw [parseUnsigned, digits, fromStrRadix_toDigits_base (by decide) (by decide) fits,
    Option.map_some, BitVec.toNat_ofNat, Nat.mod_eq_of_lt fits, Option.filter_some,
    if_pos (decide_eq_true small)]

/-! ## Bases -/

theorem dropPrefix_append (pre rest : List Char) : dropPrefix pre (pre ++ rest) = some rest := by
  rw [dropPrefix, if_pos (prefix_append pre rest), drop_left]

theorem dropSuffix_append (rest suf : List Char) : dropSuffix suf (rest ++ suf) = some rest := by
  rw [dropSuffix, if_pos (suffix_append rest suf), length_append, Nat.add_sub_cancel, take_left]

theorem isQualifier_first {c : Char} {rest : List Char}
    (qualifier : isQualifier (c :: rest) = true) : c.toLower ∈ ['c', 'v', 'r', '_'] := by
  have all : ∀ word ∈ ["const", "volatile", "restrict", "__restrict", "__restrict__", "__const",
      "__const__", "__volatile", "__volatile__"],
      word.toList.head? ∈ ['c', 'v', 'r', '_'].map some := by decide
  have first := all _ (contains_iff_mem.mp qualifier)
  simpa [lower] using first

variable {text : List Char}

private theorem withoutQualifiers_word (solid : ∀ c ∈ text, isWhitespace c = false)
    (nonempty : text ≠ []) (other : isQualifier text = false) : withoutQualifiers text = text := by
  have one : splitWhitespace text = [text] := by
    rw [splitWhitespace, splitOnP_eq_singleton solid]
    simp [nonempty]
  rw [withoutQualifiers, one, filter_cons_of_pos (by rw [other]; rfl)]
  exact if_neg fun differ => differ rfl

section Bases

variable (ptrBits : Nat)

theorem baseType_fixedWidth {pre : List Char} {bits : Nat} (small : bits < 2 ^ 32)
    (known : pre = "int".toList ∨ pre = "uint".toList) :
    baseType ptrBits (withoutQualifiers (pre ++ digits bits ++ "_t".toList)) =
      some (.int bits (if pre = "int".toList then .signed else .unsigned)) := by
  have ends : ∀ c ∈ "_t".toList, Plain c ∧ c.toLower = c := by decide
  have starts : ∀ c ∈ pre, Plain c ∧ c.toLower = c := by
    rcases known with rfl | rfl <;> decide
  have each : ∀ c ∈ pre ++ digits bits ++ "_t".toList, Plain c ∧ c.toLower = c := by
    intro c inText
    rcases mem_append.mp inText with inFront | inEnd
    · exact (mem_append.mp inFront).elim (starts c) plain_digits
    · exact ends c inEnd
  have solid := fun c inText => (plain_facts (each c inText).1).1
  have noQualifier : isQualifier (pre ++ digits bits ++ "_t".toList) = false := by
    rw [← Bool.not_eq_true]
    intro qualifier
    rcases known with rfl | rfl
    · exact absurd (isQualifier_first qualifier) (by decide)
    · exact absurd (isQualifier_first qualifier) (by decide)
  have key : lower ((pre ++ digits bits ++ "_t".toList).filter fun c => !isWhitespace c) =
      pre ++ (digits bits ++ "_t".toList) := by
    rw [filter_eq_self.mpr fun c inText => by rw [solid c inText]; rfl, lower,
      map_congr_left fun c inText => (each c inText).2, map_id', append_assoc]
  have nonempty : pre ++ digits bits ++ "_t".toList ≠ [] :=
    append_ne_nil_of_right_ne_nil _ (by decide)
  rw [withoutQualifiers_word solid nonempty noQualifier, baseType, key]
  rcases known with rfl | rfl
  · rw [dropPrefix_append, Option.bind_some, dropSuffix_append]
    dsimp only
    rw [parseUnsigned_digits (by decide) small, if_pos rfl]
    rfl
  · have noInt : dropPrefix "int".toList ("uint".toList ++ (digits bits ++ "_t".toList)) = none :=
      if_neg fun ⟨rest, same⟩ =>
        absurd (show some 'i' = some 'u' from congrArg head? same) (by decide)
    rw [noInt, Option.bind_none, dropPrefix_append, Option.bind_some, dropSuffix_append]
    dsimp only
    rw [parseUnsigned_digits (by decide) small, if_neg (by decide)]
    rfl

theorem baseType_tagged (tag : List Char) {name : String} (identifier : IsIdentifier name)
    (known : tag ∈ ["struct".toList, "union".toList, "enum".toList]) :
    baseType ptrBits (withoutQualifiers (tag ++ ' ' :: name.toList)) =
      if isQualifier name.toList = true then none
      else if tag = "struct".toList then some (.struct name)
      else if tag = "union".toList then some (.union name) else some (.enum name) := by
  have facts : ∀ tag ∈ ["struct".toList, "union".toList, "enum".toList], tag ≠ [] ∧
      (∀ c ∈ tag, isWhitespace c = false ∧ c.toLower = c) ∧ isQualifier tag = false := by
    decide +kernel
  have prefixes : ∀ tag ∈ ["struct".toList, "union".toList, "enum".toList],
      (∀ pre ∈ ["int".toList, "uint".toList], pre.length ≤ tag.length ∧ ¬ pre <+: tag) ∧
        ∀ keys ∈ (namedBases ptrBits).map Prod.fst, ∀ key ∈ keys, ¬ tag <+: key.toList := by
    have closed : ∀ tag ∈ ["struct".toList, "union".toList, "enum".toList],
      (∀ pre ∈ ["int".toList, "uint".toList], pre.length ≤ tag.length ∧ ¬ pre <+: tag) ∧
        ∀ keys ∈ (namedBases 0).map Prod.fst, ∀ key ∈ keys, ¬ tag <+: key.toList := by
      decide +kernel
    exact closed
  have solid : ∀ c ∈ name.toList, isWhitespace c = false := fun c inName =>
    (plain_facts (identifier.choose_spec.choose_spec.2.2 c inName)).1
  obtain ⟨nonempty, each, noQualifier⟩ := facts tag known
  have nameNonempty : name.toList ≠ [] := by
    rw [identifier.choose_spec.choose_spec.1]
    exact cons_ne_nil _ _
  have blank : isWhitespace ' ' = true := by decide
  have words : splitWhitespace (tag ++ ' ' :: name.toList) = [tag, name.toList] := by
    rw [splitWhitespace,
      splitOnP_append_cons_of_forall_mem (fun c inTag => (each c inTag).1) _ blank,
      splitOnP_eq_singleton solid]
    simp [nonempty, nameNonempty]
  rw [withoutQualifiers, words]
  cases qualifier : isQualifier name.toList with
  | true =>
    have kept : [tag, name.toList].filter (fun token => !isQualifier token) = [tag] := by
      simp [noQualifier, qualifier]
    have differ : [tag].length ≠ [tag, name.toList].length := by simp
    rw [kept, if_pos differ, if_pos rfl]
    simp only [mem_cons, not_mem_nil, or_false] at known
    rcases known with rfl | rfl | rfl <;> rfl
  | false =>
    have kept : [tag, name.toList].filter (fun token => !isQualifier token) =
        [tag, name.toList] := by
      simp [noQualifier, qualifier]
    have key : lower ((tag ++ ' ' :: name.toList).filter fun c => !isWhitespace c) =
        tag ++ lower name.toList := by
      rw [filter_append, filter_cons_of_neg (by decide), filter_eq_self.mpr fun c inTag => by
          rw [(each c inTag).1]; rfl,
        filter_eq_self.mpr fun c inName => by rw [solid c inName]; rfl, lower, map_append,
        map_congr_left fun c inTag => (each c inTag).2, map_id', lower]
    rw [kept, if_neg fun differ => differ rfl, if_neg Bool.false_ne_true, baseType, key]
    have noWidth : ∀ pre ∈ ["int".toList, "uint".toList],
        dropPrefix pre (tag ++ lower name.toList) = none := by
      intro pre isPre
      obtain ⟨short, apart⟩ := (prefixes tag known).1 pre isPre
      exact if_neg fun isPrefix =>
        apart (prefix_of_prefix_length_le isPrefix (prefix_append ..) short)
    have notNamed : (namedBases ptrBits).find? (fun entry =>
        entry.1.contains (String.ofList (tag ++ lower name.toList))) = none := by
      refine find?_eq_none.mpr fun entry listed isKey => ?_
      refine (prefixes tag known).2 entry.1 (mem_map_of_mem listed) _ (contains_iff_mem.mp isKey) ?_
      rw [String.toList_ofList]
      exact prefix_append ..
    rw [noWidth _ mem_cons_self, Option.bind_none, noWidth _ (mem_cons_of_mem _ mem_cons_self),
      Option.bind_none, notNamed]
    have lowered : lower (tag ++ ' ' :: name.toList) = tag ++ ' ' :: lower name.toList := by
      rw [lower, map_append, map_congr_left fun c inTag => (each c inTag).2, map_id', map_cons]
      rfl
    have second : ([tag, name.toList][1]?).map String.ofList = some name :=
      congrArg some String.ofList_toList
    have notTag : ∀ other tag' : List Char, other.head? ≠ (tag' ++ ' ' :: lower name.toList).head? →
        other.head?.isSome → ¬ other <+: tag' ++ ' ' :: lower name.toList := by
      rintro other tag' differ isSome ⟨rest, same⟩
      rw [← same] at differ
      exact differ (by rw [head?_append]; exact (Option.or_of_isSome isSome).symm)
    rw [taggedBase, words, lowered, second]
    simp only [mem_cons, not_mem_nil, or_false] at known
    rcases known with rfl | rfl | rfl
    · rfl
    · rw [if_neg (notTag "struct ".toList "union".toList (show some 's' ≠ some 'u' by decide) rfl),
        if_pos ⟨lower name.toList, rfl⟩]
      rfl
    · rw [if_neg (notTag "struct ".toList "enum".toList (show some 's' ≠ some 'e' by decide) rfl),
        if_neg (notTag "union ".toList "enum".toList (show some 'u' ≠ some 'e' by decide) rfl),
        if_pos ⟨lower name.toList, rfl⟩]
      rfl

/-- A base type is read back unless its name is that of a qualifier. -/
theorem baseType_display {ty : CType} (isBase : ty.IsBase) :
    (¬ ty.NamedAsQualifier → baseType ptrBits (withoutQualifiers ty.display) = some ty.like) ∧
      (ty.NamedAsQualifier → baseType ptrBits (withoutQualifiers ty.display) = none) := by
  have both : ∀ {named : Prop} {_ : Decidable named} {parsed rest like : Option CTypeLike},
      parsed = (if named then rest else like) → (¬ named → parsed = like) ∧ (named → parsed = rest) :=
    fun isIte => ⟨fun other => isIte.trans (if_neg other), fun named => isIte.trans (if_pos named)⟩
  cases ty with
  | void | bool => exact ⟨fun _ => rfl, False.elim⟩
  | int bits => exact ⟨fun _ => baseType_fixedWidth ptrBits isBase (.inl rfl), False.elim⟩
  | uint bits => exact ⟨fun _ => baseType_fixedWidth ptrBits isBase (.inr rfl), False.elim⟩
  | float bits =>
    refine ⟨fun _ => ?_, False.elim⟩
    rcases isBase with rfl | rfl <;> rfl
  | struct name =>
    exact both (baseType_tagged ptrBits "struct".toList isBase (by decide))
  | union name => exact both (baseType_tagged ptrBits "union".toList isBase (by decide))
  | enum name => exact both (baseType_tagged ptrBits "enum".toList isBase (by decide))
  | _ => exact isBase.elim

/-- The results of the parser's last step have no parts. -/
def Flat : CTypeLike → Prop
  | .pointer _ | .array _ _ => False
  | _ => True

private theorem flat_of_baseType {like : CTypeLike}
    (found : baseType ptrBits text = some like) : Flat like := by
  unfold baseType taggedBase at found
  dsimp only at found
  have named : ∀ entry ∈ namedBases ptrBits, Flat entry.2 := by simp [namedBases, Flat]
  split at found
  · obtain ⟨_, -, rfl⟩ := Option.map_eq_some_iff.mp found
    trivial
  · split at found
    · obtain ⟨_, -, rfl⟩ := Option.map_eq_some_iff.mp found
      trivial
    · split at found
      · rename_i entry isFound
        rw [← Option.some.inj found]
        exact named entry (mem_of_find?_eq_some isFound)
      · split_ifs at found
        all_goals
          obtain ⟨_, -, rfl⟩ := Option.map_eq_some_iff.mp found
          trivial

end Bases

/-! ## Suffixes -/

/-- The text of a base: solid at both ends, plain but for blanks. -/
structure Worded (text : List Char) : Prop where
  first : ∃ c rest, text = c :: rest ∧ isWhitespace c = false
  last : ∃ rest c, text = rest ++ [c] ∧ Plain c
  noBracket : '[' ∉ text

theorem worded_append (c : Char) (pre word : List Char) (first : Plain c)
    (inner : ∀ c ∈ pre, c = ' ' ∨ Plain c) (nonempty : word ≠ []) (plain : ∀ c ∈ word, Plain c) :
    Worded (c :: pre ++ word) := by
  refine ⟨⟨c, pre ++ word, rfl, (plain_facts first).1⟩, ⟨c :: pre ++ word.dropLast,
    word.getLast nonempty, ?_, plain _ (getLast_mem nonempty)⟩, fun bracket => ?_⟩
  · rw [append_assoc, dropLast_append_getLast nonempty]
  · rcases mem_append.mp bracket with inFront | inWord
    · rcases mem_cons.mp inFront with rfl | inPre
      · exact (plain_facts first).2.2.2 rfl
      · rcases inner _ inPre with blank | isPlain
        · cases blank
        · exact (plain_facts isPlain).2.2.2 rfl
    · exact (plain_facts (plain _ inWord)).2.2.2 rfl

theorem worded_display {ty : CType} (isBase : ty.IsBase) : Worded ty.display := by
  have width : ∀ (c : Char) (pre : List Char) (bits : Nat), Plain c → (∀ c ∈ pre, Plain c) →
      Worded (c :: (pre ++ digits bits) ++ "_t".toList) := by
    intro c pre bits first inner
    refine worded_append c _ _ first (fun c inFront => .inr ?_) (by decide) (by decide)
    exact (mem_append.mp inFront).elim (inner c) fun digit => (plain_digits digit).1
  have tagged : ∀ (c : Char) (pre : List Char) (name : String), Plain c →
      (∀ c ∈ pre, c = ' ' ∨ Plain c) → IsIdentifier name → Worded (c :: pre ++ name.toList) := by
    rintro c pre name first inner ⟨d, rest, shape, -, plain⟩
    exact worded_append c pre _ first inner (by rw [shape]; exact cons_ne_nil _ _) plain
  cases ty with
  | void => exact worded_append 'v' ['o', 'i'] ['d'] (by decide) (by decide) (by decide) (by decide)
  | bool => exact worded_append 'b' ['o', 'o'] ['l'] (by decide) (by decide) (by decide) (by decide)
  | int bits => exact width 'i' ['n', 't'] bits (by decide) (by decide)
  | uint bits => exact width 'u' ['i', 'n', 't'] bits (by decide) (by decide)
  | float bits =>
    rcases isBase with rfl | rfl
    · exact worded_append 'f' "loa".toList ['t'] (by decide) (by decide) (by decide) (by decide)
    · exact worded_append 'd' "oubl".toList ['e'] (by decide) (by decide) (by decide) (by decide)
  | struct name => exact tagged 's' "truct ".toList name (by decide) (by decide) isBase
  | union name => exact tagged 'u' "nion ".toList name (by decide) (by decide) isBase
  | enum name => exact tagged 'e' "num ".toList name (by decide) (by decide) isBase
  | _ => exact isBase.elim

theorem trimEnd_concat (rest : List Char) {c : Char} (solid : isWhitespace c = false) :
    trimEnd (rest ++ [c]) = rest ++ [c] := by
  rw [trimEnd, reverse_concat, dropWhile_cons_of_neg (by rw [solid]; exact Bool.false_ne_true),
    reverse_cons, reverse_reverse]

theorem Worded.trim (worded : Worded text) (suffix : List Char) {c : Char}
    (solid : isWhitespace c = false) :
    Lib.trim (text ++ suffix ++ [c]) = text ++ suffix ++ [c] := by
  obtain ⟨first, rest, rfl, solidFirst⟩ := worded.first
  rw [Lib.trim, cons_append, cons_append,
    dropWhile_cons_of_neg (by rw [solidFirst]; exact Bool.false_ne_true), ← cons_append,
    ← cons_append, trimEnd_concat _ solid]

theorem stripStars_word (worded : Worded text) (k : Nat) :
    ∀ fuel, k ≤ fuel → stripStars fuel (text ++ replicate k '*') = (k, text) := by
  obtain ⟨rest, c, rfl, plain⟩ := worded.last
  induction k with
  | zero =>
    intro fuel _
    have noStar : dropSuffix ['*'] (rest ++ [c]) = none := by
      refine if_neg fun ⟨before, same⟩ => (plain_facts plain).2.1 ?_
      exact (List.cons.inj (append_inj_right' same rfl)).1.symm
    cases fuel with
    | zero => rw [replicate_zero, append_nil, stripStars]
    | succ fuel => rw [replicate_zero, append_nil, stripStars, noStar]
  | succ k ih =>
    intro fuel enough
    obtain ⟨fuel, rfl⟩ := Nat.exists_eq_add_of_lt enough
    have trimmed : trimEnd (rest ++ [c] ++ replicate k '*') = rest ++ [c] ++ replicate k '*' := by
      cases k with
      | zero => rw [replicate_zero, append_nil, trimEnd_concat _ (plain_facts plain).1]
      | succ k => rw [replicate_succ', ← append_assoc, trimEnd_concat _ (by decide)]
    rw [replicate_succ', ← append_assoc, stripStars, dropSuffix_append]
    dsimp only
    rw [trimmed, ih _ (by omega)]

theorem splitArray_none {rest : List Char} {c : Char} (other : c ≠ ']') :
    splitArray (rest ++ [c]) = none := by
  rw [splitArray, reverse_concat]
  split
  · rename_i same
    exact absurd (List.cons.inj same).1 other
  · rfl

private theorem closing_of_splitArray {parts : List Char × List Char}
    (isSplit : splitArray text = some parts) : ∃ before, text = before ++ [']'] := by
  rcases eq_nil_or_concat' text with rfl | ⟨before, c, rfl⟩
  · cases isSplit
  · refine ⟨before, ?_⟩
    by_contra other
    have noBracket : c ≠ ']' := fun same => other (by rw [same])
    rw [splitArray_none noBracket] at isSplit
    cases isSplit

private theorem splitArray_array (text : List Char) {len : List Char} (noBracket : '[' ∉ len) :
    splitArray (text ++ '[' :: len ++ [']']) = some (text, len) := by
  have before : (len.reverse ++ '[' :: text.reverse).dropWhile (· ≠ '[') = '[' :: text.reverse ∧
      (len.reverse ++ '[' :: text.reverse).takeWhile (· ≠ '[') = len.reverse := by
    have stays : ∀ c ∈ len.reverse, decide (c ≠ '[') = true := fun c inLen =>
      decide_eq_true fun same => noBracket (same ▸ mem_reverse.mp inLen)
    rw [dropWhile_append_of_pos stays, takeWhile_append_of_pos stays]
    exact ⟨dropWhile_cons_of_neg (by decide), by
      rw [takeWhile_cons_of_neg (by decide), append_nil]⟩
  have reversed : (text ++ '[' :: len ++ [']']).reverse =
      ']' :: (len.reverse ++ '[' :: text.reverse) := by simp
  simp only [splitArray, reversed, before.1, before.2, reverse_reverse]

section Suffixes

variable (ptrBits : Nat) {text : List Char} (worded : Worded text)
include worded

theorem parse_pointers (k : Nat) : parseTypeLikeSpec (text ++ replicate k '*') ptrBits =
    (baseType ptrBits (withoutQualifiers text)).map CTypeLike.pointer^[k] := by
  obtain ⟨before, c, shape, solid, noBracket⟩ : ∃ before c,
      text ++ replicate k '*' = before ++ [c] ∧ isWhitespace c = false ∧ c ≠ ']' := by
    cases k with
    | zero =>
      obtain ⟨rest, c, rfl, plain⟩ := worded.last
      exact ⟨rest, c, append_nil _, (plain_facts plain).1, (plain_facts plain).2.2.1⟩
    | succ k =>
      exact ⟨text ++ replicate k '*', '*', by rw [replicate_succ', append_assoc], by decide,
        by decide⟩
  have trimmed : Lib.trim (text ++ replicate k '*') = text ++ replicate k '*' := by
    obtain ⟨first, rest, rfl, solidFirst⟩ := worded.first
    rw [Lib.trim, cons_append,
      dropWhile_cons_of_neg (by rw [solidFirst]; exact Bool.false_ne_true), ← cons_append, shape,
      trimEnd_concat _ solid]
  have nonempty : text ++ replicate k '*' ≠ [] := by
    rw [shape]
    exact concat_ne_nil _ _
  have noArray : stripArray (text ++ replicate k '*') = (none, text ++ replicate k '*') := by
    rw [shape, stripArray, splitArray_none noBracket]
  have starred := stripStars_word worded k (text ++ replicate k '*').length
    (by rw [length_append, length_replicate]; omega)
  rw [parseTypeLikeSpec, trimmed, if_neg nonempty, noArray]
  dsimp only
  rw [starred]
  rfl

theorem parse_array {len : List Char} (noBracket : '[' ∉ len) :
    parseTypeLikeSpec (text ++ '[' :: len ++ [']']) ptrBits =
      (baseType ptrBits (withoutQualifiers text)).map
        (arrayOf (if len = [] then some none else (parseUnsigned 64 len).map some)) := by
  have trimmed : Lib.trim (text ++ '[' :: len ++ [']']) = text ++ '[' :: len ++ [']'] :=
    worded.trim ('[' :: len) (by decide)
  obtain ⟨rest, c, shape, plain⟩ := worded.last
  have trimmedEnd : trimEnd text = text := by rw [shape, trimEnd_concat _ (plain_facts plain).1]
  have noStars := stripStars_word worded 0 text.length (Nat.zero_le _)
  rw [replicate_zero, append_nil] at noStars
  have suffix : stripArray (text ++ '[' :: len ++ [']']) =
      (if len = [] then some none else (parseUnsigned 64 len).map some, text) := by
    simp only [stripArray, splitArray_array text noBracket, trimmedEnd]
  have nonempty : text ++ '[' :: len ++ [']'] ≠ [] := by simp
  rw [parseTypeLikeSpec, trimmed, if_neg nonempty, suffix]
  dsimp only
  rw [noStars]
  rfl

end Suffixes

/-! ## Reading back -/

/-- Pointers are outside, and an array inside them comes from a closing bracket at the end. -/
theorem parse_shape {spec : List Char} {ptrBits : Nat} {like : CTypeLike}
    (found : parseTypeLikeSpec spec ptrBits = some like) : ∃ k size base, Flat base ∧
      like = CTypeLike.pointer^[k] (arrayOf size base) ∧
      (size.isSome = true → ∃ before, Lib.trim spec = before ++ [']']) := by
  unfold parseTypeLikeSpec at found
  split at found
  · cases found
  · obtain ⟨base, isBase, rfl⟩ := Option.map_eq_some_iff.mp found
    refine ⟨_, _, base, flat_of_baseType ptrBits isBase, rfl, fun isSome => ?_⟩
    cases isSplit : splitArray (Lib.trim spec) with
    | none =>
      simp [isSplit] at isSome
    | some _ => exact closing_of_splitArray isSplit

namespace CType

theorem display_pointers (base : CType) (k : Nat) :
    (CType.pointer^[k] base).display = base.display ++ replicate k '*' := by
  induction k with
  | zero => exact (append_nil _).symm
  | succ k ih =>
    have last : (CType.pointer (CType.pointer^[k] base)).display =
        (CType.pointer^[k] base).display ++ ['*'] := rfl
    rw [Function.iterate_succ_apply', last, ih, replicate_succ', append_assoc]

private theorem like_pointers (base : CType) (k : Nat) :
    (CType.pointer^[k] base).like = CTypeLike.pointer^[k] base.like := by
  induction k with
  | zero => rfl
  | succ k ih => rw [Function.iterate_succ_apply', Function.iterate_succ_apply', like, ih]

private theorem of_like_pointers (k : Nat) : ∀ {ty : CType} {inner : CTypeLike}, ty.Nested →
    ty.like = CTypeLike.pointer^[k] inner →
      ∃ u : CType, u.Nested ∧ ty = CType.pointer^[k] u ∧ u.like = inner := by
  induction k with
  | zero => exact fun nested same => ⟨_, nested, rfl, same⟩
  | succ k ih =>
    intro ty inner nested same
    rw [Function.iterate_succ_apply'] at same
    cases nested with
    | base isBase => cases ty <;> first | cases same | exact isBase.elim
    | array _ _ _ => cases same
    | pointer nested =>
      obtain ⟨u, nestedU, rfl, isInner⟩ := ih nested (CTypeLike.pointer.inj same)
      exact ⟨u, nestedU, (Function.iterate_succ_apply' _ _ _).symm, isInner⟩

theorem Nested.isBase {ty : CType} (nested : ty.Nested) (flat : Flat ty.like) : ty.IsBase := by
  cases nested with
  | base isBase => exact isBase
  | pointer | array => exact flat.elim

/-- The text between the brackets. -/
def lengthText (size : Option Nat) : List Char := (size.map digits).getD []

theorem display_array (inner : CType) (size : Option Nat) :
    (CType.array inner size).display = inner.display ++ '[' :: lengthText size ++ [']'] := by
  rw [append_assoc]
  cases size <;> rfl

/-- The text of a type is read back exactly if it is a base behind pointers, or an array of
a base, whose name is no qualifier's. -/
theorem display_reads_back_iff {ty : CType} (nested : ty.Nested) (ptrBits : Nat) :
    (parseTypeLikeSpec ty.display ptrBits = some ty.like ∧ typeLikeToCtype ty.like = ty) ↔
      ∃ base : CType, base.IsBase ∧ ¬ base.NamedAsQualifier ∧
        ((∃ k, ty = CType.pointer^[k] base) ∨ ∃ size, ty = .array base size) := by
  rw [and_iff_left (typeLikeToCtype_like nested)]
  have noBracket : ∀ size, '[' ∉ lengthText size := by
    rintro (_ | n) digit
    · exact absurd digit not_mem_nil
    · exact (plain_facts (plain_digits digit).1).2.2.2 rfl
  constructor
  · intro found
    obtain ⟨k, size, base, flat, shape, closing⟩ := parse_shape found
    obtain ⟨u, nestedU, rfl, isInner⟩ := of_like_pointers k nested shape
    cases size with
    | none =>
      have isBase := nestedU.isBase (by rw [isInner]; exact flat)
      refine ⟨u, isBase, fun named => ?_, .inl ⟨k, rfl⟩⟩
      rw [display_pointers, parse_pointers ptrBits (worded_display isBase),
        (baseType_display ptrBits isBase).2 named] at found
      cases found
    | some len =>
      obtain ⟨v, rfl⟩ : ∃ v, u = .array v len := by
        cases nestedU with
        | base isBase => cases u <;> first | exact isBase.elim | cases isInner
        | pointer _ => cases isInner
        | @array v _ _ _ =>
          obtain rfl := (CTypeLike.array.inj isInner).2
          exact ⟨v, rfl⟩
      cases nestedU with
      | base isBase => exact isBase.elim
      | array nestedV _ small =>
        have isBase := nestedV.isBase (by rw [(CTypeLike.array.inj isInner).1]; exact flat)
        cases k with
        | zero =>
          refine ⟨v, isBase, fun named => ?_, .inr ⟨len, rfl⟩⟩
          rw [show CType.pointer^[0] (array v len) = array v len from rfl,
            display_array, parse_array ptrBits (worded_display isBase) (noBracket len),
            (baseType_display ptrBits isBase).2 named] at found
          cases found
        | succ k =>
          obtain ⟨before, isClosed⟩ := closing rfl
          obtain ⟨front, starred⟩ : ∃ front,
              Lib.trim (CType.pointer^[k + 1] (array v len)).display = front ++ ['*'] := by
            have last : (CType.pointer^[k + 1] (array v len)).display =
                v.display ++ ('[' :: lengthText len ++ [']'] ++ replicate k '*') ++ ['*'] := by
              rw [display_pointers, display_array, replicate_succ']
              simp only [append_assoc, cons_append]
            rw [last, (worded_display isBase).trim _ (by decide)]
            exact ⟨_, rfl⟩
          exact absurd (append_inj_right' (isClosed.symm.trans starred) rfl) (by decide)
  · rintro ⟨base, isBase, other, ⟨k, rfl⟩ | ⟨size, rfl⟩⟩
    · rw [display_pointers, parse_pointers ptrBits (worded_display isBase),
        (baseType_display ptrBits isBase).1 other, like_pointers]
      rfl
    · rw [display_array, parse_array ptrBits (worded_display isBase) (noBracket size),
        (baseType_display ptrBits isBase).1 other]
      cases nested with
      | base isArray => exact isArray.elim
      | array _ _ small =>
        cases size with
        | none => rfl
        | some n =>
          have nonempty : digits n ≠ [] := Nat.toDigits_ne_nil
          rw [show lengthText (some n) = digits n from rfl, if_neg nonempty,
            parseUnsigned_digits le_rfl (small n rfl)]
          rfl

theorem structPointers_read_back :
    parseTypeLikeSpec "struct node**".toList 64 = some (.pointer (.pointer (.struct "node"))) := by
  have isBase : (CType.struct "node").IsBase :=
    ⟨'n', ['o', 'd', 'e'], rfl, by decide, by decide +kernel⟩
  exact ((display_reads_back_iff (.pointer (.pointer (.base isBase))) 64).mpr
    ⟨_, isBase, show ¬ isQualifier "node".toList = true by decide +kernel, .inl ⟨2, rfl⟩⟩).1

/-- An array of pointers is read as a pointer to an array, and an array of arrays not at
all. -/
theorem arrayOfPointers_not_read_back :
    parseTypeLikeSpec (array (pointer (int 8)) (some 4)).display 64 =
        some (.pointer (.array (.int 8 .signed) (some 4))) ∧
      parseTypeLikeSpec (array (array (int 8) (some 4)) (some 2)).display 64 = none ∧
      ¬ ∀ ty : CType, ty.Nested → parseTypeLikeSpec ty.display 64 = some ty.like := by
  have asPointer : parseTypeLikeSpec (array (pointer (int 8)) (some 4)).display 64 =
      some (.pointer (.array (.int 8 .signed) (some 4))) := by decide +kernel
  refine ⟨asPointer, by decide +kernel, fun all => ?_⟩
  have isBase : (int 8).IsBase := show 8 < 2 ^ 32 by decide
  have nested : (array (pointer (int 8)) (some 4)).Nested :=
    .array (.pointer (.base isBase)) _ (by decide)
  cases asPointer.symm.trans (all _ nested)

end CType

end R2Sleigh.Dec
