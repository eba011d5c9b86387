import Mathlib.Data.List.Chain
import Mathlib.Data.List.TakeWhile
import R2Sleigh.Lib.CLiterals
import R2Sleigh.Dec.CExpr

/-!
Contract: the constants that the code generator prints, read as C.
-/

namespace R2Sleigh.Dec

open Lib List Option

variable {F : Type}

/-- The character is printed as a hexadecimal escape. -/
def HexEscaped (c : Char) : Prop := escapeStringChar c = '\\' :: 'x' :: hexPadded c.toNat

instance (c : Char) : Decidable (HexEscaped c) := inferInstanceAs (Decidable (_ = _))

/-- No hexadecimal escape is followed by a character that is a hexadecimal digit. -/
def Apart (s : List Char) : Prop := s.IsChain fun c d => HexEscaped c → hexDigit d = none

/-- The text after the opening quote. -/
def written (s : List Char) : List Char := s.flatMap escapeStringChar ++ ['"']

theorem written_cons (c : Char) (s : List Char) :
    written (c :: s) = escapeStringChar c ++ written s := by
  rw [written, flatMap_cons, append_assoc]
  rfl

variable {c : Char}

theorem graphic_lt (graphic : isAsciiGraphic c = true ∨ c = ' ') :
    c.toNat < 128 ∧ c ≠ '\n' := by
  rcases graphic with graphic | rfl
  · rw [isAsciiGraphic, Bool.and_eq_true, decide_eq_true_eq, decide_eq_true_eq] at graphic
    have below : c.toNat ≤ 126 := graphic.2
    refine ⟨by omega, ?_⟩
    rintro rfl
    exact absurd graphic.1 (by decide)
  · decide

theorem utf8_ascii (ascii : c.toNat < 128) : String.utf8EncodeChar c = [UInt8.ofNat c.toNat] :=
  if_pos (Nat.le_of_lt_succ ascii)

theorem escapeStringChar_cases (c : Char) :
    (∃ e, escapeStringChar c = ['\\', e] ∧ simpleEscape e = some (UInt8.ofNat c.toNat) ∧
        c.toNat < 128 ∧ hexDigit c = none) ∨
      (escapeStringChar c = [c] ∧ c ≠ '\\' ∧ c ≠ '"' ∧ c ≠ '\n' ∧ c.toNat < 128) ∨
      HexEscaped c := by
  unfold HexEscaped escapeStringChar
  split_ifs with newline carriage tab backslash quote graphic
  · subst newline
    exact .inl ⟨_, rfl, rfl, by decide, rfl⟩
  · subst carriage
    exact .inl ⟨_, rfl, rfl, by decide, rfl⟩
  · subst tab
    exact .inl ⟨_, rfl, rfl, by decide, rfl⟩
  · subst backslash
    exact .inl ⟨_, rfl, rfl, by decide, rfl⟩
  · subst quote
    exact .inl ⟨_, rfl, rfl, by decide, rfl⟩
  · exact .inr (.inl ⟨rfl, backslash, quote, (graphic_lt graphic).2, (graphic_lt graphic).1⟩)
  · exact .inr (.inr rfl)

private theorem hexDigit_lt (isHex : hexDigit c ≠ none) : c.toNat < 128 := by
  unfold hexDigit at isHex
  split_ifs at isHex with decimal lower upper
  · exact Nat.lt_of_le_of_lt (m := ('9').toNat) decimal.2 (by decide)
  · exact Nat.lt_of_le_of_lt (m := ('f').toNat) lower.2 (by decide)
  · exact Nat.lt_of_le_of_lt (m := ('F').toNat) upper.2 (by decide)
  · exact absurd rfl isHex

private theorem hexDigit_printed (isHex : hexDigit c ≠ none) : escapeStringChar c = [c] := by
  have all : ∀ n : Fin 128, hexDigit (Char.ofNat n) ≠ none →
      escapeStringChar (Char.ofNat n) = [Char.ofNat n] := by decide
  have one := all ⟨c.toNat, hexDigit_lt isHex⟩
  rw [Char.ofNat_toNat] at one
  exact one isHex

private theorem hexPadded_ne_nil (n : Nat) : hexPadded n ≠ [] := by
  unfold hexPadded
  split
  · exact cons_ne_nil _ _
  · exact Nat.toDigits_ne_nil

private theorem hexPadded_reads (n : Nat) : (hexPadded n).foldlM (pushDigit 16) 0 = some n := by
  have digits : (hexDigits n).foldlM (pushDigit 16) 0 = some n :=
    readDigits_toDigits 16 (by decide) (Nat.le_refl 16) n
  unfold hexPadded
  split
  · exact digits
  · exact digits

private theorem endsHex_written {s : List Char} (next : ∀ d ∈ s.head?, hexDigit d = none) :
    EndsHex (written s) := by
  intro d isHead
  cases s with
  | nil =>
    obtain rfl : '"' = d := some.inj isHead
    rfl
  | cons c more =>
    rw [written_cons] at isHead
    rcases escapeStringChar_cases c with ⟨e, shape, -⟩ | ⟨shape, -⟩ | shape
    all_goals rw [shape] at isHead; obtain rfl := some.inj isHead
    · rfl
    · exact next _ rfl
    · rfl

private theorem written_digits {run : List Char} (digits : ∀ d ∈ run, hexDigit d ≠ none)
    (s : List Char) : written (run ++ s) = run ++ written s := by
  induction run with
  | nil => rfl
  | cons d run ih =>
    obtain ⟨first, others⟩ := forall_mem_cons.mp digits
    rw [cons_append, written_cons, ih others, hexDigit_printed first]
    rfl

theorem foldlM_digits {run : List Char} (digits : ∀ d ∈ run, hexDigit d ≠ none) (value : Nat) :
    ∃ result, run.foldlM (pushDigit 16) value = some result := by
  induction run generalizing value with
  | nil => exact ⟨value, rfl⟩
  | cons d run ih =>
    obtain ⟨first, others⟩ := forall_mem_cons.mp digits
    obtain ⟨digit, isDigit⟩ := ne_none_iff_exists'.mp first
    obtain ⟨result, folds⟩ := ih others (16 * value + digit)
    exact ⟨result, by rw [foldlM_cons, pushDigit, isDigit]; exact folds⟩

/-! ## Strings that read back -/

theorem readElement_run (escaped : HexEscaped c) {run s : List Char}
    (digits : ∀ d ∈ run, hexDigit d ≠ none) (next : ∀ d ∈ s.head?, hexDigit d = none) :
    ∃ value, (run = [] → value = c.toNat) ∧
      readElement (written (c :: (run ++ s))) =
        (byteOf value).map fun byte => ([byte], written s) := by
  obtain ⟨value, folds⟩ := foldlM_digits digits c.toNat
  refine ⟨value, fun empty => ?_, ?_⟩
  · subst empty
    exact (some.inj folds).symm
  · have reads : (hexPadded c.toNat ++ run).foldlM (pushDigit 16) 0 = some value := by
      rw [foldlM_append, hexPadded_reads]
      exact folds
    have element := readElement_hex (append_ne_nil_of_left_ne_nil (hexPadded_ne_nil _) _)
      reads (endsHex_written next)
    rw [written_cons, written_digits digits, escaped]
    rwa [append_assoc] at element

theorem readElement_other (other : ¬ HexEscaped c) (rest : List Char) :
    c.toNat < 128 ∧ (escapeStringChar c).head? ≠ some '"' ∧
      readElement (escapeStringChar c ++ rest) = some ([UInt8.ofNat c.toNat], rest) := by
  rcases escapeStringChar_cases c with ⟨e, shape, simple, ascii, -⟩ |
    ⟨shape, noEscape, noQuote, noBreak, ascii⟩ | escaped
  · rw [shape]
    exact ⟨ascii, fun same => absurd (some.inj same) (show ¬ '\\' = '"' by decide),
      readElement_simple rest simple⟩
  · rw [shape]
    refine ⟨ascii, fun same => noQuote (some.inj same), ?_⟩
    rw [singleton_append, readElement_raw rest noEscape noBreak, utf8_ascii ascii]
  · exact absurd escaped other

theorem readString_step {fuel : Nat} (s : List Char)
    (noQuote : (escapeStringChar c).head? ≠ some '"') :
    readString (fuel + 1) (written (c :: s)) = (readElement (written (c :: s))).bind fun read =>
      (readString fuel read.2).bind fun more => some (read.1 ++ more) := by
  obtain ⟨d, text, shape⟩ : ∃ d text, escapeStringChar c = d :: text := by
    rcases escapeStringChar_cases c with ⟨e, shape, -⟩ | ⟨shape, -⟩ | shape
    all_goals exact ⟨_, _, shape⟩
  rw [written_cons, shape, cons_append, readString,
    if_neg fun same => noQuote (by rw [shape, same]; rfl)]
  rfl

/-- No more bytes than characters are read; and as many only where no escape takes a
digit that follows it. -/
theorem length_readString : ∀ (n : Nat) (s : List Char), s.length ≤ n → ∀ (fuel : Nat)
    (bytes : List UInt8), readString fuel (written s) = some bytes →
    bytes.length ≤ s.length ∧ (bytes.length = s.length → Apart s) := by
  intro n
  induction n with
  | zero =>
    intro s bound fuel bytes reads
    obtain rfl := length_eq_zero_iff.mp (Nat.le_zero.mp bound)
    refine ⟨?_, fun _ => .nil⟩
    cases fuel with
    | zero => cases reads
    | succ fuel =>
      obtain rfl : [] = bytes := some.inj reads
      exact Nat.le_refl 0
  | succ n ih =>
    intro s bound fuel bytes reads
    cases s with
    | nil => exact ih [] (Nat.zero_le n) fuel bytes reads
    | cons c more =>
      rw [length_cons] at bound ⊢
      cases fuel with
      | zero => cases reads
      | succ fuel =>
        by_cases escaped : HexEscaped c
        · -- The escape takes the digits; what follows them is read on its own.
          let run := more.takeWhile fun d => (hexDigit d).isSome
          let rest := more.dropWhile fun d => (hexDigit d).isSome
          have split : more = run ++ rest := (takeWhile_append_dropWhile ..).symm
          have lengths : run.length + rest.length = more.length := by
            rw [split, length_append]
          have digits : ∀ d ∈ run, hexDigit d ≠ none := fun d mem =>
            isSome_iff_ne_none.mp (mem_takeWhile_imp (p := fun d => (hexDigit d).isSome) mem)
          have next : ∀ d ∈ rest.head?, hexDigit d = none := fun d isHead => by
            have fails := List.head?_dropWhile_not (fun d => (hexDigit d).isSome) more
            rw [show (more.dropWhile fun d => (hexDigit d).isSome).head? = some d from isHead]
              at fails
            simpa using fails
          obtain ⟨value, -, element⟩ := readElement_run escaped digits next
          rw [← split] at element
          rw [readString_step more (by rw [escaped]; simp), element] at reads
          obtain ⟨read, isRead, reads⟩ := bind_eq_some_iff.mp reads
          obtain ⟨byte, -, rfl⟩ := map_eq_some_iff.mp isRead
          obtain ⟨others, readsRest, same⟩ := bind_eq_some_iff.mp reads
          cases same
          obtain ⟨below, apart⟩ := ih rest (by omega) fuel others readsRest
          rw [singleton_append, length_cons]
          refine ⟨by omega, fun equal => ?_⟩
          have empty : run = [] := length_eq_zero_iff.mp (by omega)
          rw [empty, nil_append] at split
          rw [split]
          exact isChain_cons.mpr ⟨fun d isHead _ => next d isHead, apart (by rw [← split]; omega)⟩
        · obtain ⟨-, noQuote, element⟩ := readElement_other escaped (written more)
          rw [readString_step more noQuote, written_cons, element, bind_some] at reads
          obtain ⟨others, readsRest, same⟩ := bind_eq_some_iff.mp reads
          cases same
          obtain ⟨below, apart⟩ := ih more (by omega) fuel others readsRest
          rw [singleton_append, length_cons]
          exact ⟨by omega, fun equal => isChain_cons.mpr
            ⟨fun _ _ isEscaped => absurd isEscaped escaped, apart (by omega)⟩⟩

/-- ASCII characters are read back where the escapes are apart. -/
theorem readString_written {s : List Char} (ascii : ∀ c ∈ s, c.toNat < 128) (apart : Apart s) :
    ∀ {fuel : Nat}, s.length < fuel →
      readString fuel (written s) = some (s.flatMap String.utf8EncodeChar) := by
  induction s with
  | nil =>
    intro fuel enough
    obtain ⟨fuel, rfl⟩ : ∃ less, fuel = less + 1 := ⟨fuel - 1, by omega⟩
    rfl
  | cons c more ih =>
    intro fuel enough
    obtain ⟨fuel, rfl⟩ : ∃ less, fuel = less + 1 := ⟨fuel - 1, by omega⟩
    obtain ⟨isAscii, others⟩ := forall_mem_cons.mp ascii
    obtain ⟨next, apartRest⟩ := isChain_cons.mp apart
    have element : readElement (written (c :: more)) =
        some ([UInt8.ofNat c.toNat], written more) := by
      by_cases escaped : HexEscaped c
      · obtain ⟨value, isValue, element⟩ := readElement_run escaped
          (fun _ mem => absurd mem not_mem_nil : ∀ d ∈ [], hexDigit d ≠ none)
          fun d isHead => next d isHead escaped
        rw [isValue rfl, byteOf, if_pos (by omega)] at element
        exact element
      · rw [written_cons]
        exact (readElement_other escaped _).2.2
    have noQuote : (escapeStringChar c).head? ≠ some '"' := by
      by_cases escaped : HexEscaped c
      · rw [escaped]
        simp
      · exact (readElement_other escaped (written more)).2.1
    rw [readString_step more noQuote, element, bind_some,
      ih others apartRest (by simpa using enough), flatMap_cons,
      utf8_ascii isAscii]
    rfl

theorem length_le_utf8 (s : List Char) : s.length ≤ (s.flatMap String.utf8EncodeChar).length ∧
    ((s.flatMap String.utf8EncodeChar).length = s.length → ∀ c ∈ s, c.toNat < 128) := by
  induction s with
  | nil => exact ⟨Nat.le_refl 0, fun _ _ mem => absurd mem not_mem_nil⟩
  | cons c more ih =>
    obtain ⟨below, ascii⟩ := ih
    have positive := c.utf8Size_pos
    rw [flatMap_cons, length_append, String.length_utf8EncodeChar, length_cons]
    refine ⟨by omega, fun equal => forall_mem_cons.mpr ⟨?_, ascii (by omega)⟩⟩
    have one : c.utf8Size = 1 := by omega
    rw [Char.utf8Size_eq_one_iff, UInt32.le_iff_toNat_le] at one
    exact Nat.lt_succ_of_le one

private theorem length_le_written (s : List Char) : s.length < (written s).length := by
  induction s with
  | nil => exact Nat.one_pos
  | cons c more ih =>
    have nonempty : 0 < (escapeStringChar c).length := by
      rcases escapeStringChar_cases c with ⟨e, shape, -⟩ | ⟨shape, -⟩ | shape
      all_goals rw [shape]; exact Nat.succ_pos _
    rw [written_cons, length_append, length_cons]
    omega

/-! ## Constants -/

section Constants

variable (fixed6 : F → List Char)

theorem emitExpr_stringLit (s : String) :
    emitExpr fixed6 (.stringLit s) 0 = '"' :: written s.toList := rfl

private theorem charLit_reads (ascii : c.toNat < 128) :
    charByte (emitExpr fixed6 (.charLit c : CExpr F) 0) = some (UInt8.ofNat c.toNat) := by
  have all : ∀ n : Fin 128, charByte ('\'' :: escapeChar (Char.ofNat n) ++ ['\'']) =
      some (UInt8.ofNat n) := by decide +kernel
  have one := all ⟨c.toNat, ascii⟩
  rw [Char.ofNat_toNat] at one
  exact one

/-- A string constant reads as the UTF-8 bytes of its string exactly if the string is
ASCII and its hexadecimal escapes are apart from digits; ASCII characters read back. -/
theorem literals_read_back (s : String) :
    (stringBytes (emitExpr fixed6 (.stringLit s) 0) = some (s.toList.flatMap String.utf8EncodeChar) ↔
      (∀ c ∈ s.toList, c.toNat < 128) ∧ Apart s.toList) ∧
    ∀ c : Char, c.toNat < 128 →
      charByte (emitExpr fixed6 (.charLit c : CExpr F) 0) = some (UInt8.ofNat c.toNat) := by
  refine ⟨⟨fun reads => ?_, fun ⟨ascii, apart⟩ => ?_⟩, fun c ascii => charLit_reads fixed6 ascii⟩
  · obtain ⟨below, apart⟩ := length_readString _ _ (Nat.le_refl _) _ _ reads
    obtain ⟨above, ascii⟩ := length_le_utf8 s.toList
    have equal := Nat.le_antisymm below above
    exact ⟨ascii equal, apart equal⟩
  · exact readString_written ascii apart (length_le_written s.toList)

theorem literals_read_back_abc :
    (stringBytes (emitExpr (fun _ : Unit => []) (.stringLit "a\x01z") 0) = some [97, 1, 122] ↔
      (∀ c ∈ "a\x01z".toList, c.toNat < 128) ∧ Apart "a\x01z".toList) ∧
    charByte (emitExpr (fun _ : Unit => []) (.charLit '\'') 0) = some 39 :=
  have reads := literals_read_back (fun _ : Unit => []) "a\x01z"
  ⟨reads.1, reads.2 '\'' (by decide)⟩

/-- The digit after a control character goes into its escape. -/
theorem absorbed_digit : ¬ ∀ s : String,
    stringBytes (emitExpr (fun _ : Unit => []) (.stringLit s) 0) =
      some (s.toList.flatMap String.utf8EncodeChar) := by
  intro all
  have one := all "\x01a"
  exact absurd one (by decide +kernel)

end Constants

end R2Sleigh.Dec
