import R2Sleigh.Lib.Digits

/-!
Contract: the bytes of narrow C string and character constants, encoded in UTF-8.

Owns `stringBytes` and `charByte`.
-/

namespace R2Sleigh.Lib

def simpleEscape : Char → Option UInt8
  | '\'' => some 39
  | '"' => some 34
  | '?' => some 63
  | '\\' => some 92
  | 'a' => some 7
  | 'b' => some 8
  | 'f' => some 12
  | 'n' => some 10
  | 'r' => some 13
  | 't' => some 9
  | 'v' => some 11
  | _ => none

def octalDigit (c : Char) : Option Nat := (hexDigit c).filter (· < 8)

/-- At most so many octal digits at the start of a text, and what follows them. -/
def readOctal : Nat → Nat → List Char → Nat × List Char
  | limit + 1, value, c :: rest =>
    match octalDigit c with
    | some digit => readOctal limit (8 * value + digit) rest
    | none => (value, c :: rest)
  | _, value, rest => (value, rest)

/-- A numeric escape stands for a byte. -/
def byteOf (value : Nat) : Option UInt8 := if value < 256 then some (UInt8.ofNat value) else none

def readEscape : List Char → Option (UInt8 × List Char)
  | [] => none
  | 'x' :: rest =>
    if (rest.head?.bind hexDigit).isSome then
      (byteOf (readHex 0 rest).1).map fun byte => (byte, (readHex 0 rest).2)
    else none
  | c :: rest =>
    match simpleEscape c with
    | some byte => some (byte, rest)
    | none =>
      if (octalDigit c).isSome then
        (byteOf (readOctal 3 0 (c :: rest)).1).map fun byte =>
          (byte, (readOctal 3 0 (c :: rest)).2)
      else none

/-- The bytes of one character or escape. -/
def readElement : List Char → Option (List UInt8 × List Char)
  | [] => none
  | '\n' :: _ => none
  | '\\' :: rest => (readEscape rest).map fun read => ([read.1], read.2)
  | c :: rest => some (String.utf8EncodeChar c, rest)

/-- The bytes up to a closing quote at the end. -/
def readString : Nat → List Char → Option (List UInt8)
  | 0, _ => none
  | _, [] => none
  | fuel + 1, c :: rest =>
    if c = '"' then if rest = [] then some [] else none
    else do
      let (bytes, rest) ← readElement (c :: rest)
      let more ← readString fuel rest
      return bytes ++ more

/-- The bytes of a string constant. Each element takes a character, which bounds the
fuel. -/
def stringBytes : List Char → Option (List UInt8)
  | '"' :: text => readString text.length text
  | _ => none

/-- The byte of a character constant. -/
def charByte : List Char → Option UInt8
  | '\'' :: c :: rest =>
    if c = '\'' then none
    else
      match readElement (c :: rest) with
      | some ([byte], ['\'']) => some byte
      | _ => none
  | _ => none

theorem readElement_raw {c : Char} (rest : List Char) (noEscape : c ≠ '\\') (noBreak : c ≠ '\n') :
    readElement (c :: rest) = some (String.utf8EncodeChar c, rest) := by
  unfold readElement
  split <;> simp_all

theorem readElement_simple {e : Char} {byte : UInt8} (rest : List Char)
    (simple : simpleEscape e = some byte) :
    readElement ('\\' :: e :: rest) = some ([byte], rest) := by
  have notHex : e ≠ 'x' := by
    rintro rfl
    cases simple
  have reads : readEscape (e :: rest) = some (byte, rest) := by
    unfold readEscape
    split
    · rename_i same
      cases same
    · rename_i same
      exact absurd (List.cons.inj same).1 notHex
    · rename_i same
      obtain ⟨rfl, rfl⟩ := List.cons.inj same
      rw [simple]
  simp only [readElement, reads, Option.map_some]

theorem readElement_hex {digits rest : List Char} {value : Nat} (nonempty : digits ≠ [])
    (reads : digits.foldlM (pushDigit 16) 0 = some value) (ends : EndsHex rest) :
    readElement ('\\' :: 'x' :: (digits ++ rest)) =
      (byteOf value).map fun byte => ([byte], rest) := by
  have whole := readHex_append ends reads
  obtain ⟨first, others, rfl⟩ := List.exists_cons_of_ne_nil nonempty
  have isHex : (hexDigit first).isSome = true := by
    obtain ⟨next, pushes, -⟩ := Option.bind_eq_some_iff.mp reads
    obtain ⟨digit, isDigit, -⟩ := Option.map_eq_some_iff.mp pushes
    rw [isDigit]
    rfl
  simp only [readElement, readEscape, List.cons_append, List.head?_cons, Option.bind_some, isHex,
    if_true]
  rw [List.cons_append] at whole
  rw [whole]
  cases byteOf value <;> rfl

end R2Sleigh.Lib
