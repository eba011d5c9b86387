import Mathlib.Data.List.Basic
import Mathlib.Data.String.Basic

/-!
Contract: operations of `str` and `char` on texts.
-/

namespace R2Sleigh.Lib

/-- `char::is_whitespace`. -/
def isWhitespace (c : Char) : Bool :=
  (9 ≤ c.toNat && c.toNat ≤ 13) || (0x2000 ≤ c.toNat && c.toNat ≤ 0x200A) ||
    c.toNat ∈ [0x20, 0x85, 0xA0, 0x1680, 0x2028, 0x2029, 0x202F, 0x205F, 0x3000]

/-- `str::trim_end`. -/
def trimEnd (text : List Char) : List Char := (text.reverse.dropWhile isWhitespace).reverse

/-- `str::trim`. -/
def trim (text : List Char) : List Char := trimEnd (text.dropWhile isWhitespace)

/-- `str::strip_prefix`. -/
def stripPrefix (pre text : String) : Option (List Char) :=
  if pre.toList.isPrefixOf text.toList then some (text.toList.drop pre.toList.length) else none

/-- `str::to_uppercase` for ASCII letters. -/
def asciiUppercase (text : String) : String := String.ofList (text.toList.map Char.toUpper)

end R2Sleigh.Lib
