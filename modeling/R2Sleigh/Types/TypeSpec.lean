import R2Sleigh.Lib.Text
import R2Sleigh.Ssa.ConstEval
import R2Sleigh.Types.Model

/-!
Contract: the parser of textual types.

Owns `CTypeLike` and `parseTypeLikeSpec`.
-/

namespace R2Sleigh.Types

open Lib Ssa List

inductive CTypeLike where
  | void
  | bool
  | int (bits : Nat) (signedness : Signedness)
  | float (bits : Nat)
  | pointer (inner : CTypeLike)
  | array (inner : CTypeLike) (len : Option Nat)
  | struct (name : String)
  | union (name : String)
  | enum (name : String)
  | function
  | unknown
deriving DecidableEq

/-! ## Texts -/

/-- `str::to_ascii_lowercase`. -/
def lower (text : List Char) : List Char := text.map Char.toLower

/-- `str::split_whitespace`. -/
def splitWhitespace (text : List Char) : List (List Char) :=
  (text.splitOnP isWhitespace).filter (· ≠ [])

def dropPrefix (pre text : List Char) : Option (List Char) :=
  if pre <+: text then some (text.drop pre.length) else none

def dropSuffix (suf text : List Char) : Option (List Char) :=
  if suf <:+ text then some (text.take (text.length - suf.length)) else none

/-- `str::parse` for an unsigned number of so many bits. -/
def parseUnsigned (bits : Nat) (text : List Char) : Option Nat :=
  ((fromStrRadix 10 text).map BitVec.toNat).filter (· < 2 ^ bits)

/-- The text up to the last opening bracket and the text after it, where a closing bracket
comes last. -/
def splitArray (text : List Char) : Option (List Char × List Char) :=
  match text.reverse with
  | ']' :: rest =>
    match rest.dropWhile (· ≠ '[') with
    | _ :: before => some (before.reverse, (rest.takeWhile (· ≠ '[')).reverse)
    | [] => none
  | _ => none

/-- How many stars are at the end, and the text before them. Each takes a character, which
bounds the fuel. -/
def stripStars : Nat → List Char → Nat × List Char
  | 0, text => (0, text)
  | fuel + 1, text =>
    match dropSuffix ['*'] text with
    | some rest => ((stripStars fuel (trimEnd rest)).1 + 1, (stripStars fuel (trimEnd rest)).2)
    | none => (0, text)

/-! ## The parser -/

def isQualifier (token : List Char) : Bool :=
  ["const", "volatile", "restrict", "__restrict", "__restrict__", "__const", "__const__",
    "__volatile", "__volatile__"].contains (String.ofList (lower token))

/-- The text without its qualifiers. -/
def withoutQualifiers (text : List Char) : List Char :=
  let filtered := (splitWhitespace text).filter fun token => !isQualifier token
  if filtered.length ≠ (splitWhitespace text).length then trim ([' '].intercalate filtered)
  else text

def namedBases (ptrBits : Nat) : List (List String × CTypeLike) :=
  [(["void"], .void), (["bool"], .bool), (["char", "signedchar"], .int 8 .signed),
    (["unsignedchar"], .int 8 .unsigned),
    (["short", "shortint", "signedshort", "signedshortint"], .int 16 .signed),
    (["unsignedshort", "unsignedshortint"], .int 16 .unsigned),
    (["signed", "int", "signedint"], .int 32 .signed),
    (["unsigned", "unsignedint"], .int 32 .unsigned),
    (["long", "longint", "signedlong", "signedlongint", "longlong", "longlongint",
      "signedlonglong", "signedlonglongint"], .int ptrBits .signed),
    (["unsignedlong", "unsignedlongint", "unsignedlonglong", "unsignedlonglongint", "size_t"],
      .int ptrBits .unsigned),
    (["ssize_t"], .int ptrBits .signed), (["float"], .float 32), (["double"], .float 64)]

/-- A type with a tag, by the keyword before it. -/
def taggedBase (text : List Char) : Option CTypeLike :=
  let name := ((splitWhitespace text)[1]?).map String.ofList
  if "struct ".toList <+: lower text then name.map .struct
  else if "union ".toList <+: lower text then name.map .union
  else if "enum ".toList <+: lower text then name.map .enum
  else none

def baseType (ptrBits : Nat) (text : List Char) : Option CTypeLike :=
  let baseKey := lower (text.filter fun c => !isWhitespace c)
  match (dropPrefix "int".toList baseKey).bind (dropSuffix "_t".toList) with
  | some bits => (parseUnsigned 32 bits).map fun bits => .int bits .signed
  | none =>
    match (dropPrefix "uint".toList baseKey).bind (dropSuffix "_t".toList) with
    | some bits => (parseUnsigned 32 bits).map fun bits => .int bits .unsigned
    | none =>
      match (namedBases ptrBits).find? fun entry => entry.1.contains (String.ofList baseKey) with
      | some entry => some entry.2
      | none => taggedBase text

/-- The size that an array suffix gives, if it can be read, and the text before it. -/
def stripArray (text : List Char) : Option (Option Nat) × List Char :=
  match splitArray text with
  | some (before, len) =>
    (if len = [] then some none else (parseUnsigned 64 len).map some, trimEnd before)
  | none => (none, text)

/-- The array that a suffix makes of the base type. -/
def arrayOf (size : Option (Option Nat)) (base : CTypeLike) : CTypeLike :=
  match size with
  | some size => .array base size
  | none => base

def parseTypeLikeSpec (spec : List Char) (ptrBits : Nat) : Option CTypeLike :=
  if trim spec = [] then none
  else
    let (arraySize, ty) := stripArray (trim spec)
    let (ptrCount, ty) := stripStars ty.length ty
    (baseType ptrBits (withoutQualifiers ty)).map fun base =>
      CTypeLike.pointer^[ptrCount] (arrayOf arraySize base)

end R2Sleigh.Types
