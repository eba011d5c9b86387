import Mathlib.Data.List.Sort
import Mathlib.Data.String.Basic
import R2Sleigh.Il.Opcode
import R2Sleigh.Lib.HashMap

/-!
Contract: SSA variables and the names they are built from.

Owns `SSAVar` and `varnodeToName`.

Does not own: the caches in front of the register-name map, which return what
the uncached function computes.

Hash maps are association lists with distinct keys. Where the source iterates
over one, it either sorts first or does something whose outcome does not depend
on the order.
-/

namespace R2Sleigh.Ssa

open Il Lib

/-- `format!("{:x}", n)`. -/
def hex (n : Nat) : String := String.ofList (Nat.toDigits 16 n)

/-- `format!("{}", n)`. -/
def decimal (n : Nat) : String := String.ofList (Nat.toDigits 10 n)

/-- `str::starts_with`. -/
def startsWith (s pre : String) : Bool := pre.toList.isPrefixOf s.toList

/-- `str::to_ascii_lowercase`. -/
def toAsciiLowercase (s : String) : String := String.ofList (s.toList.map Char.toLower)

/-- A named location with a version number. -/
structure SSAVar where
  name : String
  version : Nat
  size : Nat
deriving DecidableEq, Repr

namespace SSAVar

def constant (value size : Nat) : SSAVar := ⟨"const:" ++ hex value, 0, size⟩

def isConst (var : SSAVar) : Bool := startsWith var.name "const:"

@[simp] theorem isConst_constant (value size : Nat) : (constant value size).isConst = true := by
  simp [constant, isConst, startsWith]

end SSAVar

/-- The key of a variable in tables of names, with `toUppercase` as
`str::to_uppercase`; names of registers are in upper case. -/
def displayName (toUppercase : String → String) (var : SSAVar) : String :=
  let name :=
    if ["reg:", "tmp:", "const:", "ram:", "space"].any (startsWith var.name) then var.name
    else toUppercase var.name
  name ++ "_" ++ decimal var.version

/-! ## Register names -/

/-- Register name for each `(offset, size)`. -/
abbrev RegisterNameMap := HashMap (Nat × Nat) String

/-- Where the first character is not ASCII, `split_at(1)` panics; not modelled. -/
def isNumberedReg (name : String) : Bool :=
  match name.toList with
  | first :: second :: rest =>
    (first = 'r' || first = 'x' || first = 'w') && (second :: rest).all Char.isDigit
  | _ => false

def isSpecialReg (name : String) : Bool :=
  ["pc", "sp", "bp", "fp", "lr", "ip", "ra", "zero", "gp", "tp"].contains name

/-- `str::len`, the length of the UTF-8 encoding. -/
def byteLength (s : String) : Nat := (s.toList.map Char.utf8Size).sum

/-- Special names first, then numbered ones, shorter before longer. -/
def registerAliasRank (name : String) : Nat × Nat × String :=
  let lower := toAsciiLowercase name
  if isSpecialReg lower then (0, byteLength lower, lower)
  else if isNumberedReg lower then (1, byteLength lower, lower)
  else (2, byteLength lower, lower)

/-- Lexicographic order of ranks. -/
def rankLt (x y : Nat × Nat × String) : Bool :=
  x.1 < y.1 || (x.1 = y.1 && (x.2.1 < y.2.1 || (x.2.1 = y.2.1 && decide (x.2.2 < y.2.2))))

def selectRegisterName (names : List String) : Option String :=
  let best := names.foldl (fun best name =>
    let rank := registerAliasRank name
    match best with
    | none => some (rank, name)
    | some (bestRank, bestName) =>
      if rankLt rank bestRank || (rank = bestRank && decide (name < bestName)) then
        some (rank, name)
      else some (bestRank, bestName)) (none : Option ((Nat × Nat × String) × String))
  best.map Prod.snd

/-- Names of all registers at each `(offset, size)`, in declaration order. -/
def namesByKey (registers : List RegisterDef) : HashMap (Nat × Nat) (List String) :=
  registers.foldl (fun names reg => names.pushAt (reg.offset, reg.size) reg.name) ∅

def buildRegisterNameMap (arch : ArchSpec) : RegisterNameMap :=
  (namesByKey arch.registers).entries.foldl (fun map entry =>
    match selectRegisterName entry.2 with
    | some name => map.insert entry.1 name
    | none => map) ∅

/-- Variable name of a varnode: the register's name when the map has one,
otherwise its space and its offset in hexadecimal. -/
def varnodeToName (vn : Varnode) (regNames : Option RegisterNameMap) : String :=
  match vn.space with
  | .Register => ((regNames.bind fun map => map.lookup (vn.offset, vn.size))).getD
      ("reg:" ++ hex vn.offset)
  | .Unique => "tmp:" ++ hex vn.offset
  | .Const => "const:" ++ hex vn.offset
  | .Ram => "ram:" ++ hex vn.offset
  | .Custom id => "space" ++ decimal id ++ ":" ++ hex vn.offset

example : varnodeToName ⟨.Register, 16, 8⟩ none = "reg:10" := by decide

end R2Sleigh.Ssa
