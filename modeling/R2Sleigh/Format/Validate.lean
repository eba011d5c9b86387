import R2Sleigh.Format.ArchSpec
import R2Sleigh.Lib.BTreeMap
import R2Sleigh.Lib.Text
import R2Sleigh.Ssa.RenameOp

/-!
Contract: validation of lifted blocks, structural and semantic.

Owns `ValidationIssue`, `validateBlock`, `validateBlockSemantic` and
`validateBlockFull`.

A varnode's metadata is kept beside its operation, by the position of the varnode
among the operation's inputs. `u32` sums that saturate are cut off at `u32Max`.
-/

namespace R2Sleigh.Format

open Il (SpaceId Varnode BinaryOp UnaryOp R2ILOp)
open Lib
open Ssa (hex decimal toAsciiLowercase)

/-! ## Issues -/

structure ValidationIssue where
  code : String
  path : String
  message : String
deriving DecidableEq, Repr

def fromIssues (issues : List ValidationIssue) : Except (List ValidationIssue) Unit :=
  if issues = [] then .ok () else .error issues

/-- The issues of a result, as a caller adds them to its own. -/
def issuesOf : Except (List ValidationIssue) Unit → List ValidationIssue
  | .ok _ => []
  | .error issues => issues

def u32Max : Nat := 2 ^ 32 - 1

/-- `u32::saturating_add`. -/
def saturatingAdd (a b : Nat) : Nat := min (a + b) u32Max

/-! ## Blocks -/

/-- The metadata of a varnode or an operation that validation reads. -/
structure Metadata where
  validRange : Option MemoryRange
  bankId : Option String
  segmentId : Option String
deriving DecidableEq, Repr

/-- An operation with the metadata of its varnodes. -/
structure LiftedOp where
  op : R2ILOp
  inputMeta : List (Option Metadata) := []
  outputMeta : Option Metadata := none
deriving DecidableEq, Repr

structure SwitchCase where
  value : Nat
  target : Nat
deriving DecidableEq, Repr

structure SwitchInfo where
  minVal : Nat
  maxVal : Nat
  cases : List SwitchCase
deriving DecidableEq, Repr

structure R2ILBlock where
  size : Nat
  ops : List LiftedOp
  switchInfo : Option SwitchInfo
  opMetadata : BTreeMap Nat Metadata

/-- `R2ILOp::inputs`: what SSA construction reads, and what an `Indirect` names. -/
def operands : R2ILOp → List Varnode
  | .Indirect _ src indirect => [src, indirect]
  | op => op.inputs

/-- `block.ops[i]`, the start of every path into an operation. -/
def opPath (opIndex : Nat) : String := "block.ops[" ++ decimal opIndex ++ "]"

/-! ## Structural checks -/

def isBlank (text : String) : Bool := (trim text.toList).isEmpty

/-- The issues of metadata at a path, with the codes and the owner's word of the place. -/
def validateMetadata (codes path owner : String) (metadata : Metadata) : List ValidationIssue :=
  (match metadata.bankId with
    | some bankId =>
      if isBlank bankId then
        [⟨codes ++ ".bank_id.empty", path ++ ".bank_id",
          owner ++ " bank_id must not be empty when present"⟩]
      else []
    | none => []) ++
  (match metadata.segmentId with
    | some segmentId =>
      if isBlank segmentId then
        [⟨codes ++ ".segment_id.empty", path ++ ".segment_id",
          owner ++ " segment_id must not be empty when present"⟩]
      else []
    | none => []) ++
  (match metadata.validRange with
    | some range =>
      if range.stop ≤ range.start then
        [⟨codes ++ ".range.invalid", path ++ ".valid_range",
          "invalid half-open range [0x" ++ hex range.start ++ ", 0x" ++ hex range.stop ++
            ") (start must be < end)"⟩]
      else []
    | none => [])

def validateVarnode (vn : Varnode) (metadata : Option Metadata) (path : String) (isOutput : Bool) :
    List ValidationIssue :=
  (if vn.size = 0 then [⟨"varnode.size.zero", path ++ ".size", "varnode size must be > 0"⟩] else []) ++
  (if isOutput ∧ vn.space = .Const then
    [⟨"varnode.output_const_space", path ++ ".space",
      "output/destination varnode must not be const space"⟩] else []) ++
  (match metadata with
    | some metadata => validateMetadata "varnode.meta" (path ++ ".meta") "metadata" metadata
    | none => [])

/-- The checks that only some operations have. -/
def validateFields (opIndex : Nat) : R2ILOp → List ValidationIssue
  | .Load _ .Const _ =>
    [⟨"op.load.space_const", opPath opIndex ++ ".space", "load space must not be const"⟩]
  | .LoadLinked _ .Const _ _ =>
    [⟨"op.load_linked.space_const", opPath opIndex ++ ".space",
      "load-linked space must not be const"⟩]
  | .Store .Const _ _ =>
    [⟨"op.store.space_const", opPath opIndex ++ ".space", "store space must not be const"⟩]
  | .StoreConditional _ .Const _ _ _ =>
    [⟨"op.store_conditional.space_const", opPath opIndex ++ ".space",
      "store-conditional space must not be const"⟩]
  | .AtomicCAS _ .Const _ _ _ _ =>
    [⟨"op.atomic_cas.space_const", opPath opIndex ++ ".space",
      "atomic CAS space must not be const"⟩]
  | .LoadGuarded _ .Const _ _ _ =>
    [⟨"op.load_guarded.space_const", opPath opIndex ++ ".space",
      "guarded load space must not be const"⟩]
  | .StoreGuarded .Const _ _ _ _ =>
    [⟨"op.store_guarded.space_const", opPath opIndex ++ ".space",
      "guarded store space must not be const"⟩]
  | .PtrAdd _ _ _ 0 =>
    [⟨"op.ptradd.element_size_zero", opPath opIndex ++ ".element_size",
      "PtrAdd element_size must be > 0"⟩]
  | .PtrSub _ _ _ 0 =>
    [⟨"op.ptrsub.element_size_zero", opPath opIndex ++ ".element_size",
      "PtrSub element_size must be > 0"⟩]
  | .Multiequal _ [] =>
    [⟨"op.multiequal.inputs_empty", opPath opIndex ++ ".inputs",
      "Multiequal inputs must not be empty"⟩]
  | .CallOther (some output) _ _ =>
    if output.space = .Const then
      [⟨"op.callother.output_const", opPath opIndex ++ ".output",
        "CallOther output must not be const space"⟩]
    else []
  | _ => []

def validateOp (lifted : LiftedOp) (opIndex : Nat) : Except (List ValidationIssue) Unit :=
  fromIssues <|
    ((operands lifted.op).zipIdx.flatMap fun entry =>
      validateVarnode entry.1 (lifted.inputMeta.getD entry.2 none)
        (opPath opIndex ++ ".inputs[" ++ decimal entry.2 ++ "]") false) ++
    (match lifted.op.output with
      | some output => validateVarnode output lifted.outputMeta (opPath opIndex ++ ".output") true
      | none => []) ++
    validateFields opIndex lifted.op

/-- The cases in turn, with the values seen before. -/
def validateCases (sw : SwitchInfo) : Nat → List Nat → List SwitchCase → List ValidationIssue
  | _, _, [] => []
  | i, seen, case :: rest =>
    let path := "block.switch_info.cases[" ++ decimal i ++ "].value"
    (if case.value < sw.minVal ∨ sw.maxVal < case.value then
      [⟨"block.switch.case_out_of_range", path,
        "case value " ++ decimal case.value ++ " is outside switch range [" ++ decimal sw.minVal ++
          ", " ++ decimal sw.maxVal ++ "]"⟩] else []) ++
    (if case.value ∈ seen then
      [⟨"block.switch.duplicate_case_value", path,
        "duplicate switch case value " ++ decimal case.value⟩] else []) ++
    validateCases sw (i + 1) (case.value :: seen) rest

def validateSwitch (sw : SwitchInfo) : List ValidationIssue :=
  (if sw.maxVal < sw.minVal then
    [⟨"block.switch.range_invalid", "block.switch_info",
      "switch min_val (" ++ decimal sw.minVal ++ ") must be <= max_val (" ++ decimal sw.maxVal ++ ")"⟩]
    else []) ++
  validateCases sw 0 [] sw.cases

def validateBlock (block : R2ILBlock) : Except (List ValidationIssue) Unit :=
  fromIssues <|
    (if block.size = 0 then
      [⟨"block.size.zero", "block.size", "block size must be > 0"⟩] else []) ++
    (block.ops.zipIdx.flatMap fun entry => issuesOf (validateOp entry.1 entry.2)) ++
    (block.opMetadata.entries.flatMap fun entry =>
      let path := "block.op_metadata[" ++ decimal entry.1 ++ "]"
      (if block.ops.length ≤ entry.1 then
        [⟨"block.op_metadata.index_oob", path,
          "op metadata index " ++ decimal entry.1 ++ " is out of bounds for " ++
            decimal block.ops.length ++ " op(s)"⟩] else []) ++
      validateMetadata "block.op_metadata" path "op metadata" entry.2) ++
    (match block.switchInfo with
      | some sw => validateSwitch sw
      | none => [])

/-! ## Address sizes -/

def effectiveArchAddrSize (arch : ArchSpec) : Nat :=
  if 1 < arch.addrSize then arch.addrSize
  else
    match ((arch.registers.find? fun reg =>
        toAsciiLowercase reg.name ∈ ["pc", "ip", "eip", "rip"]).map RegisterDef.size).filter
          fun size => decide (1 < size) with
    | some pcSize => pcSize
    | none =>
      match arch.spaces.find? fun space => space.isDefault && decide (1 < space.addrSize) with
      | some space => space.addrSize
      | none =>
        (((arch.spaces.map AddressSpace.addrSize).max?).filter
          fun size => decide (1 < size)).getD (max arch.addrSize 1)

def addrSpaceSize (space : SpaceId) (arch : ArchSpec) : Nat :=
  let archSize := effectiveArchAddrSize arch
  let spaceSize := ((arch.spaces.find? (·.id = space)).map AddressSpace.addrSize).getD archSize
  if spaceSize ≤ 1 then archSize else spaceSize

/-! ## Size checks -/

def checkSizeEq (code : String) (opIndex : Nat) (leftName : String) (left : Nat) (rightName : String)
    (right : Nat) : List ValidationIssue :=
  if left ≠ right then
    [⟨code, opPath opIndex, leftName ++ " (" ++ decimal left ++ ") must equal " ++ rightName ++ " (" ++
      decimal right ++ ")"⟩]
  else []

def checkSizeGt (code : String) (opIndex : Nat) (leftName : String) (left : Nat) (rightName : String)
    (right : Nat) : List ValidationIssue :=
  if left ≤ right then
    [⟨code, opPath opIndex, leftName ++ " (" ++ decimal left ++ ") must be greater than " ++
      rightName ++ " (" ++ decimal right ++ ")"⟩]
  else []

def checkSizeLt (code : String) (opIndex : Nat) (leftName : String) (left : Nat) (rightName : String)
    (right : Nat) : List ValidationIssue :=
  if right ≤ left then
    [⟨code, opPath opIndex, leftName ++ " (" ++ decimal left ++ ") must be less than " ++ rightName ++
      " (" ++ decimal right ++ ")"⟩]
  else []

def checkSizeConst (code : String) (opIndex : Nat) (fieldName : String) (actual expected : Nat) :
    List ValidationIssue :=
  if actual ≠ expected then
    [⟨code, opPath opIndex ++ "." ++ fieldName,
      "expected size " ++ decimal expected ++ ", got " ++ decimal actual⟩]
  else []

def checkSizeAddrWidth (code : String) (opIndex : Nat) (fieldName : String)
    (actual spaceExpected archExpected : Nat) : List ValidationIssue :=
  if actual = spaceExpected ∨ actual = archExpected then []
  else
    let message := if spaceExpected = archExpected then
        "expected size " ++ decimal spaceExpected ++ ", got " ++ decimal actual
      else
        "expected size " ++ decimal spaceExpected ++ " (space) or " ++ decimal archExpected ++
          " (arch), got " ++ decimal actual
    [⟨code, opPath opIndex ++ "." ++ fieldName, message⟩]

/-! ## Accesses to constant addresses -/

/-- An end past the last address is in no range. -/
def MemoryRange.containsInterval (range : MemoryRange) (start size : Nat) : Bool :=
  if 2 ^ 64 ≤ start + size then false
  else decide (range.start ≤ start) && decide (start + size ≤ range.stop)

def checkConstMemoryAccess (arch : ArchSpec) (opIndex : Nat) (spaceId : SpaceId) (addr : Varnode)
    (accessSize : Nat) (needsRead needsWrite : Bool) (rangeCode permissionCode : String) :
    List ValidationIssue :=
  if addr.space ≠ .Const then []
  else
    match arch.spaces.find? (·.id = spaceId) with
    | none => []
    | some space =>
      (if space.validRanges ≠ [] ∧
          space.validRanges.any (·.containsInterval addr.offset accessSize) = false then
        [⟨rangeCode, opPath opIndex ++ ".addr",
          "const address 0x" ++ hex addr.offset ++ " size " ++ decimal accessSize ++
            " is outside configured ranges for space '" ++ space.name ++ "'"⟩]
      else []) ++
      (match space.permissions with
        | none => []
        | some perms =>
          (if needsRead ∧ ¬ perms.read then
            [⟨permissionCode, opPath opIndex ++ ".space",
              "space '" ++ space.name ++
                "' denies read access for const-address memory operation"⟩] else []) ++
          (if needsWrite ∧ ¬ perms.write then
            [⟨permissionCode, opPath opIndex ++ ".space",
              "space '" ++ space.name ++
                "' denies write access for const-address memory operation"⟩] else []))

/-! ## Semantic checks -/

def semanticOpName : R2ILOp → String
  | .binary .IntAdd _ _ _ => "intadd"
  | .binary .IntSub _ _ _ => "intsub"
  | .binary .IntMult _ _ _ => "intmult"
  | .binary .IntDiv _ _ _ => "intdiv"
  | .binary .IntSDiv _ _ _ => "intsdiv"
  | .binary .IntRem _ _ _ => "intrem"
  | .binary .IntSRem _ _ _ => "intsrem"
  | .binary .IntAnd _ _ _ => "intand"
  | .binary .IntOr _ _ _ => "intor"
  | .binary .IntXor _ _ _ => "intxor"
  | .unary .IntNegate _ _ => "intnegate"
  | .unary .IntNot _ _ => "intnot"
  | .binary .IntLeft _ _ _ => "intleft"
  | .binary .IntRight _ _ _ => "intright"
  | .binary .IntSRight _ _ _ => "intsright"
  | .binary .IntCarry _ _ _ => "intcarry"
  | .binary .IntSCarry _ _ _ => "intscarry"
  | .binary .IntSBorrow _ _ _ => "intsborrow"
  | .binary .IntEqual _ _ _ => "intequal"
  | .binary .IntNotEqual _ _ _ => "intnotequal"
  | .binary .IntLess _ _ _ => "intless"
  | .binary .IntSLess _ _ _ => "intsless"
  | .binary .IntLessEqual _ _ _ => "intlessequal"
  | .binary .IntSLessEqual _ _ _ => "intslessequal"
  | .binary .BoolAnd _ _ _ => "booland"
  | .binary .BoolOr _ _ _ => "boolor"
  | .binary .BoolXor _ _ _ => "boolxor"
  | _ => "op"

def opNameWidthCode (opName : String) : String :=
  if opName ∈ ["intadd", "intsub", "intmult", "intdiv", "intsdiv", "intrem", "intsrem", "intand",
      "intor", "intxor", "intnegate", "intnot", "intleft", "intright", "intsright", "intcarry",
      "intscarry", "intsborrow", "intequal", "intnotequal", "intless", "intsless", "intlessequal",
      "intslessequal", "booland", "boolor", "boolxor"] then
    "op." ++ opName ++ ".width_mismatch"
  else "op.width_mismatch"

/-- An access to memory: the width of its address, and where that is constant its
range and the permissions it needs. -/
def checkMemoryAccess (arch : ArchSpec) (opIndex : Nat) (opCode : String) (space : SpaceId)
    (addr : Varnode) (accessSize : Nat) (needsRead needsWrite : Bool)
    (between : List ValidationIssue) : List ValidationIssue :=
  checkSizeAddrWidth (opCode ++ ".addr_width_mismatch") opIndex "addr.size" addr.size
    (addrSpaceSize space arch) (effectiveArchAddrSize arch) ++
  between ++
  checkConstMemoryAccess arch opIndex space addr accessSize needsRead needsWrite
    (opCode ++ ".range") (opCode ++ ".permission")

/-- The width of a target outside the constant space. -/
def checkTarget (arch : ArchSpec) (opIndex : Nat) (code : String) (target : Varnode) :
    List ValidationIssue :=
  if target.space ≠ .Const then
    checkSizeConst code opIndex "target.size" target.size (effectiveArchAddrSize arch)
  else []

/-- The checks of an operation with fields `dst`, `a` and `b`. -/
def binaryIssues (op : BinaryOp) (opIndex : Nat) (code : String) (dst a b : Varnode) :
    List ValidationIssue :=
  match op with
  | .IntAdd | .IntSub | .IntMult | .IntDiv | .IntSDiv | .IntRem | .IntSRem | .IntAnd | .IntOr
  | .IntXor =>
    checkSizeEq code opIndex "a.size" a.size "b.size" b.size ++
    checkSizeEq code opIndex "dst.size" dst.size "a.size" a.size
  | .IntLeft | .IntRight | .IntSRight =>
    checkSizeEq code opIndex "dst.size" dst.size "a.size" a.size ++
    (if b.size = 0 then
      [⟨"op.shift.amount_size_zero", opPath opIndex ++ ".b.size", "shift amount size must be > 0"⟩]
    else [])
  | .IntCarry | .IntSCarry | .IntSBorrow
  | .IntEqual | .IntNotEqual | .IntLess | .IntSLess | .IntLessEqual | .IntSLessEqual =>
    checkSizeEq code opIndex "a.size" a.size "b.size" b.size ++
    checkSizeConst code opIndex "dst.size" dst.size 1
  | .BoolAnd | .BoolOr | .BoolXor =>
    checkSizeConst code opIndex "a.size" a.size 1 ++
    checkSizeConst code opIndex "b.size" b.size 1 ++
    checkSizeConst code opIndex "dst.size" dst.size 1
  | _ => []

/-- The checks of an operation with fields `dst` and `src`. -/
def unaryIssues (op : UnaryOp) (opIndex : Nat) (code : String) (dst src : Varnode) :
    List ValidationIssue :=
  match op with
  | .IntZExt =>
    checkSizeGt "op.intzext.non_expanding" opIndex "dst.size" dst.size "src.size" src.size
  | .IntSExt =>
    checkSizeGt "op.intsext.non_expanding" opIndex "dst.size" dst.size "src.size" src.size
  | .Trunc => checkSizeLt "op.trunc.non_shrinking" opIndex "dst.size" dst.size "src.size" src.size
  | .IntNegate | .IntNot => checkSizeEq code opIndex "dst.size" dst.size "src.size" src.size
  | .BoolNot =>
    checkSizeConst "op.boolnot.width_mismatch" opIndex "src.size" src.size 1 ++
    checkSizeConst "op.boolnot.width_mismatch" opIndex "dst.size" dst.size 1
  | _ => []

def opSemanticIssues (op : R2ILOp) (arch : ArchSpec) (opIndex : Nat) : List ValidationIssue :=
  match op with
  | .Copy dst src =>
    checkSizeEq "op.copy.width_mismatch" opIndex "dst.size" dst.size "src.size" src.size
  | .binary binaryOp dst a b =>
    binaryIssues binaryOp opIndex (opNameWidthCode (semanticOpName op)) dst a b
  | .unary unaryOp dst src =>
    unaryIssues unaryOp opIndex (opNameWidthCode (semanticOpName op)) dst src
  | .Load dst space addr =>
    checkMemoryAccess arch opIndex "op.load" space addr dst.size true false []
  | .LoadLinked dst space addr _ =>
    checkMemoryAccess arch opIndex "op.load_linked" space addr dst.size true false []
  | .Store space addr val =>
    checkMemoryAccess arch opIndex "op.store" space addr val.size false true []
  | .StoreConditional result space addr val _ =>
    checkMemoryAccess arch opIndex "op.store_conditional" space addr val.size false true
      (match result with
        | some result =>
          if result.size = 0 then
            [⟨"op.store_conditional.result_size_zero", opPath opIndex ++ ".result.size",
              "store-conditional result size must be > 0 when present"⟩]
          else []
        | none => [])
  | .AtomicCAS dst space addr expected replacement _ =>
    checkSizeEq "op.atomic_cas.width" opIndex "dst.size" dst.size "expected.size" expected.size ++
    checkSizeEq "op.atomic_cas.width" opIndex "dst.size" dst.size "replacement.size"
      replacement.size ++
    checkMemoryAccess arch opIndex "op.atomic_cas" space addr dst.size true true []
  | .LoadGuarded dst space addr guard _ =>
    checkSizeConst "op.load_guarded.guard_size" opIndex "guard.size" guard.size 1 ++
    checkMemoryAccess arch opIndex "op.load_guarded" space addr dst.size true false []
  | .StoreGuarded space addr val guard _ =>
    checkSizeConst "op.store_guarded.guard_size" opIndex "guard.size" guard.size 1 ++
    checkMemoryAccess arch opIndex "op.store_guarded" space addr val.size false true []
  | .Piece dst hi lo =>
    checkSizeConst "op.piece.width_mismatch" opIndex "dst.size" dst.size
      (saturatingAdd hi.size lo.size)
  | .Subpiece dst src offset =>
    if src.size ≤ offset then
      [⟨"op.subpiece.offset_oob", opPath opIndex ++ ".offset",
        "subpiece offset " ++ decimal offset ++ " is out of bounds for src size " ++
          decimal src.size⟩]
    else if src.size < saturatingAdd offset dst.size then
      [⟨"op.subpiece.width_oob", opPath opIndex ++ ".dst.size",
        "subpiece range offset " ++ decimal offset ++ " + dst.size " ++ decimal dst.size ++
          " exceeds src size " ++ decimal src.size⟩]
    else []
  | .Branch target | .BranchInd target | .Call target | .CallInd target | .Return target =>
    checkTarget arch opIndex "op.controlflow.target_width_mismatch" target
  | .CBranch target cond =>
    checkTarget arch opIndex "op.cbranch.target_width_mismatch" target ++
    checkSizeConst "op.cbranch.cond_width_mismatch" opIndex "cond.size" cond.size 1
  | _ => []

def validateOpSemantic (op : R2ILOp) (arch : ArchSpec) (opIndex : Nat) :
    Except (List ValidationIssue) Unit :=
  fromIssues (opSemanticIssues op arch opIndex)

def validateBlockSemantic (block : R2ILBlock) (arch : ArchSpec) :
    Except (List ValidationIssue) Unit :=
  fromIssues (block.ops.zipIdx.flatMap fun entry =>
    issuesOf (validateOpSemantic entry.1.op arch entry.2))

def validateBlockFull (block : R2ILBlock) (arch : ArchSpec) : Except (List ValidationIssue) Unit :=
  fromIssues (issuesOf (validateBlock block) ++ issuesOf (validateBlockSemantic block arch))

end R2Sleigh.Format
