import R2Sleigh.Format.Validate

/-!
Contract: what an accepted block satisfies.

Owns `WidthRule`, `AddressRule` and `SumFits`.
-/

namespace R2Sleigh.Format

open Il (SpaceId Varnode BinaryOp UnaryOp R2ILOp)
open Lib List

variable {rightName leftName : String} {range : MemoryRange} {right left : Nat} {op : R2ILOp}

/-! ## Rules -/

def WidthRule : R2ILOp → Prop
  | .Copy dst src => dst.size = src.size
  | .binary op dst a b =>
    match op with
    | .IntAdd | .IntSub | .IntMult | .IntDiv | .IntSDiv | .IntRem | .IntSRem
    | .IntAnd | .IntOr | .IntXor => a.size = b.size ∧ dst.size = a.size
    | .IntLeft | .IntRight | .IntSRight => dst.size = a.size ∧ 0 < b.size
    | .IntCarry | .IntSCarry | .IntSBorrow
    | .IntEqual | .IntNotEqual | .IntLess | .IntSLess | .IntLessEqual | .IntSLessEqual =>
      a.size = b.size ∧ dst.size = 1
    | .BoolAnd | .BoolOr | .BoolXor => a.size = 1 ∧ b.size = 1 ∧ dst.size = 1
    | .FloatAdd | .FloatSub | .FloatMult | .FloatDiv
    | .FloatEqual | .FloatNotEqual | .FloatLess | .FloatLessEqual => True
  | .unary op dst src =>
    match op with
    | .IntZExt | .IntSExt => src.size < dst.size
    | .Trunc => dst.size < src.size
    | .IntNegate | .IntNot => dst.size = src.size
    | .BoolNot => src.size = 1 ∧ dst.size = 1
    | _ => True
  | .AtomicCAS dst _ _ expected replacement _ =>
    dst.size = expected.size ∧ dst.size = replacement.size
  | .LoadGuarded _ _ _ guard _ => guard.size = 1
  | .StoreGuarded _ _ _ guard _ => guard.size = 1
  | .CBranch _ cond => cond.size = 1
  | .Piece dst hi lo => dst.size = hi.size + lo.size
  | .Subpiece dst src offset => offset + dst.size ≤ src.size
  | _ => True

/-- The sums of widths are less than `2 ^ 32`. -/
def SumFits : R2ILOp → Prop
  | .Piece _ hi lo => hi.size + lo.size < 2 ^ 32
  | .Subpiece dst _ offset => offset + dst.size < 2 ^ 32
  | _ => True

/-- The size of what a `Subpiece` takes its part of is a `u32`. -/
def Sized : R2ILOp → Prop
  | .Subpiece _ src _ => src.size < 2 ^ 32
  | _ => True

/-- The space, the address and the number of bytes that an operation accesses, with the
code of its issues. -/
def memoryAccess : R2ILOp → Option (SpaceId × Varnode × Nat × String)
  | .Load dst space addr => some (space, addr, dst.size, "op.load")
  | .LoadLinked dst space addr _ => some (space, addr, dst.size, "op.load_linked")
  | .Store space addr val => some (space, addr, val.size, "op.store")
  | .StoreConditional _ space addr val _ => some (space, addr, val.size, "op.store_conditional")
  | .AtomicCAS dst space addr _ _ _ => some (space, addr, dst.size, "op.atomic_cas")
  | .LoadGuarded dst space addr _ _ => some (space, addr, dst.size, "op.load_guarded")
  | .StoreGuarded space addr val _ _ => some (space, addr, val.size, "op.store_guarded")
  | _ => none

def controlTarget : R2ILOp → Option Varnode
  | .Branch target | .BranchInd target | .Call target | .CallInd target | .Return target
  | .CBranch target _ => some target
  | _ => none

/-- An address is as wide as those of its space or of the architecture; a target outside the
constant space is as wide as those of the architecture. -/
def AddressRule (arch : ArchSpec) (op : R2ILOp) : Prop :=
  (∀ spaceId addr size code, memoryAccess op = some (spaceId, addr, size, code) →
    addr.size = addrSpaceSize spaceId arch ∨ addr.size = effectiveArchAddrSize arch) ∧
  ∀ target, controlTarget op = some target → target.space ≠ .Const →
    target.size = effectiveArchAddrSize arch

/-- Every byte of an access lies in the range. -/
def MemoryRange.Holds (range : MemoryRange) (start size : Nat) : Prop :=
  ∀ byte < size, range.start ≤ start + byte ∧ start + byte < range.stop

section

variable {code : String} {opIndex : Nat}

/-- The access of an operation of a byte or more, when it is to a constant address of a
space with ranges, lies in one of them. -/
def AccessInside (arch : ArchSpec) (op : R2ILOp) : Prop :=
  ∀ spaceId addr size code space, memoryAccess op = some (spaceId, addr, size, code) →
    addr.space = .Const → 1 ≤ size → arch.spaces.find? (·.id = spaceId) = some space →
    space.validRanges ≠ [] → ∃ range ∈ space.validRanges, range.Holds addr.offset size

/-! ## Single checks -/

theorem checkSizeEq_nil :
    checkSizeEq code opIndex leftName left rightName right = [] ↔ left = right := by
  unfold checkSizeEq
  split <;> simp_all

private theorem checkSizeGt_nil :
    checkSizeGt code opIndex leftName left rightName right = [] ↔ right < left := by
  unfold checkSizeGt
  split <;> simp_all

private theorem checkSizeLt_nil :
    checkSizeLt code opIndex leftName left rightName right = [] ↔ left < right := by
  unfold checkSizeLt
  split <;> simp_all

end

theorem checkSizeConst_nil {code fieldName : String} {opIndex actual expected : Nat} :
    checkSizeConst code opIndex fieldName actual expected = [] ↔ actual = expected := by
  unfold checkSizeConst
  split <;> simp_all

theorem checkSizeEq_code {code : String} {opIndex : Nat} {issue : ValidationIssue}
    (listed : issue ∈ checkSizeEq code opIndex leftName left rightName right) : issue.code = code := by
  unfold checkSizeEq at listed
  split at listed
  · rw [mem_singleton.mp listed]
  · cases listed

private theorem checkSizeConst_code {code fieldName : String} {opIndex actual expected : Nat}
    {issue : ValidationIssue}
    (listed : issue ∈ checkSizeConst code opIndex fieldName actual expected) : issue.code = code := by
  unfold checkSizeConst at listed
  split at listed
  · rw [mem_singleton.mp listed]
  · cases listed

theorem fromIssues_ok {issues : List ValidationIssue} : fromIssues issues = .ok () ↔ issues = [] := by
  unfold fromIssues
  split <;> simp_all

theorem issuesOf_fromIssues (issues : List ValidationIssue) : issuesOf (fromIssues issues) = issues := by
  unfold fromIssues
  split
  · rename_i empty
    exact empty.symm
  · rfl

/-! ## Widths -/

theorem binaryIssues_nil {op : BinaryOp} {opIndex : Nat} {code : String} {dst a b : Varnode} :
    binaryIssues op opIndex code dst a b = [] ↔ WidthRule (.binary op dst a b) := by
  cases op <;>
    simp only [binaryIssues, WidthRule, append_eq_nil_iff, checkSizeEq_nil, checkSizeConst_nil,
      ite_eq_right_iff, reduceCtorEq, imp_false, Nat.pos_iff_ne_zero, ne_eq, and_assoc]

private theorem unaryIssues_nil {op : UnaryOp} {opIndex : Nat} {code : String} {dst src : Varnode} :
    unaryIssues op opIndex code dst src = [] ↔ WidthRule (.unary op dst src) := by
  cases op <;>
    simp only [unaryIssues, WidthRule, append_eq_nil_iff, checkSizeEq_nil, checkSizeGt_nil,
      checkSizeLt_nil, checkSizeConst_nil]

variable {arch : ArchSpec}

/-- An accepted operation follows its rule where its sum fits, and only there. -/
theorem widthRule_iff {opIndex : Nat} (sized : Sized op)
    (accepted : opSemanticIssues op arch opIndex = []) : WidthRule op ↔ SumFits op := by
  cases op with
  | binary op dst a b => exact iff_of_true (binaryIssues_nil.mp accepted) trivial
  | unary op dst src => exact iff_of_true (unaryIssues_nil.mp accepted) trivial
  | Copy dst src => exact iff_of_true (checkSizeEq_nil.mp accepted) trivial
  | AtomicCAS dst space addr expected replacement ordering =>
    obtain ⟨widths, _⟩ := append_eq_nil_iff.mp accepted
    obtain ⟨first, second⟩ := append_eq_nil_iff.mp widths
    exact iff_of_true ⟨checkSizeEq_nil.mp first, checkSizeEq_nil.mp second⟩ trivial
  | LoadGuarded | StoreGuarded =>
    exact iff_of_true (checkSizeConst_nil.mp (append_eq_nil_iff.mp accepted).1) trivial
  | CBranch target cond =>
    exact iff_of_true (checkSizeConst_nil.mp (append_eq_nil_iff.mp accepted).2) trivial
  | Piece dst hi lo =>
    have cut : dst.size = min (hi.size + lo.size) (2 ^ 32 - 1) := checkSizeConst_nil.mp accepted
    simp only [WidthRule, SumFits]
    omega
  | Subpiece dst src offset =>
    have isSized : src.size < 2 ^ 32 := sized
    simp only [WidthRule, SumFits]
    rw [opSemanticIssues] at accepted
    split at accepted
    · cases accepted
    · split at accepted
      · cases accepted
      · rename_i inside
        simp only [saturatingAdd, u32Max] at inside
        omega
  | _ => exact iff_of_true trivial trivial

/-! ## Ranges -/

private theorem MemoryRange.holds_of_contains {start size : Nat}
    (contains : range.containsInterval start size = true) : range.Holds start size := by
  unfold MemoryRange.containsInterval at contains
  split at contains
  · cases contains
  · simp only [Bool.and_eq_true, decide_eq_true_eq] at contains
    intro byte inside
    omega

private theorem MemoryRange.contains_of_holds {start size : Nat} (positive : 1 ≤ size)
    (ends : range.stop < 2 ^ 64) (holds : range.Holds start size) :
    range.containsInterval start size = true := by
  have first := holds 0 positive
  have last := holds (size - 1) (by omega)
  unfold MemoryRange.containsInterval
  rw [if_neg (by omega)]
  simp only [Bool.and_eq_true, decide_eq_true_eq]
  omega

theorem checkMemoryAccess_of_access {opIndex : Nat}
    {spaceId : SpaceId} {addr : Varnode} {size : Nat} {code : String}
    (accesses : memoryAccess op = some (spaceId, addr, size, code)) :
    ∃ needsRead needsWrite before between,
      opSemanticIssues op arch opIndex = before ++
        checkMemoryAccess arch opIndex code spaceId addr size needsRead needsWrite between ∧
      ∀ issue ∈ before ++ between, issue.code ≠ code ++ ".range" := by
  cases op with
  | Load | LoadLinked | Store =>
    cases accesses
    exact ⟨_, _, [], [], rfl, nofun⟩
  | StoreConditional result space addr val ordering =>
    cases accesses
    refine ⟨_, _, [], _, rfl, fun issue listed => ?_⟩
    have isSize : issue.code = "op.store_conditional.result_size_zero" := by
      cases result with
      | none => cases listed
      | some result =>
        dsimp only at listed
        split at listed
        · rw [mem_singleton.mp listed]
        · cases listed
    rw [isSize]
    decide
  | AtomicCAS dst space addr expected replacement ordering =>
    cases accesses
    refine ⟨_, _, _, [], rfl, fun issue listed => ?_⟩
    rw [append_nil] at listed
    have isWidth := (mem_append.mp listed).elim checkSizeEq_code checkSizeEq_code
    rw [isWidth]
    decide
  | LoadGuarded | StoreGuarded =>
    cases accesses
    refine ⟨_, _, _, [], rfl, fun issue listed => ?_⟩
    rw [append_nil] at listed
    rw [checkSizeConst_code listed]
    decide
  | _ => cases accesses

private theorem accessInside_of_accepted {opIndex : Nat}
    (accepted : opSemanticIssues op arch opIndex = []) : AccessInside arch op := by
  intro spaceId addr size code space accesses isConst _ isSpace hasRanges
  obtain ⟨_, _, before, between, issues, _⟩ := @checkMemoryAccess_of_access op arch opIndex _ _ _ _ accesses
  rw [issues, checkMemoryAccess] at accepted
  simp only [append_eq_nil_iff] at accepted
  obtain ⟨_, _, checked⟩ := accepted
  rw [checkConstMemoryAccess, if_neg (not_not.mpr isConst), isSpace] at checked
  obtain ⟨ranged, _⟩ := append_eq_nil_iff.mp checked
  have contained : space.validRanges.any (·.containsInterval addr.offset size) = true := by
    by_contra outside
    rw [if_pos ⟨hasRanges, Bool.eq_false_iff.mpr outside⟩] at ranged
    cases ranged
  obtain ⟨range, listed, contains⟩ := any_eq_true.mp contained
  exact ⟨range, listed, MemoryRange.holds_of_contains contains⟩

private theorem addressRule_of_accepted {opIndex : Nat}
    (accepted : opSemanticIssues op arch opIndex = []) : AddressRule arch op := by
  constructor
  · intro spaceId addr size code accesses
    obtain ⟨_, _, before, between, issues, _⟩ :=
      @checkMemoryAccess_of_access op arch opIndex _ _ _ _ accesses
    rw [issues, checkMemoryAccess] at accepted
    simp only [append_eq_nil_iff] at accepted
    obtain ⟨_, ⟨checked, _⟩, _⟩ := accepted
    unfold checkSizeAddrWidth at checked
    split at checked
    · assumption
    · cases checked
  · intro target isTarget outside
    have checked : ∃ code, checkTarget arch opIndex code target = [] := by
      cases op with
      | Branch | BranchInd | Call | CallInd | Return => cases isTarget; exact ⟨_, accepted⟩
      | CBranch _ cond => cases isTarget; exact ⟨_, (append_eq_nil_iff.mp accepted).1⟩
      | _ => cases isTarget
    obtain ⟨code, checked⟩ := checked
    rw [checkTarget, if_pos outside] at checked
    exact checkSizeConst_nil.mp checked

/-- An access inside a valid range is not rejected for its range. -/
theorem no_range_issue {opIndex : Nat} {spaceId : SpaceId}
    {addr : Varnode} {size : Nat} {code : String} {space : AddressSpace}
    (accesses : memoryAccess op = some (spaceId, addr, size, code)) (positive : 1 ≤ size)
    (isSpace : arch.spaces.find? (·.id = spaceId) = some space) (listed : range ∈ space.validRanges)
    (ends : range.stop < 2 ^ 64) (holds : range.Holds addr.offset size) :
    ∀ issue ∈ opSemanticIssues op arch opIndex, issue.code ≠ code ++ ".range" := by
  obtain ⟨_, _, before, between, issues, others⟩ :=
    @checkMemoryAccess_of_access op arch opIndex _ _ _ _ accesses
  have contained : space.validRanges.any (·.containsInterval addr.offset size) = true :=
    any_eq_true.mpr ⟨range, listed, MemoryRange.contains_of_holds positive ends holds⟩
  have differ : code ++ ".addr_width_mismatch" ≠ code ++ ".range" ∧
      code ++ ".permission" ≠ code ++ ".range" := by
    constructor <;> intro same <;> exact absurd (String.append_right_inj code |>.mp same) (by decide)
  intro issue inIssues
  rw [issues] at inIssues
  rcases mem_append.mp inIssues with inBefore | inAccess
  · exact others issue (mem_append_left _ inBefore)
  rcases mem_append.mp inAccess with inWidth | inConst
  · rcases mem_append.mp inWidth with inWidth | inBetween
    · unfold checkSizeAddrWidth at inWidth
      split at inWidth
      · cases inWidth
      · rw [mem_singleton.mp inWidth]
        exact differ.1
    · exact others issue (mem_append_right _ inBetween)
  · unfold checkConstMemoryAccess at inConst
    split at inConst
    · cases inConst
    · rw [isSpace] at inConst
      dsimp only at inConst
      rw [contained, if_neg (by simp), nil_append] at inConst
      cases isPerms : space.permissions with
      | none =>
        rw [isPerms] at inConst
        cases inConst
      | some perms =>
        rw [isPerms] at inConst
        rcases mem_append.mp inConst with inRead | inWrite
        · split at inRead
          · rw [mem_singleton.mp inRead]
            exact differ.2
          · cases inRead
        · split at inWrite
          · rw [mem_singleton.mp inWrite]
            exact differ.2
          · cases inWrite

/-! ## Blocks -/

/-- In an accepted block no operation has an issue. -/
theorem accepted_op {block : R2ILBlock} (accepted : validateBlockFull block arch = .ok ())
    {lifted : LiftedOp} (listed : lifted ∈ block.ops) :
    ∃ opIndex, opSemanticIssues lifted.op arch opIndex = [] := by
  obtain ⟨_, semantic⟩ := append_eq_nil_iff.mp (fromIssues_ok.mp accepted)
  rw [validateBlockSemantic, issuesOf_fromIssues] at semantic
  obtain ⟨opIndex, found⟩ := mem_iff_getElem?.mp listed
  have entry : (lifted, opIndex) ∈ block.ops.zipIdx := mem_zipIdx_iff_getElem?.mpr found
  have none := flatMap_eq_nil_iff.mp semantic _ entry
  rw [validateOpSemantic, issuesOf_fromIssues] at none
  exact ⟨opIndex, none⟩

/-- Accepted blocks follow every width rule exactly when their sums of widths fit, and
keep their constant accesses inside the ranges; an access inside a range has no range
issue. -/
theorem validateBlockFull_widths (block : R2ILBlock) (arch : ArchSpec)
    (sized : ∀ lifted ∈ block.ops, Sized lifted.op)
    (ends : ∀ space ∈ arch.spaces, ∀ range ∈ space.validRanges, range.stop < 2 ^ 64) :
    (validateBlockFull block arch = .ok () →
      ((∀ lifted ∈ block.ops, WidthRule lifted.op ∧ AddressRule arch lifted.op ∧
          AccessInside arch lifted.op) ↔
        ∀ lifted ∈ block.ops, SumFits lifted.op)) ∧
    ∀ op opIndex spaceId addr size code space, memoryAccess op = some (spaceId, addr, size, code) →
      1 ≤ size → arch.spaces.find? (·.id = spaceId) = some space →
      (∃ range ∈ space.validRanges, range.Holds addr.offset size) →
      ∀ issue ∈ issuesOf (validateOpSemantic op arch opIndex), issue.code ≠ code ++ ".range" := by
  constructor
  · intro accepted
    constructor
    · intro rules lifted listed
      obtain ⟨opIndex, none⟩ := accepted_op accepted listed
      exact (widthRule_iff (sized lifted listed) none).mp (rules lifted listed).1
    · intro fits lifted listed
      obtain ⟨opIndex, none⟩ := accepted_op accepted listed
      exact ⟨(widthRule_iff (sized lifted listed) none).mpr (fits lifted listed),
        addressRule_of_accepted none, accessInside_of_accepted none⟩
  · intro op opIndex spaceId addr size code space accesses positive isSpace ⟨range, listed, holds⟩
    rw [validateOpSemantic, issuesOf_fromIssues]
    exact no_range_issue accesses positive isSpace listed
      (ends space (mem_of_find?_eq_some isSpace) range listed) holds

/-- An architecture with one space of memory. -/
def flatArch : ArchSpec where
  name := "flat"
  variant := ""
  bigEndian := false
  instructionEndianness := .Little
  memoryEndianness := .Little
  addrSize := 8
  alignment := 1
  spaces := [⟨.Ram, "ram", 8, 1, true, none, none, none, [⟨4096, 8192⟩], none, none⟩]
  registers := []
  registerMap := ∅
  userops := []
  sourceFiles := []

/-- One operation on its own. -/
def singleOp (op : R2ILOp) : R2ILBlock := ⟨4, [⟨op, [], none⟩], none, .empty⟩

/-- The sum of the two parts is one more than a `u32` holds. -/
def overfullPiece : R2ILOp :=
  .Piece ⟨.Register, 0, 4294967295⟩ ⟨.Register, 0, 4294967295⟩ ⟨.Register, 0, 1⟩

theorem overfullPiece_accepted : validateBlockFull (singleOp overfullPiece) flatArch = .ok () ∧
    ¬ WidthRule overfullPiece := by
  constructor
  · decide +kernel
  · unfold overfullPiece WidthRule
    decide

theorem validateBlockFull_widths_load :
    validateBlockFull (singleOp (.Load ⟨.Register, 0, 8⟩ .Ram ⟨.Const, 4096, 8⟩)) flatArch = .ok () ∧
    AccessInside flatArch (.Load ⟨.Register, 0, 8⟩ .Ram ⟨.Const, 4096, 8⟩) := by
  have accepted : validateBlockFull
      (singleOp (.Load ⟨.Register, 0, 8⟩ .Ram ⟨.Const, 4096, 8⟩)) flatArch = .ok () := by
    decide +kernel
  refine ⟨accepted, ?_⟩
  have rules := (validateBlockFull_widths (singleOp (.Load ⟨.Register, 0, 8⟩ .Ram ⟨.Const, 4096, 8⟩))
    flatArch (fun lifted listed => mem_singleton.mp listed ▸ trivial) (by decide)).1 accepted
  have fits : ∀ lifted ∈ (singleOp (.Load ⟨.Register, 0, 8⟩ .Ram ⟨.Const, 4096, 8⟩)).ops,
      SumFits lifted.op := fun lifted listed => mem_singleton.mp listed ▸ trivial
  exact (rules.mpr fits _ mem_cons_self).2.2

end R2Sleigh.Format
