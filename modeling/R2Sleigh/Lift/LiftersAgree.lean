import Mathlib.Tactic.IntervalCases
import R2Sleigh.Lift.Disasm
import R2Sleigh.Ssa.ConstEval
import R2Sleigh.Ssa.RenameOp

/-!
Contract: the two translations of P-code side by side.

Owns `SameOperation` and `LiftsAlike`.

From 55 on the numbers of the raw translator are not Ghidra's: an opcode for the
conversion of floating-point numbers to integers is counted in between.
-/

namespace R2Sleigh.Lift

open Il Ssa List

/-! ## Operations in both forms -/

structure SameVarnode (spaces : List AddressSpace) (raw : RawVarnode) (vn : VarnodeData) : Prop where
  space : spaces[raw.spaceIdx]? = some vn.addressSpace
  offset : raw.offset = vn.offset
  size : raw.size = asU32 vn.size

/-- The same operation under Ghidra's numbers and under the disassembler's
names, over the address spaces of one specification. -/
structure SameOperation (spaces : List AddressSpace) (raw : RawPcodeOp) (instr : PcodeInstruction) :
    Prop where
  opcode : instr.opCode = OpCode.ofNumber raw.opcode
  output : Option.Rel (SameVarnode spaces) raw.output instr.output
  inputs : List.Forall₂ (SameVarnode spaces) raw.inputs instr.inputs

/-- The operations that the disassembler does not skip. -/
def isExpressed : OpCode → Bool
  | .Pseudo op => op = .CallOther
  | .Analysis _ | .Unknown _ => false
  | _ => true

def Agree (first : Except PcodeError R2ILOp) (second : Except LiftError (Option R2ILOp)) : Prop :=
  (∃ op, first = .ok op ∧ second = .ok (some op)) ∨
    ((∃ e, first = .error e) ∧ ∃ e, second = .error e)

/-- No SSA form of the operation is ever folded to a constant. -/
def NeverFolds (op : R2ILOp) : Prop :=
  ∀ checks regNames state consts,
    evalConstOp checks (renameOp regNames state op).1 consts = .ok none

/-- Ghidra's numbers of floating-point operations. -/
def isFloatNumber (opcode : Nat) : Bool := 41 ≤ opcode ∧ opcode ≤ 59

section

variable (spaces : List AddressSpace)

/-- The raw translator for the given address spaces. -/
def translatorFor : PcodeTranslator := ⟨spaces.map translateSpace⟩

structure LiftsAlike (raw : RawPcodeOp) (instr : PcodeInstruction) : Prop where
  agree : Agree ((translatorFor spaces).translate raw)
    ((Disassembler.mk spaces).translatePcodeOp instr)
  float : isFloatNumber raw.opcode → ∀ op, (translatorFor spaces).translate raw = .ok op ∨
    (Disassembler.mk spaces).translatePcodeOp instr = .ok (some op) → NeverFolds op

/-- An operation without output, or without the inputs that its translation
needs. -/
def Incomplete (raw : RawPcodeOp) : Prop :=
  raw.output = none ∨ raw.inputs.length < if raw.opcode = 62 ∨ raw.opcode = 63 then 2 else 1

variable {spaces} {raw : RawPcodeOp} {instr : PcodeInstruction}

/-! ## Operands -/

theorem SameVarnode.convert {raw : RawVarnode} {vn : VarnodeData} (same : SameVarnode spaces raw vn) :
    (translatorFor spaces).convertVarnode raw = translateVarnode vn := by
  unfold PcodeTranslator.convertVarnode PcodeTranslator.spaceFromIndex translatorFor translateVarnode
  rw [List.getElem?_map, same.space, same.offset, same.size]
  rfl

theorem forall₂_map_eq {α β γ : Type} {relation : α → β → Prop} {f : α → γ} {g : β → γ}
    {first : List α} {second : List β} (related : List.Forall₂ relation first second)
    (maps : ∀ a b, relation a b → f a = g b) : first.map f = second.map g := by
  induction related with
  | nil => rfl
  | cons head _ ih =>
    rw [map_cons, map_cons, maps _ _ head, ih]

theorem SameOperation.source_eq (same : SameOperation spaces raw instr) :
    (Disassembler.mk spaces).source instr = (translatorFor spaces).wrap raw := by
  have convertOutput : ∀ {first : Option RawVarnode} {second : Option VarnodeData},
      Option.Rel (SameVarnode spaces) first second →
        second.map translateVarnode = first.map (translatorFor spaces).convertVarnode := by
    intro first second related
    cases related with
    | none => rfl
    | some alike => exact congrArg some alike.convert.symm
  have outputs := convertOutput same.output
  have inputs : raw.inputs.map (translatorFor spaces).convertVarnode =
      instr.inputs.map translateVarnode :=
    forall₂_map_eq same.inputs fun _ _ related => related.convert
  have offsets : raw.inputs.map RawVarnode.offset = instr.inputs.map VarnodeData.offset :=
    forall₂_map_eq same.inputs fun _ _ related => related.offset
  have spacesAlike : ∀ idx, (Disassembler.mk spaces).spaceFromIndex idx =
      (translatorFor spaces).spaceFromIndex idx := by
    intro idx
    unfold Disassembler.spaceFromIndex PcodeTranslator.spaceFromIndex translatorFor
    rw [List.getElem?_map]
    cases spaces[idx]? <;> rfl
  unfold Disassembler.source PcodeTranslator.wrap
  simp only [outputs, ← List.getElem?_map, ← inputs, ← offsets, same.inputs.length_eq]
  congr 1
  exact funext spacesAlike

/-! ## Translations that both share -/

private theorem agree_shared (translated : Translated) :
    Agree (translated.mapError TranslateError.toPcodeError) (Disassembler.finish translated) := by
  cases translated with
  | error e => exact .inr ⟨⟨_, rfl⟩, ⟨_, rfl⟩⟩
  | ok op => exact .inl ⟨op, rfl, rfl⟩

variable (translator : PcodeTranslator) (raw)

private theorem agree_copy : Agree (translator.translateAs raw .Copy)
    (Disassembler.finish (translateUnary (translator.wrap raw) "COPY" .Copy)) := by
  obtain ⟨opcode, output, inputs⟩ := raw
  cases output with
  | none => exact .inr ⟨⟨_, rfl⟩, ⟨_, rfl⟩⟩
  | some dst =>
    cases inputs with
    | nil => exact .inr ⟨⟨_, rfl⟩, ⟨_, rfl⟩⟩
    | cons src rest => exact .inl ⟨_, rfl, rfl⟩

theorem agree_transfer (name : String) (f : Varnode → R2ILOp) : Agree (translator.transfer raw name f)
    (Disassembler.finish (Disassembler.translateTransfer (translator.wrap raw) name f)) := by
  obtain ⟨opcode, output, inputs⟩ := raw
  cases inputs with
  | nil => exact .inr ⟨⟨_, rfl⟩, ⟨_, rfl⟩⟩
  | cons src rest => exact .inl ⟨_, rfl, rfl⟩

private theorem filterMap_getElem? {α : Type} (first : α) (rest : List α) :
    (List.range' 1 rest.length).filterMap (fun idx => (first :: rest)[idx]?) = rest := by
  have found : (List.range' 1 rest.length).map (fun idx => (first :: rest)[idx]?) = rest.map some :=
    ext_getElem (by simp) fun i _ _ => by simp [Nat.add_comm 1]
  have kept := congrArg (filterMap id) found
  rwa [filterMap_map, filterMap_map, Function.id_comp, Function.id_comp, filterMap_some] at kept

private theorem agree_callOther : Agree (translator.translateAs raw .CallOther)
    (Disassembler.finish (Disassembler.translateCallOther (translator.wrap raw))) := by
  obtain ⟨opcode, output, inputs⟩ := raw
  cases inputs with
  | nil => exact .inr ⟨⟨_, rfl⟩, ⟨_, rfl⟩⟩
  | cons userop rest =>
    have arguments := filterMap_getElem? (translator.convertVarnode userop)
      (rest.map translator.convertVarnode)
    rw [length_map, ← map_cons] at arguments
    simp only [List.getElem?_map] at arguments
    refine .inl ⟨_, rfl, ?_⟩
    show Except.ok (some (R2ILOp.CallOther _ _ ((List.range' 1 rest.length).filterMap fun idx =>
      (userop :: rest)[idx]?.map translator.convertVarnode))) = _
    rw [arguments]
    rfl

variable {raw}

/-- Below 55 both translations agree. -/
theorem SameOperation.agree_of_lt (same : SameOperation spaces raw instr)
    (expressed : isExpressed instr.opCode) (below : raw.opcode < 55) :
    Agree ((translatorFor spaces).translate raw)
      ((Disassembler.mk spaces).translatePcodeOp instr) := by
  rw [same.opcode] at expressed
  unfold PcodeTranslator.translate Disassembler.translatePcodeOp
  rw [same.source_eq, same.opcode]
  generalize raw.opcode = number at below expressed ⊢
  interval_cases number
  case «1» => exact agree_copy raw _
  case «4» | «6» | «7» | «8» | «10» => exact agree_transfer raw _ _ _
  case «9» => exact agree_callOther raw _
  case «0» | «45» => cases expressed
  all_goals exact agree_shared _

/-! ## Floating point -/

private theorem neverFolds_unary {kind : UnaryOp} (unfolded : ∀ bits srcBits value,
    evalUnary bits srcBits value kind = none) (dst src : Varnode) :
    NeverFolds (.unary kind dst src) := by
  intro checks regNames state consts
  simp [renameOp, renameUnaryOp, evalConstOp, SSAOp.dst, evalUnmasked, unfolded, Except.map]

private theorem neverFolds_binary {kind : BinaryOp} (unfolded : ∀ checks bits x y,
    evalBinary checks bits x y kind = .ok none) (dst a b : Varnode) :
    NeverFolds (.binary kind dst a b) := by
  intro checks regNames state consts
  simp only [renameOp, renameBinaryOp, evalConstOp, SSAOp.dst, evalUnmasked, unfolded]
  split <;> rfl

section

variable {name : String} {op : R2ILOp}

private theorem unaryOp_ok {f : Varnode → Varnode → R2ILOp}
    (lifted : translator.unaryOp raw name f = .ok op) : ∃ dst src, op = f dst src := by
  obtain ⟨opcode, output, inputs⟩ := raw
  cases output with
  | none => cases lifted
  | some dst =>
    cases inputs with
    | nil => cases lifted
    | cons src rest => exact ⟨_, _, (Except.ok.inj lifted).symm⟩

private theorem binaryOp_ok {f : Varnode → Varnode → Varnode → R2ILOp}
    (lifted : translator.binaryOp raw name f = .ok op) : ∃ dst a b, op = f dst a b := by
  obtain ⟨opcode, output, inputs⟩ := raw
  rcases output with none | dst
  · cases lifted
  · rcases inputs with nil | ⟨a, nil | ⟨b, rest⟩⟩
    · cases lifted
    · cases lifted
    · exact ⟨_, _, _, (Except.ok.inj lifted).symm⟩

private theorem neverFolds_of_unaryOp {kind : UnaryOp}
    (unfolded : ∀ bits srcBits value, evalUnary bits srcBits value kind = none)
    (lifted : translator.unaryOp raw name (.unary kind) = .ok op) : NeverFolds op := by
  obtain ⟨dst, src, rfl⟩ := unaryOp_ok translator lifted
  exact neverFolds_unary unfolded dst src

private theorem neverFolds_of_binaryOp {kind : BinaryOp}
    (unfolded : ∀ checks bits x y, evalBinary checks bits x y kind = .ok none)
    (lifted : translator.binaryOp raw name (.binary kind) = .ok op) : NeverFolds op := by
  obtain ⟨dst, a, b, rfl⟩ := binaryOp_ok translator lifted
  exact neverFolds_binary unfolded dst a b

end

/-- Below 55 no floating-point operation is folded. -/
theorem neverFolds_of_lt {op : R2ILOp} (isFloat : isFloatNumber raw.opcode)
    (below : raw.opcode < 55) (lifted : translator.translate raw = .ok op) : NeverFolds op := by
  have above : 41 ≤ raw.opcode := by
    simp only [isFloatNumber, decide_eq_true_eq] at isFloat
    exact isFloat.1
  unfold PcodeTranslator.translate at lifted
  generalize raw.opcode = number at below above lifted
  interval_cases number
  case «45» => cases lifted
  case «46» | «51» | «52» | «53» | «54» =>
    exact neverFolds_of_unaryOp translator (fun _ _ _ => rfl) lifted
  all_goals exact neverFolds_of_binaryOp translator (fun _ _ _ _ => rfl) lifted

theorem Agree.lifted {first : Except PcodeError R2ILOp} {second : Except LiftError (Option R2ILOp)}
    (agree : Agree first second) {op : R2ILOp} (lifted : second = .ok (some op)) :
    first = .ok op := by
  rcases agree with ⟨op', isFirst, isSecond⟩ | ⟨-, e, fails⟩
  · obtain rfl := Option.some.inj (Except.ok.inj (isSecond.symm.trans lifted))
    exact isFirst
  · cases fails.symm.trans lifted

/-! ## From 55 on -/

/-- The numbers from 55 on that the disassembler does not skip. -/
def laterNumbers : List Nat := [55, 56, 57, 58, 59, 62, 63, 72, 73]

private theorem mem_laterNumbers {number : Nat} (expressed : isExpressed (OpCode.ofNumber number))
    (above : 55 ≤ number) : number ∈ laterNumbers := by
  by_cases known : number < 74
  · interval_cases number
    all_goals first
      | decide
      | cases expressed
  · have unknown : OpCode.ofNumber number = .Unknown number := by
      unfold OpCode.ofNumber
      split <;> first
        | omega
        | rfl
    rw [unknown] at expressed
    cases expressed

theorem not_agree {first : Except PcodeError R2ILOp} {second : Except LiftError (Option R2ILOp)}
    {op : R2ILOp} (isSecond : second = .ok (some op)) (differs : first ≠ .ok op) :
    ¬ Agree first second := by
  intro agree
  exact differs (agree.lifted isSecond)

theorem not_incomplete_of_one {number : Nat} (dst a : RawVarnode)
    (one : ¬ (number = 62 ∨ number = 63)) : ¬ Incomplete ⟨number, some dst, [a]⟩ := by
  rintro (absent | few)
  · cases absent
  · rw [if_neg one] at few
    exact absurd few (by simp)

/-- Later operations have other names in the raw translator, so the two only
agree in failing. -/
theorem SameOperation.agree_iff_of_later (same : SameOperation spaces raw instr)
    (later : raw.opcode ∈ laterNumbers) :
    (Agree ((translatorFor spaces).translate raw)
      ((Disassembler.mk spaces).translatePcodeOp instr) ↔ Incomplete raw) ∧
      (Incomplete raw → ∃ e, (translatorFor spaces).translate raw = .error e) := by
  unfold Disassembler.translatePcodeOp
  rw [same.source_eq, same.opcode]
  obtain ⟨number, output, inputs⟩ := raw
  simp only [laterNumbers, mem_cons, not_mem_nil, or_false] at later
  rcases output with none | dst
  · have incomplete : Incomplete ⟨number, none, inputs⟩ := .inl rfl
    rcases later with rfl | rfl | rfl | rfl | rfl | rfl | rfl | rfl | rfl
    all_goals exact ⟨iff_of_true (.inr ⟨⟨_, rfl⟩, ⟨_, rfl⟩⟩) incomplete, fun _ => ⟨_, rfl⟩⟩
  · rcases inputs with nil | ⟨a, nil | ⟨b, rest⟩⟩
    · have incomplete : Incomplete ⟨number, some dst, []⟩ := by
        refine .inr ?_
        show 0 < _
        split <;> decide
      rcases later with rfl | rfl | rfl | rfl | rfl | rfl | rfl | rfl | rfl
      all_goals exact ⟨iff_of_true (.inr ⟨⟨_, rfl⟩, ⟨_, rfl⟩⟩) incomplete, fun _ => ⟨_, rfl⟩⟩
    · -- One input is enough for all but the two operations on two pieces.
      rcases later with rfl | rfl | rfl | rfl | rfl | rfl | rfl | rfl | rfl
      case inr.inr.inr.inr.inr.inl | inr.inr.inr.inr.inr.inr.inl =>
        exact ⟨iff_of_true (.inr ⟨⟨_, rfl⟩, ⟨_, rfl⟩⟩) (.inr (by simp)), fun _ => ⟨_, rfl⟩⟩
      all_goals
        exact ⟨iff_of_false (not_agree rfl fun lifted => by cases lifted)
          (not_incomplete_of_one dst a (by decide)),
          fun incomplete => absurd incomplete (not_incomplete_of_one dst a (by decide))⟩
    · have complete : ¬ Incomplete ⟨number, some dst, a :: b :: rest⟩ := by
        rintro (absent | few)
        · cases absent
        · simp only [length_cons] at few
          split at few <;> omega
      rcases later with rfl | rfl | rfl | rfl | rfl | rfl | rfl | rfl | rfl
      all_goals
        exact ⟨iff_of_false (not_agree rfl fun lifted => by cases lifted) complete,
          fun incomplete => absurd incomplete complete⟩

end

/-- For every operation that both translations express: they lift it alike, and
do not fold it if it is one on floating-point numbers, exactly if its number is
below 55 or its operands are missing. -/
theorem liftsAlike_iff (spaces : List AddressSpace) (raw : RawPcodeOp) (instr : PcodeInstruction)
    (same : SameOperation spaces raw instr) (expressed : isExpressed instr.opCode) :
    LiftsAlike spaces raw instr ↔ raw.opcode < 55 ∨ Incomplete raw := by
  by_cases below : raw.opcode < 55
  · have agree := same.agree_of_lt expressed below
    refine iff_of_true ⟨agree, fun isFloat op lifted => ?_⟩ (.inl below)
    have first : (translatorFor spaces).translate raw = .ok op :=
      lifted.elim id fun second => agree.lifted second
    exact neverFolds_of_lt _ isFloat below first
  · have later : raw.opcode ∈ laterNumbers :=
      mem_laterNumbers (same.opcode ▸ expressed) (Nat.not_lt.mp below)
    obtain ⟨agree_iff, fails⟩ := same.agree_iff_of_later later
    constructor
    · exact fun alike => .inr (agree_iff.mp alike.agree)
    · rintro (below' | incomplete)
      · exact absurd below' below
      · have agree := agree_iff.mpr incomplete
        refine ⟨agree, fun _ op lifted => ?_⟩
        obtain ⟨e, failed⟩ := fails incomplete
        have first : (translatorFor spaces).translate raw = .ok op :=
          lifted.elim id fun second => agree.lifted second
        cases failed.symm.trans first

/-! ## A conversion between floating-point formats -/

def plainSpaces : List AddressSpace :=
  [⟨"const", .Constant⟩, ⟨"ram", .Processor⟩, ⟨"register", .Processor⟩, ⟨"unique", .Internal⟩]

/-- `FLOAT2FLOAT`, number 55. -/
def rawConversion : RawPcodeOp := ⟨55, some ⟨2, 0, 8⟩, [⟨2, 8, 4⟩]⟩

def namedConversion : PcodeInstruction where
  opCode := .Float .FloatToFloat
  output := some ⟨⟨"register", .Processor⟩, 0, 8⟩
  inputs := [⟨⟨"register", .Processor⟩, 8, 4⟩]

theorem conversion_same : SameOperation plainSpaces rawConversion namedConversion where
  opcode := rfl
  output := .some ⟨rfl, rfl, rfl⟩
  inputs := .cons ⟨rfl, rfl, rfl⟩ .nil

theorem conversion_not_liftsAlike :
    SameOperation plainSpaces rawConversion namedConversion ∧
      isExpressed namedConversion.opCode ∧
      ¬ LiftsAlike plainSpaces rawConversion namedConversion := by
  refine ⟨conversion_same, rfl, fun alike => ?_⟩
  have lifted : (translatorFor plainSpaces).translate rawConversion =
      .ok (.unary .FloatFloat ⟨.Register, 0, 8⟩ ⟨.Register, 8, 4⟩) :=
    alike.agree.lifted (by decide +kernel)
  cases lifted

theorem liftsAlike_iff_conversion :
    LiftsAlike plainSpaces rawConversion namedConversion ↔
      rawConversion.opcode < 55 ∨ Incomplete rawConversion :=
  liftsAlike_iff plainSpaces rawConversion namedConversion conversion_same rfl

end R2Sleigh.Lift
