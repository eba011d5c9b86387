import R2Sleigh.Ssa.RenameFunction

/-!
Contract: SSA conversion of a single block, and its agreement with renaming.

Owns `toSsa` and `outline`.

Does not own: names of registers. The disassembler and the lower-casing of its
names are parameters, and the comparison assumes that both converters resolve
the varnodes of the block to the same names.

The conversion writes the destination of an operation before it reads the
operands: the fields of each operation are evaluated in the order in which they
are written, and `dst` comes first.
-/

namespace R2Sleigh.Ssa.Block

open Il Lib List

/-- What conversion asks of the disassembler, with `str::to_lowercase`. -/
structure Disassembler where
  registerName : Varnode → Option String
  toLowercase : String → String

/-- The version of each name written so far. -/
structure SSAContext where
  versions : HashMap String Nat

structure SSABlock where
  addr : Nat
  size : Nat
  ops : List SSAOp

namespace SSAContext

def new : SSAContext := ⟨∅⟩

def currentVersion (ctx : SSAContext) (name : String) : Nat := (ctx.versions.lookup name).getD 0

def newVersion (ctx : SSAContext) (name : String) : Nat × SSAContext :=
  let version := ctx.currentVersion name + 1
  (version, ⟨ctx.versions.insert name version⟩)

private theorem currentVersion_newVersion (ctx : SSAContext) (x y : String) :
    (ctx.newVersion x).2.currentVersion y =
      if y = x then ctx.currentVersion x + 1 else ctx.currentVersion y := by
  by_cases here : y = x
  · subst here
    simp [newVersion, currentVersion]
  · simp [newVersion, currentVersion, AList.lookup_insert_ne here, here]

end SSAContext

/-! ## Conversion -/

def varnodeToName (disasm : Disassembler) (vn : Varnode) : String :=
  match vn.space with
  | .Register => ((disasm.registerName vn).map disasm.toLowercase).getD ("reg:" ++ hex vn.offset)
  | .Unique => "tmp:" ++ hex vn.offset
  | .Const => "const:" ++ hex vn.offset
  | .Ram => "ram:" ++ hex vn.offset
  | .Custom id => "space" ++ decimal id ++ ":" ++ hex vn.offset

def readVar (disasm : Disassembler) (ctx : SSAContext) (vn : Varnode) : SSAVar :=
  let name := varnodeToName disasm vn
  ⟨name, ctx.currentVersion name, vn.size⟩

def writeVar (disasm : Disassembler) (ctx : SSAContext) (vn : Varnode) : SSAVar × SSAContext :=
  let name := varnodeToName disasm vn
  let (version, ctx') := ctx.newVersion name
  (⟨name, version, vn.size⟩, ctx')

/-- `output.as_ref().map(|v| write_var(v, ..))`. -/
def writeOptional (disasm : Disassembler) (ctx : SSAContext) :
    Option Varnode → Option SSAVar × SSAContext
  | none => (none, ctx)
  | some vn =>
    let (var, ctx') := writeVar disasm ctx vn
    (some var, ctx')

def spaceName : SpaceId → String
  | .Ram => "ram"
  | .Register => "register"
  | .Const => "const"
  | .Unique => "unique"
  | .Custom id => "space_" ++ decimal id

/-- The operations with fields `dst, a, b`. -/
def convertBinary (disasm : Disassembler) (ctx : SSAContext) (dst a b : Varnode)
    (f : SSAVar → SSAVar → SSAVar → SSAOp) : SSAOp × SSAContext :=
  let (dst, ctx') := writeVar disasm ctx dst
  (f dst (readVar disasm ctx' a) (readVar disasm ctx' b), ctx')

/-- The operations with fields `dst, src`. -/
def convertUnary (disasm : Disassembler) (ctx : SSAContext) (dst src : Varnode)
    (f : SSAVar → SSAVar → SSAOp) : SSAOp × SSAContext :=
  let (dst, ctx') := writeVar disasm ctx dst
  (f dst (readVar disasm ctx' src), ctx')

/-- Convert a single operation. -/
def convertOp (disasm : Disassembler) (ctx : SSAContext) : R2ILOp → SSAOp × SSAContext
  | .Copy dst src => convertUnary disasm ctx dst src .Copy
  | .Load dst space addr =>
    convertUnary disasm ctx dst addr fun dst addr => .Load dst (spaceName space) addr
  | .Store space addr val =>
    (.Store (spaceName space) (readVar disasm ctx addr) (readVar disasm ctx val), ctx)
  | .Fence ordering => (.Fence ordering, ctx)
  | .LoadLinked dst space addr ordering =>
    convertUnary disasm ctx dst addr fun dst addr =>
      .LoadLinked dst (spaceName space) addr ordering
  | .StoreConditional result space addr val ordering =>
    let (result, ctx') := writeOptional disasm ctx result
    (.StoreConditional result (spaceName space) (readVar disasm ctx' addr)
      (readVar disasm ctx' val) ordering, ctx')
  | .AtomicCAS dst space addr expected replacement ordering =>
    let (dst, ctx') := writeVar disasm ctx dst
    (.AtomicCAS dst (spaceName space) (readVar disasm ctx' addr) (readVar disasm ctx' expected)
      (readVar disasm ctx' replacement) ordering, ctx')
  | .LoadGuarded dst space addr guard ordering =>
    convertBinary disasm ctx dst addr guard fun dst addr guard =>
      .LoadGuarded dst (spaceName space) addr guard ordering
  | .StoreGuarded space addr val guard ordering =>
    (.StoreGuarded (spaceName space) (readVar disasm ctx addr) (readVar disasm ctx val)
      (readVar disasm ctx guard) ordering, ctx)
  | .binary op dst a b => convertBinary disasm ctx dst a b (.binary op)
  | .unary op dst src => convertUnary disasm ctx dst src (.unary op)
  | .Piece dst hi lo => convertBinary disasm ctx dst hi lo .Piece
  | .Subpiece dst src offset =>
    convertUnary disasm ctx dst src fun dst src => .Subpiece dst src offset
  | .Branch target => (.Branch (readVar disasm ctx target), ctx)
  | .CBranch target cond => (.CBranch (readVar disasm ctx target) (readVar disasm ctx cond), ctx)
  | .BranchInd target => (.BranchInd (readVar disasm ctx target), ctx)
  | .Call target => (.Call (readVar disasm ctx target), ctx)
  | .CallInd target => (.CallInd (readVar disasm ctx target), ctx)
  | .Return target => (.Return (readVar disasm ctx target), ctx)
  | .CallOther output userop inputs =>
    let (output, ctx') := writeOptional disasm ctx output
    (.CallOther output userop (inputs.map (readVar disasm ctx')), ctx')
  | .Nop => (.Nop, ctx)
  | .Unimplemented => (.Unimplemented, ctx)
  | .CpuId dst =>
    let (dst, ctx') := writeVar disasm ctx dst
    (.CpuId dst, ctx')
  | .Breakpoint => (.Breakpoint, ctx)
  | .Multiequal dst inputs =>
    let (dst, ctx') := writeVar disasm ctx dst
    (.Phi dst (inputs.map (readVar disasm ctx')), ctx')
  -- aliasing is treated as a copy
  | .Indirect dst src _ => convertUnary disasm ctx dst src .Copy
  | .PtrAdd dst base index elementSize =>
    convertBinary disasm ctx dst base index fun dst base index =>
      .PtrAdd dst base index elementSize
  | .PtrSub dst base index elementSize =>
    convertBinary disasm ctx dst base index fun dst base index =>
      .PtrSub dst base index elementSize
  | .SegmentOp dst segment offset => convertBinary disasm ctx dst segment offset .SegmentOp
  | .New dst src => convertUnary disasm ctx dst src .New
  | .Extract dst src position => convertBinary disasm ctx dst src position .Extract
  | .Insert dst src value position =>
    let (dst, ctx') := writeVar disasm ctx dst
    (.Insert dst (readVar disasm ctx' src) (readVar disasm ctx' value)
      (readVar disasm ctx' position), ctx')

/-- The loop of `toSsa`. -/
def convertOps (disasm : Disassembler) : List R2ILOp → SSAContext → List SSAOp
  | [], _ => []
  | op :: rest, ctx =>
    let (converted, ctx') := convertOp disasm ctx op
    converted :: convertOps disasm rest ctx'

def toSsa (disasm : Disassembler) (block : R2ILBlock) : SSABlock :=
  ⟨block.addr, block.size, convertOps disasm block.ops .new⟩

theorem convertOp_spec (disasm : Disassembler) (ctx : SSAContext) (op : R2ILOp) :
    (convertOp disasm ctx op).2 = ((op.output.map fun vn => (writeVar disasm ctx vn).2).getD ctx) ∧
    (convertOp disasm ctx op).1.sources =
      op.inputs.map (readVar disasm (convertOp disasm ctx op).2) ∧
    (convertOp disasm ctx op).1.dst = op.output.map fun vn => (writeVar disasm ctx vn).1 := by
  cases op with
  | StoreConditional result space addr val ordering => cases result <;> exact ⟨rfl, rfl, rfl⟩
  | CallOther output userop inputs => cases output <;> exact ⟨rfl, rfl, rfl⟩
  | _ => exact ⟨rfl, rfl, rfl⟩

/-! ## Agreement with renaming -/

/-- A variable without its size. -/
def unsized (var : SSAVar) : SSAVar := { var with size := 0 }

/-- The operation, the version it writes and the versions it reads: sizes and
the spelling of spaces are left out. -/
def outline : SSAOp → SSAOp
  | .Phi dst sources => .Phi (unsized dst) (sources.map unsized)
  | .Copy dst src => .Copy (unsized dst) (unsized src)
  | .Load dst _ addr => .Load (unsized dst) "" (unsized addr)
  | .Store _ addr val => .Store "" (unsized addr) (unsized val)
  | .Fence ordering => .Fence ordering
  | .LoadLinked dst _ addr ordering => .LoadLinked (unsized dst) "" (unsized addr) ordering
  | .StoreConditional result _ addr val ordering =>
    .StoreConditional (result.map unsized) "" (unsized addr) (unsized val) ordering
  | .AtomicCAS dst _ addr expected replacement ordering =>
    .AtomicCAS (unsized dst) "" (unsized addr) (unsized expected) (unsized replacement) ordering
  | .LoadGuarded dst _ addr guard ordering =>
    .LoadGuarded (unsized dst) "" (unsized addr) (unsized guard) ordering
  | .StoreGuarded _ addr val guard ordering =>
    .StoreGuarded "" (unsized addr) (unsized val) (unsized guard) ordering
  | .binary op dst a b => .binary op (unsized dst) (unsized a) (unsized b)
  | .unary op dst src => .unary op (unsized dst) (unsized src)
  | .Piece dst hi lo => .Piece (unsized dst) (unsized hi) (unsized lo)
  | .Subpiece dst src offset => .Subpiece (unsized dst) (unsized src) offset
  | .Branch target => .Branch (unsized target)
  | .CBranch target cond => .CBranch (unsized target) (unsized cond)
  | .BranchInd target => .BranchInd (unsized target)
  | .Call target => .Call (unsized target)
  | .CallInd target => .CallInd (unsized target)
  | .CallDefine dst => .CallDefine (unsized dst)
  | .Return target => .Return (unsized target)
  | .CallOther output userop inputs =>
    .CallOther (output.map unsized) userop (inputs.map unsized)
  | .Nop => .Nop
  | .Unimplemented => .Unimplemented
  | .CpuId dst => .CpuId (unsized dst)
  | .Breakpoint => .Breakpoint
  | .PtrAdd dst base index elementSize =>
    .PtrAdd (unsized dst) (unsized base) (unsized index) elementSize
  | .PtrSub dst base index elementSize =>
    .PtrSub (unsized dst) (unsized base) (unsized index) elementSize
  | .SegmentOp dst segment offset => .SegmentOp (unsized dst) (unsized segment) (unsized offset)
  | .New dst src => .New (unsized dst) (unsized src)
  | .Extract dst src position => .Extract (unsized dst) (unsized src) (unsized position)
  | .Insert dst src value position =>
    .Insert (unsized dst) (unsized src) (unsized value) (unsized position)

/-- Both converters keep the operation, so that they differ in the variables
only. -/
theorem outline_eq_iff (disasm : Disassembler) (ctx : SSAContext)
    (regNames : Option RegisterNameMap) (state : RenameState) (op : R2ILOp) :
    outline (convertOp disasm ctx op).1 = outline (renameOp regNames state op).1 ↔
      (convertOp disasm ctx op).1.dst.map unsized =
          (renameOp regNames state op).1.dst.map unsized ∧
        (convertOp disasm ctx op).1.sources.map unsized =
          (renameOp regNames state op).1.sources.map unsized := by
  cases op <;>
    simp [convertOp, convertUnary, convertBinary, renameOp, renameUnaryOp, renameBinaryOp,
      outline, SSAOp.dst, SSAOp.sources]

/-- Both converters resolve the varnodes of the operation to the same names. -/
def SameNames (disasm : Disassembler) (regNames : Option RegisterNameMap) (op : R2ILOp) : Prop :=
  ∀ vn ∈ op.inputs ++ op.output.toList, varnodeToName disasm vn = Ssa.varnodeToName vn regNames

/-- In one block, versions and counters are the number of writes. -/
structure Agrees (ctx : SSAContext) (renameCtx : RenameContext) : Prop where
  counter : ∀ x, renameCtx.counter x = ctx.currentVersion x
  current : ∀ x, renameCtx.currentVersion x = ctx.currentVersion x

private theorem agrees_of_initial {ctx : RenameContext} (initial : Initial ctx) : Agrees .new ctx :=
  ⟨fun x => initial.counter x, fun x => initial.currentVersion x⟩

section Step

variable {disasm : Disassembler} {regNames : Option RegisterNameMap} {op : R2ILOp}
  (sameNames : SameNames disasm regNames op)
include sameNames

theorem output_sameName : op.output.map (varnodeToName disasm) = outputName regNames op := by
  rw [outputName]
  cases output : op.output with
  | none => rfl
  | some vn => exact congrArg some (sameNames vn (by simp [output]))

theorem currentVersion_convertOp (ctx : SSAContext) (x : String) :
    (convertOp disasm ctx op).2.currentVersion x =
      ctx.currentVersion x + if outputName regNames op = some x then 1 else 0 := by
  rw [(convertOp_spec disasm ctx op).1, ← output_sameName sameNames]
  cases output : op.output with
  | none => simp
  | some vn =>
    rw [Option.map_some, Option.getD_some, writeVar]
    rw [SSAContext.currentVersion_newVersion]
    by_cases here : x = varnodeToName disasm vn
    · subst here
      simp
    · simp [here, Ne.symm here]

section

variable {ctx : SSAContext} {state : RenameState} (agrees : Agrees ctx state.ctx)
include agrees

theorem convertOp_agrees :
    Agrees (convertOp disasm ctx op).2 (renameOp regNames state op).2.ctx := by
  obtain ⟨_, _, after⟩ := renameOp_spec regNames state op
  rw [after]
  cases output : outputName regNames op with
  | none =>
    refine ⟨fun x => ?_, fun x => ?_⟩
    · simpa [currentVersion_convertOp sameNames, output] using agrees.counter x
    · simpa [currentVersion_convertOp sameNames, output] using agrees.current x
  | some name =>
    have written : (state.define name).2.ctx = (state.ctx.writeVar name).2 := rfl
    rw [Option.map_some, Option.getD_some, written]
    refine ⟨fun x => ?_, fun x => ?_⟩
    · rw [RenameContext.counter_writeVar, currentVersion_convertOp sameNames, output,
        agrees.counter, agrees.counter]
      by_cases here : x = name
      · simp [here]
      · simp [here, Ne.symm here]
    · rw [RenameContext.currentVersion_writeVar, currentVersion_convertOp sameNames, output,
        agrees.counter, agrees.current]
      by_cases here : x = name
      · simp [here]
      · simp [here, Ne.symm here]

private theorem dst_agrees :
    (convertOp disasm ctx op).1.dst.map unsized =
      (renameOp regNames state op).1.dst.map unsized := by
  rw [(convertOp_spec disasm ctx op).2.2, (renameOp_spec regNames state op).2.1,
    ← output_sameName sameNames]
  cases op.output with
  | none => rfl
  | some vn =>
    have versions := agrees.counter (varnodeToName disasm vn)
    simp [unsized, writeVar, SSAContext.newVersion, RenameState.define, versions]

/-- The operands agree if none is the variable the operation writes. A literal
is never versioned by renaming. -/
theorem outline_convertOp_iff :
    outline (convertOp disasm ctx op).1 = outline (renameOp regNames state op).1 ↔
      ∀ vn ∈ op.inputs, outputName regNames op ≠ some (Ssa.varnodeToName vn regNames) ∧
        (vn.space = .Const → ctx.currentVersion (Ssa.varnodeToName vn regNames) = 0) := by
  rw [outline_eq_iff, and_iff_right (dst_agrees sameNames agrees),
    (convertOp_spec disasm ctx op).2.1, (renameOp_spec regNames state op).1, map_map,
    map_map, map_inj_left]
  refine forall₂_congr fun vn mem => ?_
  have name := sameNames vn (mem_append_left _ mem)
  have version := currentVersion_convertOp sameNames ctx (Ssa.varnodeToName vn regNames)
  have readName : (readVarnode regNames state.ctx vn).name = Ssa.varnodeToName vn regNames := by
    unfold readVarnode Ssa.varnodeToName
    cases vn.space <;> rfl
  have readVersion : (readVarnode regNames state.ctx vn).version =
      if vn.space = .Const then 0 else ctx.currentVersion (Ssa.varnodeToName vn regNames) := by
    rw [← agrees.current]
    unfold readVarnode
    cases vn.space <;> rfl
  simp only [Function.comp_apply, unsized, readVar, SSAVar.mk.injEq, and_true, name, readName,
    readVersion, version, true_and]
  by_cases isConst : vn.space = .Const
  · simp [isConst, and_comm]
  · simp [isConst]

end

end Step

/-- The operations of a block agree exactly if no operation reads the variable
it writes and no literal was written to. -/
theorem outline_convertOps_iff {disasm : Disassembler} {regNames : Option RegisterNameMap}
    (ops : List R2ILOp) : ∀ {ctx : SSAContext} {state : RenameState}, Agrees ctx state.ctx →
      (∀ op ∈ ops, SameNames disasm regNames op) →
      ((convertOps disasm ops ctx).map outline =
          (renameOps regNames none ops state).1.map outline ↔
        ∀ before op after, ops = before ++ op :: after → ∀ vn ∈ op.inputs,
          outputName regNames op ≠ some (Ssa.varnodeToName vn regNames) ∧
          (vn.space = .Const → ctx.currentVersion (Ssa.varnodeToName vn regNames) = 0 ∧
            ∀ earlier ∈ before,
              outputName regNames earlier ≠ some (Ssa.varnodeToName vn regNames))) := by
  induction ops with
  | nil => simp [convertOps, renameOps]
  | cons first rest ih =>
    intro ctx state agrees sameNames
    have sameFirst := sameNames first mem_cons_self
    have restIff := ih (convertOp_agrees sameFirst agrees)
      fun op mem => sameNames op (mem_cons_of_mem _ mem)
    have version := currentVersion_convertOp sameFirst ctx
    rw [renameOps, renameOpWithBoundary_none, convertOps]
    dsimp only
    rw [map_cons, singleton_append, map_cons, List.cons.injEq,
      outline_convertOp_iff sameFirst agrees, restIff]
    constructor
    · rintro ⟨head, tail⟩ before op after split vn mem
      cases before with
      | nil =>
        obtain ⟨rfl, rfl⟩ := split
        exact ⟨(head vn mem).1, fun isConst => ⟨(head vn mem).2 isConst, by simp⟩⟩
      | cons head' before =>
        obtain ⟨rfl, rfl⟩ := split
        obtain ⟨other, literal⟩ := tail before op after rfl vn mem
        refine ⟨other, fun isConst => ?_⟩
        obtain ⟨zero, clear⟩ := literal isConst
        rw [version, Nat.add_eq_zero_iff] at zero
        refine ⟨zero.1, fun earlier inBefore => ?_⟩
        rcases mem_cons.mp inBefore with rfl | inBefore
        · simpa using zero.2
        · exact clear earlier inBefore
    · intro all
      refine ⟨fun vn mem => ?_, fun before op after split vn mem => ?_⟩
      · obtain ⟨other, literal⟩ := all [] first rest rfl vn mem
        exact ⟨other, fun isConst => (literal isConst).1⟩
      · obtain ⟨other, literal⟩ := all (first :: before) op after (by rw [split]; rfl) vn mem
        refine ⟨other, fun isConst => ?_⟩
        obtain ⟨zero, clear⟩ := literal isConst
        refine ⟨?_, fun earlier inBefore => clear earlier (mem_cons_of_mem _ inBefore)⟩
        rw [version, zero, if_neg (clear first mem_cons_self)]

/-- No operation reads the version it defines. -/
def NoSelfRead (ops : List SSAOp) : Prop :=
  ∀ op ∈ ops, ∀ dst, op.dst = some dst → ∀ source ∈ op.sources, unsized source ≠ unsized dst

private theorem renameOp_noSelfRead (regNames : Option RegisterNameMap) {ctx : SSAContext}
    {state : RenameState} (agrees : Agrees ctx state.ctx) (op : R2ILOp) :
    NoSelfRead [(renameOp regNames state op).1] := by
  intro renamed mem dst isDst source inSources same
  rw [mem_singleton.mp mem] at isDst inSources
  obtain ⟨sources, dsts, _⟩ := renameOp_spec regNames state op
  rw [dsts, Option.map_eq_some_iff] at isDst
  obtain ⟨name, _, rfl⟩ := isDst
  rw [sources, mem_map] at inSources
  obtain ⟨vn, _, rfl⟩ := inSources
  have written : (state.define name).1.version = state.ctx.counter name + 1 := rfl
  rw [unsized, unsized, SSAVar.mk.injEq] at same
  obtain ⟨sameName, sameVersion, _⟩ := same
  replace sameName : (readVarnode regNames state.ctx vn).name = name := sameName
  have bound : (readVarnode regNames state.ctx vn).version ≤ state.ctx.counter name := by
    unfold readVarnode at sameName ⊢
    cases space : vn.space with
    | Const => exact Nat.zero_le _
    | _ =>
      simp only [space, RenameContext.readVar] at sameName ⊢
      rw [sameName, agrees.counter, agrees.current]
  omega

/-- Renamed with the versions before it, no operation reads what it writes. -/
theorem renameOps_noSelfRead {disasm : Disassembler} {regNames : Option RegisterNameMap}
    (ops : List R2ILOp) : ∀ {ctx : SSAContext} {state : RenameState}, Agrees ctx state.ctx →
      (∀ op ∈ ops, SameNames disasm regNames op) →
      NoSelfRead (renameOps regNames none ops state).1 := by
  induction ops with
  | nil => simp [renameOps, NoSelfRead]
  | cons first rest ih =>
    intro ctx state agrees sameNames op mem
    rw [renameOps, renameOpWithBoundary_none] at mem
    dsimp only at mem
    rw [singleton_append, mem_cons] at mem
    rcases mem with rfl | inRest
    · exact renameOp_noSelfRead regNames agrees first _ (mem_singleton.mpr rfl)
    · exact ih
        (convertOp_agrees (sameNames first mem_cons_self) agrees)
        (fun op inside => sameNames op (mem_cons_of_mem _ inside)) op inRest

theorem noSelfRead_outline {ops ops' : List SSAOp} (same : ops.map outline = ops'.map outline)
    (clear : NoSelfRead ops') : NoSelfRead ops := by
  have dst_outline : ∀ op : SSAOp, (outline op).dst = op.dst.map unsized := by
    intro op
    cases op <;> rfl
  have sources_outline : ∀ op : SSAOp, (outline op).sources = op.sources.map unsized := by
    intro op
    cases op <;> rfl
  intro op mem dst isDst source inSources equal
  have image : outline op ∈ ops'.map outline := by
    rw [← same]
    exact mem_map_of_mem mem
  obtain ⟨op', member', outlined⟩ := mem_map.mp image
  have dsts := congrArg SSAOp.dst outlined
  rw [dst_outline, dst_outline, isDst, Option.map_some, Option.map_eq_some_iff] at dsts
  obtain ⟨dst', isDst', unsizedDst⟩ := dsts
  have inOutline : unsized source ∈ (outline op').sources := by
    rw [outlined, sources_outline]
    exact mem_map_of_mem inSources
  rw [sources_outline, mem_map] at inOutline
  obtain ⟨source', inSources', unsizedSource⟩ := inOutline
  exact clear op' member' dst' isDst' source' inSources'
    (unsizedSource.trans (equal.trans unsizedDst.symm))

/-- Converting a block and renaming its operations from the start of a function
yield the same operations with the same versions, and no operation that reads
the version it defines, exactly if no operation reads the variable it writes
and no literal is written to before it is read. -/
theorem to_ssa_eq_rename_iff (disasm : Disassembler) (regNames : Option RegisterNameMap)
    (block : R2ILBlock) (varSizes : HashMap String Nat)
    (sameNames : ∀ op ∈ block.ops, SameNames disasm regNames op) :
    ((toSsa disasm block).ops.map outline =
        (renameOps regNames none block.ops ⟨initialContext ⟨∅⟩ varSizes, []⟩).1.map outline ∧
      NoSelfRead (toSsa disasm block).ops) ↔
      ∀ before op after, block.ops = before ++ op :: after → ∀ vn ∈ op.inputs,
        outputName regNames op ≠ some (Ssa.varnodeToName vn regNames) ∧
        (vn.space = .Const → ∀ earlier ∈ before,
          outputName regNames earlier ≠ some (Ssa.varnodeToName vn regNames)) := by
  let start : RenameState := ⟨initialContext ⟨∅⟩ varSizes, []⟩
  have agrees : Agrees .new start.ctx := agrees_of_initial (initialContext_initial ⟨∅⟩ varSizes)
  have sameIff := outline_convertOps_iff block.ops agrees sameNames
  have fresh : ∀ x, SSAContext.new.currentVersion x = 0 := fun _ => rfl
  simp only [fresh, true_and] at sameIff
  rw [← sameIff, toSsa]
  exact ⟨And.left, fun same =>
    ⟨same, noSelfRead_outline same (renameOps_noSelfRead block.ops agrees sameNames)⟩⟩

/-- `rax := rax + 1`, with no register names. -/
def increment : R2ILBlock :=
  ⟨4096, 4, [.binary .IntAdd ⟨.Register, 0, 8⟩ ⟨.Register, 0, 8⟩ ⟨.Const, 1, 8⟩], none⟩

/-- A disassembler that knows no registers. -/
def unnamed : Disassembler := ⟨fun _ => none, id⟩

theorem increment_sameNames : ∀ op ∈ increment.ops, SameNames unnamed none op := by
  intro op mem vn inside
  rw [mem_singleton.mp mem] at inside
  simp only [R2ILOp.inputs, R2ILOp.output, Option.toList, mem_append, mem_cons,
    not_mem_nil, or_false] at inside
  rcases inside with (rfl | rfl) | rfl <;> rfl

/-- The addition reads the version it defines. -/
theorem increment_reads_itself :
    (∀ op ∈ increment.ops, SameNames unnamed none op) ∧
    (toSsa unnamed increment).ops =
      [.binary .IntAdd ⟨"reg:0", 1, 8⟩ ⟨"reg:0", 1, 8⟩ ⟨"const:1", 0, 8⟩] ∧
    ¬ ((toSsa unnamed increment).ops.map outline =
        (renameOps none none increment.ops ⟨initialContext ⟨∅⟩ ∅, []⟩).1.map outline ∧
      NoSelfRead (toSsa unnamed increment).ops) := by
  have converted : (toSsa unnamed increment).ops =
      [.binary .IntAdd ⟨"reg:0", 1, 8⟩ ⟨"reg:0", 1, 8⟩ ⟨"const:1", 0, 8⟩] := by decide
  refine ⟨increment_sameNames, converted, fun ⟨_, clear⟩ => ?_⟩
  exact clear _ (mem_singleton.mpr rfl) _ rfl _ mem_cons_self rfl

theorem to_ssa_eq_rename_iff_increment :
    ((toSsa unnamed increment).ops.map outline =
        (renameOps none none increment.ops ⟨initialContext ⟨∅⟩ ∅, []⟩).1.map outline ∧
      NoSelfRead (toSsa unnamed increment).ops) ↔
      ∀ before op after, increment.ops = before ++ op :: after → ∀ vn ∈ op.inputs,
        outputName none op ≠ some (Ssa.varnodeToName vn none) ∧
        (vn.space = .Const → ∀ earlier ∈ before,
          outputName none earlier ≠ some (Ssa.varnodeToName vn none)) :=
  to_ssa_eq_rename_iff unnamed none increment ∅ increment_sameNames

end R2Sleigh.Ssa.Block
