import R2Sleigh.Ssa.PhiInputs

/-!
Contract: registers clobbered by a call, along every path.
-/

namespace R2Sleigh.Ssa

open Il Flow Lib List Option

/-! ## Runs -/

/-- `origin` is the version that a variable was selected from by the phis.
`called` is `some` after a call with no write of the name since, and then holds
the version that the call defined, if it defined one. -/
structure CallTrace where
  origin : String × Nat → Nat
  called : String → Option (Option Nat)

namespace CallTrace

/-- Before the function runs. -/
def start : CallTrace := ⟨Prod.snd, fun _ => none⟩

/-- An ordinary definition. -/
def define (trace : CallTrace) (var : SSAVar) (called : Option (Option Nat)) : CallTrace :=
  ⟨Function.update trace.origin (var.name, var.version) var.version,
    Function.update trace.called var.name called⟩

/-- One operation that is not a phi at the head of a block. -/
def execute (trace : CallTrace) (op : SSAOp) : CallTrace :=
  match op with
  | .Call _ | .CallInd _ => { trace with called := fun _ => some none }
  | .CallDefine dst => trace.define dst (some (some dst.version))
  | op =>
    match op.dst with
    | none => trace
    | some dst => trace.define dst none

/-- One phi selects its source at the position of the edge taken. -/
def select (before : CallTrace) (j : Nat) (trace : CallTrace) (phi : SSAOp) : CallTrace :=
  match phi with
  | .Phi dst sources =>
    match sources[j]? with
    | some source =>
      { trace with
        origin := Function.update trace.origin (dst.name, dst.version)
          (before.origin (source.name, source.version)) }
    | none => trace
  | _ => trace

/-- The phis of a block, all at once. The entry is first entered over no edge. -/
def arrive (trace : CallTrace) (phis : List SSAOp) : Option Nat → CallTrace
  | none => trace
  | some j => phis.foldl (trace.select j) trace

end CallTrace

/-- A path by edges: each block with the position, among its predecessors, of
the edge it is entered over. The last block comes first. -/
inductive EdgePath (cfg : CFG) : Nat → List (Nat × Option Nat) → Prop where
  | root : EdgePath cfg cfg.entry [(cfg.entry, none)]
  | snoc {p b j : Nat} {l : List (Nat × Option Nat)} : EdgePath cfg p l →
      (cfg.predecessors b)[j]? = some p → EdgePath cfg b ((b, some j) :: l)

theorem EdgePath.reach {cfg : CFG} (consistent : cfg.Consistent) {b : Nat}
    {l : List (Nat × Option Nat)} (path : EdgePath cfg b l) : cfg.flow.Reach b := by
  induction path with
  | root => exact Graph.Reach.root
  | snoc _ position ih =>
    exact ih.step (consistent.mem_predecessors.mp (mem_of_getElem? position))

section Run

variable (args : RenameArgs) (renamed : RenamedFunction)

def placedPhis (b : Nat) : List SSAOp :=
  (renamed.getBlock b).take (args.phiPlacement.getPhis b).length

/-- The operations after them. -/
def bodyAfterPhis (b : Nat) : List SSAOp :=
  (renamed.getBlock b).drop (args.phiPlacement.getPhis b).length

def traceOf : List (Nat × Option Nat) → CallTrace
  | [] => .start
  | (b, j) :: earlier =>
    (bodyAfterPhis args renamed b).foldl CallTrace.execute
      ((traceOf earlier).arrive (placedPhis args renamed b) j)

end Run

/-- After a call and before the next write of `x`, every read of `x` goes back
to the definition that the call made. -/
def ReadsCall (x : String) : CallTrace → List SSAOp → Prop
  | _, [] => True
  | trace, op :: rest =>
    (∀ source ∈ op.sources, source.isConst = false → source.name = x →
      ∀ defined, trace.called x = some defined →
        ∃ k, defined = some k ∧ trace.origin (x, source.version) = k) ∧
      ReadsCall x (trace.execute op) rest

/-- The reads in the last block of a path. -/
def ReadsCallOn (args : RenameArgs) (renamed : RenamedFunction) (x : String) :
    List (Nat × Option Nat) → Prop
  | [] => True
  | (b, j) :: earlier =>
    ReadsCall x ((traceOf args renamed earlier).arrive (placedPhis args renamed b) j)
      (bodyAfterPhis args renamed b)

def setsOrCalls (args : RenameArgs) (x : String) (b : Nat) : Bool :=
  setsName args x b || (bodyOps args b).any isCall

/-- The edge from `p` at position `j` of `b` carries `x`: through a phi if it is
the first edge from `p`, and without a phi if no dominator of `p` that is not
above `b` sets `x` or calls. -/
def Carries (args : RenameArgs) (x : String) (p b j : Nat) : Prop :=
  if (args.phiPlacement.getPhis b).any (fun phi => phi.varName = x) then
    (args.cfg.predecessors b).idxOf? p = some j
  else ∀ w, args.cfg.flow.Dom w p → ¬ args.cfg.flow.SDom w b → setsOrCalls args x w = false

variable {x : String}

/-- Every edge taken after a call, before the next write of `x`, carries `x`. -/
def CarriesAlong (args : RenameArgs) (renamed : RenamedFunction) (x : String) :
    List (Nat × Option Nat) → Prop
  | (b, some j) :: (p, i) :: earlier =>
    ((traceOf args renamed ((p, i) :: earlier)).called x ≠ none → Carries args x p b j) ∧
      CarriesAlong args renamed x ((p, i) :: earlier)
  | _ => True

/-! ## The names a call defines -/

theorem mem_sizesMatching {sizes : HashMap String Nat} {reg : CallBoundaryDef} :
    x ∈ sizesMatching sizes reg ↔
      x ∈ sizes.keys ∧ toAsciiLowercase x = toAsciiLowercase reg.name := by
  rw [sizesMatching, mem_insertionSort, mem_filter, decide_eq_true_eq]

theorem SizesGrow.keys {regNames : Option RegisterNameMap} {regs : List CallBoundaryDef}
    {sizes sizes' : HashMap String Nat} (grows : SizesGrow regNames regs sizes sizes') (x : String) :
    (x ∈ sizes.keys → x ∈ sizes'.keys) ∧
      (x ∈ sizes'.keys → x ∈ sizes.keys ∨
        ∃ reg ∈ regs, x = reg.name ∧ candidateNames regNames reg = []) := by
  induction grows with
  | refl => exact ⟨id, .inl⟩
  | @init sizes' reg _ mem _ noCandidate ih =>
    have inserted : x ∈ (sizes'.insert reg.name reg.size).keys ↔
        x = reg.name ∨ x ∈ sizes'.keys := by
      rw [← AList.mem_keys, AList.mem_insert, AList.mem_keys]
    refine ⟨fun known => inserted.mpr (.inr (ih.1 known)), fun known => ?_⟩
    rcases inserted.mp known with rfl | older
    · exact .inr ⟨reg, mem, rfl, noCandidate⟩
    · exact ih.2 older

/-- No two registers of the table have the same name up to case. -/
def DistinctNames (regs : List CallBoundaryDef) : Prop :=
  (regs.map fun reg => toAsciiLowercase reg.name).Nodup

instance (regs : List CallBoundaryDef) : Decidable (DistinctNames regs) :=
  inferInstanceAs (Decidable (List.Nodup _))

theorem DistinctNames.eq {regs : List CallBoundaryDef} (distinct : DistinctNames regs)
    {reg reg' : CallBoundaryDef} (mem : reg ∈ regs) (member' : reg' ∈ regs)
    (same : toAsciiLowercase reg.name = toAsciiLowercase reg'.name) : reg = reg' :=
  inj_on_of_nodup_map distinct mem member' same

/-- A register keeps its names while the sizes grow: a name added for it is the
one it was given. -/
theorem mem_actualNames_of_grows {regNames : Option RegisterNameMap} {regs : List CallBoundaryDef}
    (distinct : DistinctNames regs) {reg : CallBoundaryDef} (mem : reg ∈ regs)
    {init ctx : RenameContext} (grows : SizesGrow regNames regs init.sizes ctx.sizes)
    (named : x ∈ (actualNames regNames reg init).1) : x ∈ (actualNames regNames reg ctx).1 := by
  have matching : ∀ c : RenameContext, c.matchingVarNamesCi reg.name = sizesMatching c.sizes reg :=
    fun _ => rfl
  have added : sizesMatching init.sizes reg = [] → ∀ y ∈ sizesMatching ctx.sizes reg,
      y = reg.name ∧ candidateNames regNames reg = [] := by
    intro unmatched y isMatch
    obtain ⟨known, lower⟩ := mem_sizesMatching.mp isMatch
    rcases (grows.keys y).2 known with older | ⟨reg', member', rfl, noCandidate⟩
    · have inInit := mem_sizesMatching.mpr ⟨older, lower⟩
      rw [unmatched] at inInit
      exact absurd inInit (by simp)
    · obtain rfl := distinct.eq member' mem lower
      exact ⟨rfl, noCandidate⟩
  rw [actualNames, matching] at named ⊢
  cases unmatched : sizesMatching init.sizes reg with
  | nil =>
    rw [unmatched] at named
    have addedNames := added unmatched
    cases now : sizesMatching ctx.sizes reg with
    | nil =>
      cases candidates : candidateNames regNames reg with
      | nil | cons => simpa [candidates] using named
    | cons y rest =>
      obtain ⟨isName, noCandidate⟩ := addedNames y (by rw [now]; exact mem_cons_self)
      rw [noCandidate] at named
      rw [mem_singleton.mp named, ← isName]
      exact mem_cons_self
  | cons y rest =>
    rw [unmatched] at named
    dsimp only at named
    rw [← unmatched] at named
    have stillMatch : x ∈ sizesMatching ctx.sizes reg := by
      obtain ⟨known, lower⟩ := mem_sizesMatching.mp named
      exact mem_sizesMatching.mpr ⟨(grows.keys x).1 known, lower⟩
    cases now : sizesMatching ctx.sizes reg with
    | nil =>
      rw [now] at stillMatch
      exact absurd stillMatch (by simp)
    | cons z others =>
      rw [now] at stillMatch
      exact stillMatch

/-! ## One block -/

/-- Since the last call, if there was one without a later write, `x` goes back
to its definition. -/
def CallKnown (x : String) (cur : String → Nat) (trace : CallTrace) : Prop :=
  ∀ defined, trace.called x = some defined → ∃ k, defined = some k ∧ trace.origin (x, cur x) = k

/-- The current version of `x` is the definition of a call. -/
def CallDefined (x : String) (cur : String → Nat) (trace : CallTrace) : Prop :=
  trace.called x = some (some (cur x)) ∧ trace.origin (x, cur x) = cur x

theorem CallDefined.known {cur : String → Nat} {trace : CallTrace}
    (defined : CallDefined x cur trace) : CallKnown x cur trace := by
  intro k called
  rw [defined.1, Option.some.injEq] at called
  exact ⟨cur x, called.symm, defined.2⟩

section

variable {trace : CallTrace} {var : SSAVar} {x : String} (other : x ≠ var.name)
  (called : Option (Option Nat))
include other called

theorem CallTrace.origin_define_of_ne (k : Nat) :
    (trace.define var called).origin (x, k) = trace.origin (x, k) :=
  Function.update_of_ne (fun same => other (congrArg Prod.fst same)) _ _

theorem CallTrace.called_define_of_ne : (trace.define var called).called x = trace.called x :=
  Function.update_of_ne other _ _

end

theorem currentVersion_define (state : RenameState) (name x : String) :
    (state.define name).2.ctx.currentVersion x =
      if x = name then (state.define name).1.version else state.ctx.currentVersion x :=
  RenameContext.currentVersion_writeVar state.ctx name x

theorem callDefines_defined (x : String) (names : List String) :
    ∀ (state : RenameState) (trace : CallTrace),
      x ∈ names ∨ CallDefined x state.ctx.currentVersion trace →
      CallDefined x (callDefines names state).2.ctx.currentVersion
        ((callDefines names state).1.foldl CallTrace.execute trace) := by
  induction names with
  | nil =>
    intro state trace defined
    exact defined.resolve_left (by simp)
  | cons name rest ih =>
    intro state trace defined
    refine ih (state.define name).2 (trace.execute (.CallDefine (state.define name).1)) ?_
    have dstName : (state.define name).1.name = name := rfl
    by_cases here : x = name
    · subst here
      right
      rw [CallDefined, currentVersion_define, if_pos rfl]
      exact ⟨Function.update_self _ _ _, Function.update_self _ _ _⟩
    · refine (defined.imp_left fun mem => ?_).imp_right fun older => ?_
      · exact (mem_cons.mp mem).resolve_left here
      · rw [CallDefined, currentVersion_define, if_neg here, CallTrace.execute,
          CallTrace.called_define_of_ne (dstName ▸ here),
          CallTrace.origin_define_of_ne (dstName ▸ here)]
        exact older

private theorem readsCall_callDefines (x : String) (names : List String) :
    ∀ (state : RenameState) (trace : CallTrace), ReadsCall x trace (callDefines names state).1 := by
  induction names with
  | nil => exact fun _ _ => trivial
  | cons name rest ih =>
    intro state trace
    exact ⟨by simp [SSAOp.sources], ih _ _⟩

theorem ReadsCall.append {ops ops' : List SSAOp} :
    ∀ {trace : CallTrace}, ReadsCall x trace ops →
      ReadsCall x (ops.foldl CallTrace.execute trace) ops' → ReadsCall x trace (ops ++ ops') := by
  induction ops with
  | nil => exact fun _ second => second
  | cons op rest ih =>
    exact fun first second => ⟨first.1, ih first.2 second⟩

section Boundary

variable {regNames : Option RegisterNameMap} {regs : List CallBoundaryDef}
  (distinct : DistinctNames regs) {init : RenameContext} {x : String}
include distinct

/-- A call defines every name it had before the walk. -/
theorem appendCallBoundaryDefs_defined (some : List CallBoundaryDef) (inside : some ⊆ regs) :
    ∀ (state : RenameState) (trace : CallTrace),
      SizesGrow regNames regs init.sizes state.ctx.sizes →
      ReadsCall x trace (appendCallBoundaryDefs regNames some state).1 ∧
      ((∃ reg ∈ some, x ∈ (actualNames regNames reg init).1) ∨
          CallDefined x state.ctx.currentVersion trace →
        CallDefined x (appendCallBoundaryDefs regNames some state).2.ctx.currentVersion
          ((appendCallBoundaryDefs regNames some state).1.foldl CallTrace.execute trace)) := by
  induction some with
  | nil =>
    intro state trace _
    exact ⟨trivial, fun defined => defined.resolve_left (by simp)⟩
  | cons reg rest ih =>
    intro state trace grows
    have mem : reg ∈ regs := inside mem_cons_self
    let prepared : RenameState := { state with ctx := (actualNames regNames reg state.ctx).2 }
    have preparedCur : prepared.ctx.currentVersion = state.ctx.currentVersion :=
      (actualNames_defines regNames reg state).versions.symm
    have preparedGrows := grows.trans (actualNames_sizes regNames mem state.ctx)
    obtain ⟨restReads, restDefined⟩ := ih
      (fun r isRest => inside (mem_cons_of_mem _ isRest))
      (callDefines (actualNames regNames reg state.ctx).1 prepared).2
      ((callDefines (actualNames regNames reg state.ctx).1 prepared).1.foldl
        CallTrace.execute trace)
      (by rw [callDefines_sizes]; exact preparedGrows)
    rw [appendCallBoundaryDefs]
    refine ⟨(readsCall_callDefines x _ _ _).append restReads, fun defined => ?_⟩
    rw [foldl_append]
    refine restDefined ?_
    rcases defined with ⟨reg', isReg, named⟩ | older
    · rcases mem_cons.mp isReg with rfl | inRest
      · exact .inr (callDefines_defined x _ _ _
          (.inl (mem_actualNames_of_grows distinct mem grows named)))
      · exact .inl ⟨reg', inRest, named⟩
    · refine .inr (callDefines_defined x _ _ _ (.inr ?_))
      rw [preparedCur]
      exact older

omit distinct in
private theorem execute_renameOp {op : R2ILOp} (notCall : isCall op = false) (state : RenameState)
    (trace : CallTrace) : trace.execute (renameOp regNames state op).1 =
      match outputName regNames op with
      | none => trace
      | some name => trace.define (state.define name).1 none := by
  cases op with
  | Call _ | CallInd _ => simp [isCall] at notCall
  | StoreConditional result _ _ _ _ => cases result <;> rfl
  | CallOther output _ _ => cases output <;> rfl
  | _ => rfl

variable (named : ∃ reg ∈ regs, x ∈ (actualNames regNames reg init).1)
include named

private theorem renameOpWithBoundary_known (op : R2ILOp) {state : RenameState} {trace : CallTrace}
    (grows : SizesGrow regNames regs init.sizes state.ctx.sizes)
    (known : CallKnown x state.ctx.currentVersion trace) :
    ReadsCall x trace (renameOpWithBoundary regNames (some ⟨regs⟩) state op).1 ∧
      CallKnown x (renameOpWithBoundary regNames (some ⟨regs⟩) state op).2.ctx.currentVersion
        ((renameOpWithBoundary regNames (some ⟨regs⟩) state op).1.foldl
          CallTrace.execute trace) := by
  have reads : ∀ source ∈ (renameOp regNames state op).1.sources, source.isConst = false →
      source.name = x → ∀ defined, trace.called x = some defined →
        ∃ k, defined = some k ∧ trace.origin (x, source.version) = k := by
    intro source mem notConst isX defined called
    rw [(renameOp_reads regNames state op).1 source mem notConst, isX]
    exact known defined called
  obtain ⟨_, _, after⟩ := renameOp_spec regNames state op
  unfold renameOpWithBoundary
  cases call : isCall op with
  | true =>
    have unchanged : (renameOp regNames state op).2 = state := by
      cases op <;> first | rfl | simp [isCall] at call
    obtain ⟨defReads, defined⟩ := appendCallBoundaryDefs_defined distinct regs
      (List.Subset.refl _) (renameOp regNames state op).2
      (trace.execute (renameOp regNames state op).1) (by rw [unchanged]; exact grows)
    exact ⟨⟨reads, defReads⟩, (defined (.inl named)).known⟩
  | false =>
    refine ⟨⟨reads, trivial⟩, ?_⟩
    rw [foldl_cons, foldl_nil, execute_renameOp call, after]
    cases output : outputName regNames op with
    | none => exact known
    | some name =>
      have dstName : (state.define name).1.name = name := rfl
      intro defined called
      rw [map_some, getD_some]
      by_cases here : x = name
      · -- a write: nothing is known of a call any more
        have written : (trace.define (state.define name).1 none).called name = none :=
          Function.update_self _ _ _
        rw [here, written] at called
        exact absurd called (by simp)
      · rw [CallTrace.called_define_of_ne (dstName ▸ here)] at called
        rw [CallTrace.origin_define_of_ne (dstName ▸ here), currentVersion_define, if_neg here]
        exact known defined called

private theorem renameOps_known (ops : List R2ILOp) : ∀ {state : RenameState} {trace : CallTrace},
    SizesGrow regNames regs init.sizes state.ctx.sizes →
    CallKnown x state.ctx.currentVersion trace →
    ReadsCall x trace (renameOps regNames (some ⟨regs⟩) ops state).1 ∧
      CallKnown x (renameOps regNames (some ⟨regs⟩) ops state).2.ctx.currentVersion
        ((renameOps regNames (some ⟨regs⟩) ops state).1.foldl CallTrace.execute trace) := by
  induction ops with
  | nil => exact fun _ known => ⟨trivial, known⟩
  | cons op rest ih =>
    intro state trace grows known
    obtain ⟨reads, after⟩ := renameOpWithBoundary_known distinct named op grows known
    have grown := grows.trans (renameOpWithBoundary_sizes regNames (some ⟨regs⟩) state op)
    obtain ⟨restReads, restAfter⟩ := ih grown after
    rw [renameOps]
    rw [foldl_append]
    exact ⟨reads.append restReads, restAfter⟩

end Boundary

/-! ## Arriving at a block -/

/-- The phis carry `x` from the version the predecessor ends with, if each of
them does; without a phi the version must be the same already. -/
theorem foldl_select_phiRow {before : CallTrace} {j k : Nat}
    (sources : PhiInfo → List SSAVar) (phis : List PhiInfo) :
    ∀ (state : RenameState) (trace : CallTrace),
      (∀ phi ∈ phis, phi.varName = x →
        ∃ source, (sources phi)[j]? = some source ∧ source.name = x ∧ source.version = k) →
      x ∈ phis.map PhiInfo.varName ∨
        trace.origin (x, state.ctx.currentVersion x) = before.origin (x, k) →
      ((phiRow (phiDsts phis state) phis sources).foldl (before.select j) trace).origin
          (x, (phiState phis state).ctx.currentVersion x) = before.origin (x, k) := by
  induction phis with
  | nil => exact fun _ _ _ carried => carried.resolve_left (by simp)
  | cons phi rest ih =>
    intro state trace found carried
    have selected : (phiRow (phiDsts (phi :: rest) state) (phi :: rest) sources).foldl
        (before.select j) trace =
        (phiRow (phiDsts rest (state.define phi.varName).2) rest sources).foldl
          (before.select j)
          (before.select j trace (.Phi (state.define phi.varName).1 (sources phi))) := rfl
    refine ih (state.define phi.varName).2 _ (fun phi' mem => found phi' (mem_cons_of_mem _ mem)) ?_
    have dstName : (state.define phi.varName).1.name = phi.varName := rfl
    rw [currentVersion_define]
    by_cases here : x = phi.varName
    · obtain ⟨source, at_, name, version⟩ := found phi mem_cons_self here.symm
      right
      rw [if_pos here, CallTrace.select, at_]
      dsimp only
      rw [name, version, dstName, ← here]
      exact Function.update_self _ _ _
    · refine (carried.imp_left fun mem => ?_).imp_right fun same => ?_
      · rw [map_cons, mem_cons] at mem
        exact mem.resolve_left here
      · rw [if_neg here, CallTrace.select]
        cases (sources phi)[j]? with
        | none => exact same
        | some source =>
          have apart : ((x, state.ctx.currentVersion x) : String × Nat) ≠
              ((state.define phi.varName).1.name, (state.define phi.varName).1.version) :=
            fun equal => here (congrArg Prod.fst equal)
          exact (Function.update_of_ne apart _ _).trans same

private theorem called_foldl_select (before : CallTrace) (j : Nat) (phis : List SSAOp) :
    ∀ trace : CallTrace, (phis.foldl (before.select j) trace).called = trace.called := by
  refine foldl_kept CallTrace.called fun trace phi _ => ?_
  unfold CallTrace.select
  split
  · split <;> rfl
  · rfl

/-! ## Whole paths -/

private theorem written_or_called (regNames : Option RegisterNameMap)
    (callBoundaries : Option CallBoundaryConfig) (ops : List R2ILOp) :
    ∀ state : RenameState,
      x ∈ (defsOf (renameOps regNames callBoundaries ops state).1).map Prod.fst →
      (∃ op ∈ ops, outputName regNames op = some x) ∨ ∃ op ∈ ops, isCall op = true := by
  induction ops with
  | nil => simp [renameOps]
  | cons op rest ih =>
    intro state defined
    by_cases call : isCall op = true
    · exact .inr ⟨op, mem_cons_self, call⟩
    rw [Bool.not_eq_true] at call
    have single : renameOpWithBoundary regNames callBoundaries state op =
        ([(renameOp regNames state op).1], (renameOp regNames state op).2) := by
      rw [renameOpWithBoundary, call]
    rw [renameOps, single] at defined
    rw [defsOf_append, map_append, mem_append] at defined
    rcases defined with here | later
    · left
      refine ⟨op, mem_cons_self, ?_⟩
      obtain ⟨_, dst, _⟩ := renameOp_spec regNames state op
      cases output : outputName regNames op with
      | none => simp [defsOf, SSAOp.definition, dst, output] at here
      | some name =>
        rw [output] at dst
        simp [defsOf, SSAOp.definition, dst, RenameState.define] at here
        rw [here]
    · rcases ih _ later with ⟨op', mem, output⟩ | ⟨op', mem, isCall'⟩
      · exact .inl ⟨op', mem_cons_of_mem _ mem, output⟩
      · exact .inr ⟨op', mem_cons_of_mem _ mem, isCall'⟩

namespace Renamed

variable {args : RenameArgs} {init : RenameContext} {renamed : RenamedFunction}
  {final : RenameContext} {entered : Nat → RenameContext}
  (result : Renamed args init renamed final entered)
include result

private theorem setsOrCalls_of_creates {w : Nat} (reach : args.cfg.flow.Reach w)
    (creates : renamed.Creates x w) : setsOrCalls args x w = true := by
  rw [result.creates_iff reach, defsAt, map_append, mem_append, List.map_map,
    show (Prod.fst ∘ fun var : SSAVar => (var.name, var.version)) = SSAVar.name from rfl,
    phiDsts_names] at creates
  rw [setsOrCalls, setsName, Bool.or_eq_true, Bool.or_eq_true]
  rcases creates with phi | body
  · exact .inl (.inl (by simpa using phi))
  · rcases written_or_called _ _ _ _ body with ⟨op, mem, output⟩ | ⟨op, mem, call⟩
    · exact .inl (.inr (List.any_eq_true.mpr ⟨op, mem, by simpa using output⟩))
    · exact .inr (List.any_eq_true.mpr ⟨op, mem, call⟩)

theorem placedPhis_eq {b : Nat} (reach : args.cfg.flow.Reach b) : placedPhis args renamed b =
    phiRow (phiDsts (args.phiPlacement.getPhis b) ⟨entered b, []⟩) (args.phiPlacement.getPhis b)
      (sourcesOf (filledAt args entered b) (firstPreds args b)) := by
  rw [placedPhis, result.getBlock_eq reach]
  refine take_left' ?_
  rw [phiRow, length_zipWith, phiDsts_length, Nat.min_self]

private theorem bodyAfterPhis_eq {b : Nat} (reach : args.cfg.flow.Reach b) :
    bodyAfterPhis args renamed b = bodyOf args b (entered b) := by
  rw [bodyAfterPhis, result.getBlock_eq reach]
  refine drop_left' ?_
  rw [phiRow, length_zipWith, phiDsts_length, Nat.min_self]

section Call

variable {regs : List CallBoundaryDef} (boundary : args.callBoundaries = some ⟨regs⟩)
  (distinct : DistinctNames regs) {x : String}
  (named : ∃ reg ∈ regs, x ∈ (actualNames args.regNames reg init).1)
include boundary distinct named

theorem body_known {b : Nat} (reach : args.cfg.flow.Reach b) {trace : CallTrace}
    (known : CallKnown x
      (phiState (args.phiPlacement.getPhis b) ⟨entered b, []⟩).ctx.currentVersion trace) :
    ReadsCall x trace (bodyAfterPhis args renamed b) ∧
      CallKnown x (leave args b (entered b)).ctx.currentVersion
        ((bodyAfterPhis args renamed b).foldl CallTrace.execute trace) := by
  have grows : SizesGrow args.regNames regs init.sizes
      (phiState (args.phiPlacement.getPhis b) ⟨entered b, []⟩).ctx.sizes := by
    rw [phiState_sizes]
    have sizes := result.sizes b reach
    rw [Grows, boundary] at sizes
    exact sizes
  rw [result.bodyAfterPhis_eq reach, bodyOf, leave, boundary]
  exact renameOps_known distinct named (bodyOps args b) grows known

variable (spec : DomTree.IsTree args.cfg args.domtree) (consistent : args.cfg.Consistent)
  (aligned : ∀ b, ∀ phi ∈ args.phiPlacement.getPhis b, phi.predecessors = args.cfg.predecessors b)
include spec consistent aligned

omit boundary distinct named in
/-- Over an edge that carries `x`, what is known of it stays known. -/
theorem arrive_known {p b j : Nat} (reach : args.cfg.flow.Reach p)
    (position : (args.cfg.predecessors b)[j]? = some p) {trace : CallTrace}
    (carries : trace.called x ≠ none → Carries args x p b j)
    (known : CallKnown x (leave args p (entered p)).ctx.currentVersion trace) :
    CallKnown x (phiState (args.phiPlacement.getPhis b) ⟨entered b, []⟩).ctx.currentVersion
      (trace.arrive (placedPhis args renamed b) (some j)) := by
  have edge : args.cfg.flow.edge p b := consistent.mem_predecessors.mp (mem_of_getElem? position)
  have reachB := reach.step edge
  intro defined called
  rw [CallTrace.arrive, called_foldl_select] at called
  obtain ⟨k, isDefined, origin⟩ := known defined called
  refine ⟨k, isDefined, ?_⟩
  have carried := carries (by rw [called]; simp)
  rw [CallTrace.arrive, result.placedPhis_eq reachB]
  refine (foldl_select_phiRow _ _ _ _ (fun phi mem isX => ?_) ?_).trans origin
  · have hasPhi : (args.phiPlacement.getPhis b).any (fun phi => phi.varName = x) = true :=
      List.any_eq_true.mpr ⟨phi, mem, by simpa using isX⟩
    rw [Carries, if_pos hasPhi] at carried
    have bound : j < phi.predecessors.length := by
      rw [aligned b phi mem]
      exact (List.getElem?_eq_some_iff.mp position).1
    refine ⟨(leave args p (entered p)).ctx.readVar phi.varName, ?_, isX, by rw [isX]; rfl⟩
    rw [sourcesOf, List.getElem?_map, List.getElem?_range bound, map_some,
      sourceAt_filled consistent (aligned b) mem position reach, if_pos carried]
  · by_cases hasPhi : (args.phiPlacement.getPhis b).any (fun phi => phi.varName = x) = true
    · exact .inl (by simpa using hasPhi)
    · rw [Carries, if_neg hasPhi] at carried
      right
      have clear : ∀ w, args.cfg.flow.Dom w p → ¬ args.cfg.flow.SDom w b →
          ¬ renamed.Creates x w := by
        intro w dom notAbove creates
        have sets := result.setsOrCalls_of_creates (dom.reach reach) creates
        rw [carried w dom notAbove] at sets
        exact absurd sets (by simp)
      rw [result.currentVersion_entered_of_clear spec reach edge clear]

/-- On a path whose edges carry `x` after a call, every read of it goes back to
the call's definition. -/
theorem readsCall_of_path {b : Nat} {l : List (Nat × Option Nat)} (path : EdgePath args.cfg b l)
    (carries : CarriesAlong args renamed x l) :
    CallKnown x (leave args b (entered b)).ctx.currentVersion (traceOf args renamed l) ∧
      ReadsCallOn args renamed x l := by
  induction path with
  | root =>
    have unknown : CallKnown x (phiState (args.phiPlacement.getPhis args.cfg.entry)
        ⟨entered args.cfg.entry, []⟩).ctx.currentVersion .start :=
      fun defined called => absurd called (by simp [CallTrace.start])
    exact (result.body_known boundary distinct named Graph.Reach.root unknown).symm
  | @snoc p b j l path position ih =>
    have reach := path.reach consistent
    obtain ⟨i, earlier, rfl⟩ : ∃ i earlier, l = (p, i) :: earlier := by
      cases path with
      | root | snoc _ _ => exact ⟨_, _, rfl⟩
    obtain ⟨edgeCarries, earlierCarry⟩ := carries
    have known := result.arrive_known spec consistent aligned reach position edgeCarries
      (ih earlierCarry).1
    have reachB := reach.step (consistent.mem_predecessors.mp (mem_of_getElem? position))
    exact (result.body_known boundary distinct named reachB known).symm

end Call

end Renamed

/-! ## Built functions -/

private theorem definedRegsOf_distinct (lower : String) (addrSize : Nat) :
    DistinctNames (definedRegsOf lower addrSize) := by
  unfold definedRegsOf
  split_ifs <;> decide +kernel

/-- In a function built for decompilation, on every path each of whose edges
carries the register after a call, every read of a register that calls define
goes back to the definition of the last call, unless it was written since. -/
theorem call_boundary_path_complete (first : R2ILBlock) (rest : List R2ILBlock)
    (arch : Option ArchSpec) :
    ∃ func renamed final,
      fromBlocksRawForDecompile (first :: rest) arch = some func ∧
      renameFunctionWithNamesAndCallBoundaries
        (rawArgs func.cfg arch (decompileCallBoundaryConfig arch)) (rawSizes func.cfg arch) =
          some (renamed, final) ∧
      ∀ boundary, decompileCallBoundaryConfig arch = some boundary →
        ∀ reg ∈ boundary.definedRegs,
        ∀ x ∈ (actualNames (arch.map buildRegisterNameMap) reg (initialContext
          (rawArgs func.cfg arch (some boundary)).phiPlacement (rawSizes func.cfg arch))).1,
        ∀ b l, EdgePath func.cfg b l →
          CarriesAlong (rawArgs func.cfg arch (some boundary)) renamed x l →
          ReadsCallOn (rawArgs func.cfg arch (some boundary)) renamed x l := by
  obtain ⟨func, renamed, final, entered, build, built⟩ :=
    fromBlocksRawWithPolicy_built first rest arch (decompileCallBoundaryConfig arch)
  refine ⟨func, renamed, final, build, built.run, fun boundary config reg mem x named b l path
    carries => ?_⟩
  have distinct : DistinctNames boundary.definedRegs := by
    obtain ⟨spec, _, table⟩ := bind_eq_some_iff.mp config
    split at table
    · exact absurd table (by simp)
    · rw [Option.some.injEq] at table
      rw [← table]
      exact definedRegsOf_distinct _ _
  have result := built.result
  rw [config] at result
  exact (result.readsCall_of_path rfl distinct ⟨reg, mem, named⟩ built.spec.toIsTree
    built.consistent (fun b phi inPhis => PhiPlacement.predecessors_of_mem inPhis) path carries).2

def x86 : ArchSpec := ⟨"x86-64", 8, [⟨"RAX", 0, 8⟩]⟩

/-- A branch with a call in one arm, a register read at the join, and `other`
in the other arm. -/
def callBlocks (other : List R2ILOp) : List R2ILBlock :=
  [⟨4096, 4, [.CBranch ⟨.Const, 4104, 8⟩ ⟨.Register, 512, 1⟩], none⟩,
   ⟨4100, 4, other ++ [.Branch ⟨.Const, 4108, 8⟩], none⟩,
   ⟨4104, 4, [.Call ⟨.Const, 8192, 8⟩], none⟩,
   ⟨4108, 4, [.Copy ⟨.Unique, 16, 8⟩ ⟨.Register, 0, 8⟩, .Return ⟨.Register, 16, 8⟩], none⟩]

def callGraph (other : List R2ILOp) : CFG := (CFG.fromBlocks (callBlocks other)).getD (CFG.new 4096)

def callArgs (other : List R2ILOp) : RenameArgs :=
  rawArgs (callGraph other) (some x86) (decompileCallBoundaryConfig (some x86))

/-- Through the arm with the call. -/
def callPath : List (Nat × Option Nat) := [(4108, some 1), (4104, some 0), (4096, none)]

theorem callGraph_built (other : List R2ILOp) :
    CFG.fromBlocks (callBlocks other) = some (callGraph other) := CFG.fromBlocks_cons_eq _ _ _

theorem callBlocks_cfg {other : List R2ILOp} {func : SSAFunction}
    (build : fromBlocksRawForDecompile (callBlocks other) (some x86) = some func) :
    func.cfg = callGraph other := by
  obtain ⟨func', _, _, _, build', built⟩ := fromBlocksRawWithPolicy_built _ _ (some x86)
    (decompileCallBoundaryConfig (some x86))
  obtain rfl : func = func' := some.inj (build.symm.trans build')
  exact some.inj (built.graph.symm.trans (callGraph_built other))

theorem callPath_edgePath {other : List R2ILOp}
    (first : ((callGraph other).predecessors 4104)[0]? = some 4096)
    (second : ((callGraph other).predecessors 4108)[1]? = some 4104) :
    EdgePath (callGraph other) 4108 callPath := by
  have entry : (callGraph other).entry = 4096 := CFG.fromBlocks_entry (callGraph_built other)
  have start : EdgePath (callGraph other) 4096 [(4096, none)] := by
    have fromEntry : EdgePath (callGraph other) (callGraph other).entry
        [((callGraph other).entry, none)] := .root
    rw [entry] at fromEntry
    exact fromEntry
  exact .snoc (.snoc start first) second

/-- What the read at the join sees: the operation, the call definition of the
register and the origin of the version it reads. -/
def callRead (other : List R2ILOp) : Option (List SSAOp × Option (Option Nat) × Nat) :=
  (renameFunctionWithNamesAndCallBoundaries (callArgs other)
    (rawSizes (callGraph other) (some x86))).map fun (renamed, _) =>
      let trace := (traceOf (callArgs other) renamed [(4104, some 0), (4096, none)]).arrive
        (placedPhis (callArgs other) renamed 4108) (some 1)
      (bodyAfterPhis (callArgs other) renamed 4108, trace.called "RAX", trace.origin ("RAX", 0))

private theorem callRead_nil : callRead [] = some
    ([.Copy ⟨"tmp:10", 1, 8⟩ ⟨"RAX", 0, 8⟩, .Return ⟨"reg:10", 0, 8⟩], some (some 1), 0) := by
  decide +kernel

/-- A call in one arm of a branch: the join has no phi and reads the version
from before the call. -/
theorem call_not_path_complete :
    ∃ func renamed final,
      fromBlocksRawForDecompile (callBlocks []) (some x86) = some func ∧
      renameFunctionWithNamesAndCallBoundaries
        (rawArgs func.cfg (some x86) (decompileCallBoundaryConfig (some x86)))
        (rawSizes func.cfg (some x86)) = some (renamed, final) ∧
      (∃ boundary, decompileCallBoundaryConfig (some x86) = some boundary ∧
        ∃ reg ∈ boundary.definedRegs, "RAX" ∈ (actualNames ((some x86).map buildRegisterNameMap) reg
          (initialContext (callArgs []).phiPlacement (rawSizes func.cfg (some x86)))).1) ∧
      ¬ ∀ b l, EdgePath func.cfg b l → ReadsCallOn
        (rawArgs func.cfg (some x86) (decompileCallBoundaryConfig (some x86))) renamed "RAX" l := by
  obtain ⟨func, renamed, final, build, run, _⟩ := call_boundary_path_complete _ _ (some x86)
  have graph : func.cfg = callGraph [] := callBlocks_cfg build
  refine ⟨func, renamed, final, build, run, ?_, fun complete => ?_⟩
  · rw [graph]
    decide +kernel
  · rw [graph] at run complete
    have reads := complete 4108 callPath (callPath_edgePath (by decide +kernel) (by decide +kernel))
    have seen := callRead_nil
    rw [callRead, show callArgs [] = rawArgs (callGraph []) (some x86)
      (decompileCallBoundaryConfig (some x86)) from rfl, run, map_some, Option.some.injEq,
      Prod.mk.injEq, Prod.mk.injEq] at seen
    obtain ⟨body, called, origin⟩ := seen
    rw [callPath, ReadsCallOn, body] at reads
    obtain ⟨k, isOne, isOrigin⟩ := reads.1 ⟨"RAX", 0, 8⟩ (by simp [SSAOp.sources]) (by decide) rfl
      _ called
    rw [Option.some.injEq] at isOne
    subst isOne
    exact absurd (origin.symm.trans isOrigin) (by decide)

/-- A write in the other arm places a phi, which selects the call's definition. -/
theorem call_boundary_path_complete_join :
    ∃ func renamed final,
      fromBlocksRawForDecompile (callBlocks [.Copy ⟨.Register, 0, 8⟩ ⟨.Const, 1, 8⟩]) (some x86) =
        some func ∧
      renameFunctionWithNamesAndCallBoundaries
        (rawArgs func.cfg (some x86) (decompileCallBoundaryConfig (some x86)))
        (rawSizes func.cfg (some x86)) = some (renamed, final) ∧
      ReadsCallOn (rawArgs func.cfg (some x86) (decompileCallBoundaryConfig (some x86))) renamed
        "RAX" callPath := by
  obtain ⟨func, renamed, final, build, run, complete⟩ := call_boundary_path_complete _ _ (some x86)
  have graph : func.cfg = callGraph [.Copy ⟨.Register, 0, 8⟩ ⟨.Const, 1, 8⟩] := callBlocks_cfg build
  refine ⟨func, renamed, final, build, run, ?_⟩
  rw [graph] at run complete ⊢
  have isClobbered : (⟨"rax", 8⟩ : CallBoundaryDef) ∈ definedRegsOf "x86-64" 8 := by decide
  refine complete ⟨definedRegsOf "x86-64" 8⟩ rfl ⟨"rax", 8⟩ isClobbered "RAX" (by decide +kernel)
    4108 callPath (callPath_edgePath (by decide +kernel) (by decide +kernel)) ?_
  refine ⟨fun _ => ?_, fun called => absurd ?_ called, trivial⟩
  · rw [Carries, if_pos (by decide +kernel)]
    decide +kernel
  · -- nothing is called before the branch
    have start : (renameFunctionWithNamesAndCallBoundaries
        (callArgs [.Copy ⟨.Register, 0, 8⟩ ⟨.Const, 1, 8⟩])
        (rawSizes (callGraph [.Copy ⟨.Register, 0, 8⟩ ⟨.Const, 1, 8⟩]) (some x86))).map
          (fun (renamed, _) => (traceOf (callArgs [.Copy ⟨.Register, 0, 8⟩ ⟨.Const, 1, 8⟩]) renamed
            [(4096, none)]).called "RAX") = some none := by decide +kernel
    rw [callArgs, run, map_some, Option.some.injEq] at start
    exact start

end R2Sleigh.Ssa
