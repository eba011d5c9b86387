import R2Sleigh.Ssa.Rename

/-!
Contract: what renaming does within one block.

Owns `Defines`, `ReadsCurrent` and `SizesGrow`.
-/

namespace R2Sleigh.Ssa

open Il Lib List

variable {defs : List (String × Nat)} {x : String} {ctx ctx' : RenameContext}
  {regs : List CallBoundaryDef}

/-! ## Versions along a list of operations -/

def SSAOp.definition (op : SSAOp) : Option (String × Nat) :=
  op.dst.map fun var => (var.name, var.version)

def defsOf (ops : List SSAOp) : List (String × Nat) := ops.filterMap SSAOp.definition

/-- The versions current after some definitions: the last one of a name
counts. -/
def advanceDefs (cur : String → Nat) (defs : List (String × Nat)) : String → Nat :=
  defs.foldl (fun cur d => Function.update cur d.1 d.2) cur

/-- The versions current after some operations. -/
def advance (cur : String → Nat) (ops : List SSAOp) : String → Nat := advanceDefs cur (defsOf ops)

@[simp] theorem defsOf_nil : defsOf [] = [] := rfl

@[simp] theorem defsOf_append (ops ops' : List SSAOp) :
    defsOf (ops ++ ops') = defsOf ops ++ defsOf ops' := filterMap_append

theorem advanceDefs_append (cur : String → Nat) (defs defs' : List (String × Nat)) :
    advanceDefs cur (defs ++ defs') = advanceDefs (advanceDefs cur defs) defs' :=
  foldl_append

theorem advance_append (cur : String → Nat) (ops ops' : List SSAOp) :
    advance cur (ops ++ ops') = advance (advance cur ops) ops' := by
  rw [advance, defsOf_append, advanceDefs_append]
  rfl

theorem advanceDefs_of_not_mem :
    ∀ {cur : String → Nat}, x ∉ defs.map Prod.fst → advanceDefs cur defs x = cur x := by
  induction defs with
  | nil => exact fun _ => rfl
  | cons d rest ih =>
    intro cur absent
    rw [map_cons, mem_cons, not_or] at absent
    rw [advanceDefs, foldl_cons]
    have kept : advanceDefs (Function.update cur d.1 d.2) rest x =
        Function.update cur d.1 d.2 x := ih absent.2
    rw [advanceDefs] at kept
    rw [kept, Function.update_of_ne absent.1]

theorem advanceDefs_congr :
    ∀ {cur cur' : String → Nat}, (∀ x, x ∉ defs.map Prod.fst → cur x = cur' x) →
      advanceDefs cur defs = advanceDefs cur' defs := by
  induction defs with
  | nil =>
    intro cur cur' agree
    funext x
    exact agree x (by simp)
  | cons d rest ih =>
    intro cur cur' agree
    refine ih fun x absent => ?_
    dsimp only
    by_cases here : x = d.1
    · rw [here, Function.update_self, Function.update_self]
    · rw [Function.update_of_ne here, Function.update_of_ne here]
      exact agree x (by simp [here, absent])

theorem advanceDefs_mem :
    ∀ {cur : String → Nat}, x ∈ defs.map Prod.fst → (x, advanceDefs cur defs x) ∈ defs := by
  induction defs with
  | nil => simp
  | cons d rest ih =>
    intro cur mem
    by_cases later : x ∈ rest.map Prod.fst
    · exact mem_cons_of_mem _ (ih later)
    · have here : x = d.1 := by
        rw [map_cons, mem_cons] at mem
        exact mem.resolve_right later
      have last : advanceDefs (Function.update cur d.1 d.2) rest x =
          Function.update cur d.1 d.2 x := advanceDefs_of_not_mem later
      rw [here, Function.update_self] at last
      rw [advanceDefs, foldl_cons, here]
      exact mem_cons.mpr (.inl (Prod.ext rfl last))

theorem advanceDefs_eq_of_mem :
    ∀ {cur cur' : String → Nat}, x ∈ defs.map Prod.fst →
      advanceDefs cur defs x = advanceDefs cur' defs x := by
  induction defs with
  | nil => simp
  | cons d rest ih =>
    intro cur cur' mem
    by_cases later : x ∈ rest.map Prod.fst
    · exact ih later
    · have here : x = d.1 := by
        rw [map_cons, mem_cons] at mem
        exact mem.resolve_right later
      have last : ∀ cur : String → Nat, advanceDefs (Function.update cur d.1 d.2) rest x =
          d.2 := by
        intro cur
        rw [advanceDefs_of_not_mem later, here, Function.update_self]
      exact (last cur).trans (last cur').symm

/-- Each operation reads the versions that the operations before it left. -/
def ReadsCurrent : (String → Nat) → List SSAOp → Prop
  | _, [] => True
  | cur, op :: rest =>
    (∀ source ∈ op.sources, source.isConst = false → source.version = cur source.name) ∧
      ReadsCurrent (advance cur [op]) rest

theorem ReadsCurrent.append {cur : String → Nat} {ops ops' : List SSAOp}
    (first : ReadsCurrent cur ops) (second : ReadsCurrent (advance cur ops) ops') :
    ReadsCurrent cur (ops ++ ops') := by
  induction ops generalizing cur with
  | nil => exact second
  | cons op rest ih =>
    refine ⟨first.1, ih first.2 ?_⟩
    rw [← advance_append]
    exact second

theorem ReadsCurrent.get {cur : String → Nat} {ops : List SSAOp} (reads : ReadsCurrent cur ops)
    {i : Nat} {op : SSAOp} (found : ops[i]? = some op) {source : SSAVar}
    (mem : source ∈ op.sources) (notConst : source.isConst = false) :
    source.version = advance cur (ops.take i) source.name := by
  induction ops generalizing cur i with
  | nil => simp at found
  | cons first rest ih =>
    cases i with
    | zero =>
      rw [List.getElem?_cons_zero, Option.some.injEq] at found
      subst found
      exact reads.1 source mem notConst
    | succ i =>
      rw [take_succ_cons, show first :: rest.take i = [first] ++ rest.take i from rfl,
        advance_append]
      exact ih reads.2 found

/-! ## Fresh versions -/

/-- The definitions take the numbers after `before`, each once, up to `after`. -/
structure Fresh (before : String → Nat) (defs : List (String × Nat)) (after : String → Nat) :
    Prop where
  nodup : defs.Nodup
  range : ∀ x k, (x, k) ∈ defs → before x < k ∧ k ≤ after x
  total : ∀ x, after x = before x + (defs.map Prod.fst).count x

theorem Fresh.refl (counter : String → Nat) : Fresh counter [] counter :=
  ⟨nodup_nil, by simp, by simp⟩

theorem Fresh.le {before after : String → Nat}
    (fresh : Fresh before defs after) (x : String) : before x ≤ after x := by
  rw [fresh.total x]
  exact Nat.le_add_right _ _

theorem Fresh.trans {c c' c'' : String → Nat} {defs' : List (String × Nat)}
    (first : Fresh c defs c') (second : Fresh c' defs' c'') : Fresh c (defs ++ defs') c'' := by
  refine ⟨?_, ?_, ?_⟩
  · rw [nodup_append]
    refine ⟨first.nodup, second.nodup, ?_⟩
    rintro ⟨x, k⟩ inFirst _ inSecond rfl
    have := first.range x k inFirst
    have := second.range x k inSecond
    omega
  · intro x k mem
    rcases mem_append.mp mem with inFirst | inSecond
    · have := first.range x k inFirst
      have := second.le x
      omega
    · have := second.range x k inSecond
      have := first.le x
      omega
  · intro x
    rw [second.total, first.total, map_append, count_append, Nat.add_assoc]

theorem Fresh.perm {c c' : String → Nat} {defs defs' : List (String × Nat)}
    (fresh : Fresh c defs c') (perm : defs.Perm defs') : Fresh c defs' c' where
  nodup := perm.nodup_iff.mp fresh.nodup
  range x k mem := fresh.range x k (perm.mem_iff.mpr mem)
  total x := by rw [fresh.total, (perm.map Prod.fst).count_eq]

/-! ## Stacks -/

/-- Equal stacks, but for a version 0 that an initialisation put into an empty
one. -/
def SameStacks (ctx ctx' : RenameContext) : Prop :=
  ∀ x, ctx'.stack x = ctx.stack x ∨ (ctx.stack x = [] ∧ ctx'.stack x = [0])

theorem SameStacks.refl (ctx : RenameContext) : SameStacks ctx ctx := fun _ => .inl rfl

theorem SameStacks.trans {ctx'' : RenameContext} (first : SameStacks ctx ctx')
    (second : SameStacks ctx' ctx'') : SameStacks ctx ctx'' := by
  intro x
  rcases second x with same | ⟨empty, zero⟩
  · rw [same]
    exact first x
  · rcases first x with same' | ⟨_, zero'⟩
    · exact .inr ⟨same' ▸ empty, zero⟩
    · rw [zero'] at empty
      exact absurd empty (by simp)

theorem SameStacks.currentVersion (same : SameStacks ctx ctx') :
    ctx'.currentVersion = ctx.currentVersion := by
  funext x
  unfold RenameContext.currentVersion
  rcases same x with equal | ⟨empty, zero⟩
  · rw [equal]
  · rw [empty, zero]
    rfl

/-- The stacks hold what they held, below one version for each name in
`names`. -/
def Pushed (ctx : RenameContext) (names : List String) (ctx' : RenameContext) : Prop :=
  ∀ x, ∃ versions base, ctx'.stack x = versions ++ base ∧ versions.length = names.count x ∧
    (base = ctx.stack x ∨ (ctx.stack x = [] ∧ base = [0]))

theorem Pushed.of_sameStacks (same : SameStacks ctx ctx') : Pushed ctx [] ctx' :=
  fun x => ⟨[], ctx'.stack x, rfl, rfl, same x⟩

theorem Pushed.trans {ctx'' : RenameContext} {names names' : List String}
    (first : Pushed ctx names ctx') (second : Pushed ctx' names' ctx'') :
    Pushed ctx (names ++ names') ctx'' := by
  intro x
  obtain ⟨versions, base, stack, length, below⟩ := first x
  obtain ⟨versions', base', stack', length', below'⟩ := second x
  have counted : (versions' ++ versions).length = (names ++ names').count x := by
    rw [length_append, count_append, length, length', Nat.add_comm]
  rcases below' with rfl | ⟨empty, rfl⟩
  · exact ⟨versions' ++ versions, base, by rw [stack', stack, append_assoc], counted, below⟩
  · rw [stack, append_eq_nil_iff] at empty
    obtain ⟨rfl, rfl⟩ := empty
    refine ⟨versions' ++ [], [0], by rw [stack', append_nil], counted, ?_⟩
    rcases below with emptyBase | ⟨_, zero⟩
    · exact .inr ⟨emptyBase.symm, rfl⟩
    · exact absurd zero (by simp)

private theorem stack_foldl_popVersion (names : List String) :
    ∀ (ctx : RenameContext) (x : String),
      (names.foldl RenameContext.popVersion ctx).stack x = (ctx.stack x).drop (names.count x) := by
  induction names with
  | nil => exact fun _ _ => rfl
  | cons name rest ih =>
    intro ctx x
    rw [foldl_cons, ih, RenameContext.stack_popVersion]
    by_cases here : x = name
    · subst here
      rw [if_pos rfl, count_cons_self, drop_tail]
    · rw [if_neg here, count_cons_of_ne (Ne.symm here)]

theorem counter_foldl_popVersion (names : List String) (ctx : RenameContext) (x : String) :
    (names.foldl RenameContext.popVersion ctx).counter x = ctx.counter x :=
  foldl_kept (·.counter x) (fun _ _ _ => RenameContext.counter_popVersion ..) ctx

theorem Pushed.pop {names : List String} (pushed : Pushed ctx names ctx') :
    SameStacks ctx (names.foldl RenameContext.popVersion ctx') := by
  intro x
  obtain ⟨versions, base, stack, length, below⟩ := pushed x
  rw [stack_foldl_popVersion, stack, ← length, drop_left]
  exact below

/-! ## Definitions -/

/-- What a run of definitions does to the state. -/
structure Defines (state : RenameState) (defs : List (String × Nat)) (state' : RenameState) :
    Prop where
  versions : advanceDefs state.ctx.currentVersion defs = state'.ctx.currentVersion
  fresh : Fresh state.ctx.counter defs state'.ctx.counter
  pushed : Pushed state.ctx (defs.map Prod.fst) state'.ctx
  names : state'.definedVars = state.definedVars ++ defs.map Prod.fst

theorem Defines.refl (state : RenameState) : Defines state [] state :=
  ⟨rfl, Fresh.refl _, Pushed.of_sameStacks (SameStacks.refl _), by simp⟩

theorem Defines.trans {state state' state'' : RenameState} {defs' : List (String × Nat)}
    (first : Defines state defs state') (second : Defines state' defs' state'') :
    Defines state (defs ++ defs') state'' := by
  refine ⟨?_, first.fresh.trans second.fresh, ?_, ?_⟩
  · rw [advanceDefs_append, first.versions, second.versions]
  · rw [map_append]
    exact first.pushed.trans second.pushed
  · rw [second.names, first.names, map_append, append_assoc]

theorem defines_define (state : RenameState) (x : String) :
    Defines state [(x, (state.define x).1.version)] (state.define x).2 := by
  have version : (state.define x).1.version = state.ctx.counter x + 1 := rfl
  have ctx : (state.define x).2.ctx = (state.ctx.writeVar x).2 := rfl
  refine ⟨?_, ⟨nodup_singleton _, ?_, ?_⟩, ?_, rfl⟩
  · funext y
    rw [ctx, RenameContext.currentVersion_writeVar, version]
    by_cases here : y = x
    · subst here
      simp [advanceDefs]
    · simp [advanceDefs, here]
  · intro y k mem
    rw [mem_singleton, Prod.mk.injEq] at mem
    obtain ⟨rfl, rfl⟩ := mem
    rw [ctx, RenameContext.counter_writeVar, version, if_pos rfl]
    exact ⟨Nat.lt_succ_self _, Nat.le_refl _⟩
  · intro y
    rw [ctx, RenameContext.counter_writeVar]
    by_cases here : y = x
    · subst here
      simp
    · simp [here, Ne.symm here]
  · intro y
    rw [ctx, RenameContext.stack_writeVar]
    by_cases here : y = x
    · subst here
      exact ⟨[state.ctx.counter y + 1], state.ctx.stack y, by simp, by simp, .inl rfl⟩
    · exact ⟨[], state.ctx.stack y, by simp [here], by simp [Ne.symm here], .inl rfl⟩

private theorem defines_initVar (state : RenameState) (x : String) (size : Nat) :
    Defines state [] { state with ctx := state.ctx.initVar x size } := by
  have same : SameStacks state.ctx (state.ctx.initVar x size) := by
    intro y
    rcases RenameContext.stack_initVar state.ctx x y size with equal | ⟨_, empty, zero⟩
    · exact .inl equal
    · exact .inr ⟨empty, zero⟩
  refine ⟨same.currentVersion.symm, ⟨nodup_nil, by simp, fun y => ?_⟩,
    Pushed.of_sameStacks same, by simp⟩
  simp

/-! ## Operations -/

private theorem readVarnode_version {regNames : Option RegisterNameMap}
    {vn : Varnode} (notConst : (readVarnode regNames ctx vn).isConst = false) :
    (readVarnode regNames ctx vn).version =
      ctx.currentVersion (readVarnode regNames ctx vn).name := by
  unfold readVarnode at notConst ⊢
  cases space : vn.space with
  | Const =>
    -- the name of a literal starts with `const:`
    rw [space, SSAVar.isConst_constant] at notConst
    exact absurd notConst (by simp)
  | _ => rfl

section

variable (regNames : Option RegisterNameMap)
include regNames

private theorem renameOp_defines (state : RenameState) (op : R2ILOp) :
    Defines state (defsOf [(renameOp regNames state op).1]) (renameOp regNames state op).2 := by
  obtain ⟨_, dst, after⟩ := renameOp_spec regNames state op
  have defs : defsOf [(renameOp regNames state op).1] =
      (((outputName regNames op).map fun name => (name, (state.define name).1.version)).toList) := by
    rw [defsOf, filterMap_cons, SSAOp.definition, dst]
    cases outputName regNames op <;> rfl
  rw [defs, after]
  cases outputName regNames op with
  | none => exact Defines.refl state
  | some name => exact defines_define state name

theorem renameOp_reads (state : RenameState) (op : R2ILOp) :
    ReadsCurrent state.ctx.currentVersion [(renameOp regNames state op).1] := by
  refine ⟨fun source mem notConst => ?_, trivial⟩
  rw [(renameOp_spec regNames state op).1, mem_map] at mem
  obtain ⟨vn, _, rfl⟩ := mem
  exact readVarnode_version notConst

theorem actualNames_defines (reg : CallBoundaryDef)
    (state : RenameState) :
    Defines state [] { state with ctx := (actualNames regNames reg state.ctx).2 } := by
  unfold actualNames
  split
  · split
    · exact defines_initVar state reg.name reg.size
    · exact Defines.refl state
  · exact Defines.refl state

end

private theorem callDefines_spec (names : List String) :
    ∀ state : RenameState, Defines state (defsOf (callDefines names state).1)
        (callDefines names state).2 ∧
      (∀ cur, ReadsCurrent cur (callDefines names state).1) ∧
      (defsOf (callDefines names state).1).map Prod.fst = names := by
  induction names with
  | nil => exact fun state => ⟨Defines.refl state, fun _ => trivial, rfl⟩
  | cons name names ih =>
    intro state
    obtain ⟨defines, reads, written⟩ := ih (state.define name).2
    refine ⟨(defines_define state name).trans defines, fun cur => ⟨by simp [SSAOp.sources],
      reads _⟩, ?_⟩
    exact congrArg (name :: ·) written

section

variable (regNames : Option RegisterNameMap)
include regNames

private theorem appendCallBoundaryDefs_spec
    (regs : List CallBoundaryDef) :
    ∀ state : RenameState, Defines state
        (defsOf (appendCallBoundaryDefs regNames regs state).1)
        (appendCallBoundaryDefs regNames regs state).2 ∧
      ∀ cur, ReadsCurrent cur (appendCallBoundaryDefs regNames regs state).1 := by
  induction regs with
  | nil => exact fun state => ⟨Defines.refl state, fun _ => trivial⟩
  | cons reg regs ih =>
    intro state
    rw [appendCallBoundaryDefs]
    have prepared := actualNames_defines regNames reg state
    obtain ⟨defined, reads, _⟩ := callDefines_spec (actualNames regNames reg state.ctx).1
      { state with ctx := (actualNames regNames reg state.ctx).2 }
    obtain ⟨rest, restReads⟩ := ih
      (callDefines (actualNames regNames reg state.ctx).1
        { state with ctx := (actualNames regNames reg state.ctx).2 }).2
    rw [defsOf_append]
    exact ⟨prepared.trans (defined.trans rest), fun cur => (reads cur).append (restReads _)⟩

section

variable (callBoundaries : Option CallBoundaryConfig)
include callBoundaries

private theorem renameOpWithBoundary_spec
    (state : RenameState) (op : R2ILOp) :
    Defines state (defsOf (renameOpWithBoundary regNames callBoundaries state op).1)
        (renameOpWithBoundary regNames callBoundaries state op).2 ∧
      ReadsCurrent state.ctx.currentVersion
        (renameOpWithBoundary regNames callBoundaries state op).1 := by
  have defines := renameOp_defines regNames state op
  have reads := renameOp_reads regNames state op
  unfold renameOpWithBoundary
  dsimp only
  split
  · rename_i boundary _
    obtain ⟨rest, restReads⟩ := appendCallBoundaryDefs_spec regNames boundary.definedRegs
      (renameOp regNames state op).2
    refine ⟨?_, reads.append (restReads _)⟩
    have split := defsOf_append [(renameOp regNames state op).1]
      (appendCallBoundaryDefs regNames boundary.definedRegs (renameOp regNames state op).2).1
    rw [singleton_append] at split
    rw [split]
    exact defines.trans rest
  · exact ⟨defines, reads⟩

/-- Outputs get new versions and inputs the current ones. -/
theorem renameOps_spec
    (ops : List R2ILOp) :
    ∀ state : RenameState,
      Defines state (defsOf (renameOps regNames callBoundaries ops state).1)
          (renameOps regNames callBoundaries ops state).2 ∧
        ReadsCurrent state.ctx.currentVersion (renameOps regNames callBoundaries ops state).1 := by
  induction ops with
  | nil => exact fun state => ⟨Defines.refl state, trivial⟩
  | cons op rest ih =>
    intro state
    obtain ⟨defines, reads⟩ := renameOpWithBoundary_spec regNames callBoundaries state op
    obtain ⟨restDefines, restReads⟩ := ih (renameOpWithBoundary regNames callBoundaries state op).2
    simp only [renameOps, defsOf_append]
    refine ⟨defines.trans restDefines, reads.append ?_⟩
    rw [advance, defines.versions]
    exact restReads

theorem renameOps_append
    (before after : List R2ILOp) :
    ∀ state : RenameState, renameOps regNames callBoundaries (before ++ after) state =
      ((renameOps regNames callBoundaries before state).1 ++
          (renameOps regNames callBoundaries after
            (renameOps regNames callBoundaries before state).2).1,
        (renameOps regNames callBoundaries after
          (renameOps regNames callBoundaries before state).2).2) := by
  induction before with
  | nil => exact fun _ => rfl
  | cons op rest ih =>
    intro state
    rw [cons_append, renameOps, renameOps]
    dsimp only
    rw [ih, append_assoc]

end

theorem renameOpWithBoundary_none (state : RenameState)
    (op : R2ILOp) : renameOpWithBoundary regNames none state op =
      ([(renameOp regNames state op).1], (renameOp regNames state op).2) := by
  unfold renameOpWithBoundary
  cases isCall op <;> rfl

end

/-! ## Sizes -/

/-- The registers that calls define. -/
def boundaryRegs (callBoundaries : Option CallBoundaryConfig) : List CallBoundaryDef :=
  (callBoundaries.map CallBoundaryConfig.definedRegs).getD []

/-- Names equal to a register's up to case, among those with a size. -/
def sizesMatching (sizes : HashMap String Nat) (reg : CallBoundaryDef) : List String :=
  (sizes.keys.filter fun candidate =>
    toAsciiLowercase candidate = toAsciiLowercase reg.name).insertionSort (· ≤ ·)

inductive SizesGrow (regNames : Option RegisterNameMap) (regs : List CallBoundaryDef) :
    HashMap String Nat → HashMap String Nat → Prop
  | refl (sizes : HashMap String Nat) : SizesGrow regNames regs sizes sizes
  | init {sizes sizes' : HashMap String Nat} {reg : CallBoundaryDef} :
      SizesGrow regNames regs sizes sizes' → reg ∈ regs → sizesMatching sizes' reg = [] →
      candidateNames regNames reg = [] →
      SizesGrow regNames regs sizes (sizes'.insert reg.name reg.size)

theorem SizesGrow.trans {regNames : Option RegisterNameMap}
    {sizes sizes' sizes'' : HashMap String Nat} (first : SizesGrow regNames regs sizes sizes')
    (second : SizesGrow regNames regs sizes' sizes'') : SizesGrow regNames regs sizes sizes'' := by
  induction second with
  | refl => exact first
  | init _ mem unmatched noCandidate ih =>
    exact .init ih mem unmatched noCandidate

theorem callDefines_sizes (names : List String) :
    ∀ state : RenameState, (callDefines names state).2.ctx.sizes = state.ctx.sizes := by
  induction names with
  | nil => exact fun _ => rfl
  | cons name names ih =>
    intro state
    exact ih (state.define name).2

section

variable (regNames : Option RegisterNameMap)
include regNames

theorem actualNames_sizes
    {reg : CallBoundaryDef} (mem : reg ∈ regs) (ctx : RenameContext) :
    SizesGrow regNames regs ctx.sizes (actualNames regNames reg ctx).2.sizes := by
  unfold actualNames
  split
  · rename_i unmatched
    split
    · rename_i noCandidate
      exact .init (.refl _) mem unmatched noCandidate
    · exact .refl _
  · exact .refl _

private theorem appendCallBoundaryDefs_sizes
    (some : List CallBoundaryDef) (inside : some ⊆ regs) :
    ∀ state : RenameState, SizesGrow regNames regs state.ctx.sizes
      (appendCallBoundaryDefs regNames some state).2.ctx.sizes := by
  induction some with
  | nil => exact fun state => .refl _
  | cons reg rest ih =>
    intro state
    have prepared := actualNames_sizes regNames (inside mem_cons_self) state.ctx
    have defined := ih (fun r mem => inside (mem_cons_of_mem _ mem))
      (callDefines (actualNames regNames reg state.ctx).1
        { state with ctx := (actualNames regNames reg state.ctx).2 }).2
    rw [callDefines_sizes] at defined
    exact prepared.trans defined

theorem renameOpWithBoundary_sizes
    (callBoundaries : Option CallBoundaryConfig) (state : RenameState) (op : R2ILOp) :
    SizesGrow regNames (boundaryRegs callBoundaries) state.ctx.sizes
      (renameOpWithBoundary regNames callBoundaries state op).2.ctx.sizes := by
  have same : (renameOp regNames state op).2.ctx.sizes = state.ctx.sizes := by
    rw [(renameOp_spec regNames state op).2.2]
    cases outputName regNames op <;> rfl
  unfold renameOpWithBoundary
  dsimp only
  split
  · rename_i boundary _
    have grown := appendCallBoundaryDefs_sizes regNames boundary.definedRegs
      (List.Subset.refl _) (renameOp regNames state op).2
    rw [same] at grown
    exact grown
  · rw [same]
    exact .refl _

theorem renameOps_sizes
    (callBoundaries : Option CallBoundaryConfig) (ops : List R2ILOp) :
    ∀ state : RenameState, SizesGrow regNames (boundaryRegs callBoundaries) state.ctx.sizes
      (renameOps regNames callBoundaries ops state).2.ctx.sizes := by
  induction ops with
  | nil => exact fun state => .refl _
  | cons op rest ih =>
    intro state
    have grown := renameOpWithBoundary_sizes regNames callBoundaries state op
    exact grown.trans (ih (renameOpWithBoundary regNames callBoundaries state op).2)

theorem defsOf_renameOps_names (ops : List R2ILOp) :
    ∀ state : RenameState, (defsOf (renameOps regNames none ops state).1).map Prod.fst =
      ops.filterMap (outputName regNames) := by
  induction ops with
  | nil => exact fun _ => rfl
  | cons op rest ih =>
    intro state
    simp only [renameOps, renameOpWithBoundary_none, defsOf_append, map_append, ih, filterMap_cons]
    obtain ⟨_, dst, _⟩ := renameOp_spec regNames state op
    cases name : outputName regNames op with
    | none => simp [defsOf, SSAOp.definition, dst, name]
    | some x =>
      rw [name] at dst
      simp [defsOf, SSAOp.definition, dst, RenameState.define]

end

end R2Sleigh.Ssa
