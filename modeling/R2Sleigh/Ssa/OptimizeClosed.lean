import R2Sleigh.Ssa.Cse
import R2Sleigh.Ssa.CopyProp
import R2Sleigh.Ssa.SimplifyAgrees
import R2Sleigh.Ssa.SccpApplied

/-!
Contract: every pass but copy propagation leaves each use with its definition.
-/

namespace R2Sleigh.Ssa

open Il Flow Lib List

namespace SSAFunction

variable {func : SSAFunction}
variable {block : SSABlock} {v : SSAVar} {checks : Bool} {state : SSAFunction × Bool}
  {config : OptimizationConfig} {P : Prop}

/-- A function that a pass can rely on. -/
structure Tidy (func : SSAFunction) : Prop where
  assigned : func.Assigned
  closed : func.Closed

/-- The same, where uses have definitions under a condition. -/
structure TidyIf (func : SSAFunction) (P : Prop) : Prop where
  assigned : func.Assigned
  closed : P → func.Closed

theorem Changes.tidy {after : SSAFunction} {change : Nat → SSABlock → SSABlock}
    (changes : Changes func after change) (tidy : func.TidyIf P)
    (dsts : ∀ addr block, func.getBlock addr = some block → (change addr block).dsts = block.dsts)
    (uses : ∀ addr block, func.getBlock addr = some block → ∀ v ∈ (change addr block).uses,
      0 < v.version → v ∈ block.uses ∨ v ∈ block.dsts) : after.TidyIf P := by
  refine ⟨changes.assigned tidy.assigned fun addr block found => ?_,
    fun holds => changes.closed (tidy.closed holds) dsts uses⟩
  rw [dsts addr block found]

private theorem dsts_mapOps {change : SSAOp → SSAOp} (dst : ∀ op, (change op).dst = op.dst) :
    ({ block with ops := block.ops.map change } : SSABlock).dsts = block.dsts := by
  have ops : (block.ops.map change).filterMap SSAOp.dst = block.ops.filterMap SSAOp.dst := by
    rw [filterMap_map]
    exact filterMap_congr fun op _ => dst op
  rw [SSABlock.dsts, ops, SSABlock.dsts]

/-! ## Constants -/

theorem substitute_cases (consts : HashMap VarKey Word) (v : SSAVar) :
    substitute consts v = v ∨ (substitute consts v).version = 0 := by
  unfold substitute
  split
  · exact .inr rfl
  · exact .inl rfl

theorem replaceInBlock_dsts (consts : HashMap VarKey Word) (isReturn : Bool) (block : SSABlock) :
    (replaceInBlock consts isReturn block).dsts = block.dsts :=
  dsts_map (fun phi => by rw [replaceInPhi]; split <;> rfl) _ block

theorem replaceInBlock_uses {consts : HashMap VarKey Word} {isReturn : Bool}
    (used : v ∈ (replaceInBlock consts isReturn block).uses) (positive : 0 < v.version) :
    (∀ phi ∈ (replaceInBlock consts isReturn block).phis, ∀ source ∈ phi.sources, source.2 = v →
        ∃ phi ∈ block.phis, source ∈ phi.sources) ∧ v ∈ block.uses := by
  have kept : ∀ {w}, substitute consts w = v → w = v := by
    intro w isV
    rcases substitute_cases consts w with same | zero
    · exact same.symm.trans isV
    · rw [isV] at zero
      omega
  have phis : ∀ phi ∈ (replaceInBlock consts isReturn block).phis, ∀ source ∈ phi.sources,
      source.2 = v → ∃ phi ∈ block.phis, source ∈ phi.sources := by
    intro phi' mem source' inSources isV
    obtain ⟨phi, inPhis, rfl⟩ := mem_map.mp mem
    refine ⟨phi, inPhis, ?_⟩
    rw [replaceInPhi] at inSources
    split at inSources
    · exact inSources
    · obtain ⟨source, isSource, rfl⟩ := mem_map.mp inSources
      rw [show (source.1, substitute consts source.2) = source from
        Prod.ext rfl (isV.trans (kept isV).symm)]
      exact isSource
  refine ⟨phis, SSABlock.mem_uses.mpr ?_⟩
  rcases SSABlock.mem_uses.mp used with ⟨phi, mem, source, inSources, isV⟩ | ⟨op', mem, isSource⟩
  · obtain ⟨before, inPhis, isSource⟩ := phis phi mem source inSources isV
    exact .inl ⟨before, inPhis, source, isSource, isV⟩
  · obtain ⟨op, inOps, rfl⟩ := mem_map.mp mem
    rw [SSAOp.sources_mapSources] at isSource
    obtain ⟨src, isSrc, isV⟩ := mem_map.mp isSource
    rw [kept isV] at isSrc
    exact .inr ⟨op, inOps, isSrc⟩

theorem Assigned.replaceConstants (assigned : func.Assigned) (consts : HashMap VarKey Word) :
    Changes func (replaceSourcesWithConstants func consts).1
      fun addr => replaceInBlock consts (isReturnBlock func.cfg addr) := by
  obtain ⟨-, -, order, blocks⟩ := replaced_spec consts assigned.order
  refine ⟨order, fun b => (blocks b).trans ?_⟩
  split
  · rfl
  · rename_i absent
    rw [← assigned.listed, Option.not_isSome_iff_eq_none] at absent
    rw [absent, Option.map_none]

theorem TidyIf.replaceConstants (tidy : func.TidyIf P) (consts : HashMap VarKey Word) :
    (replaceSourcesWithConstants func consts).1.TidyIf P :=
  (tidy.assigned.replaceConstants consts).tidy tidy
    (fun _ block _ => replaceInBlock_dsts consts _ block)
    fun _ _ _ _ used positive => .inl (replaceInBlock_uses used positive).2

/-! ## Instructions and expressions -/

private theorem dst_combineOp (checks : Bool) (op : SSAOp) :
    (combineOp checks op).dst = op.dst := by
  unfold combineOp
  split
  · rename_i newOp simplified
    obtain ⟨dst, src, isDst, rfl, -⟩ := simplifyOp_copies simplified
    exact isDst.symm
  · rfl

private theorem sources_combineOp {op : SSAOp}
    (used : v ∈ (combineOp checks op).sources) (positive : 0 < v.version) :
    v ∈ op.sources := by
  unfold combineOp at used
  split at used
  · rename_i newOp simplified
    obtain ⟨dst, src, -, rfl, isOperand | ⟨val, rfl⟩⟩ := simplifyOp_copies simplified
    · rwa [mem_singleton.mp used]
    · rw [mem_singleton.mp used] at positive
      exact absurd positive (Nat.lt_irrefl 0)
  · exact used

theorem TidyIf.instCombine (tidy : func.TidyIf P) {combined : SSAFunction × Bool}
    (returns : instCombine checks func = .ok combined) : combined.1.TidyIf P := by
  unfold Ssa.instCombine at returns
  split at returns
  · cases returns
  · obtain rfl := Except.ok.inj returns
    refine (tidy.assigned.changes _).tidy tidy
      (fun _ _ _ => dsts_mapOps (dst_combineOp checks)) ?_
    intro addr block found v used positive
    refine .inl (SSABlock.mem_uses.mpr ?_)
    rcases SSABlock.mem_uses.mp used with isPhi | ⟨op', mem, isSource⟩
    · exact .inl isPhi
    · obtain ⟨op, inOps, rfl⟩ := mem_map.mp mem
      exact .inr ⟨op, inOps, sources_combineOp isSource positive⟩

theorem TidyIf.commonSubexprElim (tidy : func.TidyIf P) : (commonSubexprElim func).1.TidyIf P := by
  refine (tidy.assigned.changes _).tidy tidy ?_ ?_
  · intro addr block found
    rw [SSABlock.dsts, (shares_cseBlock block).dsts]
    rfl
  · intro addr block found v used positive
    rcases SSABlock.mem_uses.mp used with isPhi | ⟨op', mem, isSource⟩
    · exact .inl (SSABlock.mem_uses.mpr (.inl isPhi))
    · obtain ⟨before', after', position⟩ := append_of_mem mem
      obtain ⟨before, op, after, isOps, shared, -⟩ := (shares_cseBlock block).split position
      cases shared with
      | stays =>
        refine .inl (SSABlock.mem_uses.mpr (.inr ⟨op', ?_, isSource⟩))
        rw [isOps]
        simp
      | @copies earlier _ existing isEarlier _ isExisting _ =>
        obtain rfl := mem_singleton.mp isSource
        refine .inr (mem_append_right _ (mem_filterMap.mpr ⟨earlier, ?_, isExisting⟩))
        rw [isOps]
        exact mem_append_left _ isEarlier

/-! ## Dead code -/

theorem mem_collectUses {addr : Nat} (found : func.getBlock addr = some block)
    (used : v ∈ block.uses) : .fromVar v ∈ collectUses func := by
  have stored : ⟨addr, block⟩ ∈ func.blocks.entries := AList.mem_lookup_iff.mp found
  refine mem_append_left _ ?_
  rcases SSABlock.mem_uses.mp used with ⟨phi, inPhis, source, inSources, rfl⟩ | ⟨op, inOps, isSource⟩
  · refine mem_append_left _ (mem_flatMap.mpr ⟨phi, ?_, mem_map_of_mem inSources⟩)
    exact mem_flatMap.mpr ⟨_, stored, inPhis⟩
  · refine mem_append_right _ (mem_flatMap.mpr ⟨op, ?_, mem_map_of_mem isSource⟩)
    exact mem_flatMap.mpr ⟨_, stored, inOps⟩

theorem dropUnused_dsts (preserveMemoryReads : Bool) (uses : List VarKey) (block : SSABlock) :
    ((dropUnused preserveMemoryReads uses block).dsts).Sublist block.dsts :=
  (filter_sublist.map _).append (filter_sublist.filterMap _)

private theorem mem_dropUnused_dsts {preserveMemoryReads : Bool} {uses : List VarKey}
    (used : .fromVar v ∈ uses) (defined : v ∈ block.dsts) :
    v ∈ (dropUnused preserveMemoryReads uses block).dsts := by
  rcases mem_append.mp defined with isPhi | isOp
  · obtain ⟨phi, inPhis, rfl⟩ := mem_map.mp isPhi
    exact mem_append_left _ (mem_map_of_mem (mem_filter.mpr ⟨inPhis, decide_eq_true used⟩))
  · obtain ⟨op, inOps, isDst⟩ := mem_filterMap.mp isOp
    refine mem_append_right _ (mem_filterMap.mpr ⟨op, mem_filter.mpr ⟨inOps, ?_⟩, isDst⟩)
    rw [keepsOp, isDst]
    simp [used]

theorem dropUnused_uses {preserveMemoryReads : Bool} {uses : List VarKey}
    (used : v ∈ (dropUnused preserveMemoryReads uses block).uses) : v ∈ block.uses := by
  refine SSABlock.mem_uses.mpr ?_
  rcases SSABlock.mem_uses.mp used with ⟨phi, mem, hasSource⟩ | ⟨op, mem, isSource⟩
  · exact .inl ⟨phi, mem_of_mem_filter mem, hasSource⟩
  · exact .inr ⟨op, mem_of_mem_filter mem, isSource⟩

theorem TidyIf.dropUnusedRound (tidy : func.TidyIf P) (preserveMemoryReads : Bool) :
    (dropUnusedRound preserveMemoryReads func).1.TidyIf P := by
  have changes := tidy.assigned.changes fun _ => dropUnused preserveMemoryReads (collectUses func)
  refine ⟨changes.assigned tidy.assigned fun _ block _ => dropUnused_dsts .., fun holds => ?_⟩
  refine Closed.of_blocks (tidy.closed holds) ?_ ?_
  · intro addr block' found v used positive
    obtain ⟨block, foundBefore, rfl⟩ := changes.origin found
    exact .inl ⟨addr, block, foundBefore, dropUnused_uses used⟩
  · rintro addr block' v found used ⟨d, definer, foundDefiner, defined⟩
    obtain ⟨block, foundBefore, rfl⟩ := changes.origin found
    refine changes.defines.mpr ⟨d, definer, foundDefiner, mem_dropUnused_dsts ?_ defined⟩
    exact mem_collectUses foundBefore (dropUnused_uses used)

/-- The pass keeps tidy functions tidy. -/
theorem TidyIf.deadCodeElim (tidy : func.TidyIf P) (preserveMemoryReads : Bool) :
    (deadCodeElim preserveMemoryReads func).1.TidyIf P := by
  unfold Ssa.deadCodeElim
  generalize func.definitionCount + 1 = fuel
  induction fuel generalizing func with
  | zero => exact tidy
  | succ fuel ih =>
    rw [dropUnusedRounds]
    split
    · exact ih (tidy.dropUnusedRound preserveMemoryReads)
    · exact tidy.dropUnusedRound preserveMemoryReads

/-! ## Iterations -/

theorem TidyIf.enabled (tidy : state.1.TidyIf P) (flag : Bool)
    {pass : SSAFunction → SSAFunction × Bool} (keeps : (pass state.1).1.TidyIf P) :
    (Ssa.enabled flag pass state).1.TidyIf P := by
  unfold Ssa.enabled
  split
  · exact keeps
  · exact tidy

theorem TidyIf.constantPass (tidy : func.TidyIf P)
    (returns : constantPass checks config func = .ok state) :
    state.1.TidyIf P := by
  unfold Ssa.constantPass at returns
  split at returns
  · cases computed : computeConstants checks func (max config.maxIterations 1) ∅ with
    | error _ => rw [computed] at returns; cases returns
    | ok consts =>
      rw [computed] at returns
      obtain rfl := Except.ok.inj returns
      exact tidy.replaceConstants consts
  · obtain rfl := Except.ok.inj returns
    exact tidy

theorem TidyIf.combinePass {combined : SSAFunction × Bool} (tidy : state.1.TidyIf P)
    (returns : combinePass checks config state = .ok combined) : combined.1.TidyIf P := by
  unfold Ssa.combinePass at returns
  split at returns
  · cases run : Ssa.instCombine checks state.1 with
    | error _ => rw [run] at returns; cases returns
    | ok result =>
      rw [run] at returns
      obtain rfl := Except.ok.inj returns
      have tidyResult : result.1.TidyIf P := tidy.instCombine run
      exact tidyResult
  · obtain rfl := Except.ok.inj returns
    exact tidy

theorem TidyIf.beforeCopies (tidy : func.TidyIf P)
    {shared : SSAFunction × Bool} (returns : beforeCopies checks config func = .ok shared) :
    shared.1.TidyIf P := by
  unfold Ssa.beforeCopies at returns
  cases constants : Ssa.constantPass checks config func with
  | error _ => rw [constants] at returns; cases returns
  | ok propagated =>
    cases combines : Ssa.combinePass checks config propagated with
    | error _ =>
      rw [constants, Except.bind, combines] at returns
      cases returns
    | ok combined =>
      rw [constants, Except.bind, combines] at returns
      obtain rfl := Except.ok.inj returns
      have tidyCombined := (tidy.constantPass constants).combinePass combines
      exact tidyCombined.enabled _ tidyCombined.commonSubexprElim

/-- The functions that the iterations call copy propagation on. -/
inductive CopyInput (checks : Bool) (config : OptimizationConfig) :
    Nat → SSAFunction → SSAFunction → Prop
  | here {rounds : Nat} {func : SSAFunction} {shared : SSAFunction × Bool}
      (returns : beforeCopies checks config func = .ok shared) :
      CopyInput checks config (rounds + 1) func shared.1
  | later {rounds : Nat} {func next input : SSAFunction}
      (changed : iteration checks config func = .ok (next, true))
      (rest : CopyInput checks config rounds next input) :
      CopyInput checks config (rounds + 1) func input

theorem TidyIf.iteration (tidy : func.TidyIf P) {next : SSAFunction × Bool}
    (safe : P → ∀ shared, Ssa.beforeCopies checks config func = .ok shared →
      shared.1.CopiesSafely)
    (returns : iteration checks config func = .ok next) : next.1.TidyIf P := by
  unfold Ssa.iteration at returns
  cases run : Ssa.beforeCopies checks config func with
  | error _ => rw [run] at returns; cases returns
  | ok shared =>
    rw [run] at returns
    obtain rfl := Except.ok.inj returns
    have tidyShared := tidy.beforeCopies run
    have tidyCopied := tidyShared.enabled config.enableCopyProp
      ⟨tidyShared.assigned.copyPropagation,
        fun holds => (safe holds shared run).closed tidyShared.assigned (tidyShared.closed holds)⟩
    exact tidyCopied.enabled _ (tidyCopied.deadCodeElim config.preserveMemoryReads)

theorem TidyIf.iterations (rounds : Nat) :
    ∀ {func after : SSAFunction}, func.TidyIf P →
      (P → ∀ input, CopyInput checks config rounds func input → input.CopiesSafely) →
      iterations checks config rounds func = .ok after → after.TidyIf P := by
  induction rounds with
  | zero =>
    intro func after tidy _ returns
    obtain rfl := Except.ok.inj returns
    exact tidy
  | succ rounds ih =>
    intro func after tidy safe returns
    rw [Ssa.iterations] at returns
    cases run : Ssa.iteration checks config func with
    | error _ => rw [run] at returns; cases returns
    | ok result =>
      obtain ⟨next, changed⟩ := result
      have tidyNext : next.TidyIf P :=
        tidy.iteration (fun holds shared first => safe holds _ (.here first)) run
      rw [run] at returns
      cases changed with
      | true =>
        exact ih tidyNext (fun holds input rest => safe holds _ (.later run rest)) returns
      | false =>
        obtain rfl := Except.ok.inj returns
        exact tidyNext

theorem Tidy.iterations (rounds : Nat) {func after : SSAFunction} (tidy : func.Tidy)
    (safe : ∀ input, CopyInput checks config rounds func input → input.CopiesSafely)
    (returns : iterations checks config rounds func = .ok after) : after.Tidy := by
  have iterated := TidyIf.iterations rounds ⟨tidy.assigned, fun _ : True => tidy.closed⟩
    (fun _ => safe) returns
  exact ⟨iterated.assigned, iterated.closed trivial⟩

end SSAFunction

end R2Sleigh.Ssa
