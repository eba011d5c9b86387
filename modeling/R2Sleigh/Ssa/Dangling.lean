import R2Sleigh.Ssa.SccpClosed

/-!
Contract: uses without a definition after the optimizer.
-/

namespace R2Sleigh.Ssa

open Il Flow Lib

namespace SSAFunction

theorem Regular.tidy_start {func start : SSAFunction} (regular : func.Regular)
    {checks : Bool} {fuel : Nat} {config : OptimizationConfig}
    (starts : optimizerStart checks fuel config func = some (.ok start)) : start.Tidy := by
  unfold optimizerStart at starts
  split at starts
  · obtain ⟨found, -, isStart⟩ := Option.map_eq_some_iff.mp starts
    cases found with
    | error _ => cases isStart
    | ok results =>
      obtain rfl := Except.ok.inj isStart
      exact regular.tidy_applied results.1 results.2
  · obtain rfl := Except.ok.inj (Option.some.inj starts)
    exact regular.tidy

/-- Copies are safe in each call that the iterations make, whatever they start from. -/
def CopiesSafelyThroughout (func : SSAFunction) (checks : Bool) (fuel : Nat)
    (config : OptimizationConfig) (rounds : Nat) : Prop :=
  ∀ start, optimizerStart checks fuel config func = some (.ok start) →
    ∀ input, CopyInput checks config rounds start input → input.CopiesSafely

/-- After one call every use is defined exactly if the copies are safe; after any
number of iterations, and so after the optimizer, it is if they are safe in each call. -/
theorem copyPropagation_closed {func : SSAFunction} (regular : func.Regular) :
    ((copyPropagation func).1.Closed ↔ func.CopiesSafely) ∧
      (∀ checks fuel config rounds,
        func.CopiesSafelyThroughout checks fuel config rounds → ∀ start after,
          optimizerStart checks fuel config func = some (.ok start) →
          iterations checks config rounds start = .ok after → after.Closed) ∧
      ∀ checks fuel config,
        func.CopiesSafelyThroughout checks fuel config (max config.maxIterations 1) →
        ∀ after, optimizeFunction checks fuel config func = some (.ok after) →
          after.Closed := by
  have iterated : ∀ checks fuel config rounds,
      func.CopiesSafelyThroughout checks fuel config rounds → ∀ start after,
        optimizerStart checks fuel config func = some (.ok start) →
        iterations checks config rounds start = .ok after → after.Closed := by
    intro checks fuel config rounds safe start after starts returns
    exact (Tidy.iterations rounds (regular.tidy_start starts) (safe start starts) returns).closed
  refine ⟨closed_copyPropagation_iff regular.ssa.assigned
    (fun found defined => (regular.ssa.fresh found defined).1) regular.closed, iterated, ?_⟩
  intro checks fuel config safe after returns
  obtain ⟨start, starts, run⟩ := Option.map_eq_some_iff.mp returns
  cases start with
  | error _ => cases run
  | ok start => exact iterated checks fuel config _ safe start after starts run

/-- Whichever passes are on and however often they run, each version is still defined
once, in a block that is listed once. -/
theorem optimizeFunction_assigned {func after : SSAFunction} (regular : func.Regular)
    (checks : Bool) (fuel : Nat) (config : OptimizationConfig)
    (returns : optimizeFunction checks fuel config func = some (.ok after)) : after.Assigned := by
  obtain ⟨start, starts, run⟩ := Option.map_eq_some_iff.mp returns
  cases start with
  | error _ => cases run
  | ok start =>
    exact (TidyIf.iterations _ ⟨(regular.tidy_start starts).assigned, False.elim⟩ False.elim
      run).assigned

/-! ## A return value that loses its phi -/

/-- Checking `Closed` block by block. -/
def checksClosed (func : SSAFunction) : Bool :=
  func.blocks.entries.all fun entry => entry.2.uses.all fun v =>
    v.version = 0 || v ∈ func.blocks.entries.flatMap fun other => other.2.dsts

private theorem checksClosed_of_closed {func : SSAFunction} (closed : func.Closed) :
    func.checksClosed = true := by
  refine List.all_eq_true.mpr fun entry stored => List.all_eq_true.mpr fun v used => ?_
  rw [Bool.or_eq_true, decide_eq_true_eq, decide_eq_true_eq]
  rcases Nat.eq_zero_or_pos v.version with zero | positive
  · exact .inl zero
  · obtain ⟨d, definer, foundDefiner, defined⟩ :=
      closed (AList.mem_lookup_iff.mpr stored) used positive
    exact .inr (List.mem_flatMap.mpr ⟨⟨d, definer⟩, AList.mem_lookup_iff.mp foundDefiner, defined⟩)

/-- The part of `Regular` that concerns uses. -/
def checksUses (func : SSAFunction) : Bool :=
  func.blockList.all fun block =>
    (block.uses.all fun v => v.version = 0 || (constValue v).isNone) &&
      block.phis.all fun phi => phi.sources.all fun source =>
        source.2.version = 0 || source.1 ∈ func.blockOrder

theorem regular_of_checks {func : SSAFunction} (ssa : func.StrictSsa) (coherent : func.Coherent)
    (aligned : func.Aligned) (uses : func.checksUses = true) : func.Regular := by
  have checked : ∀ {addr block}, func.getBlock addr = some block →
      (∀ v ∈ block.uses, 0 < v.version → constValue v = none) ∧
      ∀ phi ∈ block.phis, ∀ source ∈ phi.sources, 0 < source.2.version →
        source.1 ∈ func.blockOrder := by
    intro addr block found
    have both := List.all_eq_true.mp uses block (ssa.assigned.mem_blockList.mpr ⟨addr, found⟩)
    rw [Bool.and_eq_true, List.all_eq_true, List.all_eq_true] at both
    refine ⟨fun v used positive => ?_, fun phi mem source inSources positive => ?_⟩
    · have literal := both.1 v used
      simpa [Nat.pos_iff_ne_zero.mp positive] using literal
    · have reached := List.all_eq_true.mp (both.2 phi mem) source inSources
      simpa [Nat.pos_iff_ne_zero.mp positive] using reached
  refine ⟨ssa, coherent, aligned, fun found => (checked found).1 _, ?_⟩
  intro addr block phi source found mem inSources positive
  have listed := (checked found).2 phi mem source inSources positive
  refine ((coherent.isReversePostorder.mem_iff _).mp listed).induction ?_ ?_
  · rw [show func.cfg.flow.root = func.flow.root from coherent.entry.symm]
    exact .root
  · exact fun p b _ reached edge =>
      reached.step (coherent.bijective.consistent.mem_successors.mpr edge)

/-- Two blocks copy the same register to `rax`, which is returned unless a third one
sets it. -/
def mergedCopies : List R2ILBlock :=
  [⟨0, 4, [.CBranch ⟨.Const, 8, 8⟩ ⟨.Register, 40, 1⟩], none⟩,
   ⟨4, 4, [.Copy ⟨.Register, 0, 8⟩ ⟨.Register, 24, 8⟩, .Branch ⟨.Const, 12, 8⟩], none⟩,
   ⟨8, 4, [.Copy ⟨.Register, 0, 8⟩ ⟨.Register, 24, 8⟩], none⟩,
   ⟨12, 4, [.CBranch ⟨.Const, 20, 8⟩ ⟨.Register, 41, 1⟩], none⟩,
   ⟨16, 4, [.Copy ⟨.Register, 0, 8⟩ ⟨.Const, 5, 8⟩], none⟩,
   ⟨20, 4, [.Return ⟨.Register, 48, 8⟩], none⟩]

def withRax : ArchSpec := ⟨"x86-64", 8, [⟨"rax", 0, 8⟩, ⟨"rbx", 24, 8⟩]⟩

/-- Dominators of the blocks of `mergedCopies`. -/
def mergedDominators : Nat → List Nat
  | 0 => [0]
  | 4 => [0, 4]
  | 8 => [0, 8]
  | 16 => [0, 12, 16]
  | 20 => [0, 12, 20]
  | _ => [0, 12]

/-- Two iterations of copy propagation alone. -/
def copiesOnly : OptimizationConfig where
  maxIterations := 2
  enableSccp := false
  enableConstProp := false
  enableInstCombine := false
  enableCopyProp := true
  enableCse := false
  enableDce := false
  preserveMemoryReads := false

/-- The function is regular as far as can be checked, and the second iteration leaves
a use without a definition. -/
theorem mergedCopies_runs : (fromBlocksRaw mergedCopies (some withRax)).all (fun func =>
    func.checksStrict mergedDominators && func.checksUses && decide func.Aligned &&
      match optimizeFunction true 0 copiesOnly func with
      | some (.ok after) => !after.checksClosed
      | _ => false) = true := by
  decide +kernel

theorem mergedCopies_regular : ∃ func after, fromBlocksRaw mergedCopies (some withRax) = some func ∧
    func.Regular ∧ optimizeFunction true 0 copiesOnly func = some (.ok after) ∧
      after.checksClosed = false := by
  obtain ⟨func, renamed, final, entered, build, built⟩ :
      ∃ func renamed final entered, fromBlocksRaw mergedCopies (some withRax) = some func ∧
        Built mergedCopies (some withRax) none func renamed final entered :=
    fromBlocksRawWithPolicy_built _ _ (some withRax) none
  have runs := mergedCopies_runs
  rw [build, Option.all_some, Bool.and_eq_true, Bool.and_eq_true, Bool.and_eq_true,
    decide_eq_true_eq] at runs
  obtain ⟨⟨⟨strict, uses⟩, aligned⟩, dangles⟩ := runs
  split at dangles
  · rename_i after optimized
    exact ⟨func, after, build, regular_of_checks (strictSsa_of_checksStrict _ strict)
      (coherent_of_built built (by decide)) aligned uses, optimized, by simpa using dangles⟩
  · cases dangles

theorem optimizeFunction_assigned_mergedCopies : ∃ func after,
    fromBlocksRaw mergedCopies (some withRax) = some func ∧
      optimizeFunction true 0 copiesOnly func = some (.ok after) ∧ after.Assigned := by
  obtain ⟨func, after, build, regular, optimized, -⟩ := mergedCopies_regular
  exact ⟨func, after, build, optimized, optimizeFunction_assigned regular _ _ _ optimized⟩

/-- The condition at the same function. -/
theorem copyPropagation_closed_mergedCopies : ∃ func,
    fromBlocksRaw mergedCopies (some withRax) = some func ∧ func.Regular ∧
      ((copyPropagation func).1.Closed ↔ func.CopiesSafely) := by
  obtain ⟨func, -, build, regular, -⟩ := mergedCopies_regular
  exact ⟨func, build, regular, (copyPropagation_closed regular).1⟩

/-- The phi in the middle merges two copies of one variable once these are
propagated, and the return block still reads it. -/
theorem copyPropagation_dangles : ¬ ∀ func : SSAFunction, func.Regular →
    (copyPropagation func).1.Closed ∧ ∀ checks fuel config after,
      config.enableCopyProp = true →
      optimizeFunction checks fuel config func = some (.ok after) → after.Closed := by
  intro always
  obtain ⟨func, after, -, regular, optimized, dangles⟩ := mergedCopies_regular
  have closed : after.Closed := (always func regular).2 true 0 copiesOnly after rfl optimized
  rw [checksClosed_of_closed closed] at dangles
  cases dangles

end SSAFunction

end R2Sleigh.Ssa
