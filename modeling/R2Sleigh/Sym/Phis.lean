import R2Sleigh.Flow.Scc
import R2Sleigh.Sym.ExploreMerge

/-!
Contract: the phis of a block as parallel assignments.

Owns `standsFor`.
-/

namespace R2Sleigh.Sym

open Il Lib Ssa List

variable {BV Formula Model : Type}

namespace SymExecutor

variable (executor : SymExecutor BV Formula)

/-- The register that is read for a variable; none is for a literal. -/
def readKey (var : SSAVar) : Option String :=
  if var.isConst || startsWith var.name "ram:" then none
  else some (displayName executor.toUppercase var)

/-- The phi writes the register that is read for the source. -/
def Feeds (incoming : Option Word) (phi : PhiNode) (src : SSAVar) : Prop :=
  phiSource incoming phi ≠ none ∧
    executor.readKey src = some (displayName executor.toUppercase phi.dst)

instance (incoming : Option Word) (phi : PhiNode) (src : SSAVar) :
    Decidable (executor.Feeds incoming phi src) := by
  unfold Feeds
  infer_instance

/-- The variable whose value before the phis a source has after them; the phis are
given with the last one first. -/
def standsFor (incoming : Option Word) : List PhiNode → SSAVar → SSAVar
  | [], src => src
  | phi :: earlier, src =>
    if executor.Feeds incoming phi src then
      standsFor incoming earlier ((phiSource incoming phi).getD src)
    else standsFor incoming earlier src

/-- The state after the phis of a block. -/
def executePhis (state : SymState BV Formula) (phis : List PhiNode) : SymState BV Formula :=
  phis.foldl (executor.executePhi state.prevPc) state

/-- Each destination holds the value that its source had before. -/
def PhisParallel (state : SymState BV Formula) (block : SSABlock) : Prop :=
  ∀ phi ∈ block.phis, ∀ src, phiSource state.prevPc phi = some src →
    (executor.executePhis state block.phis).registers.lookup
      (displayName executor.toUppercase phi.dst) = some (executor.readVar state src)

/-- The last phi that writes a register. -/
structure IsLastWriter (incoming : Option Word) (key : String) (before : List PhiNode)
    (phi : PhiNode) (after : List PhiNode) (src : SSAVar) : Prop where
  source : phiSource incoming phi = some src
  dst : displayName executor.toUppercase phi.dst = key
  last : ∀ later ∈ after, phiSource incoming later = none ∨
    displayName executor.toUppercase later.dst ≠ key

/-- What the source of the last phi with a destination stands for has, before the
phis, the value of the source of every phi with that destination. -/
def SourcesStand (state : SymState BV Formula) (block : SSABlock) : Prop :=
  ∀ phi ∈ block.phis, ∀ src, phiSource state.prevPc phi = some src →
    ∀ before last after lastSrc, block.phis = before ++ last :: after →
      executor.IsLastWriter state.prevPc (displayName executor.toUppercase phi.dst) before last after
        lastSrc →
      executor.readVar state (executor.standsFor state.prevPc before.reverse lastSrc) =
        executor.readVar state src

variable {executor} {state : SymState BV Formula}

theorem readVar_writeVar (state : SymState BV Formula) (dst src : SSAVar) (value : SymValue BV) :
    executor.readVar (executor.writeVar state dst value) src =
      if executor.readKey src = some (displayName executor.toUppercase dst) then value
      else executor.readVar state src := by
  unfold readVar readKey writeVar
  cases isConst : src.isConst with
  | true => simp
  | false =>
    cases isRam : startsWith src.name "ram:" with
    | true => simp
    | false =>
      simp only [Bool.false_eq_true, if_false, Bool.or_false]
      by_cases same : displayName executor.toUppercase src = displayName executor.toUppercase dst
      · rw [if_pos (by rw [same]), SymState.getRegisterSized, SymState.setRegister, same,
          AList.lookup_insert]
        rfl
      · rw [if_neg (by simpa using same), SymState.getRegisterSized, SymState.setRegister,
          AList.lookup_insert_ne same]
        rfl

variable {incoming : Option Word}

theorem executePhi_of_source {phi : PhiNode} {src : SSAVar}
    (selected : phiSource incoming phi = some src) (state : SymState BV Formula) :
    executor.executePhi incoming state phi =
      executor.writeVar state phi.dst (executor.readVar state src) := by
  rw [executePhi, selected]

/-- A variable read after some phis has the value that the variable it stands for had
before them. -/
theorem readVar_foldl_executePhi (incoming : Option Word) (before : List PhiNode) :
    ∀ src, executor.readVar (before.foldl (executor.executePhi incoming) state) src =
      executor.readVar state (executor.standsFor incoming before.reverse src) := by
  induction before using List.reverseRecOn with
  | nil => exact fun _ => rfl
  | append_singleton before phi ih =>
    intro src
    rw [foldl_append, foldl_cons, foldl_nil, reverse_append,
      reverse_singleton, singleton_append, standsFor]
    cases selected : phiSource incoming phi with
    | none =>
      rw [executePhi, selected, if_neg fun feeds => feeds.1 selected]
      exact ih src
    | some taken =>
      rw [executePhi_of_source selected, readVar_writeVar]
      by_cases isKey : executor.readKey src = some (displayName executor.toUppercase phi.dst)
      · rw [if_pos isKey, if_pos ⟨by rw [selected]; exact Option.some_ne_none taken, isKey⟩, Option.getD_some]
        exact ih taken
      · rw [if_neg isKey, if_neg fun feeds => isKey feeds.2]
        exact ih src

private theorem lookup_foldl_executePhi_of_others {key : String}
    (after : List PhiNode) : ∀ state : SymState BV Formula,
    (∀ later ∈ after, phiSource incoming later = none ∨
      displayName executor.toUppercase later.dst ≠ key) →
    (after.foldl (executor.executePhi incoming) state).registers.lookup key =
      state.registers.lookup key := by
  induction after with
  | nil => exact fun _ _ => rfl
  | cons phi rest ih =>
    intro state others
    obtain ⟨here, later⟩ := forall_mem_cons.mp others
    refine (ih _ later).trans ?_
    cases selected : phiSource incoming phi with
    | none => rw [executePhi, selected]
    | some src =>
      have other := here.resolve_left (by rw [selected]; exact Option.some_ne_none src)
      rw [executePhi_of_source selected]
      exact AList.lookup_insert_ne other.symm

/-- The last writer of a key decides what it holds. -/
theorem IsLastWriter.lookup {key : String} {before after : List PhiNode}
    {last : PhiNode} {src : SSAVar}
    (isLast : executor.IsLastWriter incoming key before last after src) :
    ((before ++ last :: after).foldl (executor.executePhi incoming) state).registers.lookup key =
      some (executor.readVar state (executor.standsFor incoming before.reverse src)) := by
  rw [foldl_append, foldl_cons, lookup_foldl_executePhi_of_others after _ isLast.last,
    executePhi_of_source isLast.source, readVar_foldl_executePhi]
  rw [← isLast.dst]
  exact AList.lookup_insert _

private theorem exists_isLastWriter {phis : List PhiNode} {phi : PhiNode}
    (mem : phi ∈ phis) {src : SSAVar} (selected : phiSource incoming phi = some src) :
    ∃ before last after lastSrc, phis = before ++ last :: after ∧
      executor.IsLastWriter incoming (displayName executor.toUppercase phi.dst) before last after
        lastSrc := by
  obtain ⟨before, last, after, split, ⟨writes, sameKey⟩, none⟩ := Flow.exists_last_split
    (p := fun other => phiSource incoming other ≠ none ∧
      displayName executor.toUppercase other.dst = displayName executor.toUppercase phi.dst)
    ⟨phi, mem, by rw [selected]; exact nofun, rfl⟩
  obtain ⟨lastSrc, isSource⟩ := Option.ne_none_iff_exists'.mp writes
  refine ⟨before, last, after, lastSrc, split, isSource, sameKey, fun later inAfter => ?_⟩
  exact Classical.or_iff_not_imp_left.mpr fun writesLater sameLater =>
    none later inAfter ⟨writesLater, sameLater⟩

/-- The phis act in parallel exactly if what the last source for each destination
stands for has the value of the phi's own source. -/
theorem phis_parallel_iff (executor : SymExecutor BV Formula) (state : SymState BV Formula)
    (block : SSABlock) : executor.PhisParallel state block ↔ executor.SourcesStand state block := by
  constructor
  · intro parallel phi mem src selected before last after lastSrc split isLast
    have holds := parallel phi mem src selected
    rw [executePhis, split, isLast.lookup] at holds
    exact Option.some.inj holds
  · intro stand phi mem src selected
    obtain ⟨before, last, after, lastSrc, split, isLast⟩ := exists_isLastWriter mem selected
    rw [executePhis, split, isLast.lookup]
    exact congrArg some (stand phi mem src selected before last after lastSrc split isLast)

end SymExecutor

/-- Two phis of a loop that change places on every turn. -/
def swapPhis : SSABlock :=
  ⟨4, 4, [], [⟨⟨"rax", 1, 8⟩, [(0, ⟨"rax", 0, 8⟩), (4, ⟨"rbx", 1, 8⟩)]⟩,
    ⟨⟨"rbx", 1, 8⟩, [(0, ⟨"rbx", 0, 8⟩), (4, ⟨"rax", 1, 8⟩)]⟩]⟩

/-- The loop comes from itself, with 1 and 2 in the two registers. -/
def beforeSwap : SymState Term (Assignment → Bool) :=
  { flagUnknown with
    registers := (AList.insert "rax_1" (.concrete 1 64 0) ∅).insert "rbx_1" (.concrete 2 64 0)
    prevPc := some 4 }

/-- The second phi reads what the first has just written. -/
theorem swap_is_not_parallel :
    ¬ mergingExplorer.executor.PhisParallel beforeSwap swapPhis := by
  intro parallel
  have second := parallel _ (mem_cons_of_mem _ mem_cons_self) ⟨"rax", 1, 8⟩ rfl
  have stored : ((mergingExplorer.executor.executePhis beforeSwap swapPhis.phis).registers.lookup
      "rbx_1").map SymValue.asConcrete = some (some 2) := by decide +kernel
  have before : (mergingExplorer.executor.readVar beforeSwap ⟨"rax", 1, 8⟩).asConcrete = some 1 := by
    decide +kernel
  rw [show displayName mergingExplorer.executor.toUppercase ⟨"rbx", 1, 8⟩ = "rbx_1" from rfl] at second
  rw [second, Option.map_some, before] at stored
  exact absurd stored (by decide)

end R2Sleigh.Sym
