import R2Sleigh.Sym.Explore
import R2Sleigh.Sym.MergeExact

/-!
Contract: phis of merged states.

Owns `PhisFrom` and `SafeMerge`.

A merge of states that come from different blocks forgets both, and a phi
without a known predecessor takes its first source.
-/

namespace R2Sleigh.Sym

open Lib Ssa List Option

variable {BV Formula Model : Type} [Z3Arith BV Formula Model]

def sourceOf (phi : PhiNode) (pred : Word) : Option SSAVar :=
  (phi.sources.find? fun source => source.1 = pred.toNat).map Prod.snd

/-- Each phi of the block, executed after those before it, assigns the value of
its source for a predecessor. -/
def PhisFrom (executor : SymExecutor BV Formula) (pred : Word) (state : SymState BV Formula)
    (block : SSABlock) (m : Model) : Prop :=
  ∀ before phi after, block.phis = before ++ phi :: after → ∀ src, sourceOf phi pred = some src →
    let reached := before.foldl (executor.executePhi state.prevPc) state
    ∃ value, executor.executePhi state.prevPc reached phi = executor.writeVar reached phi.dst value ∧
      value.denote m = (executor.readVar reached src).denote m

/-- The states merged come from one block, or the phis take their first sources
for both. -/
def SafeMerge (visit : Visit BV Formula) : Prop :=
  ∀ self other, visit.origins = [self, other] → self.prevPc = other.prevPc ∨
    ∀ block, visit.block = some block → ∀ phi ∈ block.phis,
      SymExecutor.phiSource self.prevPc phi = SymExecutor.phiSource none phi ∧
        SymExecutor.phiSource other.prevPc phi = SymExecutor.phiSource none phi

private theorem phiSource_of_sourceOf {phi : PhiNode} {pred : Word} {src : SSAVar}
    (found : sourceOf phi pred = some src) : SymExecutor.phiSource (some pred) phi = some src := by
  rw [SymExecutor.phiSource, bind_some]
  rw [sourceOf] at found
  rw [found, some_or]

/-- After a safe merge, phis take the sources that they take for each of the two
states. -/
theorem SafeMerge.phiSource_eq {visit : Visit BV Formula} (safe : SafeMerge visit)
    (selected : Selected visit.origins visit.state) {block : SSABlock}
    (isBlock : visit.block = some block) {phi : PhiNode} (mem : phi ∈ block.phis)
    {origin : SymState BV Formula} (isOrigin : origin ∈ visit.origins) :
    SymExecutor.phiSource visit.state.prevPc phi = SymExecutor.phiSource origin.prevPc phi := by
  generalize isOrigins : visit.origins = origins at selected isOrigin
  generalize isState : visit.state = state at selected
  cases selected with
  | single => rw [mem_singleton.mp isOrigin]
  | merged start self other samePc =>
    have isPrev : (SymState.mergeWith start self other).prevPc =
        if self.prevPc = other.prevPc then self.prevPc else none := rfl
    rw [isPrev]
    have cases : origin = self ∨ origin = other := by
      simpa using isOrigin
    by_cases samePrev : self.prevPc = other.prevPc
    · rw [if_pos samePrev]
      rcases cases with rfl | rfl
      · rfl
      · rw [samePrev]
    · rw [if_neg samePrev]
      obtain ⟨first, second⟩ :=
        ((safe self other isOrigins).resolve_left samePrev) block isBlock phi mem
      rcases cases with rfl | rfl
      · exact first.symm
      · exact second.symm

theorem Selected.satisfies {origins : List (SymState BV Formula)} {state : SymState BV Formula}
    (selected : Selected origins state) {m : Model} (holds : state.Satisfies m) :
    ∃ origin ∈ origins, origin.Satisfies m := by
  cases selected with
  | single => exact ⟨state, mem_singleton_self state, holds⟩
  | merged start self other samePc =>
    have either : Z3.holds BV m (Z3.or BV self.pathCondition other.pathCondition) :=
      (holds_andAll m _).mp holds _ (mem_singleton_self _)
    rw [Z3.holds_or] at either
    rcases either with first | second
    · exact ⟨self, by simp, first⟩
    · exact ⟨other, by simp, second⟩

/-- In every run without merges, or with safe ones only: each model of a state
explored is one of a state from the worklist, which is the initial state or was
pushed by an earlier iteration; and the phis take the values of the sources for
the block executed then. -/
theorem explored_phis_follow (explorer : PathExplorer BV Formula) (func : SSAFunction)
    (initialState : SymState BV Formula) (iterations : Nat) {n n' : Nat}
    {visits : List (Visit BV Formula)} {last : Exploration BV Formula}
    (runs : explore explorer func initialState iterations n = .ok ((visits, last), n'))
    (safe : explorer.config.mergeStates = false ∨ ∀ visit ∈ visits, SafeMerge visit) :
    ∀ (j : Nat) (visit : Visit BV Formula), visits[j]? = some visit →
      ∀ block, visit.block = some block → ∀ m : Model, visit.state.Satisfies m →
        (∃ origin ∈ visit.origins, origin.Satisfies m) ∧
        ∀ origin ∈ visit.origins, origin.Satisfies m →
          (origin = initialState ∨ ∃ (i : Nat) (earlier : Visit BV Formula), i < j ∧
            visits[i]? = some earlier ∧ origin ∈ earlier.pushed) ∧
          ∀ (i : Nat) (earlier : Visit BV Formula), visits[i]? = some earlier →
            origin ∈ earlier.pushed →
            PhisFrom explorer.executor earlier.state.pc visit.state block m := by
  have spec := exploreLoop_spec iterations runs
  intro j visit isVisit block isBlock m holds
  have mem := mem_of_getElem? isVisit
  have selected := spec.selected visit mem
  have safeMerge : SafeMerge visit := by
    rcases safe with off | all
    · intro self other isOrigins
      rw [spec.alone off visit mem] at isOrigins
      cases isOrigins
    · exact all visit mem
  refine ⟨selected.satisfies holds, fun origin isOrigin _ => ⟨?_, ?_⟩⟩
  · rcases spec.origins j visit isVisit origin isOrigin with isStart | pushed
    · exact .inl (mem_singleton.mp isStart)
    · exact .inr pushed
  · intro i earlier isEarlier isPushed before phi after isPhis src isSource
    have isPrev := spec.pushed earlier (mem_of_getElem? isEarlier) origin isPushed
    have inPhis : phi ∈ block.phis := by
      rw [isPhis]
      exact mem_append_right _ mem_cons_self
    have taken : SymExecutor.phiSource visit.state.prevPc phi = some src := by
      rw [safeMerge.phiSource_eq selected isBlock inPhis isOrigin, isPrev]
      exact phiSource_of_sourceOf isSource
    refine ⟨_, ?_, rfl⟩
    rw [SymExecutor.executePhi, taken]

omit [Z3Arith BV Formula Model] in
private theorem writeVar_injective {executor : SymExecutor BV Formula} {state : SymState BV Formula}
    {var : SSAVar} {first second : SymValue BV}
    (same : executor.writeVar state var first = executor.writeVar state var second) :
    first = second := by
  have stored := congrArg
    (fun state => state.registers.lookup (displayName executor.toUppercase var)) same
  simpa [SymExecutor.writeVar, SymState.setRegister] using stored

omit [Z3Arith BV Formula Model] in
theorem readVar_literal {executor : SymExecutor BV Formula} {state : SymState BV Formula} {var : SSAVar}
    (isConst : var.isConst = true) : executor.readVar state var =
      .ofWord ((fromStrRadix 16 (var.name.toList.drop 6)).getD 0) (var.size * 8) :=
  if_pos isConst

section Diamond

/-- Two ways from block 0 to block 12, whose phis are given. -/
def diamondCfg : CFG :=
  (CFG.fromBlocks [⟨0, 4, [.CBranch ⟨.Const, 8, 8⟩ ⟨.Register, 0, 1⟩], none⟩,
    ⟨4, 4, [.Branch ⟨.Const, 12, 8⟩], none⟩, ⟨8, 4, [.Branch ⟨.Const, 12, 8⟩], none⟩,
    ⟨12, 4, [.Return ⟨.Register, 8, 8⟩], none⟩]).getD (CFG.new 0)

def diamond (phis : List PhiNode) : SSAFunction where
  entry := 0
  cfg := diamondCfg
  domtree := DomTree.compute diamondCfg
  blocks :=
    (((AList.insert 0 ⟨0, 4, [.CBranch ⟨"const:8", 0, 8⟩ ⟨"zf", 0, 1⟩], []⟩ ∅).insert 4
      ⟨4, 4, [.Branch ⟨"const:c", 0, 8⟩], []⟩).insert 8
      ⟨8, 4, [.Branch ⟨"const:c", 0, 8⟩], []⟩).insert 12 ⟨12, 4, [.Return ⟨"pc", 0, 8⟩], phis⟩
  blockOrder := [0, 8, 4, 12]

def flagUnknown : SymState Term (Assignment → Bool) where
  registers := AList.insert "zf_0" (.newSymbolic "flag" 8) ∅
  memory := .new false
  constraints := []
  pc := 0
  prevPc := none
  active := true
  exitStatus := none
  depth := 0

def mergingExplorer : PathExplorer Term (Assignment → Bool) where
  executor :=
    { checks := false
      toUppercase := id
      enumerate := fun _ _ _ => ([], false)
      callHooks := ∅ }
  isSat _ := true
  config := ⟨1000, 100, .Bfs, true, true⟩

/-- One on the way over block 4, two on the way over block 8. -/
def oneOrTwo : PhiNode := ⟨⟨"x", 1, 8⟩, [(4, ⟨"const:1", 0, 8⟩), (8, ⟨"const:2", 0, 8⟩)]⟩

/-- The visits of a run that does not panic. -/
def visitsOf (phis : List PhiNode) : List (Visit Term (Assignment → Bool)) :=
  match explore mergingExplorer (diamond phis) flagUnknown 6 0 with
  | .ok ((visits, _), _) => visits
  | .error _ => []

theorem explore_diamond (phis : List PhiNode) (some : visitsOf phis ≠ []) :
    ∃ last n', explore mergingExplorer (diamond phis) flagUnknown 6 0 =
      .ok ((visitsOf phis, last), n') := by
  unfold visitsOf at some ⊢
  cases runs : explore mergingExplorer (diamond phis) flagUnknown 6 0 with
  | ok result => exact ⟨result.1.2, result.2, rfl⟩
  | error panic =>
    rw [runs] at some
    exact absurd rfl some

/-- The join is reached over block 8 with a flag that is not zero, and its phi
takes the source of block 4. -/
theorem merged_phi_differs : ¬ ∀ (func : SSAFunction) (initialState : SymState Term (Assignment → Bool))
    (visits : List (Visit Term (Assignment → Bool))) (last : Exploration Term (Assignment → Bool))
    (n' : Nat),
    explore mergingExplorer func initialState 6 0 = .ok ((visits, last), n') →
    ∀ visit ∈ visits, ∀ block, visit.block = some block → ∀ m : Assignment,
      ∀ origin ∈ visit.origins, origin.Satisfies m → ∀ earlier ∈ visits, origin ∈ earlier.pushed →
        PhisFrom mergingExplorer.executor earlier.state.pc visit.state block m := by
  intro follows
  have facts : ((visitsOf [oneOrTwo])[3]?.map fun visit => (visit.state.prevPc,
      visit.origins.map fun origin => (origin.prevPc, origin.pathCondition fun _ _ => 1),
      visit.block.map SSABlock.phis)) =
        some (none, [(some 8, true), (some 4, false)], some [oneOrTwo]) := by
    decide +kernel
  obtain ⟨last, n', runs⟩ := explore_diamond [oneOrTwo] fun none => by
    rw [none] at facts
    cases facts
  have spec := exploreLoop_spec 6 runs
  obtain ⟨visit, isVisit, facts⟩ := map_eq_some_iff.mp facts
  obtain ⟨isPrev, facts⟩ := Prod.mk.inj facts
  obtain ⟨isOrigins, isPhis⟩ := Prod.mk.inj facts
  obtain ⟨block, isBlock, isPhis⟩ := map_eq_some_iff.mp isPhis
  obtain ⟨origin, inOrigins, isOrigin⟩ :
      ∃ origin ∈ visit.origins, (origin.prevPc, origin.pathCondition fun _ _ => 1) = (some 8, true) := by
    rw [← List.mem_map, isOrigins]
    exact mem_cons_self
  obtain ⟨fromEight, satisfied⟩ := Prod.mk.inj isOrigin
  rcases spec.origins 3 visit isVisit origin inOrigins with isStart | ⟨i, earlier, -, isEarlier,
    isPushed⟩
  · rw [mem_singleton.mp isStart] at fromEight
    cases fromEight
  · have isPc := spec.pushed earlier (mem_of_getElem? isEarlier) origin isPushed
    rw [fromEight] at isPc
    have phisFrom := follows _ _ _ last n' runs visit (mem_of_getElem? isVisit) block isBlock
      (fun _ _ => 1) origin inOrigins satisfied earlier (mem_of_getElem? isEarlier) isPushed
    rw [← some.inj isPc] at phisFrom
    obtain ⟨value, assigns, denotes⟩ := phisFrom [] oneOrTwo [] isPhis ⟨"const:2", 0, 8⟩ rfl
    rw [isPrev] at assigns
    have isFirst : mergingExplorer.executor.readVar visit.state ⟨"const:1", 0, 8⟩ = value :=
      writeVar_injective assigns
    rw [← isFirst, readVar_literal rfl, readVar_literal rfl] at denotes
    exact absurd denotes (by decide +kernel)

def sameOnBoth : PhiNode := ⟨⟨"x", 1, 8⟩, [(4, ⟨"zf", 0, 1⟩), (8, ⟨"zf", 0, 1⟩)]⟩

/-- On two paths into a block, each phi takes the source that it takes on none. -/
def takesOneSource (visit : Visit Term (Assignment → Bool)) : Bool :=
  match visit.origins with
  | [self, other] => (visit.block.map SSABlock.phis).all fun phis => phis.all fun phi =>
    SymExecutor.phiSource self.prevPc phi = SymExecutor.phiSource none phi ∧
      SymExecutor.phiSource other.prevPc phi = SymExecutor.phiSource none phi
  | _ => true

theorem same_phi_follows : (visitsOf [sameOnBoth]).length = 4 ∧
    ∀ (j : Nat) (visit : Visit Term (Assignment → Bool)),
    (visitsOf [sameOnBoth])[j]? = some visit → ∀ block, visit.block = some block →
      ∀ m : Assignment, visit.state.Satisfies m →
        (∃ origin ∈ visit.origins, origin.Satisfies m) ∧
        ∀ origin ∈ visit.origins, origin.Satisfies m →
          (origin = flagUnknown ∨ ∃ (i : Nat) (earlier : Visit Term (Assignment → Bool)), i < j ∧
            (visitsOf [sameOnBoth])[i]? = some earlier ∧ origin ∈ earlier.pushed) ∧
          ∀ (i : Nat) (earlier : Visit Term (Assignment → Bool)),
            (visitsOf [sameOnBoth])[i]? = some earlier → origin ∈ earlier.pushed →
            PhisFrom mergingExplorer.executor earlier.state.pc visit.state block m := by
  have checked : (visitsOf [sameOnBoth]).all takesOneSource = true := by decide +kernel
  have ran : (visitsOf [sameOnBoth]).length = 4 := by decide +kernel
  obtain ⟨last, n', runs⟩ := explore_diamond [sameOnBoth] fun none => by
    rw [none] at ran
    cases ran
  refine ⟨ran, explored_phis_follow mergingExplorer _ flagUnknown 6 runs (.inr ?_)⟩
  intro visit mem self other isOrigins
  refine .inr fun block isBlock phi inPhis => ?_
  have safe := List.all_eq_true.mp checked visit mem
  rw [takesOneSource, isOrigins, isBlock] at safe
  exact of_decide_eq_true (List.all_eq_true.mp safe phi inPhis)

end Diamond

end R2Sleigh.Sym
