import R2Sleigh.Sym.ExploreMerge

/-!
Contract: what the exploration loops say about the feasibility of paths.

Owns `SymSolver.isSat`, `findPathTo`, `findPathsTo` and `findPathAvoiding`.
-/

namespace R2Sleigh.Sym

open Ssa List Option

variable {BV Formula Model : Type}

inductive SatResult where
  | sat | unsat | unknown
deriving DecidableEq, Repr

/-- `is_sat` of a solver that holds no assertions of its own. -/
def SymSolver.isSat (check : List Formula → SatResult) (state : SymState BV Formula) : Bool :=
  check state.constraints == .sat

def PathExplorer.withSolver (executor : SymExecutor BV Formula)
    (check : List Formula → SatResult) (config : ExploreConfig) : PathExplorer BV Formula where
  executor := executor
  isSat := SymSolver.isSat check
  config := config

/-! ## Searches -/

/-- How a search differs from the others: what it does with a state on arrival, whether it
asks about states at the depth limit and without a block, which states it keeps, and
whether it ends with the first match. -/
inductive Arrival where
  | skip | ask | goOn
deriving DecidableEq, Repr

structure Goal where
  arrival : Word → Arrival
  asksAtEnd : Bool
  keeps : Word → Bool
  once : Bool

/-- A search in progress. `dropped` records the states given up because the solver did not
find them satisfiable. -/
structure PathSearch (BV Formula : Type) where
  worklist : List (SymState BV Formula)
  found : List (PathResult BV Formula)
  dropped : List (SymState BV Formula)
  statesExplored : Nat
  returned : Bool

section Searches

variable [Z3Arith BV Formula Model] (explorer : PathExplorer BV Formula) (func : SSAFunction)
  (goal : Goal)

/-- A match, if the solver finds the state satisfiable. -/
def PathSearch.ask (search : PathSearch BV Formula) (state : SymState BV Formula) :
    PathSearch BV Formula :=
  if explorer.isSat state then
    { search with
      found := search.found ++ [PathResult.new state true]
      returned := goal.once }
  else { search with dropped := search.dropped ++ [state] }

def searchBlock (search : PathSearch BV Formula) (state : SymState BV Formula) (block : SSABlock) :
    Exec (PathSearch BV Formula) := do
  let blockAddr := state.pc
  let (after, outcome) ← explorer.executor.executeBlock state block
  match outcome with
  | .error _ => return search
  | .ok forkedStates =>
    let forked := (forkedStates.map fun forked => { forked with prevPc := some blockAddr }).filter
      fun forked => goal.keeps forked.pc
    let continued :=
      if !after.isTerminated && goal.keeps after.pc then [continueAt func blockAddr after] else []
    return { search with worklist := search.worklist ++ forked ++ continued }

/-- One iteration. -/
def searchStep (search : PathSearch BV Formula) : Exec (Option (PathSearch BV Formula)) := do
  if search.returned then return none
  match ← selectState explorer search.worklist with
  | none => return none
  | some (_, state, rest) =>
    let search := { search with worklist := rest }
    match goal.arrival state.pc with
    | .skip => return some search
    | .ask => return some (search.ask explorer goal state)
    | .goOn =>
      if explorer.config.maxStates ≤ search.statesExplored then return none
      if explorer.config.maxDepth ≤ state.depth then
        return some (if goal.asksAtEnd then search.ask explorer goal state else search)
      let search := { search with statesExplored := search.statesExplored + 1 }
      if explorer.config.pruneInfeasible && !explorer.isSat state then
        return some { search with dropped := search.dropped ++ [state] }
      match func.getBlock state.pc.toNat with
      | none =>
        return some (if goal.asksAtEnd then search.ask explorer goal state else search)
      | some block => return some (← searchBlock explorer func goal search state block)

def searchLoop : Nat → PathSearch BV Formula → Exec (PathSearch BV Formula)
  | 0, search => return search
  | iterations + 1, search => do
      match ← searchStep explorer func goal search with
      | none => return search
      | some next => searchLoop iterations next

end Searches

def Goal.pathTo (targetAddr : Word) (once : Bool) : Goal where
  arrival pc := if pc = targetAddr then .ask else .goOn
  asksAtEnd := false
  keeps _ := true
  once := once

def Goal.avoiding (avoidAddrs : List Word) : Goal where
  arrival pc := if pc ∈ avoidAddrs then .skip else .goOn
  asksAtEnd := true
  keeps pc := !decide (pc ∈ avoidAddrs)
  once := true

section Functions

variable [Z3Arith BV Formula Model] (explorer : PathExplorer BV Formula) (func : SSAFunction)
  (initialState : SymState BV Formula)

/-- A search from an initial state; the count of states goes on from earlier calls. -/
def searchFrom (goal : Goal) (statesExplored iterations : Nat) : Exec (PathSearch BV Formula) :=
  searchLoop explorer func goal iterations ⟨[initialState], [], [], statesExplored, false⟩

/-- The result of the source is the first of those found. -/
def findPathTo (targetAddr : Word) (statesExplored iterations : Nat) :
    Exec (PathSearch BV Formula) :=
  searchFrom explorer func initialState (.pathTo targetAddr true) statesExplored iterations

def findPathsTo (targetAddr : Word) (statesExplored iterations : Nat) :
    Exec (PathSearch BV Formula) :=
  searchFrom explorer func initialState (.pathTo targetAddr false) statesExplored iterations

/-- The result of the source is the first of those found. -/
def findPathAvoiding (avoidAddrs : List Word) (statesExplored iterations : Nat) :
    Exec (PathSearch BV Formula) :=
  searchFrom explorer func initialState (.avoiding avoidAddrs) statesExplored iterations

end Functions

/-! ## Verdicts -/

section Verdicts

variable [Z3Arith BV Formula Model]

def Satisfiable (state : SymState BV Formula) : Prop :=
  ∃ m : Model, ∀ c ∈ state.constraints, Z3.holds BV m c

variable (BV) in
structure SoundSolver (check : List Formula → SatResult) : Prop where
  sat : ∀ formulas, check formulas = .sat → ∃ m : Model, ∀ c ∈ formulas, Z3.holds BV m c
  unsat : ∀ formulas, check formulas = .unsat → ¬ ∃ m : Model, ∀ c ∈ formulas, Z3.holds BV m c

def PathResult.Truthful (result : PathResult BV Formula) : Prop :=
  result.feasible = true ↔ Satisfiable result.state

/-- An iteration of `explore` drops its state because it is not found satisfiable. -/
def Pruned (explorer : PathExplorer BV Formula) (visit : Visit BV Formula) : Prop :=
  ¬ explorer.config.maxDepth ≤ visit.state.depth ∧
    (explorer.config.pruneInfeasible && !explorer.isSat visit.state) = true

/-- All results are truthful, and all states dropped are unsatisfiable. -/
def TruthfulRun (explorer : PathExplorer BV Formula) (visits : List (Visit BV Formula))
    (results : List (PathResult BV Formula)) : Prop :=
  (∀ result ∈ results, result.Truthful) ∧
    ∀ visit ∈ visits, Pruned explorer visit → ¬ Satisfiable visit.state

/-- All matches are truthful, and all states dropped are unsatisfiable. -/
def PathSearch.Truthful (search : PathSearch BV Formula) : Prop :=
  (∀ result ∈ search.found, result.Truthful) ∧ ∀ state ∈ search.dropped, ¬ Satisfiable state

/-- Where the solver does not know, the state is unsatisfiable. -/
def Decided (check : List Formula → SatResult) (state : SymState BV Formula) : Prop :=
  check state.constraints = .unknown → ¬ Satisfiable state

variable {check : List Formula → SatResult} {state : SymState BV Formula}

theorem isSat_iff_of_decided (sound : SoundSolver BV check) :
    (SymSolver.isSat check state = true ↔ Satisfiable state) ↔ Decided check state := by
  unfold SymSolver.isSat Decided
  cases answer : check state.constraints with
  | sat => exact iff_of_true (iff_of_true rfl (sound.sat _ answer)) (by simp)
  | unsat => exact iff_of_true (iff_of_false (by decide) (sound.unsat _ answer)) (by simp)
  | unknown => simp

theorem unsat_iff_decided (sound : SoundSolver BV check) :
    (SymSolver.isSat check state = false → ¬ Satisfiable state) ↔ Decided check state := by
  rw [← isSat_iff_of_decided sound]
  constructor
  · intro right
    refine ⟨fun found => ?_, fun satisfiable => ?_⟩
    · exact sound.sat _ (beq_iff_eq.mp found)
    · by_contra notFound
      exact right (by simpa using notFound) satisfiable
  · intro same notFound satisfiable
    rw [same.mpr satisfiable] at notFound
    cases notFound

theorem satisfiable_of_isSat (sound : SoundSolver BV check)
    (found : SymSolver.isSat check state = true) : Satisfiable state :=
  sound.sat _ (beq_iff_eq.mp found)

end Verdicts

/-! ## Searches -/

section SearchVerdicts

variable [Z3Arith BV Formula Model] (executor : SymExecutor BV Formula)
  (check : List Formula → SatResult) (config : ExploreConfig) (func : SSAFunction) (goal : Goal)

/-- What an iteration of a search needs of the state it takes: the solver decides each
question it is asked. -/
def SearchCondition (statesExplored : Nat) (state : SymState BV Formula) : Prop :=
  match goal.arrival state.pc with
  | .skip => True
  | .ask => Decided check state
  | .goOn => ¬ config.maxStates ≤ statesExplored →
      if config.maxDepth ≤ state.depth then goal.asksAtEnd = true → Decided check state
      else config.pruneInfeasible = true ∨
        goal.asksAtEnd = true ∧ func.getBlock state.pc.toNat = none → Decided check state

/-- Every iteration of a run meets its condition. -/
def EverySearchStep : Nat → PathSearch BV Formula → Nat → Prop
  | 0, _, _ => True
  | iterations + 1, search, n => ∀ next n',
      searchStep (.withSolver executor check config) func goal search n = .ok (some next, n') →
      (∀ origins state rest k, selectState (.withSolver executor check config) search.worklist n =
          (some (origins, state, rest), k) →
        SearchCondition check config func goal search.statesExplored state) ∧
      EverySearchStep iterations next n'

variable {executor check config func goal}

/-- A state that passes the pruning is found satisfiable or not asked about. -/
theorem decided_of_not_pruned (sound : SoundSolver BV check) {state : SymState BV Formula}
    (kept : ¬ (config.pruneInfeasible && !SymSolver.isSat check state) = true)
    (prunes : config.pruneInfeasible = true) : Decided check state := by
  have found : SymSolver.isSat check state = true := by simpa [prunes] using kept
  exact (isSat_iff_of_decided sound).mp (iff_of_true found (satisfiable_of_isSat sound found))

theorem truthful_ask (sound : SoundSolver BV check) {search : PathSearch BV Formula}
    {state : SymState BV Formula} :
    (search.ask (.withSolver executor check config) goal state).Truthful ↔
      search.Truthful ∧ Decided check state := by
  unfold PathSearch.ask PathExplorer.withSolver
  by_cases found : SymSolver.isSat check state = true
  · have satisfiable := satisfiable_of_isSat sound found
    have decided : Decided check state :=
      (isSat_iff_of_decided sound).mp (iff_of_true found satisfiable)
    have isTrue : (PathResult.new state true).Truthful := iff_of_true rfl satisfiable
    rw [if_pos found, and_iff_left decided]
    unfold PathSearch.Truthful
    rw [forall_mem_append, forall_mem_singleton, and_iff_left isTrue]
  · have notFound : SymSolver.isSat check state = false := by simpa using found
    rw [if_neg found, ← unsat_iff_decided sound, forall_prop_of_true notFound]
    unfold PathSearch.Truthful
    rw [forall_mem_append, forall_mem_singleton, and_assoc]

section

variable {search next : PathSearch BV Formula}

theorem truthful_congr (found : next.found = search.found)
    (dropped : next.dropped = search.dropped) : next.Truthful ↔ search.Truthful := by
  unfold PathSearch.Truthful
  rw [found, dropped]

private theorem truthful_searchBlock {state : SymState BV Formula}
    {block : SSABlock} {n n' : Nat}
    (ran : searchBlock (.withSolver executor check config) func goal search state block n =
      .ok (next, n')) : next.Truthful ↔ search.Truthful := by
  obtain ⟨⟨after, outcome⟩, k, -, ran⟩ := exec_bind.mp ran
  cases outcome with
  | error message =>
    obtain ⟨rfl, -⟩ := exec_pure.mp ran
    exact Iff.rfl
  | ok forked =>
    obtain ⟨rfl, -⟩ := exec_pure.mp ran
    exact truthful_congr rfl rfl

/-- One iteration keeps the verdicts truthful exactly if it meets its condition. -/
theorem truthful_searchStep (sound : SoundSolver BV check)
    {n n' : Nat} (ran : searchStep (.withSolver executor check config) func goal search n =
      .ok (some next, n')) :
    ∃ origins state rest k, selectState (.withSolver executor check config) search.worklist n =
        (some (origins, state, rest), k) ∧
      (next.Truthful ↔ search.Truthful ∧
        SearchCondition check config func goal search.statesExplored state) := by
  unfold searchStep at ran
  by_cases returned : search.returned = true
  · rw [if_pos returned] at ran
    cases (exec_pure.mp ran).1
  rw [if_neg returned] at ran
  obtain ⟨selection, k, selects, ran⟩ := exec_bind.mp ran
  have selects : selectState (.withSolver executor check config) search.worklist n =
      (selection, k) := Except.ok.inj selects
  cases selection with
  | none => cases (exec_pure.mp ran).1
  | some selection =>
    obtain ⟨origins, state, rest⟩ := selection
    refine ⟨origins, state, rest, k, selects, ?_⟩
    dsimp only at ran
    unfold SearchCondition
    cases arrives : goal.arrival state.pc with
    | skip =>
      rw [arrives] at ran
      obtain rfl := some.inj (exec_pure.mp ran).1
      exact (and_iff_left trivial).symm
    | ask =>
      rw [arrives] at ran
      obtain rfl := some.inj (exec_pure.mp ran).1
      exact (truthful_ask sound).trans (and_congr_left' (truthful_congr rfl rfl))
    | goOn =>
      rw [arrives] at ran
      unfold PathExplorer.withSolver at ran
      -- What is asked about a state without a successor.
      have asked : ∀ rest explored, (if goal.asksAtEnd = true then
          ({ search with worklist := rest, statesExplored := explored } :
            PathSearch BV Formula).ask (.withSolver executor check config) goal state
          else { search with worklist := rest, statesExplored := explored }).Truthful ↔
            search.Truthful ∧ (goal.asksAtEnd = true → Decided check state) := by
        intro rest explored
        by_cases asks : goal.asksAtEnd = true
        · rw [if_pos asks, forall_prop_of_true asks]
          exact (truthful_ask sound).trans (and_congr_left' (truthful_congr rfl rfl))
        · rw [if_neg asks, and_iff_left fun yes => absurd yes asks]
          exact truthful_congr rfl rfl
      by_cases limit : config.maxStates ≤ search.statesExplored
      · rw [if_pos limit] at ran
        cases (exec_pure.mp ran).1
      rw [if_neg limit] at ran
      rw [forall_prop_of_true limit]
      by_cases deep : config.maxDepth ≤ state.depth
      · rw [if_pos deep] at ran
        obtain rfl := some.inj (exec_pure.mp ran).1
        rw [if_pos deep]
        exact asked rest search.statesExplored
      rw [if_neg deep] at ran ⊢
      by_cases pruned : (config.pruneInfeasible && !SymSolver.isSat check state) = true
      · rw [if_pos pruned] at ran
        obtain rfl := some.inj (exec_pure.mp ran).1
        obtain ⟨prunes, notFound⟩ := Bool.and_eq_true_iff.mp pruned
        rw [forall_prop_of_true (.inl prunes), ← unsat_iff_decided sound,
          forall_prop_of_true (by simpa using notFound)]
        unfold PathSearch.Truthful
        rw [forall_mem_append, forall_mem_singleton, and_assoc]
      rw [if_neg pruned] at ran
      have passed := decided_of_not_pruned sound pruned
      cases isBlock : func.getBlock state.pc.toNat with
      | none =>
        rw [isBlock] at ran
        obtain rfl := some.inj (exec_pure.mp ran).1
        refine (asked _ _).trans ?_
        rw [and_iff_left rfl, or_imp, and_iff_right passed]
      | some block =>
        rw [isBlock] at ran
        obtain ⟨next', k', executes, ran⟩ := exec_bind.mp ran
        obtain rfl := some.inj (exec_pure.mp ran).1
        rw [truthful_searchBlock executes, or_imp, and_iff_right passed]
        exact (truthful_congr rfl rfl).trans
          (and_iff_left fun impossible => absurd impossible.2 (by simp)).symm

end

/-- The same for a search. -/
theorem truthful_searchLoop (sound : SoundSolver BV check) :
    ∀ (iterations : Nat) {search last : PathSearch BV Formula} {n n' : Nat},
      searchLoop (.withSolver executor check config) func goal iterations search n =
        .ok (last, n') →
      (last.Truthful ↔ search.Truthful ∧
        EverySearchStep executor check config func goal iterations search n)
  | 0, search, last, n, n', ran => by
    obtain ⟨rfl, -⟩ := exec_pure.mp ran
    exact (and_iff_left trivial).symm
  | iterations + 1, search, last, n, n', ran => by
    obtain ⟨next, k, steps, ran⟩ := exec_bind.mp ran
    cases next with
    | none =>
      obtain ⟨rfl, -⟩ := exec_pure.mp ran
      refine (and_iff_left fun next n' steps' => ?_).symm
      rw [steps] at steps'
      cases steps'
    | some next =>
      obtain ⟨origins, state, rest, k', selects, step⟩ := truthful_searchStep sound steps
      rw [truthful_searchLoop sound iterations ran, step, and_assoc]
      refine and_congr_right' ⟨?_, fun all => ?_⟩
      · rintro ⟨condition, later⟩ next' j steps'
        cases steps.symm.trans steps'
        refine ⟨fun origins' state' rest' j selects' => ?_, later⟩
        cases selects.symm.trans selects'
        exact condition
      · obtain ⟨condition, later⟩ := all next k steps
        exact ⟨condition origins state rest k' selects, later⟩

end SearchVerdicts

/-! ## Exploration -/

section ExploreVerdicts

variable [Z3Arith BV Formula Model] (executor : SymExecutor BV Formula)
  (check : List Formula → SatResult) (config : ExploreConfig) (func : SSAFunction)

/-- What an iteration of `explore` needs of the state it takes: it is satisfiable where it
is called feasible unasked, at the depth limit and, without pruning, where it has no block;
a state after an error, which is called infeasible unasked, is unsatisfiable; and the
solver decides each question it is asked. -/
def ExploreCondition (state : SymState BV Formula) (n : Nat) : Prop :=
  if config.maxDepth ≤ state.depth then Satisfiable state
  else
    (config.pruneInfeasible = true → Decided check state) ∧
    ((config.pruneInfeasible && !SymSolver.isSat check state) = false →
      match func.getBlock state.pc.toNat with
      | none => Satisfiable state
      | some block => ∀ after outcome k, executor.executeBlock state block n =
          .ok ((after, outcome), k) →
          match outcome with
          | .error _ => ¬ Satisfiable after
          | .ok _ => after.isTerminated = true → Decided check after)

/-- Every iteration of a run meets its condition. -/
def EveryExploreStep : Nat → Exploration BV Formula → Nat → Prop
  | 0, _, _ => True
  | iterations + 1, exploration, n => ∀ visit next n',
      exploreStep (.withSolver executor check config) func exploration n =
        .ok (some (visit, next), n') →
      (∀ origins state rest k,
        selectState (.withSolver executor check config) exploration.worklist n =
          (some (origins, state, rest), k) →
        ExploreCondition executor check config func state k) ∧
      EveryExploreStep iterations next n'

variable {executor check config func}

def AddsTruthful (added : List (PathResult BV Formula)) : Prop := ∀ result ∈ added, result.Truthful

theorem addsTruthful_singleton {state : SymState BV Formula} {status : ExitStatus}
    {feasible : Bool} : AddsTruthful [PathResult.new (state.terminate status) feasible] ↔
      (feasible = true ↔ Satisfiable state) :=
  forall_mem_singleton

section

variable {exploration next : Exploration BV Formula} {visit : Visit BV Formula} {n n' : Nat}
  (sound : SoundSolver BV check)
include sound

theorem executeState_results {origins : List (SymState BV Formula)} {state : SymState BV Formula}
    {block : SSABlock}
    (ran : executeState (.withSolver executor check config) func origins state exploration block n =
      .ok ((visit, next), n')) :
    ∃ added, next.results = exploration.results ++ added ∧ (AddsTruthful added ↔
      ∀ after outcome k, executor.executeBlock state block n = .ok ((after, outcome), k) →
        match outcome with
        | .error _ => ¬ Satisfiable after
        | .ok _ => after.isTerminated = true → Decided check after) := by
  obtain ⟨⟨after, outcome⟩, k, executes, ran⟩ := exec_bind.mp ran
  -- The block is executed once.
  have once : ∀ (condition : SymState BV Formula →
      Except String (List (SymState BV Formula)) → Prop),
      (∀ after' outcome' k', executor.executeBlock state block n = .ok ((after', outcome'), k') →
        condition after' outcome') ↔ condition after outcome := by
    intro condition
    constructor
    · intro all
      exact all after outcome k executes
    · intro one after' outcome' k' executes'
      cases executes.symm.trans executes'
      exact one
  rw [once fun after outcome => match outcome with
    | .error _ => ¬ Satisfiable after
    | .ok _ => after.isTerminated = true → Decided check after]
  cases outcome with
  | error message =>
    obtain ⟨⟨⟩, -⟩ := exec_pure.mp ran
    refine ⟨_, rfl, ?_⟩
    rw [addsTruthful_singleton]
    simp
  | ok forked =>
    dsimp only at ran ⊢
    by_cases ended : after.isTerminated = true
    · rw [if_pos ended] at ran
      obtain ⟨⟨⟩, -⟩ := exec_pure.mp ran
      refine ⟨_, rfl, ?_⟩
      rw [forall_prop_of_true ended, ← isSat_iff_of_decided sound]
      exact forall_mem_singleton
    · rw [if_neg ended] at ran
      obtain ⟨⟨⟩, -⟩ := exec_pure.mp ran
      exact ⟨[], (append_nil _).symm, iff_of_true nofun fun terminated => absurd terminated ended⟩

/-- One iteration says only the truth exactly if it meets its condition. -/
theorem exploreStep_truthful
    (ran : exploreStep (.withSolver executor check config) func exploration n =
      .ok (some (visit, next), n')) :
    ∃ origins state rest k added,
      selectState (.withSolver executor check config) exploration.worklist n =
        (some (origins, state, rest), k) ∧
      next.results = exploration.results ++ added ∧
      ((AddsTruthful added ∧
        (Pruned (.withSolver executor check config) visit → ¬ Satisfiable visit.state)) ↔
        ExploreCondition executor check config func state k) := by
  obtain ⟨selection, k, selects, ran⟩ := exec_bind.mp ran
  have selects : selectState (.withSolver executor check config) exploration.worklist n =
      (selection, k) := Except.ok.inj selects
  cases selection with
  | none => cases (exec_pure.mp ran).1
  | some selection =>
    obtain ⟨origins, state, rest⟩ := selection
    refine ⟨origins, state, rest, k, ?_⟩
    unfold PathExplorer.withSolver at ran
    dsimp only at ran
    unfold ExploreCondition
    by_cases limit : config.maxStates ≤ exploration.stats.statesExplored
    · rw [if_pos limit] at ran
      cases (exec_pure.mp ran).1
    rw [if_neg limit] at ran
    by_cases deep : config.maxDepth ≤ state.depth
    · rw [if_pos deep] at ran
      obtain ⟨rfl, rfl⟩ := Prod.mk.inj (some.inj (exec_pure.mp ran).1)
      refine ⟨_, selects, rfl, ?_⟩
      have notPruned : Pruned (.withSolver executor check config)
          ⟨origins, state, none, []⟩ → ¬ Satisfiable state :=
        fun pruned => absurd deep pruned.1
      rw [if_pos deep, and_iff_left notPruned, addsTruthful_singleton]
      simp
    rw [if_neg deep] at ran ⊢
    by_cases pruned : (config.pruneInfeasible && !SymSolver.isSat check state) = true
    · rw [if_pos pruned] at ran
      obtain ⟨rfl, rfl⟩ := Prod.mk.inj (some.inj (exec_pure.mp ran).1)
      refine ⟨[], selects, (append_nil _).symm, ?_⟩
      obtain ⟨prunes, notFound⟩ := Bool.and_eq_true_iff.mp pruned
      have nothing : AddsTruthful ([] : List (PathResult BV Formula)) := nofun
      have isPruned : Pruned (.withSolver executor check config)
          (⟨origins, state, none, []⟩ : Visit BV Formula) := ⟨deep, pruned⟩
      rw [and_iff_right nothing, forall_prop_of_true isPruned, forall_prop_of_true prunes,
        ← unsat_iff_decided sound, forall_prop_of_true (by simpa using notFound), pruned]
      exact (and_iff_left fun impossible => by cases impossible).symm
    rw [if_neg pruned] at ran
    have passed := decided_of_not_pruned sound pruned
    have kept : (config.pruneInfeasible && !SymSolver.isSat check state) = false := by
      simpa using pruned
    rw [and_iff_right passed, forall_prop_of_true kept]
    have notPruned : ∀ block pushed, Pruned (.withSolver executor check config)
        (⟨origins, state, block, pushed⟩ : Visit BV Formula) → ¬ Satisfiable state :=
      fun _ _ isPruned => absurd isPruned.2 pruned
    cases isBlock : func.getBlock state.pc.toNat with
    | none =>
      rw [isBlock] at ran
      obtain ⟨rfl, rfl⟩ := Prod.mk.inj (some.inj (exec_pure.mp ran).1)
      refine ⟨_, selects, rfl, ?_⟩
      rw [and_iff_left (notPruned none []), addsTruthful_singleton]
      simp
    | some block =>
      rw [isBlock] at ran
      obtain ⟨⟨visit', next'⟩, k', executes, ran⟩ := exec_bind.mp ran
      obtain ⟨rfl, rfl⟩ := Prod.mk.inj (some.inj (exec_pure.mp ran).1)
      obtain ⟨-, sameState, -⟩ := executeState_spec executes
      obtain ⟨added, results, truthful⟩ := executeState_results sound executes
      refine ⟨added, selects, results, ?_⟩
      rw [and_iff_left, truthful]
      intro isPruned
      obtain ⟨-, rejects⟩ := isPruned
      rw [sameState] at rejects
      exact absurd rejects pruned

end

/-- The verdicts of a run are true exactly if each step adds only true ones. -/
theorem exploreLoop_truthful (sound : SoundSolver BV check) :
    ∀ (iterations : Nat) {exploration last : Exploration BV Formula}
      {visits : List (Visit BV Formula)} {n n' : Nat},
      exploreLoop (.withSolver executor check config) func iterations exploration n =
        .ok ((visits, last), n') →
      (TruthfulRun (.withSolver executor check config) visits last.results ↔
        AddsTruthful exploration.results ∧
          EveryExploreStep executor check config func iterations exploration n)
  | 0, exploration, last, visits, n, n', ran => by
    obtain ⟨⟨⟩, -⟩ := exec_pure.mp ran
    exact and_congr_right' (iff_of_true nofun trivial)
  | iterations + 1, exploration, last, visits, n, n', ran => by
    obtain ⟨step, k, steps, ran⟩ := exec_bind.mp ran
    unfold EveryExploreStep
    cases step with
    | none =>
      obtain ⟨⟨⟩, -⟩ := exec_pure.mp ran
      refine and_congr_right' (iff_of_true nofun fun visit next n' steps' => ?_)
      rw [steps] at steps'
      cases steps'
    | some step =>
      obtain ⟨visit, next⟩ := step
      obtain ⟨⟨rest, last'⟩, k', continues, returns⟩ := exec_bind.mp ran
      obtain ⟨⟨⟩, -⟩ := exec_pure.mp returns
      obtain ⟨origins, state, others, j, added, selects, results, truthful⟩ :=
        exploreStep_truthful sound steps
      have later := exploreLoop_truthful sound iterations continues
      have split : TruthfulRun (.withSolver executor check config) (visit :: rest)
          last.results ↔ (Pruned (.withSolver executor check config) visit →
            ¬ Satisfiable visit.state) ∧
          TruthfulRun (.withSolver executor check config) rest last.results := by
        unfold TruthfulRun
        rw [forall_mem_cons, and_left_comm]
      rw [split, later, results]
      have joined : AddsTruthful (exploration.results ++ added) ↔
          AddsTruthful exploration.results ∧ AddsTruthful added := forall_mem_append
      have same : (∀ visit' next' n'', exploreStep (.withSolver executor check config) func
          exploration n = .ok (some (visit', next'), n'') →
          (∀ origins state rest k,
            selectState (.withSolver executor check config) exploration.worklist n =
              (some (origins, state, rest), k) →
            ExploreCondition executor check config func state k) ∧
          EveryExploreStep executor check config func iterations next' n'') ↔
          ExploreCondition executor check config func state j ∧
            EveryExploreStep executor check config func iterations next k := by
        constructor
        · intro all
          obtain ⟨condition, every⟩ := all visit next k steps
          exact ⟨condition origins state others j selects, every⟩
        · rintro ⟨condition, every⟩ visit' next' n'' steps'
          cases steps.symm.trans steps'
          refine ⟨fun origins' state' rest' k'' selects' => ?_, every⟩
          cases selects.symm.trans selects'
          exact condition
      rw [same, joined, ← truthful]
      constructor
      · rintro ⟨pruned, ⟨before, new⟩, every⟩
        exact ⟨before, ⟨new, pruned⟩, every⟩
      · rintro ⟨before, ⟨new, pruned⟩, every⟩
        exact ⟨pruned, ⟨before, new⟩, every⟩

/-- Every run of each of the four functions gives only truthful verdicts exactly if each of
its iterations meets its condition. -/
theorem verdicts_truthful_iff (executor : SymExecutor BV Formula)
    (check : List Formula → SatResult) (config : ExploreConfig) (func : SSAFunction)
    (initialState : SymState BV Formula) (sound : SoundSolver BV check) (iterations n : Nat) :
    (∀ stats visits last n', exploreFrom (.withSolver executor check config) func initialState stats
        iterations n = .ok ((visits, last), n') →
      (TruthfulRun (.withSolver executor check config) visits last.results ↔
        EveryExploreStep executor check config func iterations ⟨[initialState], [], stats⟩ n)) ∧
    (∀ targetAddr statesExplored last n', findPathTo (.withSolver executor check config) func
        initialState targetAddr statesExplored iterations n = .ok (last, n') →
      (last.Truthful ↔ EverySearchStep executor check config func (.pathTo targetAddr true)
        iterations ⟨[initialState], [], [], statesExplored, false⟩ n)) ∧
    (∀ targetAddr statesExplored last n', findPathsTo (.withSolver executor check config) func
        initialState targetAddr statesExplored iterations n = .ok (last, n') →
      (last.Truthful ↔ EverySearchStep executor check config func (.pathTo targetAddr false)
        iterations ⟨[initialState], [], [], statesExplored, false⟩ n)) ∧
    ∀ avoidAddrs statesExplored last n', findPathAvoiding (.withSolver executor check config) func
        initialState avoidAddrs statesExplored iterations n = .ok (last, n') →
      (last.Truthful ↔ EverySearchStep executor check config func (.avoiding avoidAddrs)
        iterations ⟨[initialState], [], [], statesExplored, false⟩ n) := by
  have search : ∀ (goal : Goal) (statesExplored : Nat) (last : PathSearch BV Formula) (n' : Nat),
      searchFrom (.withSolver executor check config) func initialState goal statesExplored iterations
        n = .ok (last, n') →
      (last.Truthful ↔ EverySearchStep executor check config func goal iterations
        ⟨[initialState], [], [], statesExplored, false⟩ n) := by
    intro goal statesExplored last n' ran
    rw [truthful_searchLoop sound iterations ran]
    exact and_iff_right ⟨nofun, nofun⟩
  refine ⟨fun stats visits last n' ran => ?_, fun _ => search _, fun _ => search _,
    fun _ => search _⟩
  rw [exploreLoop_truthful sound iterations ran]
  exact and_iff_right nofun

end ExploreVerdicts

/-! ## A solver that tries one model -/

def tryZero (formulas : List (Assignment → Bool)) : SatResult :=
  if formulas.all (· fun _ _ => 0) then .sat else .unknown

private theorem sound_tryZero : SoundSolver Term tryZero where
  sat formulas answer := by
    unfold tryZero at answer
    split at answer
    · rename_i holds
      exact ⟨fun _ _ => 0, fun c mem => List.all_eq_true.mp holds c mem⟩
    · cases answer
  unsat formulas answer := by
    unfold tryZero at answer
    split at answer <;> cases answer

/-- A state without a block and without constraints. -/
def nowhere : SymState Term (Assignment → Bool) := { flagUnknown with pc := 99 }

def flagIs (value : Nat) : SymState Term (Assignment → Bool) :=
  { flagUnknown with constraints := [fun m => m (.named "flag") 8 == value] }

/-- The state whose flag is zero has no block; it is kept and its path is feasible. -/
theorem explore_nowhere_truthful : ∃ visits last n',
    exploreFrom (.withSolver mergingExplorer.executor tryZero ⟨1000, 100, .Bfs, true, false⟩)
      (diamond []) { flagIs 0 with pc := 99 } ⟨0, 0, 0, 0, 0⟩ 1 0 = .ok ((visits, last), n') ∧
    last.results.map PathResult.feasible = [true] ∧
    TruthfulRun (.withSolver mergingExplorer.executor tryZero ⟨1000, 100, .Bfs, true, false⟩)
      visits last.results := by
  refine ⟨_, _, _, rfl, rfl, ((verdicts_truthful_iff mergingExplorer.executor tryZero
    ⟨1000, 100, .Bfs, true, false⟩ (diamond []) { flagIs 0 with pc := 99 } sound_tryZero 1 0).1
      ⟨0, 0, 0, 0, 0⟩ _ _ _ rfl).mpr ?_⟩
  intro visit next n' steps
  refine ⟨fun origins state rest k selects => ?_, trivial⟩
  obtain ⟨same, -⟩ := Prod.mk.inj selects
  obtain ⟨-, same⟩ := Prod.mk.inj (some.inj same)
  obtain ⟨rfl, -⟩ := Prod.mk.inj same
  have answer : tryZero (flagIs 0).constraints = .sat := rfl
  refine ⟨fun _ (unknown : tryZero (flagIs 0).constraints = .unknown) => ?_,
    fun _ => ⟨fun _ _ => 0, fun c mem => ?_⟩⟩
  · cases unknown
  · obtain rfl := mem_singleton.mp mem
    rfl

def contradictory : SymState Term (Assignment → Bool) :=
  { flagUnknown with constraints := [fun _ => false] }

/-- At the depth limit a contradictory state is called feasible, and a satisfiable one that
the solver does not know about is pruned. -/
theorem explore_verdicts_wrong :
    (∃ visits last n', exploreFrom (.withSolver mergingExplorer.executor tryZero
        ⟨1000, 0, .Bfs, true, false⟩) (diamond []) contradictory ⟨0, 0, 0, 0, 0⟩ 1 0 =
          .ok ((visits, last), n') ∧
      ∃ result ∈ last.results, result.feasible = true ∧ ¬ Satisfiable result.state) ∧
    ∃ visits last n', exploreFrom (.withSolver mergingExplorer.executor tryZero
        ⟨1000, 100, .Bfs, true, false⟩) (diamond []) (flagIs 1) ⟨0, 0, 0, 0, 0⟩ 1 0 =
          .ok ((visits, last), n') ∧
      ∃ visit ∈ visits, Pruned (.withSolver mergingExplorer.executor tryZero
        ⟨1000, 100, .Bfs, true, false⟩) visit ∧ Satisfiable visit.state := by
  constructor
  · refine ⟨_, _, _, rfl, _, mem_singleton_self _, rfl, ?_⟩
    rintro ⟨m, satisfies⟩
    have holds := satisfies (fun _ => false) (mem_singleton_self _)
    cases holds
  · refine ⟨_, _, _, rfl, _, mem_singleton_self _, ⟨by decide, rfl⟩, fun _ _ => 1, ?_⟩
    intro c mem
    obtain rfl := mem_singleton.mp mem
    rfl

end R2Sleigh.Sym
