import R2Sleigh.Ssa.Sccp
import R2Sleigh.Sym.Executor

/-!
Contract: exploration of the paths of a function.

Owns `ExploreConfig`, `exploreStep` and `explore`.

The solver is a parameter that says whether it finds a state satisfiable.
Timeouts are left out: they end a run early, and every statement is about runs
of any length.
-/

namespace R2Sleigh.Sym

open Ssa List Option

variable {BV Formula Model : Type}

inductive ExploreStrategy where
  | Dfs
  | Bfs
  | Random
deriving DecidableEq, Repr

structure ExploreConfig where
  maxStates : Nat
  maxDepth : Nat
  strategy : ExploreStrategy
  pruneInfeasible : Bool
  mergeStates : Bool
deriving DecidableEq, Repr

structure ExploreStats where
  statesExplored : Nat
  pathsCompleted : Nat
  pathsPruned : Nat
  pathsMaxDepth : Nat
  maxDepthReached : Nat
deriving DecidableEq, Repr

structure PathResult (BV Formula : Type) where
  state : SymState BV Formula
  exitStatus : ExitStatus
  depth : Nat
  feasible : Bool

def PathResult.new (state : SymState BV Formula) (feasible : Bool) : PathResult BV Formula where
  state := state
  exitStatus := state.exitStatus.getD .return
  depth := state.depth
  feasible := feasible

structure PathExplorer (BV Formula : Type) where
  executor : SymExecutor BV Formula
  isSat : SymState BV Formula → Bool
  config : ExploreConfig

/-! ## The worklist -/

section Worklist

variable {α : Type}

def popFront : List α → Option (α × List α)
  | [] => none
  | a :: rest => some (a, rest)

def popBack (worklist : List α) : Option (α × List α) :=
  worklist.getLast?.map fun a => (a, worklist.dropLast)

def nextState (strategy : ExploreStrategy) (worklist : List α) : Option (α × List α) :=
  match strategy with
  | .Dfs => popBack worklist
  | .Bfs => popFront worklist
  | .Random => if worklist.length % 2 = 0 then popFront worklist else popBack worklist

private theorem nextState_perm {strategy : ExploreStrategy} {worklist rest : List α} {a : α}
    (popped : nextState strategy worklist = some (a, rest)) : worklist.Perm (a :: rest) := by
  have front : popFront worklist = some (a, rest) → worklist.Perm (a :: rest) := by
    cases worklist with
    | nil => nofun
    | cons first tail =>
      intro isFront
      cases isFront
      rfl
  have back : popBack worklist = some (a, rest) → worklist.Perm (a :: rest) := by
    intro isBack
    obtain ⟨last, isLast, same⟩ := map_eq_some_iff.mp isBack
    cases same
    obtain ⟨initial, rfl⟩ := getLast?_eq_some_iff.mp isLast
    rw [dropLast_concat]
    exact perm_append_singleton _ _
  unfold nextState at popped
  split at popped
  · exact back popped
  · exact front popped
  · split at popped
    · exact front popped
    · exact back popped

/-- The first state at a program counter, and the others. -/
def takeMergeCandidate (pc : Word) :
    List (SymState BV Formula) → Option (SymState BV Formula × List (SymState BV Formula))
  | [] => none
  | state :: rest =>
    if state.pc = pc then some (state, rest)
    else (takeMergeCandidate pc rest).map fun found => (found.1, state :: found.2)

theorem takeMergeCandidate_perm {pc : Word} {other : SymState BV Formula} :
    ∀ {worklist rest : List (SymState BV Formula)},
      takeMergeCandidate pc worklist = some (other, rest) →
      other.pc = pc ∧ worklist.Perm (other :: rest)
  | [], _, found => by cases found
  | state :: tail, rest, found => by
    rw [takeMergeCandidate] at found
    split at found
    · rename_i same
      cases found
      exact ⟨same, .refl _⟩
    · obtain ⟨⟨other', rest'⟩, later, same⟩ := map_eq_some_iff.mp found
      cases same
      obtain ⟨isPc, inTail⟩ := takeMergeCandidate_perm later
      exact ⟨isPc, (inTail.cons state).trans (.swap other' state rest')⟩

end Worklist

/-! ## Iterations -/

/-- What an iteration did: the states it took from the worklist, the state they
were merged to, the block that was executed, and the states it pushed. -/
structure Visit (BV Formula : Type) where
  origins : List (SymState BV Formula)
  state : SymState BV Formula
  block : Option SSABlock
  pushed : List (SymState BV Formula)

structure Exploration (BV Formula : Type) where
  worklist : List (SymState BV Formula)
  results : List (PathResult BV Formula)
  stats : ExploreStats

def fallthroughTarget (func : SSAFunction) (blockAddr : Word) : Option Word :=
  (func.cfg.getBlock blockAddr.toNat).bind fun block =>
    match block.terminator with
    | .Fallthrough next => some (BitVec.ofNat 64 next)
    | .ConditionalBranch _ falseTarget => some (BitVec.ofNat 64 falseTarget)
    | .Call _ fallthrough | .IndirectCall fallthrough => fallthrough.map (BitVec.ofNat 64)
    | .Branch target => some (BitVec.ofNat 64 target)
    | _ => none

/-- The state a block leaves behind, at the address of the next block. -/
def continueAt (func : SSAFunction) (blockAddr : Word) (state : SymState BV Formula) :
    SymState BV Formula :=
  { state with
    pc := if state.pc = blockAddr then (fallthroughTarget func blockAddr).getD state.pc else state.pc
    prevPc := some blockAddr }

section Explorer

variable [Z3Arith BV Formula Model] (explorer : PathExplorer BV Formula) (func : SSAFunction)

/-- Merging makes two constants for each register and each byte. -/
def mergeStates (self other : SymState BV Formula) : Fresh (SymState BV Formula) := fun start =>
  (SymState.mergeWith start self other, start +
    2 * (SymState.registerKeys self other).length + 2 * (SymState.addresses self other).length)

/-- Take a state from the worklist, merged with another one at its program
counter. -/
def selectState (worklist : List (SymState BV Formula)) :
    Fresh (Option (List (SymState BV Formula) × SymState BV Formula × List (SymState BV Formula))) :=
  match nextState explorer.config.strategy worklist with
  | none => return none
  | some (state, rest) =>
    if explorer.config.mergeStates then
      match takeMergeCandidate state.pc rest with
      | some (other, rest) => do
          return some ([state, other], ← mergeStates state other, rest)
      | none => return some ([state], state, rest)
    else return some ([state], state, rest)

def executeState (origins : List (SymState BV Formula)) (state : SymState BV Formula)
    (exploration : Exploration BV Formula) (block : SSABlock) :
    Exec (Visit BV Formula × Exploration BV Formula) := do
  let blockAddr := state.pc
  let (after, outcome) ← explorer.executor.executeBlock state block
  let stats := { exploration.stats with
    maxDepthReached := max exploration.stats.maxDepthReached after.depth }
  let completed := { stats with pathsCompleted := stats.pathsCompleted + 1 }
  match outcome with
  | .error message =>
    let result := PathResult.new (after.terminate (.error message)) false
    return (⟨origins, state, some block, []⟩,
      { exploration with results := exploration.results ++ [result], stats := completed })
  | .ok forkedStates =>
    let forked := forkedStates.map fun forked => { forked with prevPc := some blockAddr }
    if after.isTerminated then
      let result := PathResult.new after (explorer.isSat after)
      return (⟨origins, state, some block, forked⟩,
        { worklist := exploration.worklist ++ forked
          results := exploration.results ++ [result]
          stats := completed })
    else
      let pushed := forked ++ [continueAt func blockAddr after]
      return (⟨origins, state, some block, pushed⟩,
        { exploration with worklist := exploration.worklist ++ pushed, stats := stats })

/-- One iteration; the loop ends when the worklist is empty or the limit of
states is reached. -/
def exploreStep (exploration : Exploration BV Formula) :
    Exec (Option (Visit BV Formula × Exploration BV Formula)) := do
  match ← selectState explorer exploration.worklist with
  | none => return none
  | some (origins, state, rest) =>
    let stats := exploration.stats
    if explorer.config.maxStates ≤ stats.statesExplored then return none
    let stats := { stats with statesExplored := stats.statesExplored + 1 }
    let ended := fun (status : ExitStatus) (stats : ExploreStats) =>
      some ((⟨origins, state, none, []⟩ : Visit BV Formula),
        { worklist := rest
          results := exploration.results ++ [PathResult.new (state.terminate status) true]
          stats := stats })
    if explorer.config.maxDepth ≤ state.depth then
      return ended .maxDepth { stats with pathsMaxDepth := stats.pathsMaxDepth + 1 }
    if explorer.config.pruneInfeasible && !explorer.isSat state then
      return some (⟨origins, state, none, []⟩,
        { worklist := rest
          results := exploration.results
          stats := { stats with pathsPruned := stats.pathsPruned + 1 } })
    match func.getBlock state.pc.toNat with
    | none => return ended .return { stats with pathsCompleted := stats.pathsCompleted + 1 }
    | some block =>
      return some (← executeState explorer func origins state ⟨rest, exploration.results, stats⟩
        block)

def exploreLoop : Nat → Exploration BV Formula → Exec (List (Visit BV Formula) × Exploration BV Formula)
  | 0, exploration => return ([], exploration)
  | iterations + 1, exploration => do
      match ← exploreStep explorer func exploration with
      | none => return ([], exploration)
      | some (visit, next) =>
        let (visits, last) ← exploreLoop iterations next
        return (visit :: visits, last)

/-- At most so many iterations from an initial state, after calls that left `stats`. -/
def exploreFrom (initialState : SymState BV Formula) (stats : ExploreStats) (iterations : Nat) :
    Exec (List (Visit BV Formula) × Exploration BV Formula) :=
  exploreLoop explorer func iterations ⟨[initialState], [], stats⟩

/-- The same on an explorer that was not used before. -/
def explore (initialState : SymState BV Formula) (iterations : Nat) :
    Exec (List (Visit BV Formula) × Exploration BV Formula) :=
  exploreFrom explorer func initialState ⟨0, 0, 0, 0, 0⟩ iterations

/-! ## What an iteration does -/

theorem exec_bind {α β : Type} {first : Exec α} {next : α → Exec β} {n n' : Nat} {b : β} :
    (first >>= next) n = .ok (b, n') ↔ ∃ a k, first n = .ok (a, k) ∧ next a k = .ok (b, n') := by
  show (first n).bind (fun result => next result.1 result.2) = .ok (b, n') ↔ _
  cases isFirst : first n with
  | error panic => simp [Except.bind]
  | ok result =>
    obtain ⟨a, k⟩ := result
    simp [Except.bind]

theorem exec_pure {α : Type} {a b : α} {n n' : Nat} :
    (pure a : Exec α) n = .ok (b, n') ↔ a = b ∧ n = n' := by
  show Except.ok (a, n) = .ok (b, n') ↔ _
  rw [Except.ok.injEq, Prod.mk.injEq]

/-- The state that an iteration executes is one of the worklist, or two of them
merged. -/
inductive Selected : List (SymState BV Formula) → SymState BV Formula → Prop where
  | single (state : SymState BV Formula) : Selected [state] state
  | merged (start : Nat) (self other : SymState BV Formula) : self.pc = other.pc →
      Selected [self, other] (SymState.mergeWith start self other)

/-- Each result is of a completed path or of one at the limit of depth, with `earlier` such
paths of earlier calls in the counts. -/
def Tallied (earlier : Nat) (exploration : Exploration BV Formula) : Prop :=
  exploration.results.length + earlier =
    exploration.stats.pathsCompleted + exploration.stats.pathsMaxDepth

structure StepSpec (exploration : Exploration BV Formula) (visit : Visit BV Formula)
    (next : Exploration BV Formula) : Prop where
  selected : Selected visit.origins visit.state
  alone : explorer.config.mergeStates = false → visit.origins = [visit.state]
  taken : ∃ rest, exploration.worklist.Perm (visit.origins ++ rest) ∧
    next.worklist = rest ++ visit.pushed
  counted : next.stats.statesExplored = exploration.stats.statesExplored + 1
  below : exploration.stats.statesExplored < explorer.config.maxStates
  tallied : ∀ earlier, Tallied earlier exploration → Tallied earlier next
  pushed : ∀ state ∈ visit.pushed, state.prevPc = some visit.state.pc
  block : ∀ block, visit.block = some block → func.getBlock visit.state.pc.toNat = some block

/-- A run of the loop: every iteration takes its states from the worklist at the
start or from what earlier iterations pushed, and no state is lost or taken twice. -/
structure RunSpec (iterations : Nat) (exploration : Exploration BV Formula)
    (visits : List (Visit BV Formula)) (last : Exploration BV Formula) : Prop where
  selected : ∀ visit ∈ visits, Selected visit.origins visit.state
  alone : explorer.config.mergeStates = false → ∀ visit ∈ visits, visit.origins = [visit.state]
  origins : ∀ (j : Nat) (later : Visit BV Formula), visits[j]? = some later →
    ∀ state ∈ later.origins, state ∈ exploration.worklist ∨
      ∃ (i : Nat) (earlier : Visit BV Formula), i < j ∧ visits[i]? = some earlier ∧
        state ∈ earlier.pushed
  pushed : ∀ visit ∈ visits, ∀ state ∈ visit.pushed, state.prevPc = some visit.state.pc
  block : ∀ visit ∈ visits, ∀ block, visit.block = some block →
    func.getBlock visit.state.pc.toNat = some block
  conserved : (visits.flatMap (·.origins) ++ last.worklist).Perm
    (exploration.worklist ++ visits.flatMap (·.pushed))
  counted : last.stats.statesExplored = exploration.stats.statesExplored + visits.length
  below : last.stats.statesExplored ≤
    max exploration.stats.statesExplored explorer.config.maxStates
  tallied : ∀ earlier, Tallied earlier exploration → Tallied earlier last
  ended : visits.length < iterations →
    last.worklist = [] ∨ explorer.config.maxStates ≤ last.stats.statesExplored

variable {explorer func}

private theorem selectState_spec {worklist : List (SymState BV Formula)} {n n' : Nat}
    {origins rest : List (SymState BV Formula)} {state : SymState BV Formula}
    (selects : selectState explorer worklist n = (some (origins, state, rest), n')) :
    Selected origins state ∧ (explorer.config.mergeStates = false → origins = [state]) ∧
      worklist.Perm (origins ++ rest) := by
  unfold selectState at selects
  cases popped : nextState explorer.config.strategy worklist with
  | none =>
    rw [popped] at selects
    cases selects
  | some first =>
    obtain ⟨first, others⟩ := first
    have isWorklist := nextState_perm popped
    rw [popped] at selects
    have single : (some ([first], first, others) : Option (List (SymState BV Formula) ×
        SymState BV Formula × List (SymState BV Formula))) = some (origins, state, rest) →
        Selected origins state ∧ (explorer.config.mergeStates = false → origins = [state]) ∧
          worklist.Perm (origins ++ rest) := by
      intro same
      obtain ⟨rfl, tail⟩ := Prod.mk.inj (some.inj same)
      obtain ⟨rfl, rfl⟩ := Prod.mk.inj tail
      exact ⟨.single first, fun _ => rfl, isWorklist⟩
    dsimp only at selects
    by_cases merges : explorer.config.mergeStates = true
    · rw [if_pos merges] at selects
      cases taken : takeMergeCandidate first.pc others with
      | none =>
        rw [taken] at selects
        exact single (Prod.mk.inj selects).1
      | some candidate =>
        obtain ⟨other, remaining⟩ := candidate
        obtain ⟨samePc, inRest⟩ := takeMergeCandidate_perm taken
        rw [taken] at selects
        obtain ⟨rfl, tail⟩ := Prod.mk.inj (some.inj (Prod.mk.inj selects).1)
        cases tail
        refine ⟨.merged n first other samePc.symm, fun none => ?_,
          isWorklist.trans (inRest.cons first)⟩
        rw [merges] at none
        cases none
    · rw [if_neg merges] at selects
      exact single (Prod.mk.inj selects).1

section

variable {exploration next : Exploration BV Formula} {visit : Visit BV Formula} {n n' : Nat}

theorem executeState_spec {origins : List (SymState BV Formula)} {state : SymState BV Formula}
    {block : SSABlock}
    (executes : executeState explorer func origins state exploration block n = .ok ((visit, next), n')) :
    visit.origins = origins ∧ visit.state = state ∧ visit.block = some block ∧
      next.worklist = exploration.worklist ++ visit.pushed ∧
      next.stats.statesExplored = exploration.stats.statesExplored ∧
      (∀ earlier, Tallied earlier exploration → Tallied earlier next) ∧ ∀ s ∈ visit.pushed, s.prevPc = some state.pc := by
  obtain ⟨⟨after, outcome⟩, k, -, executes⟩ := exec_bind.mp executes
  have forkedFrom : ∀ forked : List (SymState BV Formula),
      ∀ s ∈ forked.map fun forked => { forked with prevPc := some state.pc },
        s.prevPc = some state.pc := by
    intro forked s mem
    obtain ⟨_, _, rfl⟩ := mem_map.mp mem
    rfl
  have ends : ∀ (result : PathResult BV Formula) (earlier : Nat), Tallied earlier exploration →
      (exploration.results ++ [result]).length + earlier =
        exploration.stats.pathsCompleted + 1 + exploration.stats.pathsMaxDepth := by
    intro result earlier tallied
    unfold Tallied at tallied
    rw [length_append, length_singleton]
    omega
  cases outcome with
  | error message =>
    obtain ⟨same, -⟩ := exec_pure.mp executes
    cases same
    exact ⟨rfl, rfl, rfl, (append_nil _).symm, rfl, ends _, nofun⟩
  | ok forked =>
    dsimp only at executes
    by_cases ended : after.isTerminated = true
    · rw [if_pos ended] at executes
      obtain ⟨same, -⟩ := exec_pure.mp executes
      cases same
      exact ⟨rfl, rfl, rfl, rfl, rfl, ends _, forkedFrom forked⟩
    · rw [if_neg ended] at executes
      obtain ⟨same, -⟩ := exec_pure.mp executes
      cases same
      refine ⟨rfl, rfl, rfl, rfl, rfl, fun _ => id, fun s mem => ?_⟩
      rcases mem_append.mp mem with isForked | isContinued
      · exact forkedFrom forked s isForked
      · rw [mem_singleton.mp isContinued]
        rfl

theorem exploreStep_spec
    (steps : exploreStep explorer func exploration n = .ok (some (visit, next), n')) :
    StepSpec explorer func exploration visit next := by
  obtain ⟨selection, k, selects, steps⟩ := exec_bind.mp steps
  have selects : selectState explorer exploration.worklist n = (selection, k) := Except.ok.inj selects
  cases selection with
  | none => cases (exec_pure.mp steps).1
  | some selection =>
    obtain ⟨origins, state, rest⟩ := selection
    obtain ⟨selected, alone, taken⟩ := selectState_spec selects
    dsimp only at steps
    by_cases limit : explorer.config.maxStates ≤ exploration.stats.statesExplored
    · rw [if_pos limit] at steps
      cases (exec_pure.mp steps).1
    rw [if_neg limit] at steps
    have below := Nat.lt_of_not_le limit
    -- An iteration that executes no block pushes nothing.
    have dropped : ∀ {results stats}, (⟨origins, state, none, []⟩, ⟨rest, results, stats⟩) =
        (visit, next) → stats.statesExplored = exploration.stats.statesExplored + 1 →
        (∀ earlier, Tallied earlier exploration →
          results.length + earlier = stats.pathsCompleted + stats.pathsMaxDepth) →
        StepSpec explorer func exploration visit next := by
      intro results stats same counted tallied
      cases same
      exact ⟨selected, alone, ⟨rest, taken, (append_nil _).symm⟩, counted, below, tallied, nofun, nofun⟩
    have ended : ∀ (result : PathResult BV Formula) (earlier : Nat), Tallied earlier exploration →
        (exploration.results ++ [result]).length + earlier =
          exploration.stats.pathsCompleted + exploration.stats.pathsMaxDepth + 1 := by
      intro result earlier tallied
      rw [length_append, length_singleton, Nat.add_right_comm, tallied]
    by_cases deep : explorer.config.maxDepth ≤ state.depth
    · rw [if_pos deep] at steps
      exact dropped (some.inj (exec_pure.mp steps).1) rfl (ended _)
    rw [if_neg deep] at steps
    by_cases pruned : (explorer.config.pruneInfeasible && !explorer.isSat state) = true
    · rw [if_pos pruned] at steps
      exact dropped (some.inj (exec_pure.mp steps).1) rfl fun _ => id
    rw [if_neg pruned] at steps
    cases found : func.getBlock state.pc.toNat with
    | none =>
      rw [found] at steps
      exact dropped (some.inj (exec_pure.mp steps).1) rfl fun _ tallied =>
        (ended _ _ tallied).trans (Nat.add_right_comm ..)
    | some block =>
      rw [found] at steps
      obtain ⟨⟨visit', next'⟩, k', executes, steps⟩ := exec_bind.mp steps
      obtain ⟨rfl, rfl⟩ := Prod.mk.inj (some.inj (exec_pure.mp steps).1)
      obtain ⟨sameOrigins, sameState, sameBlock, worklist, counted, tallied, pushed⟩ :=
        executeState_spec executes
      refine ⟨?_, ?_, ⟨rest, ?_, worklist⟩, counted, below, tallied, ?_, fun other isBlock => ?_⟩
      · rw [sameOrigins, sameState]
        exact selected
      · rw [sameOrigins, sameState]
        exact alone
      · rw [sameOrigins]
        exact taken
      · rw [sameState]
        exact pushed
      · rw [sameBlock] at isBlock
        rw [sameState, found, some.inj isBlock]

/-! ## Why the loop stops -/

theorem nextState_eq_none {strategy : ExploreStrategy} {worklist : List (SymState BV Formula)}
    (nothing : nextState strategy worklist = none) : worklist = [] := by
  have front : popFront worklist = none → worklist = [] := by cases worklist <;> simp [popFront]
  have back : popBack worklist = none → worklist = [] := by simp [popBack]
  unfold nextState at nothing
  split at nothing
  · exact back nothing
  · exact front nothing
  · split at nothing
    · exact front nothing
    · exact back nothing

theorem selectState_eq_none {worklist : List (SymState BV Formula)} {k : Nat}
    (selects : (selectState explorer worklist : Fresh _) n = (none, k)) : worklist = [] := by
  unfold selectState at selects
  cases popped : nextState explorer.config.strategy worklist with
  | none => exact nextState_eq_none popped
  | some first =>
    rw [popped] at selects
    dsimp only at selects
    by_cases merges : explorer.config.mergeStates = true
    · rw [if_pos merges] at selects
      cases taken : takeMergeCandidate first.1.pc first.2 with
      | none | some =>
        rw [taken] at selects
        cases (Prod.mk.inj selects).1
    · rw [if_neg merges] at selects
      cases (Prod.mk.inj selects).1

/-- The iteration never ends the loop. -/
def GoesOn {α : Type} (step : Exec (Option α)) : Prop := ∀ n n', step n ≠ .ok (none, n')

theorem goesOn_some {α : Type} (a : α) : GoesOn (pure (some a)) := by
  intro n n' stops
  cases (exec_pure.mp stops).1

theorem goesOn_bind {α : Type} (run : Exec α) : GoesOn (run >>= fun a => pure (some a)) := by
  intro n n' stops
  obtain ⟨_, _, -, stops⟩ := exec_bind.mp stops
  cases (exec_pure.mp stops).1

theorem GoesOn.ite {α : Type} {c : Prop} [Decidable c] {first second : Exec (Option α)}
    (left : GoesOn first) (right : GoesOn second) : GoesOn (if c then first else second) := by
  split
  · exact left
  · exact right

theorem worklist_or_limit_of_exploreStep
    (steps : exploreStep explorer func exploration n = .ok (none, n')) :
    exploration.worklist = [] ∨ explorer.config.maxStates ≤ exploration.stats.statesExplored := by
  obtain ⟨selection, k, selects, steps⟩ := exec_bind.mp steps
  cases selection with
  | none => exact .inl (selectState_eq_none (Except.ok.inj selects))
  | some selection =>
    refine .inr (by_contra fun limit => ?_)
    dsimp only at steps
    rw [if_neg limit] at steps
    refine (goesOn_some _).ite ((goesOn_some _).ite ?_) _ _ steps
    cases func.getBlock selection.2.1.pc.toNat with
    | none => exact goesOn_some _
    | some block => exact goesOn_bind _

end

/-! ## Runs of the loop -/

/-- Any number of iterations conserves the states. -/
theorem exploreLoop_spec : ∀ (iterations : Nat) {exploration last : Exploration BV Formula}
    {visits : List (Visit BV Formula)} {n n' : Nat},
    exploreLoop explorer func iterations exploration n = .ok ((visits, last), n') →
    RunSpec explorer func iterations exploration visits last
  | 0, exploration, last, visits, n, n', runs => by
    obtain ⟨same, -⟩ := exec_pure.mp runs
    cases same
    exact ⟨nofun, fun _ => nofun, nofun, nofun, nofun, by simp, rfl, le_max_left _ _, fun _ => id, nofun⟩
  | iterations + 1, exploration, last, visits, n, n', runs => by
    obtain ⟨step, k, steps, runs⟩ := exec_bind.mp runs
    cases step with
    | none =>
      obtain ⟨same, -⟩ := exec_pure.mp runs
      cases same
      exact ⟨nofun, fun _ => nofun, nofun, nofun, nofun, by simp, rfl, le_max_left _ _, fun _ => id,
        fun _ => worklist_or_limit_of_exploreStep steps⟩
    | some step =>
      obtain ⟨visit, next⟩ := step
      obtain ⟨⟨rest, last'⟩, k', continues, returns⟩ := exec_bind.mp runs
      obtain ⟨same, -⟩ := exec_pure.mp returns
      cases same
      have spec := exploreStep_spec steps
      obtain ⟨remaining, taken, worklist⟩ := spec.taken
      have others := exploreLoop_spec iterations continues
      refine ⟨?_, ?_, ?_, ?_, ?_, ?_, ?_, le_max_of_le_right (others.below.trans
        (max_le (spec.counted ▸ spec.below) le_rfl)), fun _ => others.tallied _ ∘ spec.tallied _,
        fun short => others.ended (Nat.lt_of_succ_lt_succ short)⟩
      · exact forall_mem_cons.mpr ⟨spec.selected, others.selected⟩
      · exact fun alone => forall_mem_cons.mpr ⟨spec.alone alone, others.alone alone⟩
      · intro j later isLater state mem
        cases j with
        | zero =>
          cases isLater
          exact .inl (taken.mem_iff.mpr (mem_append_left _ mem))
        | succ j =>
          rcases others.origins j later isLater state mem with inNext | ⟨i, earlier, before,
            isEarlier, isPushed⟩
          · rcases mem_append.mp (worklist ▸ inNext) with inStart | isPushed
            · exact .inl (taken.mem_iff.mpr (mem_append_right _ inStart))
            · exact .inr ⟨0, visit, Nat.succ_pos j, rfl, isPushed⟩
          · exact .inr ⟨i + 1, earlier, Nat.succ_lt_succ before, isEarlier, isPushed⟩
      · exact forall_mem_cons.mpr ⟨spec.pushed, others.pushed⟩
      · exact forall_mem_cons.mpr ⟨spec.block, others.block⟩
      · have perm := others.conserved
        rw [worklist, append_assoc] at perm
        have whole := (perm.append_left visit.origins).trans
          (append_assoc _ _ _ ▸ taken.symm.append_right _)
        simpa only [flatMap_cons, append_assoc] using whole
      · rw [others.counted, spec.counted, length_cons]
        omega

end Explorer

end R2Sleigh.Sym
