import R2Sleigh.Lib.Endings
import R2Sleigh.Sym.Feasibility

/-!
Contract: several calls on one explorer.
-/

namespace R2Sleigh.Sym

open Lib Ssa List

variable {BV Formula Model : Type}
variable {exploration : Exploration BV Formula} {n maxStates n' statesExplored : Nat}
  {stats : ExploreStats} {goal : Goal}

/-! ## Iterations -/

section Explorer

variable [Z3Arith BV Formula Model] (explorer : PathExplorer BV Formula) (func : SSAFunction)

def PathExplorer.withMaxStates (maxStates : Nat) : PathExplorer BV Formula :=
  { explorer with config := { explorer.config with maxStates := maxStates } }

/-- One iteration of `explore`, with the number of constants made so far. -/
def exploreNext : Exploration BV Formula × Nat → Option (Option (Exploration BV Formula × Nat))
  | (exploration, n) =>
    match exploreStep explorer func exploration n with
    | .error _ => none
    | .ok (none, _) => some none
    | .ok (some (_, next), n') => some (some (next, n'))

def searchNext (goal : Goal) :
    PathSearch BV Formula × Nat → Option (Option (PathSearch BV Formula × Nat))
  | (search, n) =>
    match searchStep explorer func goal search n with
    | .error _ => none
    | .ok (none, _) => some none
    | .ok (some next, n') => some (some (next, n'))

variable {explorer func}

theorem exploreNext_eq_next {next : Exploration BV Formula} :
    exploreNext explorer func (exploration, n) = some (some (next, n')) ↔
      ∃ visit, exploreStep explorer func exploration n = .ok (some (visit, next), n') := by
  unfold exploreNext
  dsimp only
  split <;> simp_all

theorem exploreNext_eq_stop :
    exploreNext explorer func (exploration, n) = some none ↔
      ∃ n', exploreStep explorer func exploration n = .ok (none, n') := by
  unfold exploreNext
  dsimp only
  split <;> simp_all

theorem searchNext_eq_next {search next : PathSearch BV Formula} :
    searchNext explorer func goal (search, n) = some (some (next, n')) ↔
      searchStep explorer func goal search n = .ok (some next, n') := by
  unfold searchNext
  dsimp only
  split <;> simp_all

theorem searchNext_eq_stop {search : PathSearch BV Formula} :
    searchNext explorer func goal (search, n) = some none ↔
      ∃ n', searchStep explorer func goal search n = .ok (none, n') := by
  unfold searchNext
  dsimp only
  split <;> simp_all

/-! ## Explorations whose counts differ -/

/-- Counts after those of earlier calls. -/
def ExploreStats.after (earlier stats : ExploreStats) : ExploreStats where
  statesExplored := earlier.statesExplored + stats.statesExplored
  pathsCompleted := earlier.pathsCompleted + stats.pathsCompleted
  pathsPruned := earlier.pathsPruned + stats.pathsPruned
  pathsMaxDepth := earlier.pathsMaxDepth + stats.pathsMaxDepth
  maxDepthReached := max earlier.maxDepthReached stats.maxDepthReached

def Exploration.after (earlier : ExploreStats) (fresh : Exploration BV Formula) :
    Exploration BV Formula :=
  { fresh with stats := earlier.after fresh.stats }

theorem map_ite {α β : Type} {c : Prop} [Decidable c] (f : α → β) (first second : Exec α) :
    f <$> (if c then first else second) = if c then f <$> first else f <$> second :=
  apply_ite (f <$> ·) c first second

theorem map_eq_ok {α β : Type} {f : α → β} {run : Exec α} {b : β} :
    (f <$> run) n = .ok (b, n') ↔ ∃ a, run n = .ok (a, n') ∧ f a = b := by
  rw [map_eq_pure_bind]
  constructor
  · intro runs
    obtain ⟨a, k, first, last⟩ := exec_bind.mp runs
    obtain ⟨rfl, rfl⟩ := exec_pure.mp last
    exact ⟨a, first, rfl⟩
  · rintro ⟨a, first, rfl⟩
    exact exec_bind.mpr ⟨a, n', first, rfl⟩

variable {earlier : ExploreStats} {maxStates : Nat}

theorem executeState_after (origins : List (SymState BV Formula)) (state : SymState BV Formula)
    (fresh : Exploration BV Formula) (block : SSABlock) :
    executeState explorer func origins state (fresh.after earlier) block =
      Prod.map id (·.after earlier) <$>
        executeState (explorer.withMaxStates maxStates) func origins state fresh block := by
  unfold executeState
  rw [map_bind]
  refine bind_congr fun ⟨left, outcome⟩ => ?_
  cases outcome with
  | error message =>
    simp [Exploration.after, ExploreStats.after, Nat.max_assoc, Nat.add_assoc]
  | ok forked =>
    dsimp only
    by_cases ended : left.isTerminated = true
    · rw [if_pos ended, if_pos ended, map_pure]
      simp [Exploration.after, ExploreStats.after, Nat.max_assoc, Nat.add_assoc]
      rfl
    · rw [if_neg ended, if_neg ended, map_pure]
      simp [Exploration.after, ExploreStats.after, Nat.max_assoc]

/-- An iteration does the same on a fresh explorer whose limit is reached when its own is. -/
theorem exploreStep_after {fresh : Exploration BV Formula}
    (limits : explorer.config.maxStates ≤ earlier.statesExplored + fresh.stats.statesExplored ↔
      maxStates ≤ fresh.stats.statesExplored) :
    exploreStep explorer func (fresh.after earlier) =
      Option.map (Prod.map id (·.after earlier)) <$>
        exploreStep (explorer.withMaxStates maxStates) func fresh := by
  unfold exploreStep
  rw [map_bind]
  refine bind_congr fun selection => ?_
  cases selection with
  | none => rw [map_pure, Option.map_none]
  | some selection =>
    obtain ⟨origins, state, rest⟩ := selection
    rw [map_ite, map_ite, map_ite]
    refine ite_congr (propext limits) (fun _ => by rw [map_pure, Option.map_none]) fun _ => ?_
    refine ite_congr rfl (fun _ => (map_pure (f := Exec) _ _).symm) fun _ => ?_
    refine ite_congr rfl (fun _ => (map_pure (f := Exec) _ _).symm) fun _ => ?_
    cases func.getBlock state.pc.toNat with
    | none => exact (map_pure (f := Exec) _ _).symm
    | some block =>
      have executes := @executeState_after _ _ _ _ explorer func earlier maxStates origins state
        ⟨rest, fresh.results,
          { fresh.stats with statesExplored := fresh.stats.statesExplored + 1 }⟩ block
      refine (congrArg (· >>= fun next => pure (some next)) executes).trans ?_
      rw [bind_map_left, map_bind]
      rfl

theorem selectState_nil : selectState explorer [] = (pure none : Fresh _) := by
  have nothing : nextState (α := SymState BV Formula) explorer.config.strategy [] = none := by
    cases explorer.config.strategy <;> rfl
  unfold selectState
  rw [nothing]

private theorem exploreStep_nil (empty : exploration.worklist = []) :
    exploreStep explorer func exploration = pure none := by
  unfold exploreStep
  rw [empty, selectState_nil]
  rfl

/-! ## Searches whose counts differ -/

/-- The same search after `before` states of earlier calls. -/
def PathSearch.after (before : Nat) (search : PathSearch BV Formula) : PathSearch BV Formula :=
  { search with statesExplored := before + search.statesExplored }

variable {goal : Goal} {before : Nat} {search : PathSearch BV Formula}

theorem ask_after (search : PathSearch BV Formula) (state : SymState BV Formula) :
    (search.after before).ask explorer goal state =
    (search.ask (explorer.withMaxStates maxStates) goal state).after before := by
  unfold PathSearch.ask
  rw [apply_ite (PathSearch.after before)]
  rfl

private theorem searchBlock_after (search : PathSearch BV Formula) (state : SymState BV Formula)
    (block : SSABlock) :
    searchBlock explorer func goal (search.after before) state block =
      PathSearch.after before <$>
        searchBlock (explorer.withMaxStates maxStates) func goal search state block := by
  unfold searchBlock
  rw [map_bind]
  refine bind_congr fun ⟨left, outcome⟩ => ?_
  cases outcome with
  | error | ok => exact (map_pure (f := Exec) _ _).symm

/-- An iteration does the same on a fresh explorer whose limit is reached when its own is. -/
theorem searchStep_after
    (limits : explorer.config.maxStates ≤ before + search.statesExplored ↔
      maxStates ≤ search.statesExplored) :
    searchStep explorer func goal (search.after before) =
      Option.map (PathSearch.after before) <$>
        searchStep (explorer.withMaxStates maxStates) func goal search := by
  have asked : ∀ (search : PathSearch BV Formula) (state : SymState BV Formula),
      (if goal.asksAtEnd then (search.after before).ask explorer goal state
        else search.after before) =
      (if goal.asksAtEnd then search.ask (explorer.withMaxStates maxStates) goal state
        else search).after before := by
    intro search state
    rw [apply_ite (PathSearch.after before), @ask_after _ _ _ maxStates]
  unfold searchStep
  rw [map_ite, map_bind]
  refine ite_congr rfl (fun _ => by rw [map_pure, Option.map_none]) fun _ =>
    bind_congr fun selection => ?_
  cases selection with
  | none => rw [map_pure, Option.map_none]
  | some selection =>
    obtain ⟨origins, state, rest⟩ := selection
    dsimp only
    cases goal.arrival state.pc with
    | skip => exact (map_pure (f := Exec) _ _).symm
    | ask =>
      exact congrArg (pure <| some ·) (ask_after { search with worklist := rest } state)
    | goOn =>
      rw [map_ite, map_ite, map_ite]
      refine ite_congr (propext limits) (fun _ => by rw [map_pure, Option.map_none]) fun _ => ?_
      refine ite_congr rfl (fun _ => ?_) fun _ => ite_congr rfl (fun _ => ?_) fun _ => ?_
      · exact congrArg (pure <| some ·) (asked { search with worklist := rest } state)
      · exact (map_pure (f := Exec) _ _).symm
      cases func.getBlock state.pc.toNat with
      | none =>
        exact congrArg (pure <| some ·) (asked { search with
          worklist := rest
          statesExplored := search.statesExplored + 1 } state)
      | some block =>
        have executes := @searchBlock_after _ _ _ _ explorer func maxStates goal before
          { search with
            worklist := rest
            statesExplored := search.statesExplored + 1 } state block
        refine (congrArg (· >>= fun next => pure (some next)) executes).trans ?_
        rw [bind_map_left, map_bind]
        rfl

/-- An iteration that goes on does so under any limit that does not stop it. -/
theorem searchStep_raised {next : PathSearch BV Formula}
    (steps : searchStep explorer func goal search n = .ok (some next, n'))
    (below : search.statesExplored < maxStates) :
    searchStep (explorer.withMaxStates maxStates) func goal search n = .ok (some next, n') := by
  unfold searchStep at steps ⊢
  by_cases returned : search.returned = true
  · rw [if_pos returned] at steps
    cases (exec_pure.mp steps).1
  rw [if_neg returned] at steps ⊢
  obtain ⟨selection, k, selects, steps⟩ := exec_bind.mp steps
  refine exec_bind.mpr ⟨selection, k, selects, ?_⟩
  cases selection with
  | none => exact steps
  | some selection =>
    obtain ⟨origins, state, rest⟩ := selection
    dsimp only at steps ⊢
    cases arrival : goal.arrival state.pc with
    | skip | ask => rwa [arrival] at steps
    | goOn =>
      rw [arrival] at steps
      rw [if_neg (show ¬ (explorer.withMaxStates maxStates).config.maxStates ≤
        search.statesExplored from Nat.not_le.mpr below)]
      by_cases limit : explorer.config.maxStates ≤ search.statesExplored
      · rw [if_pos limit] at steps
        cases (exec_pure.mp steps).1
      · rw [if_neg limit] at steps
        exact steps

private theorem searchStep_nil (stopped : search.returned = true ∨ search.worklist = []) :
    searchStep explorer func goal search = pure none := by
  unfold searchStep
  by_cases returned : search.returned = true
  · rw [if_pos returned]
  · rw [if_neg returned, stopped.resolve_left returned, selectState_nil]
    rfl

/-- An exploration loses and repeats no state, whatever earlier calls counted: those that
its iterations took and those still waiting are the initial state and those that were
pushed, each as often. It counts the states it explores, never past its limit, ends by
itself once the limit is reached or none waits, and returns one path for each that it
counts as completed or cut at the depth. -/
theorem explore_conserves (initialState : SymState BV Formula) (stats : ExploreStats)
    (iterations : Nat) {visits : List (Visit BV Formula)} {last : Exploration BV Formula}
    (explores : exploreFrom explorer func initialState stats iterations n =
      .ok ((visits, last), n')) :
    (visits.flatMap (·.origins) ++ last.worklist).Perm
        (initialState :: visits.flatMap (·.pushed)) ∧
      last.stats.statesExplored = stats.statesExplored + visits.length ∧
      last.stats.statesExplored ≤ max stats.statesExplored explorer.config.maxStates ∧
      (visits.length < iterations →
        last.worklist = [] ∨ explorer.config.maxStates ≤ last.stats.statesExplored) ∧
      last.results.length + (stats.pathsCompleted + stats.pathsMaxDepth) =
        last.stats.pathsCompleted + last.stats.pathsMaxDepth := by
  have spec := exploreLoop_spec iterations explores
  exact ⟨spec.conserved, spec.counted, spec.below, spec.ended, spec.tallied _ (Nat.zero_add _)⟩

private theorem returned_or_worklist_or_limit_of_searchStep
    (steps : searchStep explorer func goal search n = .ok (none, n')) :
    (search.returned = true ∨ search.worklist = []) ∨
      explorer.config.maxStates ≤ search.statesExplored := by
  unfold searchStep at steps
  by_cases returned : search.returned = true
  · exact .inl (.inl returned)
  rw [if_neg returned] at steps
  obtain ⟨selection, k, selects, steps⟩ := exec_bind.mp steps
  cases selection with
  | none => exact .inl (.inr (selectState_eq_none (Except.ok.inj selects)))
  | some selection =>
    refine .inr (by_contra fun limit => ?_)
    dsimp only at steps
    cases arrival : goal.arrival selection.2.1.pc with
    | skip | ask =>
      rw [arrival] at steps
      exact goesOn_some _ _ _ steps
    | goOn =>
      rw [arrival] at steps
      rw [if_neg limit] at steps
      refine (goesOn_some _).ite ((goesOn_some _).ite ?_) _ _ steps
      cases func.getBlock selection.2.1.pc.toNat with
      | none => exact goesOn_some _
      | some block => exact goesOn_bind _

end Explorer

/-! ## Calls -/

inductive ExplorerCall (BV Formula : Type) where
  | explore (func : SSAFunction) (initialState : SymState BV Formula)
  | findPathTo (func : SSAFunction) (initialState : SymState BV Formula) (targetAddr : Word)
  | findPathsTo (func : SSAFunction) (initialState : SymState BV Formula) (targetAddr : Word)
  | findPathAvoiding (func : SSAFunction) (initialState : SymState BV Formula)
      (avoidAddrs : List Word)

inductive CallResult (BV Formula : Type) where
  | paths (results : List (PathResult BV Formula))
  | path (result : Option (PathResult BV Formula))

/-- What a call leaves: its result, the count of states, and the states that still wait and
would be explored but for the limit. -/
structure CallEnd (BV Formula : Type) where
  result : CallResult BV Formula
  statesExplored : Nat
  waiting : List (SymState BV Formula)

def ExploreStats.default : ExploreStats := ⟨0, 0, 0, 0, 0⟩

def Exploration.callEnd (last : Exploration BV Formula) : CallEnd BV Formula where
  result := .paths last.results
  statesExplored := last.stats.statesExplored
  waiting := last.worklist

def PathSearch.callEnd (last : PathSearch BV Formula) (once : Bool) : CallEnd BV Formula where
  result := if once then .path last.found.head? else .paths last.found
  statesExplored := last.statesExplored
  waiting := if last.returned then [] else last.worklist

section Calls

variable [Z3Arith BV Formula Model] (explorer : PathExplorer BV Formula)

def SearchEnds (func : SSAFunction) (initialState : SymState BV Formula) (goal : Goal)
    (statesExplored n : Nat) (ended : CallEnd BV Formula) : Prop :=
  ∃ last, StopsAt (searchNext explorer func goal)
    (⟨[initialState], [], [], statesExplored, false⟩, n) last ∧ ended = last.1.callEnd goal.once

/-- A call on an explorer with these statistics returns; `n` constants were made before. -/
def ExplorerCall.Returns (stats : ExploreStats) (n : Nat) (ended : CallEnd BV Formula) :
    ExplorerCall BV Formula → Prop
  | .explore func initialState =>
    ∃ last, StopsAt (exploreNext explorer func) (⟨[initialState], [], stats⟩, n) last ∧
      ended = last.1.callEnd
  | .findPathTo func initialState targetAddr =>
    SearchEnds explorer func initialState (.pathTo targetAddr true) stats.statesExplored n ended
  | .findPathsTo func initialState targetAddr =>
    SearchEnds explorer func initialState (.pathTo targetAddr false) stats.statesExplored n ended
  | .findPathAvoiding func initialState avoidAddrs =>
    SearchEnds explorer func initialState (.avoiding avoidAddrs) stats.statesExplored n ended

variable {explorer}

private theorem searchEnds_fresh {func : SSAFunction} {initialState : SymState BV Formula}
    {ended : CallEnd BV Formula}
    (limits : ∀ count, maxStates ≤ count → explorer.config.maxStates ≤ statesExplored + count)
    (stop : ended.waiting = [] ∨
      ∀ count, explorer.config.maxStates ≤ statesExplored + count → maxStates ≤ count)
    (ends : SearchEnds explorer func initialState goal statesExplored n ended) :
    ∃ ended', SearchEnds (explorer.withMaxStates maxStates) func initialState goal 0 n ended' ∧
      ended'.result = ended.result := by
  obtain ⟨last, runs, rfl⟩ := ends
  have steps : ∀ (s s' t : PathSearch BV Formula × Nat), s = (t.1.after statesExplored, t.2) →
      searchNext explorer func goal s = some (some s') →
      ∃ t', searchNext (explorer.withMaxStates maxStates) func goal t = some (some t') ∧
        s' = (t'.1.after statesExplored, t'.2) := by
    rintro _ ⟨next, k'⟩ ⟨fresh, k⟩ rfl goesOn
    have goesOn := searchNext_eq_next.mp goesOn
    by_cases reached : maxStates ≤ fresh.statesExplored
    · rw [searchStep_after (iff_of_true (limits _ reached) reached)] at goesOn
      obtain ⟨_ | next', steps', isNext⟩ := map_eq_ok.mp goesOn
      · cases isNext
      · exact ⟨(next', k'), searchNext_eq_next.mpr steps',
          congrArg (·, k') (Option.some.inj isNext).symm⟩
    · -- Where the limit is not reached on the fresh explorer, it may as well be raised here.
      have raised := searchStep_raised goesOn (Nat.lt_succ_self _)
      rw [searchStep_after (iff_of_false (Nat.not_succ_le_self _) reached)] at raised
      obtain ⟨_ | next', steps', isNext⟩ := map_eq_ok.mp raised
      · cases isNext
      · exact ⟨(next', k'), searchNext_eq_next.mpr steps',
          congrArg (·, k') (Option.some.inj isNext).symm⟩
  have stops : ∀ (t : PathSearch BV Formula × Nat), last = (t.1.after statesExplored, t.2) →
      searchNext explorer func goal last = some none →
      searchNext (explorer.withMaxStates maxStates) func goal t = some none := by
    rintro ⟨fresh, k⟩ rfl stopped
    obtain ⟨k', steps'⟩ := searchNext_eq_stop.mp stopped
    have nothing (nil : fresh.returned = true ∨ fresh.worklist = []) :
        searchNext (explorer.withMaxStates maxStates) func goal (fresh, k) = some none :=
      searchNext_eq_stop.mpr ⟨k, by rw [searchStep_nil nil]; rfl⟩
    rcases returned_or_worklist_or_limit_of_searchStep steps' with nil | limit
    · exact nothing nil
    · rcases stop with unstopped | reached
      · exact nothing (or_iff_not_imp_left.mpr fun searching => (if_neg searching).symm.trans unstopped)
      · rw [searchStep_after (iff_of_true limit (reached _ limit))] at steps'
        obtain ⟨_ | next', steps', isNext⟩ := map_eq_ok.mp steps'
        · exact searchNext_eq_stop.mpr ⟨k', steps'⟩
        · cases isNext
  obtain ⟨last', runs', rfl⟩ := runs.simulate steps stops
    (t := (⟨[initialState], [], [], 0, false⟩, n)) rfl
  exact ⟨_, ⟨_, runs', rfl⟩, rfl⟩

section

variable (limits : ∀ count, maxStates ≤ count → explorer.config.maxStates ≤ stats.statesExplored + count)
include limits

private theorem exploreEnds_fresh {func : SSAFunction} {initialState : SymState BV Formula}
    {last : Exploration BV Formula × Nat}
    (stop : last.1.callEnd.waiting = [] ∨
      ∀ count, explorer.config.maxStates ≤ stats.statesExplored + count → maxStates ≤ count)
    (runs : StopsAt (exploreNext explorer func) (⟨[initialState], [], stats⟩, n) last) :
    ∃ last', StopsAt (exploreNext (explorer.withMaxStates maxStates) func)
        (⟨[initialState], [], .default⟩, n) last' ∧ last'.1.results = last.1.results := by
  have steps : ∀ (s s' t : Exploration BV Formula × Nat), s = (t.1.after stats, t.2) →
      exploreNext explorer func s = some (some s') →
      ∃ t', exploreNext (explorer.withMaxStates maxStates) func t = some (some t') ∧
        s' = (t'.1.after stats, t'.2) := by
    rintro _ ⟨next, k'⟩ ⟨fresh, k⟩ rfl goesOn
    obtain ⟨visit, goesOn⟩ := exploreNext_eq_next.mp goesOn
    have limit := Nat.not_le_of_lt (exploreStep_spec goesOn).below
    rw [exploreStep_after (iff_of_false limit fun reached => limit (limits _ reached))] at goesOn
    obtain ⟨_ | ⟨visit', next'⟩, steps', isNext⟩ := map_eq_ok.mp goesOn
    · cases isNext
    · obtain ⟨rfl, rfl⟩ := Prod.mk.inj (Option.some.inj isNext)
      exact ⟨(next', k'), exploreNext_eq_next.mpr ⟨_, steps'⟩, rfl⟩
  have stops : ∀ (t : Exploration BV Formula × Nat), last = (t.1.after stats, t.2) →
      exploreNext explorer func last = some none →
      exploreNext (explorer.withMaxStates maxStates) func t = some none := by
    rintro ⟨fresh, k⟩ rfl stopped
    obtain ⟨k', steps'⟩ := exploreNext_eq_stop.mp stopped
    have nothing (empty : fresh.worklist = []) :
        exploreNext (explorer.withMaxStates maxStates) func (fresh, k) = some none :=
      exploreNext_eq_stop.mpr ⟨k, by rw [exploreStep_nil empty]; rfl⟩
    rcases worklist_or_limit_of_exploreStep steps' with empty | limit
    · exact nothing empty
    · rcases stop with unstopped | reached
      · exact nothing unstopped
      · rw [exploreStep_after (iff_of_true limit (reached _ limit))] at steps'
        obtain ⟨_ | next', steps', isNext⟩ := map_eq_ok.mp steps'
        · exact exploreNext_eq_stop.mpr ⟨k', steps'⟩
        · cases isNext
  have starts : ((⟨[initialState], [], stats⟩, n) : Exploration BV Formula × Nat) =
      ((⟨[initialState], [], .default⟩ : Exploration BV Formula).after stats, n) := by
    simp [Exploration.after, ExploreStats.after, ExploreStats.default]
  obtain ⟨last', runs', rfl⟩ := runs.simulate steps stops
    (t := (⟨[initialState], [], .default⟩, n)) starts
  exact ⟨last', runs', rfl⟩

/-- A call returns what it returns on a fresh explorer with another limit, if that limit
never comes first, and comes wherever the call was stopped by its own. -/
theorem returns_withMaxStates {call : ExplorerCall BV Formula} {ended : CallEnd BV Formula}
    (stop : ended.waiting = [] ∨
      ∀ count, explorer.config.maxStates ≤ stats.statesExplored + count → maxStates ≤ count)
    (returns : call.Returns explorer stats n ended) :
    ∃ ended', call.Returns (explorer.withMaxStates maxStates) .default n ended' ∧
      ended'.result = ended.result := by
  cases call with
  | explore func initialState =>
    obtain ⟨last, runs, rfl⟩ := returns
    obtain ⟨last', runs', same⟩ := exploreEnds_fresh limits stop runs
    exact ⟨_, ⟨last', runs', rfl⟩, congrArg CallResult.paths same⟩
  | findPathTo | findPathsTo | findPathAvoiding => exact searchEnds_fresh limits stop returns

end

/-! ## Sessions -/

/-- A call of a session: what it was called with and what it returned. -/
structure Use (BV Formula : Type) where
  call : ExplorerCall BV Formula
  stats : ExploreStats
  constants : Nat
  ended : CallEnd BV Formula

/-- Calls one after the other. Between them only the count of states is kept; the other
statistics and the number of constants may be any. -/
inductive Session (explorer : PathExplorer BV Formula) :
    ExploreStats → List (Use BV Formula) → Prop where
  | done (stats : ExploreStats) : Session explorer stats []
  | call (use : Use BV Formula) {next : ExploreStats} {rest : List (Use BV Formula)}
      (returns : use.call.Returns explorer use.stats use.constants use.ended)
      (count : next.statesExplored = use.ended.statesExplored)
      (later : Session explorer next rest) : Session explorer use.stats (use :: rest)

theorem withMaxStates_self : explorer.withMaxStates explorer.config.maxStates = explorer := rfl

section

variable {call : ExplorerCall BV Formula} {ended : CallEnd BV Formula}
  (returns : call.Returns explorer stats n ended)
include returns

private theorem returns_lowered :
    ∃ ended', call.Returns
        (explorer.withMaxStates (explorer.config.maxStates - stats.statesExplored)) .default n
        ended' ∧ ended'.result = ended.result := by
  have limits : ∀ count, explorer.config.maxStates - stats.statesExplored ≤ count →
      explorer.config.maxStates ≤ stats.statesExplored + count := fun _ => Nat.sub_le_iff_le_add'.mp
  have reached : ∀ count, explorer.config.maxStates ≤ stats.statesExplored + count →
      explorer.config.maxStates - stats.statesExplored ≤ count :=
    fun _ => Nat.sub_le_iff_le_add'.mpr
  exact returns_withMaxStates limits (.inr reached) returns

/-- A call at the start, or one that leaves nothing waiting, returns as on a fresh explorer. -/
theorem returns_fresh
    (kept : stats.statesExplored = 0 ∨ ended.waiting = []) :
    ∃ ended', call.Returns explorer .default n ended' ∧ ended'.result = ended.result := by
  have limits : ∀ count, explorer.config.maxStates ≤ count →
      explorer.config.maxStates ≤ stats.statesExplored + count :=
    fun _ reached => Nat.le_trans reached (Nat.le_add_left ..)
  have stop : ended.waiting = [] ∨
      ∀ count, explorer.config.maxStates ≤ stats.statesExplored + count →
        explorer.config.maxStates ≤ count := by
    rcases kept with first | unstopped
    · exact .inr fun count reached => by rwa [first, Nat.zero_add] at reached
    · exact .inl unstopped
  have fresh := returns_withMaxStates limits stop returns
  rwa [withMaxStates_self] at fresh

end

theorem Session.returns {uses : List (Use BV Formula)} (session : Session explorer stats uses) :
    ∀ use ∈ uses, use.call.Returns explorer use.stats use.constants use.ended := by
  induction session with
  | done stats => exact fun _ mem => absurd mem not_mem_nil
  | call use returns _ _ ih =>
    exact forall_mem_cons.mpr ⟨returns, ih⟩

/-- Each call of a session returns what it returns on a fresh explorer whose limit is
lower by the states that earlier calls explored; and if none were explored before or no
state waits when it ends, what it returns on a fresh explorer with the same limit. -/
theorem session_returns {uses : List (Use BV Formula)}
    (session : Session explorer .default uses) : ∀ use ∈ uses,
      (∃ ended, use.call.Returns (explorer.withMaxStates
          (explorer.config.maxStates - use.stats.statesExplored)) .default use.constants ended ∧
        ended.result = use.ended.result) ∧
      (use.stats.statesExplored = 0 ∨ use.ended.waiting = [] →
        ∃ ended, use.call.Returns explorer .default use.constants ended ∧
          ended.result = use.ended.result) := by
  intro use mem
  have returns := session.returns use mem
  exact ⟨returns_lowered returns, returns_fresh returns⟩

end Calls

section Nowhere

/-- The path of a state whose address has no block. -/
def nowherePath : PathResult Term (Assignment → Bool) := .new (nowhere.terminate .return) true

def nowhereCall : ExplorerCall Term (Assignment → Bool) := .explore (diamond []) nowhere

def countOf (statesExplored : Nat) : ExploreStats := ⟨statesExplored, 0, 0, 0, 0⟩

theorem nowhere_returns (below : statesExplored < maxStates)
    (n : Nat) : nowhereCall.Returns (mergingExplorer.withMaxStates maxStates)
      (countOf statesExplored) n ⟨.paths [nowherePath], statesExplored + 1, []⟩ := by
  have limit : ¬ (mergingExplorer.withMaxStates maxStates).config.maxStates ≤ statesExplored :=
    Nat.not_le.mpr below
  refine ⟨(⟨[], [nowherePath], ⟨statesExplored + 1, 1, 0, 0, 0⟩⟩, n),
    .next (exploreNext_eq_next.mpr ⟨⟨[nowhere], nowhere, none, []⟩, ?_⟩) (.stop rfl), rfl⟩
  show (if (mergingExplorer.withMaxStates maxStates).config.maxStates ≤ statesExplored then _
    else _ : Exec _) n = _
  rw [if_neg limit]
  rfl

private theorem nowhere_stopped (reached : maxStates ≤ statesExplored)
    (n : Nat) : nowhereCall.Returns (mergingExplorer.withMaxStates maxStates)
      (countOf statesExplored) n ⟨.paths [], statesExplored, [nowhere]⟩ := by
  refine ⟨(⟨[nowhere], [], countOf statesExplored⟩, n),
    .stop (exploreNext_eq_stop.mpr ⟨n, ?_⟩), rfl⟩
  show (if (mergingExplorer.withMaxStates maxStates).config.maxStates ≤ statesExplored then _
    else _ : Exec _) n = _
  rw [if_pos (show (mergingExplorer.withMaxStates maxStates).config.maxStates ≤ statesExplored
    from reached)]
  rfl

/-- With a limit of one state, the second of two equal calls returns no path. -/
theorem second_call_differs : ¬ ∀ uses : List (Use Term (Assignment → Bool)),
    Session (mergingExplorer.withMaxStates 1) .default uses → ∀ use ∈ uses,
      ∃ ended, use.call.Returns (mergingExplorer.withMaxStates 1) .default use.constants ended ∧
        ended.result = use.ended.result := by
  intro independent
  let first : Use Term (Assignment → Bool) :=
    ⟨nowhereCall, .default, 0, ⟨.paths [nowherePath], 1, []⟩⟩
  let second : Use Term (Assignment → Bool) :=
    ⟨nowhereCall, countOf 1, 0, ⟨.paths [], 1, [nowhere]⟩⟩
  have later : Session (mergingExplorer.withMaxStates 1) (countOf 1) [second] :=
    .call second (nowhere_stopped (Nat.le_refl 1) 0)
      (show (countOf 1).statesExplored = 1 from rfl) (.done (countOf 1))
  have session : Session (mergingExplorer.withMaxStates 1) .default [first, second] :=
    .call first (nowhere_returns Nat.one_pos 0) (show (countOf 1).statesExplored = 1 from rfl) later
  obtain ⟨ended, ⟨last, runs, rfl⟩, same⟩ :=
    independent _ session second (mem_cons_of_mem _ mem_cons_self)
  obtain ⟨last', runs', isPaths⟩ : nowhereCall.Returns (mergingExplorer.withMaxStates 1) .default 0
      ⟨.paths [nowherePath], 1, []⟩ := nowhere_returns Nat.one_pos 0
  rw [runs.unique runs', ← isPaths] at same
  cases same

/-- Four iterations after five states and two paths of earlier calls; the last merges the two
paths into one result. -/
theorem explore_conserves_diamond : ∃ visits last n',
    exploreFrom mergingExplorer (diamond []) flagUnknown ⟨5, 2, 0, 0, 3⟩ 6 0 =
      .ok ((visits, last), n') ∧ visits.length = 4 ∧
    (visits.flatMap (·.origins)).Perm (flagUnknown :: visits.flatMap (·.pushed)) ∧
    last.stats.statesExplored = 9 ∧
    last.results.length + 2 = last.stats.pathsCompleted + last.stats.pathsMaxDepth := by
  have ran : (exploreFrom mergingExplorer (diamond []) flagUnknown ⟨5, 2, 0, 0, 3⟩ 6 0).toOption.map
      (·.1.1.length) = some 4 := by decide +kernel
  cases explores : exploreFrom mergingExplorer (diamond []) flagUnknown ⟨5, 2, 0, 0, 3⟩ 6 0 with
  | error panic =>
    rw [explores] at ran
    cases ran
  | ok result =>
    obtain ⟨⟨visits, last⟩, n'⟩ := result
    rw [explores] at ran
    have four : visits.length = 4 := Option.some.inj ran
    obtain ⟨perm, counted, -, ended, results⟩ :=
      explore_conserves flagUnknown ⟨5, 2, 0, 0, 3⟩ 6 explores
    rw [four] at counted ended
    have empty : last.worklist = [] :=
      (ended (by decide)).resolve_right (by rw [counted]; decide)
    rw [empty, append_nil] at perm
    exact ⟨visits, last, n', rfl, four, perm, counted, results⟩

/-- With a limit of two states, the second of two equal calls returns the same path. -/
theorem nowhere_calls_return : ∃ first second : Use Term (Assignment → Bool),
    Session (mergingExplorer.withMaxStates 2) .default [first, second] ∧
      second.stats.statesExplored = 1 ∧ second.ended.result = .paths [nowherePath] ∧
      ∃ ended, second.call.Returns (mergingExplorer.withMaxStates 2) .default second.constants
        ended ∧ ended.result = second.ended.result := by
  let first : Use Term (Assignment → Bool) :=
    ⟨nowhereCall, .default, 0, ⟨.paths [nowherePath], 1, []⟩⟩
  let second : Use Term (Assignment → Bool) :=
    ⟨nowhereCall, countOf 1, 0, ⟨.paths [nowherePath], 2, []⟩⟩
  have later : Session (mergingExplorer.withMaxStates 2) (countOf 1) [second] :=
    .call second (nowhere_returns Nat.one_lt_two 0)
      (show (countOf 2).statesExplored = 2 from rfl) (.done (countOf 2))
  have session : Session (mergingExplorer.withMaxStates 2) .default [first, second] :=
    .call first (nowhere_returns Nat.two_pos 0) (show (countOf 1).statesExplored = 1 from rfl) later
  have independent := (session_returns session second (mem_cons_of_mem _ mem_cons_self)).2
  exact ⟨first, second, session, rfl, rfl, independent (.inr rfl)⟩

end Nowhere

end R2Sleigh.Sym
