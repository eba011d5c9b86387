import R2Sleigh.Ssa.SccpApplied
import R2Sleigh.Ssa.SccpFixpoint

/-!
Contract: control flow that constant propagation found executable and that
applying its results keeps.

Owns `Grounded`.

The pass decides a conditional block by its last `CBranch`, the rewriting by
the first `CBranch` whose condition is constant. The pass starts from an edge
out of the address `2 ^ 64 - 1`, which stands for the caller.
-/

namespace R2Sleigh.Ssa

open Il Flow Lib List

namespace SSAFunction

variable {func : SSAFunction} {executable : List (Nat × Nat)} {b a : Nat}

/-- The edge that the pass starts from. -/
def callerEdge (func : SSAFunction) : Nat × Nat := (2 ^ 64 - 1, func.entry)

/-- Executable edges between blocks. -/
def executableFlow (func : SSAFunction) (executable : List (Nat × Nat)) : Graph Nat where
  root := func.entry
  edge a b := func.cfg.Edge a b ∧ (a, b) ∈ executable

theorem executableFlow_mono {executable' : List (Nat × Nat)}
    (subset : executable ⊆ executable') (reach : (func.executableFlow executable).Reach b) :
    (func.executableFlow executable').Reach b :=
  reach.induction (g := func.executableFlow executable)
    (motive := (func.executableFlow executable').Reach) .root
    fun _ _ _ reached edge => reached.step ⟨edge.1, subset edge.2⟩

/-- An edge that starts the pass, or leaves a block reached through executable
edges and is an edge of the graph wherever it leads to a block. -/
def GroundedEdge (func : SSAFunction) (executable : List (Nat × Nat)) (edge : Nat × Nat) : Prop :=
  edge = func.callerEdge ∨ ((func.executableFlow executable).Reach edge.1 ∧
    (edge.2 ∈ func.blockOrder → func.cfg.Edge edge.1 edge.2))

theorem GroundedEdge.mono {executable' : List (Nat × Nat)}
    (subset : executable ⊆ executable') {edge : Nat × Nat}
    (grounded : func.GroundedEdge executable edge) : func.GroundedEdge executable' edge :=
  grounded.imp_right fun leaves => ⟨executableFlow_mono subset leaves.1, leaves.2⟩

/-- What holds of the edges of a state of the pass. -/
structure Grounded (func : SSAFunction) (state : SccpState) : Prop where
  entered : func.callerEdge ∈ state.executable ∨ func.callerEdge ∈ state.cfgWorklist
  executable : ∀ edge ∈ state.executable, func.GroundedEdge state.executable edge
  worklist : ∀ edge ∈ state.cfgWorklist, func.GroundedEdge state.executable edge
  visited : ∀ a ∈ state.blockVisited, (func.executableFlow state.executable).Reach a
  agenda : ∀ a, .terminator a ∈ state.agenda → (func.executableFlow state.executable).Reach a

section Run

variable {func : SSAFunction} (coherent : func.Coherent) {checks : Bool}
  {state next : SccpState}

theorem Grounded.start : func.Grounded (.start func) where
  entered := .inr (mem_singleton.mpr rfl)
  executable _ mem := absurd mem not_mem_nil
  worklist _ mem := .inl (mem_singleton.mp mem)
  visited _ mem := absurd mem not_mem_nil
  agenda _ mem := absurd mem not_mem_nil

include coherent in
/-- The edges that a terminator adds leave its block and are in the graph. -/
theorem evaluateTerminator_grounded {lattice : Lattice}
    (reach : (func.executableFlow executable).Reach a) {edge : Nat × Nat}
    (mem : edge ∈ evaluateTerminatorSccp func a lattice) :
    func.GroundedEdge executable edge := by
  refine .inr ?_
  unfold evaluateTerminatorSccp at mem
  cases found : func.cfg.getBlock a with
  | none => simp [found] at mem
  | some block =>
    have targets : edge.1 = a ∧ (edge.2 ∈ func.blockOrder → func.cfg.Edge a edge.2) := by
      cases terminator : block.terminator with
      | ConditionalBranch t f =>
        have branching := coherent.branching a t f block found terminator
        have each : edge = (a, t) ∨ edge = (a, f) := by
          simp only [found, terminator] at mem
          split at mem
          · split at mem
            · exact .inr (mem_singleton.mp mem)
            · exact .inl (mem_singleton.mp mem)
          all_goals simpa using mem
        refine ⟨by rcases each with rfl | rfl <;> rfl, fun listed => ?_⟩
        rw [← coherent.bijective.mem_pairs, branching.mem_iff]
        refine ⟨?_, coherent.mapped_of_listed listed⟩
        rcases each with rfl | rfl
        · exact .inl rfl
        · exact .inr rfl
      | _ =>
        simp only [found, terminator, mem_map] at mem
        obtain ⟨succ, isSuccessor, rfl⟩ := mem
        exact ⟨rfl, fun _ => coherent.bijective.consistent.mem_successors.mp isSuccessor⟩
    obtain ⟨source, inGraph⟩ := targets
    rw [source]
    exact ⟨reach, inGraph⟩

include coherent in
theorem Grounded.perform (grounded : func.Grounded state) {task : Task} {rest : List Task}
    (agenda : state.agenda = task :: rest)
    (run : { state with agenda := rest }.perform checks func task = .ok next) :
    func.Grounded next := by
  have others : ∀ a, .terminator a ∈ rest → (func.executableFlow state.executable).Reach a :=
    fun a mem => grounded.agenda a (by rw [agenda]; exact mem_cons_of_mem _ mem)
  have lowered : ∀ var newVal, func.Grounded
      (SccpState.lower { state with agenda := rest } var newVal) := by
    intro var newVal
    rcases SccpState.lower_cases { state with agenda := rest } var newVal with same |
      ⟨lattice, same, -⟩
    all_goals
      rw [same]
      exact ⟨grounded.entered, grounded.executable, grounded.worklist, grounded.visited, others⟩
  cases task with
  | phi a phi =>
    obtain rfl := Except.ok.inj run
    exact lowered _ _
  | op op =>
    obtain ⟨-, rfl⟩ | ⟨dst, value, -, -, rfl⟩ := SccpState.perform_op run
    · exact ⟨grounded.entered, grounded.executable, grounded.worklist, grounded.visited, others⟩
    · exact lowered _ _
  | terminator a =>
    obtain rfl := Except.ok.inj run
    refine ⟨grounded.entered.imp_right (mem_append_left _), grounded.executable,
      fun edge mem => ?_, grounded.visited, others⟩
    rcases mem_append.mp mem with old | added
    · exact grounded.worklist edge old
    · exact evaluateTerminator_grounded coherent
        (grounded.agenda a (by rw [agenda]; exact mem_cons_self)) added

private theorem useTasks_terminator {blockVisited : List Nat} {location : UseLocation}
    (mem : .terminator a ∈ useTasks func blockVisited location) : a ∈ blockVisited := by
  cases location with
  | Phi blockAddr phiIdx =>
    simp only [useTasks] at mem
    split at mem
    · split at mem <;> simp at mem
    · simp at mem
  | Op blockAddr opIdx =>
    simp only [useTasks] at mem
    split at mem
    · rename_i visited
      split at mem
      · simp at mem
      · split at mem
        · simp only [mem_cons, reduceCtorEq, Task.terminator.injEq, not_mem_nil,
            or_false, false_or] at mem
          rw [mem]
          exact visited
        · simp at mem
    · simp at mem

theorem Grounded.popVariable (grounded : func.Grounded state)
    (popped : state.popVariable func = some next) : func.Grounded next := by
  unfold SccpState.popVariable at popped
  cases worklist : state.ssaWorklist with
  | nil => simp [worklist] at popped
  | cons key rest =>
    simp only [worklist, Option.some.injEq] at popped
    subst popped
    refine ⟨grounded.entered, grounded.executable, grounded.worklist, grounded.visited,
      fun a mem => ?_⟩
    obtain ⟨location, -, inside⟩ := mem_flatMap.mp mem
    exact grounded.visited a (useTasks_terminator inside)

include coherent in
theorem Grounded.popEdge (grounded : func.Grounded state) (idle : state.agenda = [])
    (popped : state.popEdge func = some next) : func.Grounded next := by
  obtain ⟨edge, rest, worklist, cases⟩ := popEdge_cases popped
  have fromRest : ∀ other ∈ rest, func.GroundedEdge state.executable other := fun other mem =>
    grounded.worklist other (by rw [worklist]; exact mem_cons_of_mem _ mem)
  have isGrounded : func.GroundedEdge state.executable edge :=
    grounded.worklist edge (by rw [worklist]; exact mem_cons_self)
  have entered : func.callerEdge ∈ edge :: state.executable ∨ func.callerEdge ∈ rest := by
    rcases grounded.entered with done | waiting
    · exact .inl (mem_cons_of_mem _ done)
    · rw [worklist] at waiting
      rcases mem_cons.mp waiting with isEdge | later
      · exact .inl (isEdge ▸ mem_cons_self)
      · exact .inr later
  have subset : state.executable ⊆ edge :: state.executable := subset_cons_self _ _
  have executable : ∀ other ∈ edge :: state.executable,
      func.GroundedEdge (edge :: state.executable) other := by
    intro other mem
    rcases mem_cons.mp mem with rfl | old
    · exact isGrounded.mono subset
    · exact (grounded.executable other old).mono subset
  rcases cases with ⟨known, rfl⟩ | ⟨-, -, rfl⟩ | ⟨-, block, found, rfl⟩
  · refine ⟨entered.imp_left fun done => ?_, grounded.executable, fromRest, grounded.visited,
      grounded.agenda⟩
    rcases mem_cons.mp done with isEdge | old
    · rw [isEdge]
      exact known
    · exact old
  · exact ⟨entered, executable, fun other mem => (fromRest other mem).mono subset,
      fun a visited => executableFlow_mono subset (grounded.visited a visited),
      fun a mem => absurd mem (by rw [idle]; exact not_mem_nil)⟩
  · -- the target is reached, by the edge or as the entry
    have arrived : (func.executableFlow (edge :: state.executable)).Reach edge.2 := by
      rcases isGrounded with isCaller | ⟨reach, inGraph⟩
      · rw [isCaller]
        exact .root
      · have listed := (coherent.blocks edge.2).mp (by rw [found]; rfl)
        exact (executableFlow_mono subset reach).step ⟨inGraph listed, mem_cons_self⟩
    refine ⟨entered, executable, fun other mem => (fromRest other mem).mono subset,
      fun a visited => ?_, fun a mem => ?_⟩
    · rcases mem_insert_iff.mp visited with rfl | old
      · exact arrived
      · exact executableFlow_mono subset (grounded.visited a old)
    · have isTarget : a = edge.2 := by
        simp only [arrivalTasks, mem_append, mem_map, reduceCtorEq, and_false,
          exists_false, false_or] at mem
        split at mem <;> simp at mem
        exact mem
      rw [isTarget]
      exact arrived

include coherent in
private theorem Grounded.of_reaches (reaches : SccpReaches checks func state) :
    func.Grounded state := by
  induction reaches with
  | refl => exact .start
  | tail _ step ih =>
    rcases step_cases step with ⟨task, rest, agenda, run⟩ | ⟨idle, popped | popped⟩
    · exact ih.perform coherent agenda run
    · exact ih.popVariable popped
    · exact ih.popEdge coherent idle popped

end Run

/-! ## What the result keeps -/

/-- Every executable edge is still there, and every block reached through
executable edges. -/
structure KeepsLiveFlow (func func' : SSAFunction) (executable : List (Nat × Nat)) : Prop where
  edges : ∀ a b, func.cfg.Edge a b → (a, b) ∈ executable → func'.cfg.Edge a b
  blocks : ∀ b, (func.executableFlow executable).Reach b →
    (func'.getBlock b).isSome ∧ (func'.cfg.getBlock b).isSome

/-- No branch that the rewriting decides drops an edge that the pass found
executable. -/
def DecisionsAgree (func : SSAFunction) (consts : HashMap VarKey Word)
    (executable : List (Nat × Nat)) : Prop :=
  ∀ a keep dead, func.decidedBranch consts a = some (keep, dead) → func.cfg.Edge a dead →
    (a, dead) ∈ executable → dead = keep

section Keeps

variable {func : SSAFunction} (coherent : func.Coherent) {consts : HashMap VarKey Word}
  {executable : List (Nat × Nat)}
include coherent

theorem DecisionsAgree.edge_iff (agree : func.DecisionsAgree consts executable) :
    (func.keptFlow consts executable).edge a b ↔ (func.executableFlow executable).edge a b := by
  refine ⟨fun kept => ⟨kept.1, kept.2.1⟩, fun edge => ⟨edge.1, edge.2, fun decided isDecided => ?_⟩⟩
  obtain ⟨keep, dead⟩ := decided
  rcases ((coherent.edge_of_decided isDecided).mp edge.1).1 with isKeep | isDead
  · exact isKeep
  · subst isDead
    exact agree a keep b isDecided edge.1 edge.2

theorem DecisionsAgree.reach (agree : func.DecisionsAgree consts executable)
    (reach : (func.executableFlow executable).Reach b) :
    (func.keptFlow consts executable).Reach b :=
  reach.induction (g := func.executableFlow executable)
    (motive := (func.keptFlow consts executable).Reach) .root
    fun _ _ _ reached edge => reached.step ((agree.edge_iff coherent).mpr edge)

omit coherent in
private theorem reach_of_kept (reach : (func.keptFlow consts executable).Reach b) :
    (func.executableFlow executable).Reach b :=
  reach.induction (g := func.keptFlow consts executable)
    (motive := (func.executableFlow executable).Reach) .root
    fun _ _ _ reached edge => reached.step ⟨edge.1, edge.2.1⟩

/-- When the live flow is kept, for what a run has found. -/
theorem keepsLiveFlow_iff {checks : Bool} {state : SccpState}
    (reaches : SccpReaches checks func state) (ended : state.cfgWorklist = []) :
    func.KeepsLiveFlow (applySccpResults func consts state.executable).1 state.executable ↔
      func.DecisionsAgree consts state.executable ∧
      (2 ^ 64 - 1 ∈ func.blockOrder → func.cfg.Edge (2 ^ 64 - 1) func.entry →
        (func.executableFlow state.executable).Reach (2 ^ 64 - 1)) := by
  have grounded := Grounded.of_reaches coherent reaches
  have applied := coherent.applied consts state.executable
  have started : func.callerEdge ∈ state.executable := by
    rcases grounded.entered with done | waiting
    · exact done
    · rw [ended] at waiting
      exact absurd waiting not_mem_nil
  constructor
  · intro keeps
    refine ⟨fun a keep dead isDecided edge isExecutable => ?_, fun listed edge => ?_⟩
    · obtain ⟨-, kept, -⟩ := (applied.edges a dead).mp (keeps.edges a dead edge isExecutable)
      have listed : a ∈ func.blockOrder := by
        rw [← coherent.blocks]
        unfold decidedBranch at isDecided
        split at isDecided
        · rename_i found _
          rw [found]
          rfl
        · cases isDecided
      exact (kept listed).1.2.2 (keep, dead) isDecided
    · obtain ⟨-, kept, -⟩ := (applied.edges _ _).mp (keeps.edges _ _ edge started)
      exact reach_of_kept (kept listed).2
  · rintro ⟨agree, caller⟩
    refine ⟨fun a b edge isExecutable => (applied.edges a b).mpr ⟨edge, fun listed => ?_,
      fun _ => ?_⟩, fun b reach => ?_⟩
    · refine ⟨(agree.edge_iff coherent).mpr ⟨edge, isExecutable⟩, agree.reach coherent ?_⟩
      rcases grounded.executable (a, b) isExecutable with isCaller | ⟨reach, -⟩
      · obtain ⟨rfl, rfl⟩ := Prod.mk.inj isCaller
        exact caller listed edge
      · exact reach
    · refine agree.reach coherent ?_
      rcases grounded.executable (a, b) isExecutable with isCaller | ⟨reach, -⟩
      · rw [(Prod.mk.inj isCaller).2]
        exact .root
      · exact reach.step ⟨edge, isExecutable⟩
    · have kept := agree.reach coherent reach
      refine ⟨(applied.blocks b).mpr kept, applied.bijective.consistent.getBlock_isSome.mpr
        ((applied.mapped b).mpr ⟨?_, fun _ => kept⟩)⟩
      exact coherent.mapped_of_listed (coherent.listed_of_reach consts _ kept)

end Keeps

private theorem sccp_final {checks : Bool} {fuel : Nat} {consts : HashMap VarKey Word}
    (run : sccp checks func fuel = some (.ok (consts, executable))) :
    ∃ state, SccpReaches checks func state ∧ state.step checks func = none ∧
      latticeConstants state.lattice = consts ∧ state.executable = executable := by
  rw [sccp, Option.map_eq_some_iff] at run
  obtain ⟨outcome, ran, isResult⟩ := run
  cases outcome with
  | error panic => cases isResult
  | ok state =>
    obtain ⟨reaches, ended⟩ := runSccp_ok .refl ran
    obtain ⟨sameConsts, sameEdges⟩ := Prod.mk.inj (Except.ok.inj isResult)
    exact ⟨state, reaches, ended, sameConsts, sameEdges⟩

/-- Applying the results of the pass keeps the executable edges and the blocks
they reach, exactly if no branch that the rewriting decides drops an executable
edge, and no unreached block at the address of the caller leads to the entry. -/
theorem applySccpResults_keeps_iff (func : SSAFunction) (coherent : func.Coherent)
    (checks : Bool) (fuel : Nat) (consts : HashMap VarKey Word)
    (executable : List (Nat × Nat))
    (run : sccp checks func fuel = some (.ok (consts, executable))) :
    func.KeepsLiveFlow (applySccpResults func consts executable).1 executable ↔
      func.DecisionsAgree consts executable ∧
      (2 ^ 64 - 1 ∈ func.blockOrder → func.cfg.Edge (2 ^ 64 - 1) func.entry →
        (func.executableFlow executable).Reach (2 ^ 64 - 1)) := by
  obtain ⟨state, reaches, ended, rfl, rfl⟩ := sccp_final run
  exact keepsLiveFlow_iff coherent reaches (idle_of_step_none ended).2.2

def twoBranches : List R2ILBlock :=
  [⟨4096, 4, [.CBranch ⟨.Const, 4104, 8⟩ ⟨.Const, 1, 1⟩,
      .CBranch ⟨.Const, 4104, 8⟩ ⟨.Register, 0, 1⟩], none⟩,
   ⟨4100, 4, [.Return ⟨.Register, 8, 8⟩], none⟩,
   ⟨4104, 4, [.Return ⟨.Register, 8, 8⟩], none⟩]

/-- Before and after, the successors of the first block; and the executable
edges. -/
def twoBranchesRun : Option (List Nat × List Nat × List (Nat × Nat)) :=
  (fromBlocksRaw twoBranches none).bind fun func =>
    match sccp true func 40 with
    | some (.ok (consts, executable)) =>
      some (func.successors 4096, (applySccpResults func consts executable).1.successors 4096,
        executable)
    | _ => none

private theorem twoBranchesRun_eq : twoBranchesRun =
    some ([4104, 4100], [4104], [(4096, 4100), (4096, 4104), (2 ^ 64 - 1, 4096)]) := by
  decide +kernel

theorem twoBranchesRun_spec :
    ∃ func consts executable, fromBlocksRaw twoBranches none = some func ∧
      sccp true func 40 = some (.ok (consts, executable)) ∧ func.Coherent ∧
      func.cfg.Edge 4096 4100 ∧ (4096, 4100) ∈ executable ∧
      4100 ∉ (applySccpResults func consts executable).1.successors 4096 := by
  have run := twoBranchesRun_eq
  obtain ⟨func, renamed, final, entered, build, built⟩ :
      ∃ func renamed final entered, fromBlocksRaw twoBranches none = some func ∧
        Built twoBranches none none func renamed final entered :=
    fromBlocksRawWithPolicy_built _ _ none none
  rw [twoBranchesRun, build, Option.bind_some] at run
  split at run
  · rename_i consts executable result
    obtain ⟨before, after, edges⟩ := by simpa only [Option.some.injEq, Prod.mk.injEq] using run
    refine ⟨func, consts, executable, build, result, coherent_of_built built (by decide), ?_, ?_, ?_⟩
    · refine built.consistent.mem_successors.mp ?_
      rw [show func.cfg.successors 4096 = [4104, 4100] from before]
      simp
    · simp [edges]
    · simp [after]
  · cases run

/-- The edge that the second branch may take is lost. -/
theorem twoBranches_lost :
    ∃ func consts executable, fromBlocksRaw twoBranches none = some func ∧
      sccp true func 40 = some (.ok (consts, executable)) ∧
      ¬ func.KeepsLiveFlow (applySccpResults func consts executable).1 executable := by
  obtain ⟨func, consts, executable, build, run, coherent, edge, isExecutable, lost⟩ :=
    twoBranchesRun_spec
  refine ⟨func, consts, executable, build, run, fun keeps => lost ?_⟩
  have applied := coherent.applied consts executable
  exact applied.bijective.consistent.mem_successors.mpr (keeps.edges 4096 4100 edge isExecutable)

theorem applySccpResults_keeps_iff_twoBranches :
    ∃ func consts executable, fromBlocksRaw twoBranches none = some func ∧
      sccp true func 40 = some (.ok (consts, executable)) ∧ func.Coherent ∧
      (func.KeepsLiveFlow (applySccpResults func consts executable).1 executable ↔
        func.DecisionsAgree consts executable ∧
        (2 ^ 64 - 1 ∈ func.blockOrder → func.cfg.Edge (2 ^ 64 - 1) func.entry →
          (func.executableFlow executable).Reach (2 ^ 64 - 1))) := by
  obtain ⟨func, consts, executable, build, run, coherent, -⟩ := twoBranchesRun_spec
  exact ⟨func, consts, executable, build, run, coherent,
    applySccpResults_keeps_iff func coherent true 40 consts executable run⟩

end SSAFunction

end R2Sleigh.Ssa
