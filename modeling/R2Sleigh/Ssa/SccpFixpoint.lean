import Mathlib.Algebra.Order.BigOperators.Group.List
import R2Sleigh.Ssa.Sccp

/-!
Contract: what constant propagation has computed when it stops.
-/

namespace R2Sleigh.Ssa

open Il Flow Lib List Option Except

/-! ## The lattice -/

namespace LatticeValue

variable {var : SSAVar} {sources : List SSAVar} {blockVisited : List Nat} {rest : List Task}

private theorem meet_comm (x y : LatticeValue) : x.meet y = y.meet x := by
  cases x <;> cases y <;> grind [meet]

private theorem meet_assoc (x y z : LatticeValue) : (x.meet y).meet z = x.meet (y.meet z) := by
  cases x <;> cases y <;> cases z <;> grind [meet]

private theorem meet_self (x : LatticeValue) : x.meet x = x := by
  cases x <;> simp [meet]

instance : Min LatticeValue := ⟨meet⟩

/-- The order whose infimum is the meet: constants lie between `Bottom` and
`Top`. -/
instance : SemilatticeInf LatticeValue := SemilatticeInf.mk' meet_comm meet_assoc meet_self

theorem meet_eq_inf (x y : LatticeValue) : x.meet y = x ⊓ y := rfl

/-- How often a value can still fall. -/
def rank : LatticeValue → Nat
  | Top => 2
  | Const _ => 1
  | Bottom => 0

theorem rank_le {x y : LatticeValue} (below : x ≤ y) : x.rank ≤ y.rank := by
  rw [← inf_eq_right, ← meet_eq_inf] at below
  cases x <;> cases y <;> simp_all [meet, rank]

theorem rank_lt {x y : LatticeValue} (below : x < y) : x.rank < y.rank := by
  obtain ⟨le, ne⟩ := lt_iff_le_and_ne.mp below
  rw [← inf_eq_right, ← meet_eq_inf] at le
  cases x <;> cases y <;> simp_all [meet, rank]

end LatticeValue

/-! ## What an evaluation reads -/

theorem getLatticeValue_congr {lattice lattice' : Lattice}
    (same : latticeAt lattice (.fromVar var) = latticeAt lattice' (.fromVar var)) :
    getLatticeValue var lattice = getLatticeValue var lattice' := by
  unfold getLatticeValue
  rw [same]

section

variable {lattice lattice' : Lattice}

theorem evaluatePhiSccp_congr {phi : PhiNode} {executable executable' : List (Nat × Nat)}
    {blockAddr : Nat}
    (edges : ∀ source ∈ phi.sources,
      (source.1, blockAddr) ∈ executable ↔ (source.1, blockAddr) ∈ executable')
    (same : ∀ source ∈ phi.sources,
      latticeAt lattice (.fromVar source.2) = latticeAt lattice' (.fromVar source.2)) :
    evaluatePhiSccp phi executable lattice blockAddr =
      evaluatePhiSccp phi executable' lattice' blockAddr := by
  refine foldl_ext _ _ _ fun value source mem => ?_
  rw [getLatticeValue_congr (same source mem)]
  simp only [edges source mem]

private theorem gatherSources_congr (same : ∀ src ∈ sources,
      latticeAt lattice (.fromVar src) = latticeAt lattice' (.fromVar src)) :
    gatherSources lattice sources = gatherSources lattice' sources := by
  unfold gatherSources
  generalize (false, (∅ : HashMap VarKey Word)) = gathered
  induction sources generalizing gathered with
  | nil => rfl
  | cons src rest ih =>
    rw [foldlM_cons, foldlM_cons, getLatticeValue_congr (same src mem_cons_self)]
    congr 1
    funext next
    exact ih (fun src mem => same src (mem_cons_of_mem _ mem)) next

private theorem evaluateOpSccp_congr {checks : Bool} {op : SSAOp}
    (same : ∀ src ∈ op.sources,
      latticeAt lattice (.fromVar src) = latticeAt lattice' (.fromVar src)) :
    evaluateOpSccp checks op lattice = evaluateOpSccp checks op lattice' := by
  unfold evaluateOpSccp
  rw [gatherSources_congr same]

private theorem evaluateTerminatorSccp_congr {func : SSAFunction} {blockAddr : Nat}
    (same : ∀ block cond, func.getBlock blockAddr = some block → lastCondition block = some cond →
      latticeAt lattice (.fromVar cond) = latticeAt lattice' (.fromVar cond)) :
    evaluateTerminatorSccp func blockAddr lattice =
      evaluateTerminatorSccp func blockAddr lattice' := by
  have condition : findCbranchCondition func blockAddr lattice =
      findCbranchCondition func blockAddr lattice' := by
    unfold findCbranchCondition
    cases found : func.getBlock blockAddr with
    | none => rfl
    | some block =>
      cases last : lastCondition block with
      | none => simp only [last]
      | some cond =>
        simp only [last]
        exact getLatticeValue_congr (same block cond found last)
  unfold evaluateTerminatorSccp
  rw [condition]

end

/-! ## The operands of an operation -/

/-- One turn of the loop over the operands. -/
def gatherSource (lattice : Lattice) (gathered : Bool × HashMap VarKey Word) (src : SSAVar) :
    Option (Bool × HashMap VarKey Word) :=
  match getLatticeValue src lattice with
  | .Bottom => none
  | .Top => some (true, gathered.2)
  | .Const c => some (gathered.1, gathered.2.insert (.fromVar src) c)

theorem gatherSources_some {lattice : Lattice} {hasTop : Bool} {tempConsts : HashMap VarKey Word}
    (gathered : gatherSources lattice sources = some (hasTop, tempConsts)) :
    (hasTop = true ↔ ∃ src ∈ sources, getLatticeValue src lattice = .Top) ∧
      ∀ src ∈ sources, ∀ c, getLatticeValue src lattice = .Const c →
        constForVar src tempConsts.lookup = some c := by
  -- the loop keeps what it has stored, as equal keys have equal values
  suffices loop : ∀ (start : Bool × HashMap VarKey Word) (result : Bool × HashMap VarKey Word),
      sources.foldlM (gatherSource lattice) start = some result →
      (result.1 = true ↔ start.1 = true ∨ ∃ src ∈ sources, getLatticeValue src lattice = .Top) ∧
      (∀ var c, start.2.lookup (.fromVar var) = some c → getLatticeValue var lattice = .Const c →
        result.2.lookup (.fromVar var) = some c) ∧
      ∀ src ∈ sources, ∀ c, getLatticeValue src lattice = .Const c →
        result.2.lookup (.fromVar src) = some c by
    obtain ⟨top, _, stored⟩ := loop (false, ∅) (hasTop, tempConsts) gathered
    refine ⟨by simpa using top, fun src mem c value => ?_⟩
    unfold constForVar
    cases literal : constValue src with
    | none => exact stored src mem c value
    | some d =>
      simp only [getLatticeValue, literal, LatticeValue.Const.injEq] at value
      simp [value]
  clear gathered
  induction sources with
  | nil =>
    rintro start result run
    obtain rfl : start = result := by simpa using run
    exact ⟨by simp, fun _ _ before _ => before, by simp⟩
  | cons src rest ih =>
    intro start result run
    rw [foldlM_cons] at run
    cases value : getLatticeValue src lattice with
    | Bottom => simp [gatherSource, value] at run
    | Top =>
      simp only [gatherSource, value, bind_eq_bind, bind_some] at run
      obtain ⟨top, kept, stored⟩ := ih _ _ run
      refine ⟨by simp [top, value], kept, ?_⟩
      intro src' mem c value'
      rcases mem_cons.mp mem with rfl | later
      · rw [value] at value'
        exact absurd value' (by simp)
      · exact stored src' later c value'
    | Const d =>
      simp only [gatherSource, value, bind_eq_bind, bind_some] at run
      obtain ⟨top, kept, stored⟩ := ih _ _ run
      have keptBefore : ∀ var c, (start.2.lookup (.fromVar var) = some c ∨ var = src) →
          getLatticeValue var lattice = .Const c →
          result.2.lookup (.fromVar var) = some c := by
        intro var c before value'
        refine kept var c ?_ value'
        by_cases same : var = src
        · subst same
          rw [value, LatticeValue.Const.injEq] at value'
          rw [AList.lookup_insert, value']
        · rw [AList.lookup_insert_ne fun equal => same (VarKey.fromVar_injective equal)]
          exact before.resolve_right same
      refine ⟨by simp [top, value], fun var c before => keptBefore var c (.inl before), ?_⟩
      intro src' mem c value'
      rcases mem_cons.mp mem with rfl | later
      · exact keptBefore src' c (.inr rfl) value'
      · exact stored src' later c value'

theorem gatherSources_none {lattice : Lattice} :
    gatherSources lattice sources = none ↔
      ∃ src ∈ sources, getLatticeValue src lattice = .Bottom := by
  unfold gatherSources
  generalize (false, (∅ : HashMap VarKey Word)) = start
  induction sources generalizing start with
  | nil => simp
  | cons src rest ih =>
    rw [foldlM_cons]
    cases value : getLatticeValue src lattice with
    | Bottom => simp [value]
    | Top | Const c =>
      simp only [bind_eq_bind, bind_some, mem_cons, exists_eq_or_imp, value, reduceCtorEq, false_or]
      exact ih _

/-! ## Tasks -/

def blockTasks (blockAddr : Nat) (block : SSABlock) : List Task :=
  block.phis.map (.phi blockAddr) ++ (block.ops.map .op ++ [.terminator blockAddr])

variable {block : SSABlock}

theorem blockTasks_phi {addr addr' : Nat} {phi : PhiNode}
    (belongs : Task.phi addr phi ∈ blockTasks addr' block) : addr = addr' := by
  simp only [blockTasks, mem_append, List.mem_map, Task.phi.injEq, mem_singleton,
    reduceCtorEq, and_false, exists_false, or_false] at belongs
  obtain ⟨_, _, same, _⟩ := belongs
  exact same.symm

namespace Task

/-- The variables an evaluation reads. -/
def Reads (func : SSAFunction) : Task → VarKey → Prop
  | .phi _ node, key => ∃ source ∈ node.sources, VarKey.fromVar source.2 = key
  | .op operation, key => ∃ src ∈ operation.sources, VarKey.fromVar src = key
  | .terminator blockAddr, key => ∃ block cond, func.getBlock blockAddr = some block ∧
      lastCondition block = some cond ∧ VarKey.fromVar cond = key

/-- The state accounts for the outcome of an evaluation over `lattice`. -/
def Met (checks : Bool) (func : SSAFunction) (lattice : Lattice) (state : SccpState) :
    Task → Prop
  | .phi blockAddr node => latticeAt state.lattice (.fromVar node.dst) ≤
      evaluatePhiSccp node state.executable lattice blockAddr
  | .op operation => ∀ dst, operation.dst = some dst →
      ∃ value, evaluateOpSccp checks operation lattice = .ok value ∧
        latticeAt state.lattice (.fromVar dst) ≤ value
  | .terminator blockAddr => ∀ edge ∈ evaluateTerminatorSccp func blockAddr lattice,
      edge ∈ state.executable ∨ edge ∈ state.cfgWorklist

variable {checks : Bool} {func : SSAFunction}

theorem Met.congr {lattice lattice' : Lattice} {state : SccpState} {task : Task}
    (met : task.Met checks func lattice state)
    (same : ∀ key, task.Reads func key → latticeAt lattice key = latticeAt lattice' key) :
    task.Met checks func lattice' state := by
  cases task with
  | phi blockAddr phi =>
    simp only [Met] at met ⊢
    rwa [← evaluatePhiSccp_congr (fun _ _ => Iff.rfl) fun source mem => same _ ⟨source, mem, rfl⟩]
  | op op =>
    simp only [Met] at met ⊢
    rwa [← evaluateOpSccp_congr fun src mem => same _ ⟨src, mem, rfl⟩]
  | terminator blockAddr =>
    simp only [Met] at met ⊢
    rwa [← evaluateTerminatorSccp_congr fun block cond found last =>
      same _ ⟨block, cond, found, last, rfl⟩]

end Task

/-! ## Uses -/

/-- The block order lists the blocks, and a block knows its address. -/
structure SSAFunction.Indexed (func : SSAFunction) : Prop where
  listed : ∀ {addr block}, func.getBlock addr = some block → addr ∈ func.blockOrder
  addr : ∀ {addr block}, func.getBlock addr = some block → block.addr = addr

theorem SSAFunction.Indexed.mem_blockList {func : SSAFunction} (indexed : func.Indexed)
    {addr : Nat} (found : func.getBlock addr = some block) : block ∈ func.blockList :=
  mem_filterMap.mpr ⟨addr, indexed.listed found, found⟩

private theorem mem_buildUseMap {func : SSAFunction} {key : VarKey} {location : UseLocation} :
    location ∈ HashMap.listAt (buildUseMap func) key ↔
      ∃ block ∈ func.blockList, ∃ site ∈ block.useSites,
        VarKey.fromVar site.1 = key ∧ site.2 = location := by
  unfold buildUseMap
  rw [← foldl_flatMap, HashMap.mem_listAt_foldl_pushAt]
  constructor
  · rintro (stored | ⟨site, listed, same⟩)
    · simp [HashMap.listAt] at stored
    · obtain ⟨block, mem, inside⟩ := mem_flatMap.mp listed
      exact ⟨block, mem, site, inside, same⟩
  · rintro ⟨block, mem, site, inside, same⟩
    exact .inr ⟨site, mem_flatMap.mpr ⟨block, mem, inside⟩, same⟩

theorem cond_mem_sources {op : SSAOp} {cond : SSAVar} (isBranch : cbranchCond op = some cond) :
    cond ∈ op.sources := by
  cases op with
  | CBranch target cond' =>
    cases isBranch
    simp [SSAOp.sources]
  | _ => exact absurd isBranch (by simp [cbranchCond])

/-- Every evaluation in a visited block that reads a variable is among those of
its uses. -/
theorem mem_useTasks {func : SSAFunction} (indexed : func.Indexed) {addr : Nat}
    (found : func.getBlock addr = some block)
    (visited : addr ∈ blockVisited) {task : Task} (belongs : task ∈ blockTasks addr block)
    {key : VarKey} (reads : task.Reads func key) :
    task ∈ (HashMap.listAt (buildUseMap func) key).flatMap (useTasks func blockVisited) := by
  have addrEq := indexed.addr found
  simp only [mem_flatMap, mem_buildUseMap]
  simp only [blockTasks, mem_append, List.mem_map, mem_singleton] at belongs
  rcases belongs with ⟨phi, mem, rfl⟩ | ⟨op, mem, rfl⟩ | rfl
  · obtain ⟨source, used, rfl⟩ := reads
    obtain ⟨index, position⟩ := mem_iff_getElem?.mp mem
    refine ⟨.Phi addr index, ⟨block, indexed.mem_blockList found,
      (source.2, .Phi addr index), ?_, rfl, rfl⟩, ?_⟩
    · refine mem_append_left _ (mem_flatMap.mpr ⟨(phi, index), ?_, ?_⟩)
      · exact mk_mem_zipIdx_iff_getElem?.mpr position
      · exact List.mem_map.mpr ⟨source, used, by rw [addrEq]⟩
    · simp [useTasks, visited, found, position]
  · obtain ⟨src, used, rfl⟩ := reads
    obtain ⟨index, position⟩ := mem_iff_getElem?.mp mem
    refine ⟨.Op addr index, ⟨block, indexed.mem_blockList found,
      (src, .Op addr index), ?_, rfl, rfl⟩, ?_⟩
    · refine mem_append_right _ (mem_flatMap.mpr ⟨(op, index), ?_, ?_⟩)
      · exact mk_mem_zipIdx_iff_getElem?.mpr position
      · exact List.mem_map.mpr ⟨src, used, by rw [addrEq]⟩
    · simp only [useTasks, visited, found, position, bind_some, if_true]
      split <;> simp
  · obtain ⟨block', cond, found', last, rfl⟩ := reads
    obtain rfl : block = block' := some.inj (found.symm.trans found')
    obtain ⟨op, mem, isBranch⟩ := exists_of_findSome?_eq_some last
    obtain ⟨index, position⟩ := mem_iff_getElem?.mp (mem_reverse.mp mem)
    have used := cond_mem_sources isBranch
    refine ⟨.Op addr index, ⟨block, indexed.mem_blockList found,
      (cond, .Op addr index), ?_, rfl, rfl⟩, ?_⟩
    · refine mem_append_right _ (mem_flatMap.mpr ⟨(op, index), ?_, ?_⟩)
      · exact mk_mem_zipIdx_iff_getElem?.mpr position
      · exact List.mem_map.mpr ⟨cond, used, by rw [addrEq]⟩
    · simp [useTasks, visited, found, position, isBranch]

private theorem useTasks_known {func : SSAFunction} {location : UseLocation}
    {task : Task} (mem : task ∈ useTasks func blockVisited location) :
    ∃ addr block, func.getBlock addr = some block ∧ task ∈ blockTasks addr block := by
  cases location with
  | Phi blockAddr phiIdx =>
    simp only [useTasks] at mem
    split at mem
    · split at mem
      · exact absurd mem not_mem_nil
      · rename_i phi present
        obtain ⟨block, found, position⟩ := bind_eq_some_iff.mp present
        obtain rfl := mem_singleton.mp mem
        exact ⟨blockAddr, block, found, by
          simp [blockTasks, mem_of_getElem? position]⟩
    · exact absurd mem not_mem_nil
  | Op blockAddr opIdx =>
    simp only [useTasks] at mem
    split at mem
    · split at mem
      · exact absurd mem not_mem_nil
      · rename_i op present
        obtain ⟨block, found, position⟩ := bind_eq_some_iff.mp present
        refine ⟨blockAddr, block, found, ?_⟩
        have inOps := mem_of_getElem? position
        split at mem <;> simp at mem
        · rcases mem with rfl | rfl <;> simp [blockTasks, inOps]
        · subst mem
          simp [blockTasks, inOps]
    · exact absurd mem not_mem_nil

/-! ## Descent -/

/-- What evaluating one task may do to the state: values fall, every variable
that falls is queued, and nothing is taken from the worklists. -/
structure Descends (state next : SccpState) : Prop where
  below : ∀ key, latticeAt next.lattice key ≤ latticeAt state.lattice key
  queued : ∀ key, latticeAt next.lattice key ≠ latticeAt state.lattice key → key ∈ next.ssaWorklist
  kept : ∀ key ∈ state.ssaWorklist, key ∈ next.ssaWorklist
  edges : ∀ edge ∈ state.cfgWorklist, edge ∈ next.cfgWorklist
  executable : next.executable = state.executable
  blockVisited : next.blockVisited = state.blockVisited
  agenda : next.agenda = state.agenda

namespace SccpState

section

variable (state : SccpState) (var : SSAVar) (newVal : LatticeValue)
include state var newVal

theorem latticeAt_lower
    (key : VarKey) : latticeAt (state.lower var newVal).lattice key =
      if key = .fromVar var then latticeAt state.lattice key ⊓ newVal
      else latticeAt state.lattice key := by
  unfold lower updateLattice
  by_cases unchanged :
      (latticeAt state.lattice (.fromVar var)).meet newVal = latticeAt state.lattice (.fromVar var)
  · simp only [unchanged, if_true]
    split
    next here => rw [here, ← LatticeValue.meet_eq_inf, unchanged]
    next => rfl
  · simp only [unchanged, if_false]
    split
    next here =>
      subst here
      simp [latticeAt, LatticeValue.meet_eq_inf]
    next other => simp [latticeAt, AList.lookup_insert_ne other]

theorem lower_cases :
    state.lower var newVal = state ∨
      ∃ lattice, state.lower var newVal =
          { state with lattice := lattice, ssaWorklist := state.ssaWorklist ++ [.fromVar var] } ∧
        latticeAt lattice (.fromVar var) < latticeAt state.lattice (.fromVar var) := by
  have after := latticeAt_lower state var newVal (.fromVar var)
  unfold lower updateLattice at after ⊢
  by_cases unchanged :
      (latticeAt state.lattice (.fromVar var)).meet newVal = latticeAt state.lattice (.fromVar var)
  · exact .inl (by simp only [unchanged, if_true])
  · simp only [unchanged, if_false, if_true] at after ⊢
    refine .inr ⟨_, rfl, ?_⟩
    rw [after]
    exact inf_lt_left.mpr fun below => unchanged (inf_eq_left.mpr below)

theorem lower_descends :
    Descends state (state.lower var newVal) := by
  have below : ∀ key, latticeAt (state.lower var newVal).lattice key ≤
      latticeAt state.lattice key := by
    intro key
    rw [latticeAt_lower]
    split
    · exact inf_le_left
    · exact le_refl _
  have queued : ∀ key, latticeAt (state.lower var newVal).lattice key ≠
      latticeAt state.lattice key → key = .fromVar var := by
    intro key changed
    by_contra other
    rw [latticeAt_lower, if_neg other] at changed
    exact changed rfl
  rcases lower_cases state var newVal with same | ⟨lattice, lowered, _⟩
  · rw [same]
    exact ⟨fun _ => le_refl _, fun _ changed => absurd rfl changed, fun _ => id, fun _ => id,
      rfl, rfl, rfl⟩
  · refine ⟨below, fun key changed => ?_, fun key mem => ?_, ?_, ?_, ?_, ?_⟩
    · rw [queued key changed, lowered]
      simp
    · rw [lowered]
      simp [mem]
    all_goals simp [lowered]

end

theorem perform_op {checks : Bool} {func : SSAFunction} {state next : SccpState} {op : SSAOp}
    (run : state.perform checks func (.op op) = .ok next) :
    (op.dst = none ∧ next = state) ∨ ∃ dst value, op.dst = some dst ∧
      evaluateOpSccp checks op state.lattice = .ok value ∧ next = state.lower dst value := by
  rw [perform] at run
  cases target : op.dst with
  | none =>
    rw [target] at run
    exact .inl ⟨rfl, (ok.inj run).symm⟩
  | some dst =>
    simp only [target] at run
    cases result : evaluateOpSccp checks op state.lattice with
    | error panic => simp [result, Except.map] at run
    | ok value =>
      rw [result] at run
      exact .inr ⟨dst, value, rfl, rfl, (ok.inj run).symm⟩

/-- Evaluating a task descends to a state that accounts for its outcome. -/
theorem perform_spec {checks : Bool} {func : SSAFunction} {state next : SccpState}
    {task : Task} (run : state.perform checks func task = .ok next) :
    Descends state next ∧ task.Met checks func state.lattice next := by
  cases task with
  | phi blockAddr phi =>
    obtain rfl := ok.inj run
    have descends := lower_descends state phi.dst
      (evaluatePhiSccp phi state.executable state.lattice blockAddr)
    refine ⟨descends, ?_⟩
    rw [Task.Met, descends.executable, latticeAt_lower, if_pos rfl]
    exact inf_le_right
  | op op =>
    simp only [Task.Met]
    obtain ⟨target, rfl⟩ | ⟨dst, value, target, result, rfl⟩ := perform_op run
    · exact ⟨⟨fun _ => le_refl _, fun _ changed => absurd rfl changed, fun _ => id,
        fun _ => id, rfl, rfl, rfl⟩, by simp [target]⟩
    · refine ⟨lower_descends state dst value, ?_⟩
      rw [target]
      rintro _ ⟨⟩
      refine ⟨value, result, ?_⟩
      rw [latticeAt_lower, if_pos rfl]
      exact inf_le_right
  | terminator blockAddr =>
    obtain rfl := ok.inj run
    refine ⟨⟨fun _ => le_refl _, fun _ changed => absurd rfl changed, fun _ => id, ?_,
      rfl, rfl, rfl⟩, ?_⟩
    · intro edge mem
      exact mem_append_left _ mem
    · intro edge mem
      exact .inr (mem_append_right _ mem)

end SccpState

/-! ## The invariant -/

section Invariant

variable (checks : Bool) (func : SSAFunction)

/-- An evaluation is accounted for, or it will be done again. -/
def Settled (state : SccpState) (task : Task) : Prop :=
  task.Met checks func state.lattice state ∨ task ∈ state.agenda ∨
    ∃ key ∈ state.ssaWorklist, task.Reads func key

structure SccpInvariant (state : SccpState) : Prop where
  settled : ∀ addr ∈ state.blockVisited, ∀ block, func.getBlock addr = some block →
    ∀ task ∈ blockTasks addr block, Settled checks func state task
  arrived : ∀ edge ∈ state.executable, (func.getBlock edge.2).isSome → edge.2 ∈ state.blockVisited
  entered : (2 ^ 64 - 1, func.entry) ∈ state.executable ∨
    (2 ^ 64 - 1, func.entry) ∈ state.cfgWorklist
  known : ∀ task ∈ state.agenda, ∃ addr block, func.getBlock addr = some block ∧
    task ∈ blockTasks addr block
  inputs : ∀ block ∈ func.blockList, ∀ var ∈ block.occurrences, var.version = 0 →
    var.isConst = false → latticeAt state.lattice (.fromVar var) = .Bottom

end Invariant

section Preservation

variable {checks : Bool} {func : SSAFunction} {state next : SccpState}

theorem Descends.met (descends : Descends state next) {lattice : Lattice} {task : Task}
    (met : task.Met checks func lattice state) :
    task.Met checks func lattice next := by
  cases task with
  | phi blockAddr phi =>
    simp only [Task.Met, descends.executable] at met ⊢
    exact (descends.below _).trans met
  | op op =>
    intro dst target
    obtain ⟨value, result, below⟩ := met dst target
    exact ⟨value, result, (descends.below _).trans below⟩
  | terminator blockAddr =>
    simp only [Task.Met, descends.executable] at met ⊢
    exact fun edge mem => (met edge mem).imp_right (descends.edges edge)

/-- After descent an outcome over the old lattice counts for the new one, unless
a variable it reads has fallen. -/
theorem Descends.settled_of_met (descends : Descends state next) {task : Task}
    (met : task.Met checks func state.lattice next) :
    Settled checks func next task := by
  by_cases fallen : ∃ key, task.Reads func key ∧
      latticeAt next.lattice key ≠ latticeAt state.lattice key
  · obtain ⟨key, reads, changed⟩ := fallen
    exact .inr (.inr ⟨key, descends.queued key changed, reads⟩)
  · refine .inl (met.congr fun key reads => ?_)
    by_contra changed
    exact fallen ⟨key, reads, Ne.symm changed⟩

theorem SccpInvariant.perform (invariant : SccpInvariant checks func state) {task : Task}
    (agenda : state.agenda = task :: rest)
    (run : { state with agenda := rest }.perform checks func task = .ok next) :
    SccpInvariant checks func next := by
  obtain ⟨descends, met⟩ := SccpState.perform_spec run
  refine ⟨fun addr visited block found other belongs => ?_, fun edge mem present => ?_, ?_,
    fun other mem => ?_, fun block listed var occurs version literal => ?_⟩
  · rw [descends.blockVisited] at visited
    rcases invariant.settled addr visited block found other belongs with done | waiting | queued
    · refine descends.settled_of_met (descends.met ?_)
      cases other <;> exact done
    · rw [agenda] at waiting
      rcases mem_cons.mp waiting with rfl | later
      · exact descends.settled_of_met met
      · refine .inr (.inl ?_)
        rw [descends.agenda]
        exact later
    · obtain ⟨key, mem, reads⟩ := queued
      exact .inr (.inr ⟨key, descends.kept key mem, reads⟩)
  · rw [descends.executable] at mem
    rw [descends.blockVisited]
    exact invariant.arrived edge mem present
  · rw [descends.executable]
    exact invariant.entered.imp_right (descends.edges _)
  · rw [descends.agenda] at mem
    refine invariant.known other ?_
    rw [agenda]
    exact mem_cons_of_mem _ mem
  · have bottom := invariant.inputs block listed var occurs version literal
    have below := descends.below (.fromVar var)
    rw [show latticeAt ({ state with agenda := rest } : SccpState).lattice (.fromVar var) =
      .Bottom from bottom] at below
    cases fallen : latticeAt next.lattice (.fromVar var) with
    | Bottom => rfl
    | Top | Const c =>
      rw [fallen] at below
      exact absurd (LatticeValue.rank_le below) (by simp [LatticeValue.rank])

theorem step_cases (run : state.step checks func = some (.ok next)) :
    (∃ task rest, state.agenda = task :: rest ∧
      { state with agenda := rest }.perform checks func task = .ok next) ∨
    (state.agenda = [] ∧
      (state.popVariable func = some next ∨ state.popEdge func = some next)) := by
  unfold SccpState.step at run
  cases agenda : state.agenda with
  | cons task rest =>
    simp only [agenda, Option.some.injEq] at run
    exact .inl ⟨task, rest, rfl, run⟩
  | nil =>
    simp only [agenda, map_eq_some_iff, ok.injEq, exists_eq_right] at run
    refine .inr ⟨rfl, ?_⟩
    split at run
    · rcases or_eq_some_iff.mp run with first | ⟨_, second⟩
      · exact .inl first
      · exact .inr second
    · rcases or_eq_some_iff.mp run with first | ⟨_, second⟩
      · exact .inr first
      · exact .inl second

theorem SccpInvariant.popVariable (invariant : SccpInvariant checks func state)
    (indexed : func.Indexed) (idle : state.agenda = [])
    (popped : state.popVariable func = some next) : SccpInvariant checks func next := by
  unfold SccpState.popVariable at popped
  cases worklist : state.ssaWorklist with
  | nil => simp [worklist] at popped
  | cons key rest =>
    simp only [worklist, Option.some.injEq] at popped
    subst popped
    refine ⟨fun addr visited block found task belongs => ?_, invariant.arrived,
      invariant.entered, fun task mem => ?_, invariant.inputs⟩
    · rcases invariant.settled addr visited block found task belongs with done | waiting | queued
      · exact .inl (by cases task <;> exact done)
      · rw [idle] at waiting
        exact absurd waiting not_mem_nil
      · obtain ⟨key', mem, reads⟩ := queued
        rw [worklist] at mem
        rcases mem_cons.mp mem with rfl | later
        · exact .inr (.inl (mem_useTasks indexed found visited belongs reads))
        · exact .inr (.inr ⟨key', later, reads⟩)
    · obtain ⟨location, _, inside⟩ := mem_flatMap.mp mem
      exact useTasks_known inside

/-- A new executable edge leaves every outcome as it is, except that of the
phis at its target. -/
theorem met_insert_edge {edge : Nat × Nat} {rest : List (Nat × Nat)}
    (worklist : state.cfgWorklist = edge :: rest) {task : Task} {agenda : List Task}
    {draining : Bool}
    (met : task.Met checks func state.lattice state)
    (elsewhere : ∀ phi, task ≠ .phi edge.2 phi) :
    task.Met checks func state.lattice
      ⟨state.lattice, edge :: state.executable, blockVisited, rest, state.ssaWorklist, draining,
        agenda⟩ := by
  cases task with
  | phi blockAddr phi =>
    have other : blockAddr ≠ edge.2 := fun same => elsewhere phi (by rw [same])
    have same : evaluatePhiSccp phi (edge :: state.executable) state.lattice blockAddr =
        evaluatePhiSccp phi state.executable state.lattice blockAddr := by
      refine evaluatePhiSccp_congr (fun source _ => ?_) fun _ _ => rfl
      rw [mem_cons, or_iff_right]
      rintro rfl
      exact other rfl
    simp only [Task.Met, same] at met ⊢
    exact met
  | op op => exact met
  | terminator blockAddr =>
    intro out mem
    rcases met out mem with done | waiting
    · exact .inl (mem_cons_of_mem _ done)
    · rw [worklist] at waiting
      rcases mem_cons.mp waiting with rfl | later
      · exact .inl mem_cons_self
      · exact .inr later

theorem popEdge_cases (popped : state.popEdge func = some next) :
    ∃ edge rest, state.cfgWorklist = edge :: rest ∧
      ((edge ∈ state.executable ∧ next = { state with cfgWorklist := rest, draining := false }) ∨
      (edge ∉ state.executable ∧ func.getBlock edge.2 = none ∧ next =
        { state with
          cfgWorklist := rest, draining := false, executable := edge :: state.executable }) ∨
      (edge ∉ state.executable ∧ ∃ block, func.getBlock edge.2 = some block ∧ next =
        { state with
          cfgWorklist := rest, draining := false, executable := edge :: state.executable
          blockVisited := state.blockVisited.insert edge.2
          agenda := arrivalTasks state.blockVisited edge.2 block })) := by
  unfold SccpState.popEdge at popped
  cases worklist : state.cfgWorklist with
  | nil => simp [worklist] at popped
  | cons edge rest =>
    simp only [worklist, Option.some.injEq] at popped
    refine ⟨edge, rest, rfl, ?_⟩
    unfold SccpState.visitEdge at popped
    by_cases known : edge ∈ state.executable
    · rw [if_pos known] at popped
      exact .inl ⟨known, popped.symm⟩
    · rw [if_neg known] at popped
      cases found : func.getBlock edge.2 with
      | none =>
        simp only [found] at popped
        exact .inr (.inl ⟨known, rfl, popped.symm⟩)
      | some block =>
        simp only [found] at popped
        exact .inr (.inr ⟨known, block, rfl, popped.symm⟩)

theorem SccpInvariant.popEdge (invariant : SccpInvariant checks func state)
    (idle : state.agenda = []) (popped : state.popEdge func = some next) :
    SccpInvariant checks func next := by
  have settled : ∀ addr ∈ state.blockVisited, ∀ block, func.getBlock addr = some block →
      ∀ task ∈ blockTasks addr block, task.Met checks func state.lattice state ∨
        ∃ key ∈ state.ssaWorklist, task.Reads func key := by
    intro addr visited block found task belongs
    rcases invariant.settled addr visited block found task belongs with done | waiting | queued
    · exact .inl done
    · rw [idle] at waiting
      exact absurd waiting not_mem_nil
    · exact .inr queued
  obtain ⟨edge, rest, worklist, known | new⟩ := popEdge_cases popped
  · obtain ⟨executable, rfl⟩ := known
    have moved : ∀ out, out ∈ state.executable ∨ out ∈ state.cfgWorklist →
        out ∈ state.executable ∨ out ∈ rest := by
      rintro out (done | waiting)
      · exact .inl done
      · rw [worklist] at waiting
        rcases mem_cons.mp waiting with rfl | later
        · exact .inl executable
        · exact .inr later
    refine ⟨fun addr visited block found task belongs => ?_, invariant.arrived,
      moved _ invariant.entered, invariant.known, invariant.inputs⟩
    rcases settled addr visited block found task belongs with done | queued
    · refine .inl ?_
      cases task with
      | phi | op => exact done
      | terminator blockAddr => exact fun out mem => moved out (done out mem)
    · exact .inr (.inr queued)
  · have entered : (2 ^ 64 - 1, func.entry) ∈ edge :: state.executable ∨
        (2 ^ 64 - 1, func.entry) ∈ rest := by
      rcases invariant.entered with done | waiting
      · exact .inl (mem_cons_of_mem _ done)
      · rw [worklist] at waiting
        rcases mem_cons.mp waiting with same | later
        · exact .inl (by simp [← same])
        · exact .inr later
    rcases new with ⟨_, absent, rfl⟩ | ⟨_, target, present, rfl⟩
    · refine ⟨fun addr visited block found task belongs => ?_, fun out mem isSome => ?_,
        entered, invariant.known, invariant.inputs⟩
      · rcases settled addr visited block found task belongs with done | queued
        · refine .inl (met_insert_edge worklist done fun phi same => ?_)
          subst same
          obtain rfl := blockTasks_phi belongs
          rw [absent] at found
          exact absurd found (by simp)
        · exact .inr (.inr queued)
      · rcases mem_cons.mp mem with rfl | later
        · rw [absent] at isSome
          exact absurd isSome (by simp)
        · exact invariant.arrived out later isSome
    · refine ⟨fun addr visited block found task belongs => ?_, fun out mem isSome => ?_,
        entered, fun task mem => ?_, invariant.inputs⟩
      · by_cases here : addr = edge.2
        · subst here
          obtain rfl : target = block := some.inj (present.symm.trans found)
          by_cases before : edge.2 ∈ state.blockVisited
          · by_cases isPhi : ∃ phi, task = .phi edge.2 phi
            · obtain ⟨phi, rfl⟩ := isPhi
              refine .inr (.inl ?_)
              simpa [blockTasks, arrivalTasks] using belongs
            · rcases settled edge.2 before target found task belongs with done | queued
              · exact .inl (met_insert_edge worklist done fun phi same => isPhi ⟨phi, same⟩)
              · exact .inr (.inr queued)
          · refine .inr (.inl ?_)
            simpa [blockTasks, arrivalTasks, before] using belongs
        · have before := (mem_insert_iff.mp visited).resolve_left here
          rcases settled addr before block found task belongs with done | queued
          · refine .inl (met_insert_edge worklist done fun phi same => here ?_)
            subst same
            have belongs := blockTasks_phi belongs
            exact belongs.symm
          · exact .inr (.inr queued)
      · rcases mem_cons.mp mem with rfl | later
        · exact mem_insert_self
        · exact mem_insert_of_mem (invariant.arrived out later isSome)
      · refine ⟨edge.2, target, present, ?_⟩
        unfold arrivalTasks at mem
        split at mem
        · rw [append_nil] at mem
          exact mem_append_left _ mem
        · exact mem

theorem SccpInvariant.step (invariant : SccpInvariant checks func state)
    (indexed : func.Indexed) (run : state.step checks func = some (.ok next)) :
    SccpInvariant checks func next := by
  rcases step_cases run with ⟨task, rest, agenda, performed⟩ | ⟨idle, popped | popped⟩
  · exact invariant.perform agenda performed
  · exact invariant.popVariable indexed idle popped
  · exact invariant.popEdge idle popped

end Preservation

/-! ## The start -/

/-- Initialisation stores nothing but `Bottom`, and stores it for every input. -/
theorem initIfInput_foldl (vars : List SSAVar) : ∀ lattice : Lattice,
    (∀ key value, lattice.lookup key = some value → value = .Bottom) →
    (∀ key value, (vars.foldl initIfInput lattice).lookup key = some value → value = .Bottom) ∧
    (∀ key, lattice.lookup key = some .Bottom →
      (vars.foldl initIfInput lattice).lookup key = some .Bottom) ∧
    ∀ var ∈ vars, var.version = 0 → var.isConst = false →
      (vars.foldl initIfInput lattice).lookup (.fromVar var) = some .Bottom := by
  induction vars with
  | nil => exact fun lattice bottoms => ⟨bottoms, fun _ => id, by simp⟩
  | cons var rest ih =>
    intro lattice bottoms
    have one : (∀ key value, (initIfInput lattice var).lookup key = some value →
          value = .Bottom) ∧
        (∀ key, lattice.lookup key = some .Bottom →
          (initIfInput lattice var).lookup key = some .Bottom) ∧
        (var.version = 0 → var.isConst = false →
          (initIfInput lattice var).lookup (.fromVar var) = some .Bottom) := by
      unfold initIfInput
      split
      next =>
        cases stored : lattice.lookup (.fromVar var) with
        | some value =>
          refine ⟨bottoms, fun _ => id, fun _ _ => ?_⟩
          rw [stored, bottoms _ _ stored]
        | none =>
          refine ⟨fun key value => ?_, fun key old => ?_, fun _ _ => AList.lookup_insert _⟩
          · by_cases same : key = .fromVar var
            · subst same
              simp [eq_comm]
            · rw [AList.lookup_insert_ne same]
              exact bottoms key value
          · by_cases same : key = .fromVar var
            · subst same
              simp
            · rwa [AList.lookup_insert_ne same]
      next other =>
        exact ⟨bottoms, fun _ => id, fun version literal =>
          absurd ⟨version, by simp [literal]⟩ other⟩
    obtain ⟨restBottoms, restKept, restStored⟩ := ih _ one.1
    refine ⟨restBottoms, fun key old => restKept key (one.2.1 key old), ?_⟩
    intro var' mem version literal
    rcases mem_cons.mp mem with rfl | later
    · exact restKept _ (one.2.2 version literal)
    · exact restStored var' later version literal

theorem SccpInvariant.start (checks : Bool) (func : SSAFunction) :
    SccpInvariant checks func (.start func) := by
  refine ⟨by simp [SccpState.start], by simp [SccpState.start], .inr (by simp [SccpState.start]),
    by simp [SccpState.start], fun block listed var occurs version literal => ?_⟩
  unfold SccpState.start latticeAt
  rw [← foldl_flatMap]
  rw [(initIfInput_foldl _ ∅ (by simp)).2.2 var
    (mem_flatMap.mpr ⟨block, listed, occurs⟩) version literal]
  rfl

/-! ## Termination -/

/-- The variables the function defines. -/
def dstKeys (func : SSAFunction) : List VarKey :=
  func.blockList.flatMap fun block => block.dsts.map VarKey.fromVar

def latticeRank (func : SSAFunction) (lattice : Lattice) : Nat :=
  ((dstKeys func).map fun key => (latticeAt lattice key).rank).sum

def Task.isTerminator : Task → Bool
  | .terminator _ => true
  | _ => false

/-- What each step decreases, lexicographically: how far values can still fall,
how many variables can still be popped and blocks visited, and then the
terminators to evaluate, the edges to pop and the evaluations to do. -/
def progress (func : SSAFunction) (state : SccpState) : Nat × Nat × Nat × Nat × Nat :=
  (latticeRank func state.lattice,
    (func.blockOrder.filter (· ∉ state.blockVisited)).length + state.ssaWorklist.length,
    state.agenda.countP Task.isTerminator, state.cfgWorklist.length, state.agenda.length)

/-- The lexicographic order of `progress`. -/
abbrev ProgressLt : Nat × Nat × Nat × Nat × Nat → Nat × Nat × Nat × Nat × Nat → Prop :=
  Prod.Lex (· < ·) (Prod.Lex (· < ·) (Prod.Lex (· < ·) (Prod.Lex (· < ·) (· < ·))))

private theorem progressLt_wf : WellFounded ProgressLt :=
  WellFounded.prod_lex wellFounded_lt (WellFounded.prod_lex wellFounded_lt
    (WellFounded.prod_lex wellFounded_lt (WellFounded.prod_lex wellFounded_lt wellFounded_lt)))

section Termination

variable {checks : Bool} {func : SSAFunction} {state next : SccpState}

private theorem latticeRank_lt {lattice lattice' : Lattice}
    (below : ∀ key, latticeAt lattice' key ≤ latticeAt lattice key) {key : VarKey}
    (defined : key ∈ dstKeys func) (fallen : latticeAt lattice' key < latticeAt lattice key) :
    latticeRank func lattice' < latticeRank func lattice :=
  sum_lt_sum _ _ (fun key _ => LatticeValue.rank_le (below key))
    ⟨key, defined, LatticeValue.rank_lt fallen⟩

theorem mem_dstKeys (indexed : func.Indexed) {addr : Nat}
    (found : func.getBlock addr = some block) (defined : var ∈ block.dsts) :
    VarKey.fromVar var ∈ dstKeys func :=
  mem_flatMap.mpr ⟨block, indexed.mem_blockList found, List.mem_map_of_mem defined⟩

theorem progress_lower (defined : VarKey.fromVar var ∈ dstKeys func)
    {task : Task} (agenda : state.agenda = task :: rest)
    (value : task.isTerminator = false) (newVal : LatticeValue) :
    ProgressLt (progress func ({ state with agenda := rest }.lower var newVal))
      (progress func state) := by
  have descends := SccpState.lower_descends { state with agenda := rest } var newVal
  rcases SccpState.lower_cases { state with agenda := rest } var newVal with
    same | ⟨lattice, lowered, fallen⟩
  · rw [same]
    refine .right _ (.right _ ?_)
    simp only [agenda, countP_cons, value, Bool.false_eq_true, if_false, Nat.add_zero]
    exact .right _ (.right _ (Nat.lt_succ_self _))
  · refine .left _ _ (latticeRank_lt descends.below defined ?_)
    rw [lowered]
    exact fallen

private theorem progress_perform (indexed : func.Indexed) {task : Task}
    (agenda : state.agenda = task :: rest)
    (known : ∃ addr block, func.getBlock addr = some block ∧ task ∈ blockTasks addr block)
    (run : { state with agenda := rest }.perform checks func task = .ok next) :
    ProgressLt (progress func next) (progress func state) := by
  obtain ⟨addr, block, found, belongs⟩ := known
  simp only [blockTasks, mem_append, List.mem_map, mem_singleton] at belongs
  rcases belongs with ⟨phi, mem, rfl⟩ | ⟨op, mem, rfl⟩ | rfl
  · obtain rfl := ok.inj run
    refine progress_lower (mem_dstKeys indexed found ?_) agenda rfl _
    exact mem_append_left _ (List.mem_map_of_mem mem)
  · obtain ⟨-, rfl⟩ | ⟨dst, value, target, -, rfl⟩ := SccpState.perform_op run
    · refine .right _ (.right _ ?_)
      simp only [agenda, countP_cons, Task.isTerminator, Bool.false_eq_true, if_false, Nat.add_zero]
      exact .right _ (.right _ (Nat.lt_succ_self _))
    · refine progress_lower (mem_dstKeys indexed found ?_) agenda rfl _
      exact mem_append_right _ (mem_filterMap.mpr ⟨op, mem, target⟩)
  · obtain rfl := ok.inj run
    refine .right _ (.right _ (.left _ _ ?_))
    rw [agenda, countP_cons_of_pos rfl]
    exact Nat.lt_succ_self _

private theorem unvisited_insert_lt {order visited : List Nat} {addr : Nat} (listed : addr ∈ order)
    (fresh : addr ∉ visited) :
    (order.filter (· ∉ visited.insert addr)).length < (order.filter (· ∉ visited)).length := by
  have smaller : order.filter (· ∉ visited.insert addr) =
      (order.filter (· ∉ visited)).filter (· ≠ addr) := by
    rw [List.filter_filter]
    simp
  rw [smaller]
  refine length_filter_lt_length_iff_exists.mpr ⟨addr, ?_, by simp⟩
  simp [listed, fresh]

private theorem progress_popEdge (indexed : func.Indexed) (idle : state.agenda = [])
    (popped : state.popEdge func = some next) :
    ProgressLt (progress func next) (progress func state) := by
  obtain ⟨edge, rest, worklist, ⟨_, rfl⟩ | ⟨_, _, rfl⟩ | ⟨_, block, found, rfl⟩⟩ :=
    popEdge_cases popped
  · refine .right _ (.right _ (.right _ (.left _ _ ?_)))
    simp [worklist]
  · refine .right _ (.right _ (.right _ (.left _ _ ?_)))
    simp [worklist]
  · by_cases visited : edge.2 ∈ state.blockVisited
    · refine .right _ ?_
      simp only [insert_of_mem visited]
      refine .right _ ?_
      have none : (arrivalTasks state.blockVisited edge.2 block).countP Task.isTerminator =
          state.agenda.countP Task.isTerminator := by
        rw [idle]
        simp [arrivalTasks, visited, countP_eq_zero, Task.isTerminator]
      rw [none]
      refine .right _ (.left _ _ ?_)
      simp [worklist]
    · refine .right _ (.left _ _ ?_)
      exact Nat.add_lt_add_right (unvisited_insert_lt (indexed.listed found) visited) _

private theorem progress_popVariable (popped : state.popVariable func = some next) :
    ProgressLt (progress func next) (progress func state) := by
  unfold SccpState.popVariable at popped
  cases worklist : state.ssaWorklist with
  | nil => simp [worklist] at popped
  | cons key rest =>
    simp only [worklist, Option.some.injEq] at popped
    subst popped
    refine .right _ (.left _ _ ?_)
    simp [worklist]

private theorem progress_step (invariant : SccpInvariant checks func state)
    (indexed : func.Indexed) (run : state.step checks func = some (.ok next)) :
    ProgressLt (progress func next) (progress func state) := by
  rcases step_cases run with ⟨task, rest, agenda, performed⟩ | ⟨idle, popped | popped⟩
  · refine progress_perform indexed agenda (invariant.known task ?_) performed
    rw [agenda]
    exact mem_cons_self
  · exact progress_popVariable popped
  · exact progress_popEdge indexed idle popped

/-- Every run from a state with the invariant ends. -/
theorem runSccp_terminates (indexed : func.Indexed) (state : SccpState)
    (invariant : SccpInvariant checks func state) :
    ∃ fuel result, ∀ more, runSccp checks func (fuel + more) state = some result := by
  induction state using (InvImage.wf (progress func) progressLt_wf).induction with
  | _ state ih =>
    cases run : state.step checks func with
    | none =>
      refine ⟨1, .ok state, fun more => ?_⟩
      rw [Nat.add_comm, runSccp, run]
    | some outcome =>
      cases outcome with
      | error panic =>
        refine ⟨1, .error panic, fun more => ?_⟩
        rw [Nat.add_comm, runSccp, run]
      | ok next =>
        obtain ⟨fuel, result, ended⟩ := ih next
          (progress_step invariant indexed run) (invariant.step indexed run)
        refine ⟨fuel + 1, result, fun more => ?_⟩
        rw [Nat.add_right_comm, runSccp, run]
        exact ended more

end Termination

/-! ## The end -/

def SccpSteps (checks : Bool) (func : SSAFunction) (state next : SccpState) : Prop :=
  state.step checks func = some (.ok next)

/-- The states the pass goes through. -/
def SccpReaches (checks : Bool) (func : SSAFunction) (state : SccpState) : Prop :=
  Relation.ReflTransGen (SccpSteps checks func) (.start func) state

section

variable {checks : Bool} {func : SSAFunction}

/-- The invariant holds of every state of a run. -/
theorem SccpReaches.invariant {state : SccpState}
    (reaches : SccpReaches checks func state) (indexed : func.Indexed) :
    SccpInvariant checks func state := by
  induction reaches with
  | refl => exact .start checks func
  | tail _ step ih => exact ih.step indexed step

theorem runSccp_ok {fuel : Nat} :
    ∀ {state final : SccpState}, SccpReaches checks func state →
      runSccp checks func fuel state = some (.ok final) →
      SccpReaches checks func final ∧ final.step checks func = none := by
  induction fuel with
  | zero => exact fun _ run => absurd run (by simp [runSccp])
  | succ fuel ih =>
    intro state final reaches run
    rw [runSccp] at run
    cases stepped : state.step checks func with
    | none =>
      simp only [stepped, Option.some.injEq, ok.injEq] at run
      exact ⟨run ▸ reaches, run ▸ stepped⟩
    | some outcome =>
      cases outcome with
      | error panic => simp [stepped] at run
      | ok next =>
        simp only [stepped] at run
        exact ih (reaches.tail stepped) run

theorem runSccp_error {fuel : Nat} :
    ∀ {state : SccpState} {panic : Panic}, SccpReaches checks func state →
      runSccp checks func fuel state = some (.error panic) →
      ∃ last, SccpReaches checks func last ∧
        last.step checks func = some (.error panic) := by
  induction fuel with
  | zero => exact fun _ run => absurd run (by simp [runSccp])
  | succ fuel ih =>
    intro state panic reaches run
    rw [runSccp] at run
    cases stepped : state.step checks func with
    | none => simp [stepped] at run
    | some outcome =>
      cases outcome with
      | error panic' =>
        simp only [stepped, Option.some.injEq, error.injEq] at run
        exact ⟨state, reaches, by rw [stepped, run]⟩
      | ok next =>
        simp only [stepped] at run
        exact ih (reaches.tail stepped) run

theorem idle_of_step_none {state : SccpState}
    (ended : state.step checks func = none) :
    state.agenda = [] ∧ state.ssaWorklist = [] ∧ state.cfgWorklist = [] := by
  unfold SccpState.step at ended
  cases agenda : state.agenda with
  | cons task rest => simp [agenda] at ended
  | nil =>
    simp only [agenda, map_eq_none_iff] at ended
    have both : state.popVariable func = none ∧ state.popEdge func = none := by
      split at ended
      · exact or_eq_none_iff.mp ended
      · exact (or_eq_none_iff.mp ended).symm
    refine ⟨rfl, ?_, ?_⟩
    · cases worklist : state.ssaWorklist with
      | nil => rfl
      | cons key rest => simp [SccpState.popVariable, worklist] at both
    · cases worklist : state.cfgWorklist with
      | nil => rfl
      | cons edge rest => simp [SccpState.popEdge, worklist] at both

theorem met_at_end {state : SccpState}
    (invariant : SccpInvariant checks func state)
    (ended : state.step checks func = none) {addr : Nat}
    (visited : addr ∈ state.blockVisited)
    (found : func.getBlock addr = some block) {task : Task} (belongs : task ∈ blockTasks addr block) :
    task.Met checks func state.lattice state := by
  obtain ⟨agenda, ssaWorklist, _⟩ := idle_of_step_none ended
  rcases invariant.settled addr visited block found task belongs with done | waiting | queued
  · exact done
  · rw [agenda] at waiting
    exact absurd waiting not_mem_nil
  · obtain ⟨key, mem, _⟩ := queued
    rw [ssaWorklist] at mem
    exact absurd mem not_mem_nil

end

end R2Sleigh.Ssa
