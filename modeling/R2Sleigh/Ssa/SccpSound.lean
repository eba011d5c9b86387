import R2Sleigh.Ssa.SccpFixpoint

/-!
Contract: the constants and the executable edges of constant propagation
against executions of the function.
-/

namespace R2Sleigh.Ssa

open Il Flow Lib List Option Except

variable {block : SSABlock} {func : SSAFunction} {checks : Bool} {env : Env}
  {lattice : Lattice} {addr : Nat} {config : Config} {src : SSAVar}

/-! ## Executions -/

/-- The values of the variables defined so far. -/
abbrev Env := VarKey → Option Word

/-- A version-0 variable that occurs in the function and is not a literal. -/
def IsInput (func : SSAFunction) (key : VarKey) : Prop :=
  ∃ block ∈ func.blockList, ∃ var ∈ block.occurrences, VarKey.fromVar var = key ∧
    var.version = 0 ∧ var.isConst = false

/-- A point of an execution: the operations of the block that are done and
those that are left. -/
structure Config where
  block : Nat
  done : List SSAOp
  rest : List SSAOp
  env : Env

def Env.set (env : Env) (var : SSAVar) (value : Word) : Env := fun key =>
  if key = .fromVar var then some value else env key

/-- The effect of an operation: its destination takes the folded value if the
operands have values that fold, and any value otherwise. -/
inductive Executes (checks : Bool) (env : Env) (op : SSAOp) : Env → Prop where
  | skip : op.dst = none → Executes checks env op env
  | define {dst : SSAVar} {value : Word} : op.dst = some dst →
      (∀ c, evalConstOp checks op env = .ok (some c) → value = c) →
      Executes checks env op (env.set dst value)

/-- The value a phi takes on arrival from `pred`: that of the source for the
predecessor, or any value if it has none. -/
def PhiTakes (env : Env) (pred : Option Nat) (phi : PhiNode) (value : Word) : Prop :=
  ∀ p, pred = some p → (∃ source ∈ phi.sources, source.1 = p) →
    ∃ source ∈ phi.sources, source.1 = p ∧ ∀ v, constForVar source.2 env = some v → value = v

/-- All phis of a block take their values at once. -/
structure Arrives (env : Env) (pred : Option Nat) (block : SSABlock) (env' : Env) : Prop where
  frame : ∀ key, (∀ phi ∈ block.phis, VarKey.fromVar phi.dst ≠ key) → env' key = env key
  phis : ∀ phi ∈ block.phis, ∃ value, env' (.fromVar phi.dst) = some value
  takes : ∀ phi ∈ block.phis, ∀ value, env' (.fromVar phi.dst) = some value →
    ∃ phi' ∈ block.phis, phi'.dst = phi.dst ∧ PhiTakes env pred phi' value

/-- The edge taken at the end of a block agrees with a conditional terminator
and with the value of the last condition. -/
structure Leaves (func : SSAFunction) (env : Env) (addr target : Nat) : Prop where
  edge : target ∈ func.successors addr
  branch : ∀ cfgBlock trueTarget falseTarget, func.cfg.getBlock addr = some cfgBlock →
    cfgBlock.terminator = .ConditionalBranch trueTarget falseTarget →
    target = trueTarget ∨ target = falseTarget
  condition : ∀ cfgBlock trueTarget falseTarget, func.cfg.getBlock addr = some cfgBlock →
    cfgBlock.terminator = .ConditionalBranch trueTarget falseTarget →
    ∀ block cond value, func.getBlock addr = some block → lastCondition block = some cond →
    constForVar cond env = some value →
    target = if value = 0 then falseTarget else trueTarget

/-- The points that executions of a function reach. -/
inductive Runs (checks : Bool) (func : SSAFunction) : Config → Prop where
  | enter {block : SSABlock} {inputs env : Env} : func.getBlock func.entry = some block →
      (∀ key value, inputs key = some value → IsInput func key) →
      Arrives inputs none block env →
      Runs checks func ⟨func.entry, [], block.ops, env⟩
  | op {addr : Nat} {done rest : List SSAOp} {op : SSAOp} {env env' : Env} :
      Runs checks func ⟨addr, done, op :: rest, env⟩ →
      Executes checks env op env' →
      Runs checks func ⟨addr, done ++ [op], rest, env'⟩
  | leave {addr target : Nat} {done : List SSAOp} {block : SSABlock} {env env' : Env} :
      Runs checks func ⟨addr, done, [], env⟩ → Leaves func env addr target →
      func.getBlock target = some block → Arrives env (some addr) block env' →
      Runs checks func ⟨target, [], block.ops, env'⟩

/-! ## Strict SSA form -/

/-- Paths from the entry along successors. -/
def SSAFunction.flow (func : SSAFunction) : Graph Nat := succGraph func.successors func.entry

/-- A variable that needs no definition: a literal or an input. -/
def Predefined (var : SSAVar) : Prop :=
  (constValue var).isSome ∨ (var.version = 0 ∧ var.isConst = false)

structure SSAFunction.Strict (func : SSAFunction) : Prop where
  opUses : ∀ {addr block before op after}, func.flow.Reach addr →
    func.getBlock addr = some block → block.ops = before ++ op :: after →
    ∀ src ∈ op.sources, Predefined src ∨ src ∈ block.phis.map PhiNode.dst ∨
      src ∈ before.filterMap SSAOp.dst ∨
      ∃ d dominator, func.flow.SDom d addr ∧ func.getBlock d = some dominator ∧ src ∈ dominator.dsts
  phiUses : ∀ {addr block phi source}, func.getBlock addr = some block → phi ∈ block.phis →
    source ∈ phi.sources → func.flow.Reach source.1 → addr ∈ func.successors source.1 →
    Predefined source.2 ∨ ∃ d dominator, func.flow.Dom d source.1 ∧
      func.getBlock d = some dominator ∧ source.2 ∈ dominator.dsts
  phiSources : ∀ {addr block phi pred}, func.getBlock addr = some block → phi ∈ block.phis →
    func.flow.Reach pred → addr ∈ func.successors pred → ∃ source ∈ phi.sources, source.1 = pred

/-! ## Covering values -/

def LatticeValue.Covers (x : LatticeValue) (value : Word) : Prop := x = .Const value ∨ x = .Bottom

private theorem LatticeValue.le_bottom {x : LatticeValue} (below : x ≤ .Bottom) : x = .Bottom := by
  have small := LatticeValue.rank_le below
  cases x <;> simp [LatticeValue.rank] at small ⊢

theorem LatticeValue.Covers.mono {x y : LatticeValue} {value : Word} (covers : y.Covers value)
    (below : x ≤ y) : x.Covers value := by
  rcases covers with rfl | rfl
  · rw [← inf_eq_left, ← LatticeValue.meet_eq_inf] at below
    cases x with
    | Top => simp [LatticeValue.meet] at below
    | Const c =>
      by_cases same : c = value
      · exact .inl (by rw [same])
      · simp [LatticeValue.meet, same] at below
    | Bottom => exact .inr rfl
  · exact .inr (LatticeValue.le_bottom below)

/-- The lattice knows the value of a variable, or that it varies. -/
def Readable (lattice : Lattice) (env : Env) (var : SSAVar) : Prop :=
  getLatticeValue var lattice = .Bottom ∨
    ∃ value, constForVar var env = some value ∧ getLatticeValue var lattice = .Const value

/-- Evaluating an operation over readable operands allows every value the
operation can take. -/
theorem evaluateOpSccp_covers {op : SSAOp}
    {result : LatticeValue} (readable : ∀ src ∈ op.sources, Readable lattice env src)
    (evaluated : evaluateOpSccp checks op lattice = .ok result) {value : Word}
    (folded : ∀ c, evalConstOp checks op env = .ok (some c) → value = c) :
    result.Covers value := by
  unfold evaluateOpSccp at evaluated
  split at evaluated
  · obtain rfl := ok.inj evaluated
    exact .inr rfl
  · cases gathered : gatherSources lattice op.sources with
    | none =>
      simp only [gathered] at evaluated
      obtain rfl := ok.inj evaluated
      exact .inr rfl
    | some pair =>
      obtain ⟨hasTop, tempConsts⟩ := pair
      simp only [gathered] at evaluated
      obtain ⟨top, stored⟩ := gatherSources_some gathered
      have noBottom : ∀ src ∈ op.sources, getLatticeValue src lattice ≠ .Bottom := by
        intro src mem bottom
        rw [gatherSources_none.mpr ⟨src, mem, bottom⟩] at gathered
        exact absurd gathered (by simp)
      have known : ∀ src ∈ op.sources, ∃ v, constForVar src env = some v ∧
          getLatticeValue src lattice = .Const v := fun src mem =>
        (readable src mem).resolve_left (noBottom src mem)
      have noTop : hasTop = false := by
        rw [← Bool.not_eq_true, top]
        rintro ⟨src, mem, isTop⟩
        obtain ⟨v, _, isConst⟩ := known src mem
        rw [isTop] at isConst
        exact absurd isConst (by simp)
      have same : evalConstOp checks op tempConsts.lookup =
          evalConstOp checks op env := by
        refine evalConstOp_congr fun src mem => ?_
        obtain ⟨v, reads, isConst⟩ := known src mem
        rw [reads, stored src mem v isConst]
      rw [noTop, if_neg (by simp), same] at evaluated
      cases outcome : evalConstOp checks op env with
      | error panic => simp [outcome, Except.map] at evaluated
      | ok folds =>
        rw [outcome] at evaluated folded
        obtain rfl := ok.inj evaluated
        cases folds with
        | none => exact .inr rfl
        | some c => exact .inl (by rw [folded c rfl])

/-- A phi is evaluated below each source of an executable edge. -/
theorem evaluatePhiSccp_le {phi : PhiNode} {executable : List (Nat × Nat)}
    {source : Nat × SSAVar} (mem : source ∈ phi.sources) (edge : (source.1, addr) ∈ executable) :
    evaluatePhiSccp phi executable lattice addr ≤ getLatticeValue source.2 lattice := by
  -- the accumulator only falls, and falls below the source when it is met
  suffices loop : ∀ (sources : List (Nat × SSAVar)) (start : LatticeValue),
      sources.foldl (fun value source =>
        if (source.1, addr) ∈ executable then value.meet (getLatticeValue source.2 lattice)
        else value) start ≤ start ∧
      (source ∈ sources → sources.foldl (fun value source =>
        if (source.1, addr) ∈ executable then value.meet (getLatticeValue source.2 lattice)
        else value) start ≤ getLatticeValue source.2 lattice) from
    (loop phi.sources .Top).2 mem
  intro sources
  induction sources with
  | nil => exact fun start => ⟨le_refl _, fun inside => absurd inside not_mem_nil⟩
  | cons head rest ih =>
    intro start
    rw [foldl_cons]
    obtain ⟨falls, meets⟩ := ih
      (if (head.1, addr) ∈ executable then start.meet (getLatticeValue head.2 lattice)
      else start)
    refine ⟨falls.trans ?_, fun inside => ?_⟩
    · split
      · exact inf_le_left
      · exact le_refl _
    · rcases mem_cons.mp inside with rfl | later
      · rw [if_pos edge] at falls ⊢
        exact falls.trans inf_le_right
      · exact meets later

/-! ## Executions are covered -/

private theorem mem_occurrences_of_op {op : SSAOp} (mem : op ∈ block.ops)
    (used : src ∈ op.sources) : src ∈ block.occurrences := by
  obtain ⟨index, position⟩ := mem_iff_getElem?.mp mem
  refine mem_append_right _ (List.mem_map.mpr ⟨(src, .Op block.addr index), ?_, rfl⟩)
  refine mem_append_right _ (mem_flatMap.mpr ⟨(op, index), ?_, ?_⟩)
  · exact mk_mem_zipIdx_iff_getElem?.mpr position
  · exact List.mem_map.mpr ⟨src, used, rfl⟩

private theorem mem_occurrences_of_phi {phi : PhiNode} (mem : phi ∈ block.phis)
    {source : Nat × SSAVar} (used : source ∈ phi.sources) : source.2 ∈ block.occurrences := by
  obtain ⟨index, position⟩ := mem_iff_getElem?.mp mem
  refine mem_append_right _ (List.mem_map.mpr ⟨(source.2, .Phi block.addr index), ?_, rfl⟩)
  refine mem_append_left _ (mem_flatMap.mpr ⟨(phi, index), ?_, ?_⟩)
  · exact mk_mem_zipIdx_iff_getElem?.mpr position
  · exact List.mem_map.mpr ⟨source, used, rfl⟩

theorem successors_eq_nil (absent : func.cfg.getBlock addr = none) : func.successors addr = [] := by
  unfold SSAFunction.successors CFG.successors
  unfold CFG.getBlock at absent
  cases node : func.cfg.getNode addr with
  | none => rfl
  | some index =>
    simp only [node, bind_some, map_eq_none_iff] at absent
    simp [DiGraph.edgesDirected, absent]

/-- What the end of the pass says about a point of an execution: the values are
covered, the block is visited, and everything executed is defined. -/
structure Covered (func : SSAFunction) (final : SccpState) (config : Config) : Prop where
  values : ∀ key value, config.env key = some value → (latticeAt final.lattice key).Covers value
  visited : config.block ∈ final.blockVisited
  path : ∃ earlier, func.flow.PathTo config.block (config.block :: earlier) ∧
    ∀ d ∈ earlier, ∀ dominator, func.getBlock d = some dominator →
      ∀ var ∈ dominator.dsts, (config.env (.fromVar var)).isSome
  here : ∃ block, func.getBlock config.block = some block ∧
    block.ops = config.done ++ config.rest ∧
    (∀ phi ∈ block.phis, (config.env (.fromVar phi.dst)).isSome) ∧
    ∀ var ∈ config.done.filterMap SSAOp.dst, (config.env (.fromVar var)).isSome

section Covered

variable {checks : Bool} {func : SSAFunction} {final : SccpState}
  (invariant : SccpInvariant checks func final)
  (ended : final.step checks func = none) (indexed : func.Indexed)
  (strict : func.Strict)

include invariant in
theorem readable_of_available {var : SSAVar}
    (values : ∀ key value, env key = some value → (latticeAt final.lattice key).Covers value)
    (listed : block ∈ func.blockList) (occurs : var ∈ block.occurrences)
    (available : Predefined var ∨ (env (.fromVar var)).isSome) :
    Readable final.lattice env var := by
  unfold Readable getLatticeValue constForVar
  cases literal : constValue var with
  | some value => exact .inr ⟨value, by simp, rfl⟩
  | none =>
    rcases available with (constant | ⟨version, notConst⟩) | bound
    · rw [literal] at constant
      exact absurd constant (by simp)
    · exact .inl (invariant.inputs block listed var occurs version notConst)
    · obtain ⟨value, stored⟩ := isSome_iff_exists.mp bound
      rcases values _ value stored with isConst | isBottom
      · exact .inr ⟨value, by simp [stored], isConst⟩
      · exact .inl isBottom

include invariant indexed strict in
/-- At a point of an execution the operands of an operation done or due are
readable. -/
theorem Covered.readable (covered : Covered func final config)
    (found : func.getBlock config.block = some block)
    {before after : List SSAOp} {op : SSAOp} (position : block.ops = before ++ op :: after)
    (reached : before <+: config.done) (used : src ∈ op.sources) :
    Readable final.lattice config.env src := by
  obtain ⟨earlier, path, dominators⟩ := covered.path
  obtain ⟨block', found', _, phis, dones⟩ := covered.here
  obtain rfl : block = block' := some.inj (found.symm.trans found')
  have inOps : op ∈ block.ops := by simp [position]
  refine readable_of_available invariant covered.values (indexed.mem_blockList found)
    (mem_occurrences_of_op inOps used) ?_
  rcases strict.opUses ⟨_, path⟩ found position src used with
    predefined | isPhi | isOp | ⟨d, dominator, ⟨dom, other⟩, present, defines⟩
  · exact .inl predefined
  · obtain ⟨phi, mem, rfl⟩ := List.mem_map.mp isPhi
    exact .inr (phis phi mem)
  · exact .inr (dones src ((reached.sublist.filterMap SSAOp.dst).subset isOp))
  · refine .inr (dominators d ?_ dominator present src defines)
    exact (mem_cons.mp (dom _ path)).resolve_left other

include invariant ended indexed strict in
/-- The edge an execution takes at the end of a block is executable. -/
theorem Covered.executable (covered : Covered func final config)
    (atEnd : config.rest = []) {target : Nat}
    (leaves : Leaves func config.env config.block target) :
    (config.block, target) ∈ final.executable := by
  obtain ⟨block, found, ops, _, _⟩ := covered.here
  obtain ⟨_, _, cfgWorklist⟩ := idle_of_step_none ended
  have met : (Task.terminator config.block).Met checks func final.lattice final :=
    met_at_end invariant ended covered.visited found (by simp [blockTasks])
  simp only [Task.Met, cfgWorklist, not_mem_nil, or_false] at met
  refine met _ ?_
  unfold evaluateTerminatorSccp
  cases present : func.cfg.getBlock config.block with
  | none =>
    have none := leaves.edge
    rw [successors_eq_nil present] at none
    exact absurd none not_mem_nil
  | some cfgBlock =>
    dsimp only
    cases terminator : cfgBlock.terminator with
    | ConditionalBranch trueTarget falseTarget =>
      have both : (config.block, target) ∈
          [(config.block, trueTarget), (config.block, falseTarget)] := by
        rcases leaves.branch cfgBlock trueTarget falseTarget present terminator with
          rfl | rfl <;> simp
      dsimp only
      cases value : findCbranchCondition func config.block final.lattice with
      | Top | Bottom => exact both
      | Const c =>
        unfold findCbranchCondition at value
        simp only [found] at value
        cases last : lastCondition block with
        | none => simp [last] at value
        | some cond =>
          simp only [last] at value
          obtain ⟨op, mem, isBranch⟩ := exists_of_findSome?_eq_some last
          obtain ⟨before, after, position⟩ := append_of_mem (mem_reverse.mp mem)
          have used := cond_mem_sources isBranch
          have reached : before <+: config.done := by
            rw [atEnd, append_nil] at ops
            exact ⟨op :: after, by rw [← ops, position]⟩
          rcases covered.readable invariant indexed strict found position reached used
            with bottom | ⟨v, reads, isConst⟩
          · rw [bottom] at value
            exact absurd value (by simp)
          · rw [isConst, LatticeValue.Const.injEq] at value
            subst value
            have taken := leaves.condition cfgBlock trueTarget falseTarget present
              terminator block cond v found last reads
            simp only
            split <;> simp_all
    | _ => exact List.mem_map.mpr ⟨target, leaves.edge, rfl⟩

include invariant ended in
theorem Covered.enter {inputs : Env}
    (found : func.getBlock func.entry = some block) (noPhis : block.phis = [])
    (fromInputs : ∀ key value, inputs key = some value → IsInput func key)
    (arrives : Arrives inputs none block env) :
    Covered func final ⟨func.entry, [], block.ops, env⟩ := by
  obtain ⟨_, _, cfgWorklist⟩ := idle_of_step_none ended
  refine ⟨fun key value bound => ?_, ?_, ⟨[], .root, by simp⟩, block, found, rfl, ?_, by simp⟩
  · dsimp only at bound
    rw [arrives.frame key (by simp [noPhis])] at bound
    obtain ⟨block', listed, var, occurs, rfl, version, notConst⟩ := fromInputs key value bound
    exact .inr (invariant.inputs block' listed var occurs version notConst)
  · have entered := invariant.entered
    rw [cfgWorklist] at entered
    exact invariant.arrived _ (entered.resolve_right not_mem_nil) (by simp [found])
  · simp [noPhis]

theorem Env.set_isSome {key : VarKey} (bound : (env key).isSome) (var : SSAVar)
    (value : Word) : (env.set var value key).isSome := by
  unfold Env.set
  split
  · rfl
  · exact bound

include invariant ended indexed strict in
theorem Covered.op {done rest : List SSAOp} {op : SSAOp} {env' : Env}
    (covered : Covered func final ⟨addr, done, op :: rest, env⟩)
    (executes : Executes checks env op env') :
    Covered func final ⟨addr, done ++ [op], rest, env'⟩ := by
  obtain ⟨block, found, ops, phis, dones⟩ := covered.here
  obtain ⟨earlier, path, dominators⟩ := covered.path
  have ops' : block.ops = done ++ [op] ++ rest := by simp [ops]
  cases executes with
  | skip noDst =>
    refine ⟨covered.values, covered.visited, covered.path, block, found, ops', phis, ?_⟩
    rw [filterMap_append]
    simpa [noDst] using dones
  | @define dst value target folded =>
    refine ⟨fun key v bound => ?_, covered.visited, ⟨earlier, path, ?_⟩, block, found, ops', ?_, ?_⟩
    · by_cases here : key = .fromVar dst
      · subst here
        obtain rfl : value = v := by simpa [Env.set] using bound
        have met : (Task.op op).Met checks func final.lattice final :=
          met_at_end invariant ended covered.visited found (by simp [blockTasks, ops])
        obtain ⟨result, evaluated, below⟩ := met dst target
        refine LatticeValue.Covers.mono ?_ below
        refine evaluateOpSccp_covers (fun src used => ?_) evaluated folded
        exact covered.readable invariant indexed strict found ops (prefix_refl _) used
      · refine covered.values key v ?_
        simpa [Env.set, here] using bound
    · intro d mem dominator present var defines
      exact Env.set_isSome (dominators d mem dominator present var defines) dst value
    · exact fun phi mem => Env.set_isSome (phis phi mem) dst value
    · intro var mem
      rw [filterMap_append, mem_append] at mem
      rcases mem with before | here
      · exact Env.set_isSome (dones var before) dst value
      · obtain rfl : var = dst := by simpa [target] using here
        simp [Env.set]

theorem Arrives.isSome {env' : Env} {pred : Option Nat}
    (arrives : Arrives env pred block env') {key : VarKey} (bound : (env key).isSome) :
    (env' key).isSome := by
  by_cases isPhi : ∃ phi ∈ block.phis, VarKey.fromVar phi.dst = key
  · obtain ⟨phi, mem, rfl⟩ := isPhi
    obtain ⟨value, stored⟩ := arrives.phis phi mem
    rw [stored]
    rfl
  · rw [arrives.frame key fun phi mem same => isPhi ⟨phi, mem, same⟩]
    exact bound

include invariant ended indexed strict in
theorem Covered.leave {target : Nat} {done : List SSAOp} {env' : Env}
    (covered : Covered func final ⟨addr, done, [], env⟩) (leaves : Leaves func env addr target)
    (found : func.getBlock target = some block) (arrives : Arrives env (some addr) block env') :
    Covered func final ⟨target, [], block.ops, env'⟩ := by
  have edge := covered.executable invariant ended indexed strict rfl leaves
  have visited := invariant.arrived _ edge (by simp [found])
  obtain ⟨earlier, path, dominators⟩ := covered.path
  obtain ⟨before, foundBefore, ops, phis, dones⟩ := covered.here
  rw [append_nil] at ops
  -- everything on the path is defined, the block left included
  have defined : ∀ d ∈ addr :: earlier, ∀ dominator, func.getBlock d = some dominator →
      ∀ var ∈ dominator.dsts, (env (.fromVar var)).isSome := by
    intro d mem dominator present var defines
    rcases mem_cons.mp mem with rfl | later
    · obtain rfl : before = dominator := some.inj (foundBefore.symm.trans present)
      rcases mem_append.mp defines with isPhi | isOp
      · obtain ⟨phi, inside, rfl⟩ := List.mem_map.mp isPhi
        exact phis phi inside
      · rw [ops] at isOp
        exact dones var isOp
    · exact dominators d later dominator present var defines
  refine ⟨fun key value bound => ?_, visited,
    ⟨addr :: earlier, .snoc path leaves.edge, fun d mem dominator present var defines =>
      arrives.isSome (defined d mem dominator present var defines)⟩,
    block, found, rfl, fun phi mem => ?_, by simp⟩
  · by_cases isPhi : ∃ phi ∈ block.phis, VarKey.fromVar phi.dst = key
    · obtain ⟨phi, mem, rfl⟩ := isPhi
      obtain ⟨phi', member', same, takes⟩ := arrives.takes phi mem value bound
      obtain ⟨source, used, fromAddr, reads⟩ := takes addr rfl
        (strict.phiSources found member' ⟨_, path⟩ leaves.edge)
      have met : (Task.phi target phi').Met checks func final.lattice final :=
        met_at_end invariant ended visited found (by simp [blockTasks, member'])
      rw [← same]
      refine LatticeValue.Covers.mono ?_
        (le_trans met (evaluatePhiSccp_le used (by rw [fromAddr]; exact edge)))
      have available : Predefined source.2 ∨ (env (.fromVar source.2)).isSome := by
        rcases strict.phiUses found member' used (by rw [fromAddr]; exact ⟨_, path⟩)
          (by rw [fromAddr]; exact leaves.edge) with predefined | ⟨d, dominator, dom, present, defines⟩
        · exact .inl predefined
        · refine .inr (defined d ?_ dominator present _ defines)
          rw [fromAddr] at dom
          exact dom _ path
      rcases readable_of_available invariant covered.values (indexed.mem_blockList found)
        (mem_occurrences_of_phi member' used) available with bottom | ⟨v, known, isConst⟩
      · exact .inr bottom
      · rw [reads v known]
        exact .inl isConst
    · refine covered.values key value ?_
      dsimp only at bound
      rwa [arrives.frame key fun phi mem same => isPhi ⟨phi, mem, same⟩] at bound
  · obtain ⟨value, stored⟩ := arrives.phis phi mem
    exact isSome_of_eq_some stored

include invariant ended indexed strict in
/-- The end of the pass covers every point of every execution, if the entry has
no phis. -/
theorem Runs.covered (noPhis : ∀ block, func.getBlock func.entry = some block → block.phis = [])
    (runs : Runs checks func config) : Covered func final config := by
  induction runs with
  | enter found fromInputs arrives =>
    exact .enter invariant ended found (noPhis _ found) fromInputs arrives
  | op _ executes ih =>
    exact ih.op invariant ended indexed strict executes
  | leave _ leaves found arrives ih =>
    exact ih.leave invariant ended indexed strict leaves found arrives

end Covered

/-! ## Panics -/

/-- The next evaluation divides or shifts constants that overflow. -/
def SccpState.Overflows (checks : Bool) (state : SccpState) : Prop :=
  ∃ kind dst a b rest x y, state.agenda = .op (.binary kind dst a b) :: rest ∧
    getLatticeValue a state.lattice = .Const x ∧ getLatticeValue b state.lattice = .Const y ∧
    overflows checks (bitsOf dst.size) x y kind = true

private theorem evaluateOpSccp_error {op : SSAOp}
    {panic : Panic} (failed : evaluateOpSccp checks op lattice = .error panic) :
    ∃ kind dst a b x y, op = .binary kind dst a b ∧ getLatticeValue a lattice = .Const x ∧
      getLatticeValue b lattice = .Const y ∧
      overflows checks (bitsOf dst.size) x y kind = true := by
  unfold evaluateOpSccp at failed
  split at failed
  · exact absurd failed (by simp)
  · cases gathered : gatherSources lattice op.sources with
    | none => simp [gathered] at failed
    | some pair =>
      obtain ⟨hasTop, tempConsts⟩ := pair
      simp only [gathered] at failed
      obtain ⟨top, stored⟩ := gatherSources_some gathered
      split at failed
      next => exact absurd failed (by simp)
      next noTop =>
        have known : ∀ src ∈ op.sources, ∀ v, constForVar src tempConsts.lookup = some v →
            getLatticeValue src lattice = .Const v := by
          intro src mem v reads
          cases value : getLatticeValue src lattice with
          | Top => exact absurd (top.mpr ⟨src, mem, value⟩) noTop
          | Bottom =>
            rw [gatherSources_none.mpr ⟨src, mem, value⟩] at gathered
            exact absurd gathered (by simp)
          | Const c =>
            rw [stored src mem c value, Option.some.injEq] at reads
            rw [reads]
        have panics : ∃ panic, evalConstOp checks op tempConsts.lookup =
            .error panic := by
          cases outcome : evalConstOp checks op tempConsts.lookup with
          | error panic' => exact ⟨panic', rfl⟩
          | ok value => simp [outcome, Except.map] at failed
        obtain ⟨kind, dst, a, b, x, y, rfl, first, second, overflow⟩ :=
          (evalConstOp_error_iff ..).mp panics
        exact ⟨kind, dst, a, b, x, y, rfl, known a (by simp [SSAOp.sources]) x first,
          known b (by simp [SSAOp.sources]) y second, overflow⟩

/-- A step fails only where arithmetic overflows. -/
theorem overflows_of_step_error {state : SccpState}
    {panic : Panic} (failed : state.step checks func = some (.error panic)) :
    state.Overflows checks := by
  unfold SccpState.step at failed
  cases agenda : state.agenda with
  | nil => simp [agenda] at failed
  | cons task rest =>
    simp only [agenda, Option.some.injEq] at failed
    cases task with
    | phi | terminator => simp [SccpState.perform] at failed
    | op op =>
      simp only [SccpState.perform] at failed
      cases target : op.dst with
      | none => simp [target] at failed
      | some dst =>
        simp only [target] at failed
        have evaluation : evaluateOpSccp checks op state.lattice = .error panic := by
          cases outcome : evaluateOpSccp checks op state.lattice with
          | ok value => simp [outcome, Except.map] at failed
          | error panic' =>
            simp only [outcome, Except.map, error.injEq] at failed
            rw [failed]
        obtain ⟨kind, dst, a, b, x, y, rfl, first, second, overflow⟩ :=
          evaluateOpSccp_error evaluation
        exact ⟨kind, dst, a, b, rest, x, y, agenda, first, second, overflow⟩

/-! ## Soundness -/

private theorem latticeConstants_lookup {key : VarKey} {c : Word}
    (found : (latticeConstants lattice).lookup key = some c) :
    latticeAt lattice key = .Const c := by
  -- entries carry their lattice value, so folding them in stores only those
  have entry : ∀ entry ∈ lattice.entries, lattice.lookup entry.1 = some entry.2 :=
    fun entry mem => AList.mem_lookup_iff.mpr mem
  have loop : ∀ key c, (latticeConstants lattice).lookup key = some c →
      lattice.lookup key = some (.Const c) := by
    refine foldlRecOn (motive := fun consts : HashMap VarKey Word =>
      ∀ key c, consts.lookup key = some c → lattice.lookup key = some (.Const c))
      lattice.entries _ (by simp) fun consts sound head mem key c stored => ?_
    cases value : head.2 with
    | Top | Bottom =>
      simp only [value] at stored
      exact sound key c stored
    | Const d =>
      simp only [value] at stored
      by_cases same : key = head.1
      · subst same
        rw [AList.lookup_insert, Option.some.injEq] at stored
        rw [entry head mem, value, stored]
      · rw [AList.lookup_insert_ne same] at stored
        exact sound key c stored
  rw [latticeAt, loop key c found]
  rfl

/-- Constant propagation is sound while it does not divide or shift constants
that overflow, for functions whose entry has no phis: it returns, every constant
it reports is the value of the variable wherever an execution has defined it,
and executions take executable edges only. -/
theorem sccp_sound (checks : Bool) (func : SSAFunction) (indexed : func.Indexed)
    (strict : func.Strict)
    (noEntryPhis : ∀ block, func.getBlock func.entry = some block → block.phis = [])
    (noOverflow : ∀ state, SccpReaches checks func state →
      ¬ state.Overflows checks) :
    ∃ fuel consts executable,
      (∀ more, sccp checks func (fuel + more) = some (.ok (consts, executable))) ∧
      ∀ config, Runs checks func config →
        (∀ key c value, consts.lookup key = some c → config.env key = some value → value = c) ∧
        (config.rest = [] → ∀ target, Leaves func config.env config.block target →
          (config.block, target) ∈ executable) := by
  obtain ⟨fuel, result, run⟩ := runSccp_terminates indexed (.start func)
    (.start checks func)
  cases result with
  | error panic =>
    obtain ⟨last, reaches, failed⟩ := runSccp_error .refl (run 0)
    exact absurd (overflows_of_step_error failed) (noOverflow last reaches)
  | ok final =>
    obtain ⟨reaches, ended⟩ := runSccp_ok .refl (run 0)
    have invariant := SccpReaches.invariant reaches indexed
    refine ⟨fuel, latticeConstants final.lattice, final.executable, fun more => ?_,
      fun config runs => ?_⟩
    · rw [sccp, run]
      rfl
    · have covered := runs.covered invariant ended indexed strict noEntryPhis
      refine ⟨fun key c value mapped bound => ?_, fun atEnd target leaves =>
        covered.executable invariant ended indexed strict atEnd leaves⟩
      have covers := covered.values key value bound
      rw [latticeConstants_lookup mapped] at covers
      rcases covers with same | varies
      · exact (LatticeValue.Const.inj same).symm
      · exact absurd varies (by simp)

/-! ## Functions built from blocks -/

variable {blocks : List R2ILBlock} {arch : Option ArchSpec} {renamed : RenamedFunction}
  {callBoundaries : Option CallBoundaryConfig} {final : RenameContext} {entered : Nat → RenameContext}

theorem Built.indexed (built : Built blocks arch callBoundaries func renamed final entered) :
    func.Indexed := by
  have inversion : ∀ {addr block}, func.getBlock addr = some block →
      addr ∈ func.blockOrder ∧ block.addr = addr := by
    intro addr block found
    rw [SSAFunction.getBlock, built.block] at found
    split at found
    next listed =>
      obtain ⟨cfgBlock, _, rfl⟩ := map_eq_some_iff.mp found
      exact ⟨by rw [built.order]; exact listed, rfl⟩
    next => exact absurd found (by simp)
  exact ⟨fun found => (inversion found).1, fun found => (inversion found).2⟩

instance (var : SSAVar) : Decidable (Predefined var) := by
  unfold Predefined
  infer_instance

/-- Every operand is predefined or written earlier in the block. -/
def usesAreLocal (before : List SSAOp) : List SSAOp → Bool
  | [] => true
  | op :: rest =>
    op.sources.all (fun src => Predefined src ∨ src ∈ before.filterMap SSAOp.dst) &&
      usesAreLocal (before ++ [op]) rest

private theorem usesAreLocal_spec {before after : List SSAOp} {op : SSAOp}
    (used : src ∈ op.sources) : ∀ {pre : List SSAOp},
    usesAreLocal pre (before ++ op :: after) = true →
      Predefined src ∨ src ∈ (pre ++ before).filterMap SSAOp.dst := by
  induction before with
  | nil =>
    intro pre uses
    rw [nil_append, usesAreLocal, Bool.and_eq_true, List.all_eq_true] at uses
    simpa using uses.1 src used
  | cons head rest ih =>
    intro pre uses
    rw [cons_append, usesAreLocal, Bool.and_eq_true] at uses
    simpa using ih uses.2

theorem strict_of_local (isLocal : ∀ addr block, func.getBlock addr = some block →
      block.phis = [] ∧ usesAreLocal [] block.ops = true) : func.Strict := by
  refine ⟨fun {addr block before op after} _ found position src used => ?_, ?_, ?_⟩
  · have uses := (isLocal addr block found).2
    rw [position] at uses
    rcases usesAreLocal_spec used uses with predefined | written
    · exact .inl predefined
    · exact .inr (.inr (.inl written))
  · intro addr block phi source found mem
    rw [(isLocal addr block found).1] at mem
    exact absurd mem not_mem_nil
  · intro addr block phi pred found mem
    rw [(isLocal addr block found).1] at mem
    exact absurd mem not_mem_nil

theorem Built.forall_blocks (built : Built blocks arch callBoundaries func renamed final entered)
    {check : SSABlock → Bool} (checked : func.blockList.all check = true)
    (found : func.getBlock addr = some block) : check block = true :=
  List.all_eq_true.mp checked block (built.indexed.mem_blockList found)

theorem runSccp_add {fuel : Nat} (more : Nat) :
    ∀ {state : SccpState} {result : Except Panic SccpState},
      runSccp checks func fuel state = some result →
      runSccp checks func (fuel + more) state = some result := by
  induction fuel with
  | zero => exact fun run => absurd run (by simp [runSccp])
  | succ fuel ih =>
    intro state result run
    rw [Nat.add_right_comm, runSccp]
    rw [runSccp] at run
    cases stepped : state.step checks func with
    | none => simpa [stepped] using run
    | some outcome =>
      cases outcome with
      | error panic => simpa [stepped] using run
      | ok next =>
        simp only [stepped] at run ⊢
        exact ih run

/-- A function that divides the least 64-bit number by minus one. -/
def leastByMinusOne : List R2ILBlock :=
  [⟨4096, 4, [.binary .IntSDiv ⟨.Register, 0, 8⟩ ⟨.Const, 2 ^ 63, 8⟩ ⟨.Const, 2 ^ 64 - 1, 8⟩,
    .Return ⟨.Register, 8, 8⟩], none⟩]

/-- Check that a function has no phis, only local uses, and whether the pass
panics on it. -/
def panicsLocally (func : SSAFunction) (checks : Bool) : Bool :=
  func.blockList.all (fun block => block.phis = [] && usesAreLocal [] block.ops) &&
    match sccp checks func 8 with
    | some (.error _) => true
    | _ => false

private theorem leastByMinusOne_panics : ∀ checks,
    (fromBlocksRaw leastByMinusOne none).all (panicsLocally · checks) = true := by
  decide +kernel

/-- On it the pass never returns. -/
theorem leastByMinusOne_not_sound :
    ∃ func, fromBlocksRaw leastByMinusOne none = some func ∧ func.Indexed ∧ func.Strict ∧
      ∀ checks, ¬ ∃ fuel consts executable,
        sccp checks func fuel = some (.ok (consts, executable)) := by
  obtain ⟨func, renamed, final, entered, build, built⟩ :=
    fromBlocksRawWithPolicy_built _ _ none none
  have checked : ∀ checks, panicsLocally func checks = true := by
    intro checks
    have all := leastByMinusOne_panics checks
    rwa [show fromBlocksRaw leastByMinusOne none = some func from build, all_some] at all
  refine ⟨func, build, built.indexed, strict_of_local fun addr block found => ?_, ?_⟩
  · have uses := (Bool.and_eq_true _ _ ▸ checked true).1
    simpa using built.forall_blocks uses found
  · rintro checks ⟨fuel, consts, executable, returned⟩
    have panics := (Bool.and_eq_true _ _ ▸ checked checks).2
    rw [sccp, map_eq_some_iff] at returned
    obtain ⟨result, run, isOk⟩ := returned
    cases other : runSccp checks func 8 (.start func) with
    | none => simp [sccp, other] at panics
    | some outcome =>
      have same := runSccp_add 8 run
      rw [Nat.add_comm, runSccp_add fuel other, Option.some.injEq] at same
      subst same
      cases outcome with
      | error panic => simp [Except.map] at isOk
      | ok last => simp [sccp, other, Except.map] at panics

/-- A branch on a register that was just set to one. -/
def branchOnOne : List R2ILBlock :=
  [⟨4096, 4, [.Copy ⟨.Register, 0, 1⟩ ⟨.Const, 1, 1⟩,
    .CBranch ⟨.Const, 4104, 8⟩ ⟨.Register, 0, 1⟩], none⟩,
   ⟨4100, 4, [.Return ⟨.Register, 8, 8⟩], none⟩, ⟨4104, 4, [.Return ⟨.Register, 8, 8⟩], none⟩]

def SSAOp.isBinary : SSAOp → Bool
  | .binary .. => true
  | _ => false

private theorem branchOnOne_local : (fromBlocksRaw branchOnOne none).all (fun func =>
    func.blockList.all fun block => block.phis = [] && usesAreLocal [] block.ops &&
      block.ops.all (!·.isBinary)) = true := by
  decide +kernel

theorem sccp_sound_branch :
    ∃ func, fromBlocksRaw branchOnOne none = some func ∧
      ∃ fuel consts executable,
        (∀ more, sccp true func (fuel + more) = some (.ok (consts, executable))) ∧
        ∀ config, Runs true func config →
          (∀ key c value, consts.lookup key = some c → config.env key = some value → value = c) ∧
          (config.rest = [] → ∀ target, Leaves func config.env config.block target →
            (config.block, target) ∈ executable) := by
  obtain ⟨func, renamed, final, entered, build, built⟩ :=
    fromBlocksRawWithPolicy_built _ _ none none
  have checked := branchOnOne_local
  rw [show fromBlocksRaw branchOnOne none = some func from build, all_some] at checked
  have blocks : ∀ addr block, func.getBlock addr = some block →
      (block.phis = [] ∧ usesAreLocal [] block.ops = true) ∧
        ∀ op ∈ block.ops, op.isBinary = false := by
    intro addr block found
    simpa using built.forall_blocks checked found
  refine ⟨func, build, sccp_sound true func built.indexed
    (strict_of_local fun addr block found => (blocks addr block found).1)
    (fun block found => (blocks _ block found).1.1) ?_⟩
  rintro state reaches ⟨kind, dst, a, b, rest, x, y, agenda, _⟩
  obtain ⟨addr, block, found, belongs⟩ := (SccpReaches.invariant reaches built.indexed).known
    (.op (.binary kind dst a b)) (by rw [agenda]; exact mem_cons_self)
  have inOps : SSAOp.binary kind dst a b ∈ block.ops := by simpa [blockTasks] using belongs
  exact absurd ((blocks addr block found).2 _ inOps) (by simp [SSAOp.isBinary])

end R2Sleigh.Ssa
