import R2Sleigh.Flow.Scc
import R2Sleigh.Ssa.MemoryBlocks

/-!
Contract: the rounds over the versions of the memory objects.

Owns `merging`.
-/

namespace R2Sleigh.Ssa.Semantic

open Flow Il Lib List Option

/-- What the rounds rely on. -/
structure Ready (context : FlowContext) (next : NextVersions) : Prop where
  distinct : DistinctSites context.graph
  numbers : Numbers context.summaries (context.defVersions, next)
  objects : context.objectIds.Nodup
  order : context.func.blockOrder.Nodup
  listed : ∀ addr ∈ context.func.blockOrder, ∃ block, context.func.getBlock addr = some block

section Rounds

variable {context : FlowContext} {next : NextVersions}

/-- The round before its first block. -/
def roundStart (flow : FlowState) : RoundState := ⟨flow, ⟨.empty, .empty⟩, false⟩

/-- What a round leaves at a block, which was met in a mixed state. -/
structure RoundStep (context : FlowContext) (flow mixed : FlowState) (after : RoundState)
    (addr : Nat) (ops : List SSAOp) (inState outState : ObjectVersions) : Prop where
  outs : ∀ p, mixed.outOf p =
    if context.func.blockOrder.idxOf p < context.func.blockOrder.idxOf addr then after.flow.outOf p
    else flow.outOf p
  isIn : after.flow.inStates.get? addr = some inState
  isOut : after.flow.outStates.get? addr = some outState
  proper : Proper inState
  takes : ∀ object ∈ context.objectIds, Takes mixed addr (context.func.cfg.predecessors addr)
    object after.flow (versionOf inState object)
  unlisted : ∀ object, object ∉ context.objectIds → inState.get? object = none
  out : ∀ object, versionOf outState object =
    (lastDef (context.defsIn addr ops.zipIdx) object).getD (versionOf inState object)
  facts : ∀ opIdx inst access, opIdx < ops.length →
    context.access addr opIdx = some (inst, access) → after.facts.at inst =
      (access.uses.map fun location =>
        ⟨location, (lastDef (context.defsIn addr (ops.zipIdx.take opIdx)) location.object).getD
          (versionOf inState location.object)⟩, context.defsAt addr opIdx)
  low : after.changed = false → flow.inStates.get? addr = some inState ∧
    flow.outStates.get? addr = some outState

variable {addr : Nat}

private theorem flowBlock_raised (state : RoundState) (addr : Nat) (raised : state.changed = true) :
    (flowBlock context state addr).changed = true := by
  unfold flowBlock
  rw [raised]
  cases context.func.getBlock addr with
  | none => rfl
  | some block => rfl

variable (ready : Ready context next) {flow : FlowState} (numbered : Numbered context flow)
include ready

theorem at_flowRound_of_never {inst : InstId} (never : ∀ addr opIdx,
    context.instAt addr opIdx ≠ some inst) (flow : FlowState) :
    (flowRound context flow).facts.at inst = ([], []) := by
  refine foldl_kept (fun state : RoundState => state.facts.at inst) (fun state addr _ => ?_)
    (roundStart flow)
  unfold flowBlock
  cases context.func.getBlock addr with
  | none => rfl
  | some block =>
    exact (flowOps_facts ready.distinct addr block.ops (_, state.facts)).1 inst (never addr)

theorem flowBlock_step (mem : addr ∈ context.func.blockOrder) {state : RoundState}
    (numbered : Numbered context state.flow) :
    ∃ block, context.func.getBlock addr = some block ∧ ∃ inState outState,
      BlockStep context addr block.ops state (flowBlock context state addr) inState outState := by
  obtain ⟨block, found⟩ := ready.listed addr mem
  exact ⟨block, found, flowBlock_spec ready.distinct ready.numbers ready.objects found numbered⟩

theorem numbered_flowBlock (state : RoundState) (numbered : Numbered context state.flow)
    (mem : addr ∈ context.func.blockOrder) :
    Numbered context (flowBlock context state addr).flow := by
  obtain ⟨_, _, _, _, step⟩ := flowBlock_step ready mem numbered
  exact step.numbered

theorem frame_flowBlock (state : RoundState) (numbered : Numbered context state.flow)
    (mem : addr ∈ context.func.blockOrder) (p : Nat) (other : some addr ≠ some p) :
    (flowBlock context state addr).entry context p = state.entry context p := by
  obtain ⟨_, _, _, _, step⟩ := flowBlock_step ready mem numbered
  exact step.frame p fun same => other (congrArg some same.symm)

include numbered

theorem numbered_flowRound : Numbered context (flowRound context flow).flow ∧
    ∀ b ∉ context.func.blockOrder, (flowRound context flow).entry context b =
      (roundStart flow).entry context b := by
  have start : Numbered context (roundStart flow).flow := numbered
  have pass := foldl_frame (flowBlock context) some (fun state => state.entry context)
    (fun state => Numbered context state.flow) context.func.blockOrder
    (fun state numbered _ mem => numbered_flowBlock ready state numbered mem)
    (fun state numbered _ mem => frame_flowBlock ready state numbered mem) _ start
  rwa [filterMap_some] at pass

private theorem kept_flowRound {key : PhiKey} {v : MemoryVersion}
    (found : flow.phiVersions.get? key = some v) :
    (flowRound context flow).flow.phiVersions.get? key = some v := by
  have pass : ∀ order : List Nat, (∀ addr ∈ order, addr ∈ context.func.blockOrder) →
      ∀ state : RoundState, Numbered context state.flow →
        state.flow.phiVersions.get? key = some v →
          (order.foldl (flowBlock context) state).flow.phiVersions.get? key = some v := by
    intro order
    induction order with
    | nil => exact fun _ _ _ found => found
    | cons addr rest ih =>
      intro inOrder state numbered found
      obtain ⟨mem, inRest⟩ := forall_mem_cons.mp inOrder
      obtain ⟨_, _, _, _, step⟩ := flowBlock_step ready mem numbered
      exact ih inRest _ step.numbered (step.kept key v found)
  exact pass context.func.blockOrder (fun _ mem => mem) (roundStart flow) numbered found

/-- A block of the round: the state it is met in, and what it leaves for good. -/
theorem round_at {before after : List Nat}
    (split : context.func.blockOrder = before ++ addr :: after) :
    let mixed := before.foldl (flowBlock context) (roundStart flow)
    Numbered context mixed.flow ∧ addr ∉ before ∧
      (∀ p ∈ before, mixed.entry context p = (flowRound context flow).entry context p) ∧
      (∀ p ∉ before, mixed.entry context p = (roundStart flow).entry context p) ∧
      (flowRound context flow).entry context addr =
        (flowBlock context mixed addr).entry context addr := by
  have inOrder : ∀ b, b ∈ before ++ addr :: after → b ∈ context.func.blockOrder := fun b mem =>
    split ▸ mem
  have round : flowRound context flow =
      (before ++ addr :: after).foldl (flowBlock context) (roundStart flow) := by
    rw [← split]
    rfl
  have keys : ((before ++ addr :: after).filterMap some).Nodup := by
    rw [filterMap_some, ← split]
    exact ready.order
  have start : Numbered context (roundStart flow).flow := numbered
  obtain ⟨holds, early, others, last⟩ := foldl_mixed (flowBlock context) some
    (fun state => state.entry context) (fun state => Numbered context state.flow)
    (fun state numbered b mem => numbered_flowBlock ready state numbered (inOrder b mem))
    (fun state numbered b mem => frame_flowBlock ready state numbered (inOrder b mem))
    keys start
  rw [filterMap_some] at early others
  obtain ⟨notBefore, written⟩ := last addr rfl
  rw [filterMap_some] at notBefore
  rw [round]
  exact ⟨holds, notBefore, early, others, written⟩

theorem flowRound_spec (mem : addr ∈ context.func.blockOrder) :
    ∃ block, context.func.getBlock addr = some block ∧ ∃ mixed inState outState,
      RoundStep context flow mixed (flowRound context flow) addr block.ops inState outState := by
  obtain ⟨before, after, split⟩ := append_of_mem mem
  obtain ⟨numberedMixed, notBefore, early, others, written⟩ := round_at ready numbered split
  generalize isMixed : before.foldl (flowBlock context) (roundStart flow) = mixed
    at numberedMixed early others written
  obtain ⟨block, found, inState, outState, step⟩ := flowBlock_step ready mem numberedMixed
  have here := others addr notBefore
  refine ⟨block, found, mixed.flow, inState, outState, ?_⟩
  refine
    { outs := fun p => ?_
      isIn := (congrArg BlockEntry.inState written).trans step.isIn
      isOut := (congrArg BlockEntry.outState written).trans step.isOut
      proper := step.proper
      takes := fun object isObject => ?_
      unlisted := step.unlisted
      out := step.out
      facts := fun opIdx inst access inside isAccess => ?_
      low := fun low => ?_ }
  · rw [split]
    by_cases isBefore : p ∈ before
    · rw [if_pos ((idxOf_lt_iff_mem notBefore p).mpr isBefore)]
      exact congrArg (fun entry => entry.outState.getD .empty) (early p isBefore)
    · rw [if_neg fun less => isBefore ((idxOf_lt_iff_mem notBefore p).mp less)]
      exact congrArg (fun entry => entry.outState.getD .empty) (others p isBefore)
  · exact (step.takes object isObject).withPhi
      (congrFun (congrArg BlockEntry.phis written) object)
      (congrFun (congrArg BlockEntry.inputs written) object)
  · have isInst : context.instAt addr opIdx = some inst := by
      rw [FlowContext.instAt, isAccess]
      rfl
    have facts := congrFun (congrArg BlockEntry.facts written) opIdx
    have start := congrFun (congrArg BlockEntry.facts here) opIdx
    simp only [RoundState.entry, isInst, map_some, Option.some.injEq] at facts start
    rw [facts, step.facts opIdx inst access inside isAccess, start]
    rfl
  · have after : (flowBlock context mixed addr).changed = false := by
      have round : flowRound context flow =
          after.foldl (flowBlock context) (flowBlock context mixed addr) := by
        rw [flowRound, split, foldl_append, ← isMixed]
        rfl
      exact foldl_low (flowBlock context) RoundState.changed flowBlock_raised after _ (round ▸ low)
    obtain ⟨-, isIn, isOut⟩ := step.low.mp after
    exact ⟨(congrArg BlockEntry.inState here).symm.trans isIn,
      (congrArg BlockEntry.outState here).symm.trans isOut⟩

private theorem flowRound_unchanged (same : ∀ addr ∈ context.func.blockOrder,
    (flowRound context flow).flow.inStates.get? addr = flow.inStates.get? addr ∧
      (flowRound context flow).flow.outStates.get? addr = flow.outStates.get? addr) :
    (flowRound context flow).changed = false := by
  by_contra raised
  rcases foldl_raised (flowBlock context) RoundState.changed context.func.blockOrder
    (roundStart flow) (Bool.not_eq_false _ ▸ raised) with start | ⟨before, addr, after, split, low, raises⟩
  · cases start
  · have mem : addr ∈ context.func.blockOrder := split ▸ mem_append_right _ mem_cons_self
    obtain ⟨numberedMixed, notBefore, -, others, written⟩ := round_at ready numbered split
    obtain ⟨_, _, inState, outState, step⟩ := flowBlock_step ready mem numberedMixed
    have here := others addr notBefore
    obtain ⟨sameIn, sameOut⟩ := same addr mem
    have isIn := (congrArg BlockEntry.inState written).trans step.isIn
    have isOut := (congrArg BlockEntry.outState written).trans step.isOut
    rw [step.low.mpr ⟨low, (congrArg BlockEntry.inState here).trans (sameIn.symm.trans isIn),
      (congrArg BlockEntry.outState here).trans (sameOut.symm.trans isOut)⟩] at raises
    cases raises

end Rounds

/-! ## The sequence of rounds -/

def initialFlow (next : NextVersions) : FlowState := ⟨next, .empty, .empty, .empty, .empty⟩

def flowAfter (context : FlowContext) (next : NextVersions) (n : Nat) : FlowState :=
  (fun flow => (flowRound context flow).flow)^[n] (initialFlow next)

theorem flowAfter_succ (context : FlowContext) (next : NextVersions) (n : Nat) :
    flowAfter context next (n + 1) = (flowRound context (flowAfter context next n)).flow :=
  Function.iterate_succ_apply' ..

/-- The version that a block gives to an object, if it defines it. -/
def FlowContext.writes (context : FlowContext) (object : ObjectId) (p : Nat) :
    Option MemoryVersion :=
  match context.func.getBlock p with
  | none => none
  | some block => lastDef (context.defsIn p block.ops.zipIdx) object

/-- One object in the rounds. -/
def merging (context : FlowContext) (next : NextVersions) (object : ObjectId) :
    Merging Nat MemoryVersion where
  rank := context.func.blockOrder.idxOf
  Listed p := p ∈ context.func.blockOrder
  preds := context.func.cfg.predecessors
  writes := context.writes object
  zero := ⟨object, 0⟩
  Own b v := ∃ n, (flowAfter context next n).phiVersions.get? (phiKey b object) = some v

/-- What a block takes for an object. -/
def versionsIn (context : FlowContext) (next : NextVersions) (object : ObjectId) (n b : Nat) :
    MemoryVersion :=
  versionOf ((flowAfter context next n).inOf b) object

theorem mem_of_lastDef {defs : List (MemoryLocation × MemoryVersion)} {object : ObjectId}
    {v : MemoryVersion} (last : lastDef defs object = some v) :
    ∃ entry ∈ defs, entry.1.object = object ∧ entry.2 = v := by
  obtain ⟨entry, found, isVersion⟩ := map_eq_some_iff.mp last
  exact ⟨entry, mem_reverse.mp (mem_of_find?_eq_some found),
    of_decide_eq_true (List.find?_some found :), isVersion⟩

section Settling

variable {context : FlowContext} {next : NextVersions} (ready : Ready context next)
  {object : ObjectId}
include ready

private theorem numbered_initialFlow : Numbered context (initialFlow next) where
  positive := ready.numbers.positive
  defs v := fun ⟨inst, versions, found, mem⟩ => ready.numbers.given inst versions found v mem
  phis := nofun
  apart := nofun
  outs _ := proper_empty

theorem numbered_flowAfter (n : Nat) : Numbered context (flowAfter context next n) := by
  induction n with
  | zero => exact numbered_initialFlow ready
  | succ n ih =>
    rw [flowAfter_succ]
    exact (numbered_flowRound ready ih).1

theorem round_of_listed (n : Nat) (mem : addr ∈ context.func.blockOrder) :
    ∃ block, context.func.getBlock addr = some block ∧ ∃ mixed inState outState,
      RoundStep context (flowAfter context next n) mixed
        (flowRound context (flowAfter context next n)) addr block.ops inState outState :=
  flowRound_spec ready (numbered_flowAfter ready n) mem

theorem kept_flowAfter {n m : Nat} (later : n ≤ m) {key : PhiKey} {v : MemoryVersion}
    (found : (flowAfter context next n).phiVersions.get? key = some v) :
    (flowAfter context next m).phiVersions.get? key = some v := by
  induction m, later using Nat.le_induction with
  | base => exact found
  | succ m _ ih =>
    rw [flowAfter_succ]
    exact kept_flowRound ready (numbered_flowAfter ready m) ih

theorem isDef_of_writes {p : Nat} {w : MemoryVersion} (isWrite : context.writes object p = some w) :
    context.IsDef w ∧ w.version ≠ 0 := by
  unfold FlowContext.writes at isWrite
  cases found : context.func.getBlock p with
  | none =>
    rw [found] at isWrite
    cases isWrite
  | some block =>
    rw [found] at isWrite
    obtain ⟨entry, mem, -, rfl⟩ := mem_of_lastDef isWrite
    obtain ⟨site, -, inSite⟩ := mem_flatMap.mp mem
    exact (mem_defsAt ready.numbers inSite).2

theorem lawful_merging : (merging context next object).Lawful where
  writes_ne_zero isWrite := by
    rintro rfl
    exact (isDef_of_writes ready isWrite).2 rfl
  own_ne_zero := fun ⟨n, found⟩ => by
    rintro rfl
    exact absurd ((numbered_flowAfter ready n).phis _ _ _ found).2.1.1 (Nat.not_succ_le_zero 0)
  own_unique := fun ⟨n, found⟩ ⟨m, found'⟩ => some.inj
    ((kept_flowAfter ready (le_max_left n m) found).symm.trans
      (kept_flowAfter ready (le_max_right n m) found'))
  own_apart := fun ⟨n, found⟩ ⟨m, found'⟩ => (numbered_flowAfter ready (max n m)).apart _ _ _ _
    (kept_flowAfter ready (le_max_left n m) found) (kept_flowAfter ready (le_max_right n m) found')
  own_ne_writes := fun ⟨n, found⟩ isWrite =>
    ((numbered_flowAfter ready n).phis _ _ _ found).2.2 (isDef_of_writes ready isWrite).1

/-- The states at the ends of the blocks are what the nodes hand on. -/
theorem outs_merging (n p : Nat) :
    (merging context next object).outs (versionsIn context next object) n p =
      versionOf ((flowAfter context next n).outOf p) object := by
  cases n with
  | zero => exact if_pos (Or.inl rfl)
  | succ n =>
    by_cases listed : p ∈ context.func.blockOrder
    · obtain ⟨block, found, mixed, inState, outState, step⟩ := round_of_listed ready n listed
      rw [Merging.outs_of_listed (Nat.succ_pos n) listed]
      have isIn : (flowAfter context next (n + 1)).inOf p = inState := by
        rw [flowAfter_succ, FlowState.inOf, step.isIn, getD_some]
      have isOut : (flowAfter context next (n + 1)).outOf p = outState := by
        rw [flowAfter_succ, FlowState.outOf, step.isOut, getD_some]
      rw [isOut, step.out, versionsIn, isIn]
      change (context.writes object p).getD _ = _
      rw [FlowContext.writes, found]
    · rw [Merging.outs_of_not_listed listed]
      have never : ∀ n, (flowAfter context next n).outOf p = .empty := by
        intro n
        induction n with
        | zero => rfl
        | succ n ih =>
          have frame := (numbered_flowRound ready (numbered_flowAfter ready n)).2 p listed
          rw [flowAfter_succ]
          exact (congrArg (fun entry => entry.outState.getD .empty) frame).trans ih
      rw [never]
      rfl

theorem rounds_merging (known : object ∈ context.objectIds) :
    (merging context next object).Rounds (versionsIn context next object) where
  start _ := rfl
  step n b listed := by
    obtain ⟨block, found, mixed, inState, outState, step⟩ := round_of_listed ready n listed
    have inputs : (merging context next object).input (versionsIn context next object) n b =
        fun p => versionOf (mixed.outOf p) object := by
      funext p
      rw [Merging.input, outs_merging ready, step.outs]
      change versionOf ((flowAfter context next (if context.func.blockOrder.idxOf p <
        context.func.blockOrder.idxOf b then n + 1 else n)).outOf p) object = _
      split
      · rw [flowAfter_succ]
      · rfl
    have isIn : versionsIn context next object (n + 1) b = versionOf inState object := by
      rw [versionsIn, flowAfter_succ, FlowState.inOf, step.isIn, getD_some]
    rw [inputs, isIn]
    have takes := step.takes object known
    generalize versionOf inState object = v at takes ⊢
    cases takes with
    | none empty => exact .none empty
    | common nonempty common => exact .common nonempty common
    | phi differ isPhi _ =>
      refine .own differ ⟨n + 1, ?_⟩
      rw [flowAfter_succ]
      exact isPhi

/-! ## The loop returns -/

private theorem same_of_versions {n m : Nat} (mem : addr ∈ context.func.blockOrder)
    (same : ∀ object ∈ context.objectIds, versionsIn context next object (n + 1) addr =
      versionsIn context next object (m + 1) addr) :
    (flowAfter context next (n + 1)).inStates.get? addr =
        (flowAfter context next (m + 1)).inStates.get? addr ∧
      (flowAfter context next (n + 1)).outStates.get? addr =
        (flowAfter context next (m + 1)).outStates.get? addr := by
  obtain ⟨block, found, mixed, inState, outState, step⟩ := round_of_listed ready n mem
  obtain ⟨block', found', mixed', inState', outState', step'⟩ := round_of_listed ready m mem
  obtain rfl := some.inj (found.symm.trans found')
  have versions : ∀ object, versionOf inState object = versionOf inState' object := fun object => by
    by_cases known : object ∈ context.objectIds
    · have here := same object known
      simp only [versionsIn, flowAfter_succ, FlowState.inOf, step.isIn, step'.isIn,
        getD_some] at here
      exact here
    · rw [versionOf, versionOf, step.unlisted object known, step'.unlisted object known]
  have properOut := (numbered_flowRound ready (numbered_flowAfter ready n)).1.outs addr
  have properOut' := (numbered_flowRound ready (numbered_flowAfter ready m)).1.outs addr
  rw [FlowState.outOf, step.isOut, getD_some] at properOut
  rw [FlowState.outOf, step'.isOut, getD_some] at properOut'
  rw [flowAfter_succ, flowAfter_succ, step.isIn, step'.isIn, step.isOut, step'.isOut]
  refine ⟨congrArg some (eq_of_versionOf step.proper step'.proper versions),
    congrArg some (eq_of_versionOf properOut properOut' fun object => ?_)⟩
  rw [step.out, step'.out, versions]

private theorem exists_unchanged :
    ∃ n, (flowRound context (flowAfter context next n)).changed = false := by
  obtain ⟨bound, constant⟩ := Settles.together
    (fun (key : Nat × ObjectId) n => versionsIn context next key.2 n key.1)
    (context.func.blockOrder.product context.objectIds) fun key mem => by
      obtain ⟨listed, known⟩ := pair_mem_product.mp mem
      exact (rounds_merging ready known).settles (lawful_merging ready) listed
  refine ⟨bound + 1, flowRound_unchanged ready (numbered_flowAfter ready _) fun addr mem => ?_⟩
  rw [← flowAfter_succ]
  exact same_of_versions ready mem fun object known =>
    constant (addr, object) (pair_mem_product.mpr ⟨mem, known⟩) _ _ (by omega) (by omega)

end Settling

theorem flowLoop_eq_some {context : FlowContext} (fuel : Nat) :
    ∀ {flow : FlowState} {state : RoundState}, flowLoop context fuel flow = some state →
      ∃ n, state = flowRound context ((fun flow => (flowRound context flow).flow)^[n] flow) ∧
        state.changed = false := by
  induction fuel with
  | zero => exact nofun
  | succ fuel ih =>
    intro flow state returns
    rw [flowLoop] at returns
    cases changed : (flowRound context flow).changed with
    | false =>
      rw [changed, if_neg Bool.false_ne_true] at returns
      cases returns
      exact ⟨0, rfl, changed⟩
    | true =>
      rw [changed, if_pos rfl] at returns
      obtain ⟨n, isRound, unchanged⟩ := ih returns
      exact ⟨n + 1, isRound, unchanged⟩

/-- The rounds end. -/
theorem exists_flowLoop {context : FlowContext} {next : NextVersions} (ready : Ready context next) :
    ∃ fuel, (flowLoop context fuel (initialFlow next)).isSome := by
  have iff := @returns_iff_of_rounds FlowState
    (fun fuel flow => (flowLoop context fuel flow).map RoundState.flow)
    (fun flow => ((flowRound context flow).flow, (flowRound context flow).changed))
    (fun _ => rfl) (fun fuel flow => by
      rw [flowLoop]
      cases (flowRound context flow).changed <;> rfl) (initialFlow next)
  obtain ⟨fuel, returns⟩ := iff.mpr (exists_unchanged ready)
  exact ⟨fuel, by rwa [isSome_map] at returns⟩

end R2Sleigh.Ssa.Semantic
