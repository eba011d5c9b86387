import R2Sleigh.Ssa.MemoryRounds
import R2Sleigh.Ssa.SsaGraphIndex

/-!
Contract: the versions of the memory objects as reaching definitions.

Owns `MemorySSAFacts.resolve`.
-/

namespace R2Sleigh.Ssa.Semantic

open Il Lib Flow List Option
open Ssa.Family (DecompilePrepFacts)

variable {func : SSAFunction} {b addr opIdx p : Nat} {phi : MemoryPhiFact} {state : RoundState}
  {v : MemoryVersion} {object : ObjectId} {block : SSABlock}

/-! ## Paths -/

/-- The edges as the rounds see them. -/
def predGraph (func : SSAFunction) : Graph Nat where
  root := func.entry
  edge p b := p ∈ func.cfg.predecessors b

def MemorySSAFacts.phiOf (facts : MemorySSAFacts) (block : Nat) (version : MemoryVersion) :
    Option MemoryPhiFact :=
  (facts.phisByBlock.listAt block).find? fun phi => phi.outputVersion = version

def MemoryPhiFact.inputFrom (phi : MemoryPhiFact) (pred : Nat) : Option MemoryVersion :=
  (phi.inputs.find? fun input => input.1 = pred).map Prod.snd

/-- A version along a path, whose last block comes first: a phi of a block is its
input for the edge taken into that block. -/
def MemorySSAFacts.resolve (facts : MemorySSAFacts) : List Nat → MemoryVersion → Option MemoryVersion
  | [], version => some version
  | block :: rest, version =>
    match facts.phiOf block version with
    | none => facts.resolve rest version
    | some phi =>
      (rest.head?.bind phi.inputFrom).bind fun input => facts.resolve rest input

/-- The versions of an object that operations of a block make. -/
def MemorySSAFacts.made (facts : MemorySSAFacts) (graph : SsaGraph) (object : ObjectId) (addr : Nat)
    (entries : List (SSAOp × Nat)) : List MemoryVersion :=
  entries.flatMap fun entry =>
    match graph.opInstBySite.lookup (addr, entry.2) with
    | none => []
    | some inst => ((facts.defsByInst.listAt inst).filter fun fact =>
      fact.location.object = object).map MemoryDefFact.nextVersion

/-- The version that the last definition of an object on a path makes. -/
def MemorySSAFacts.lastAlong (facts : MemorySSAFacts) (func : SSAFunction) (graph : SsaGraph)
    (object : ObjectId) : List Nat → Option MemoryVersion
  | [] => none
  | addr :: rest =>
    (((func.getBlock addr).bind fun block =>
      (facts.made graph object addr block.ops.zipIdx).getLast?)).or
        (facts.lastAlong func graph object rest)

/-! ## Accesses -/

/-- An operation is an instruction that accesses memory. -/
def Accesses (graph : SsaGraph) (summaries : BTreeMap InstId AccessSummary) (addr opIdx : Nat)
    (inst : InstId) (access : AccessSummary) : Prop :=
  graph.opInstBySite.lookup (addr, opIdx) = some inst ∧ summaries.get? inst = some access

def DefinesAt (graph : SsaGraph) (summaries : BTreeMap InstId AccessSummary) (object : ObjectId)
    (addr opIdx : Nat) : Prop :=
  ∃ inst access, Accesses graph summaries addr opIdx inst access ∧
    ∃ location ∈ access.defs, location.object = object

def DefinesIn (func : SSAFunction) (graph : SsaGraph) (summaries : BTreeMap InstId AccessSummary)
    (object : ObjectId) (addr : Nat) : Prop :=
  ∃ block opIdx, func.getBlock addr = some block ∧ opIdx < block.ops.length ∧
    DefinesAt graph summaries object addr opIdx

/-- The accesses are recorded, and along every path from the entry to a use its
version is that of the last definition before it, or zero. -/
structure MemorySSAFacts.Reaching (facts : MemorySSAFacts) (func : SSAFunction) (graph : SsaGraph)
    (summaries : BTreeMap InstId AccessSummary) : Prop where
  recorded : ∀ addr rest block opIdx inst access, (predGraph func).PathTo addr (addr :: rest) →
    func.getBlock addr = some block → opIdx < block.ops.length →
    Accesses graph summaries addr opIdx inst access →
      (facts.usesByInst.listAt inst).map MemoryUseFact.location = access.uses ∧
        (facts.defsByInst.listAt inst).map MemoryDefFact.location = access.defs
  resolved : ∀ addr rest block opIdx inst access, (predGraph func).PathTo addr (addr :: rest) →
    func.getBlock addr = some block → opIdx < block.ops.length →
    Accesses graph summaries addr opIdx inst access → ∀ fact ∈ facts.usesByInst.listAt inst,
      facts.resolve (addr :: rest) fact.version = some
        (((facts.made graph fact.location.object addr (block.ops.zipIdx.take opIdx)).getLast?.or
          (facts.lastAlong func graph fact.location.object rest)).getD ⟨fact.location.object, 0⟩)

/-- On some path from the entry, a use of the object comes before all definitions. -/
def ReadsInitial (func : SSAFunction) (graph : SsaGraph) (summaries : BTreeMap InstId AccessSummary)
    (object : ObjectId) : Prop :=
  ∃ addr rest block opIdx inst access, (predGraph func).PathTo addr (addr :: rest) ∧
    func.getBlock addr = some block ∧ opIdx < block.ops.length ∧
    Accesses graph summaries addr opIdx inst access ∧
    (∃ location ∈ access.uses, location.object = object) ∧
    (∀ i < opIdx, ¬ DefinesAt graph summaries object addr i) ∧
    ∀ p ∈ rest, ¬ DefinesIn func graph summaries object p

/-- Some path leads from a definition of the object back to the entry. -/
def ComesBack (func : SSAFunction) (graph : SsaGraph) (summaries : BTreeMap InstId AccessSummary)
    (object : ObjectId) : Prop :=
  ∃ d ∈ func.blockOrder, DefinesIn func graph summaries object d ∧
    Relation.TransGen (predGraph func).edge d func.entry

/-- The block order lists the entry and all that a listed block leads to. -/
structure OrderClosed (func : SSAFunction) : Prop where
  entry : func.entry ∈ func.blockOrder
  step : ∀ p b, p ∈ func.blockOrder → p ∈ func.cfg.predecessors b → b ∈ func.blockOrder

theorem OrderClosed.listed (closed : OrderClosed func)
    (reach : (predGraph func).Reach b) : b ∈ func.blockOrder := by
  exact reach.induction closed.entry fun p b _ listed edge => closed.step p b listed edge

/-! ## Phis -/

/-- The facts that the loop returns. -/
def RoundState.memoryFacts (state : RoundState) : MemorySSAFacts :=
  ⟨state.facts.usesByInst, state.facts.defsByInst, collectPhis state.flow⟩

theorem mem_collectPhis {flow : FlowState} :
    phi ∈ (collectPhis flow).listAt b ↔
      flow.phiVersions.get? (phiKey b phi.object) = some phi.outputVersion ∧
        phi.inputs = flow.phiInputs.listAt (phiKey b phi.object) := by
  rw [collectPhis, BTreeMap.mem_listAt_foldl_pushAt]
  constructor
  · rintro (stored | ⟨entry, mem, rfl, rfl⟩)
    · cases stored
    · exact ⟨BTreeMap.get?_of_mem mem, rfl⟩
  · rintro ⟨found, inputs⟩
    refine Or.inr ⟨(phiKey b phi.object, phi.outputVersion), BTreeMap.mem_of_get? found, rfl, ?_⟩
    rw [← inputs]
    rfl

theorem get?_of_phiOf (found : state.memoryFacts.phiOf b v = some phi) :
    state.flow.phiVersions.get? (phiKey b phi.object) = some v ∧
      phi.inputs = state.flow.phiInputs.listAt (phiKey b phi.object) := by
  obtain rfl : phi.outputVersion = v := of_decide_eq_true (List.find?_some found :)
  exact mem_collectPhis.mp (mem_of_find?_eq_some found)

private theorem exists_phiOf (found : state.flow.phiVersions.get? (phiKey b object) = some v) :
    ∃ phi, state.memoryFacts.phiOf b v = some phi := by
  have mem : (⟨object, v, state.flow.phiInputs.listAt (phiKey b object)⟩ : MemoryPhiFact) ∈
      (collectPhis state.flow).listAt b := mem_collectPhis.mpr ⟨found, rfl⟩
  exact isSome_iff_exists.mp (List.find?_isSome.mpr ⟨_, mem, decide_eq_true rfl⟩)

theorem resolve_of_not_phi
    (never : ∀ b object, state.flow.phiVersions.get? (phiKey b object) ≠ some v) (path : List Nat) :
    state.memoryFacts.resolve path v = some v := by
  induction path with
  | nil => rfl
  | cons b rest ih =>
    rw [MemorySSAFacts.resolve]
    cases found : state.memoryFacts.phiOf b v with
    | none => exact ih
    | some phi => exact absurd (get?_of_phiOf found).1 (never b phi.object)

/-! ## Last definitions -/

theorem lastDef_eq_getLast? (defs : List (MemoryLocation × MemoryVersion)) (object : ObjectId) :
    lastDef defs object =
      ((defs.filter fun entry => entry.1.object = object).map Prod.snd).getLast? := by
  rw [lastDef, List.getLast?_map, List.getLast?_eq_head?_reverse, ← filter_reverse,
    List.head?_filter]

section Made

variable {context : FlowContext} {next : NextVersions} (ready : Ready context next) (flow : FlowState)
include ready

section

variable (numbered : Numbered context flow) (mem : addr ∈ context.func.blockOrder)
include numbered mem

private theorem defs_flowRound {inst : InstId}
    (found : context.func.getBlock addr = some block) (inside : opIdx < block.ops.length)
    (isInst : context.graph.opInstBySite.lookup (addr, opIdx) = some inst) :
    ((flowRound context flow).facts.at inst).2 = context.defsAt addr opIdx := by
  cases isAccess : context.access addr opIdx with
  | none =>
    rw [at_flowRound_of_never ready (fun addr' opIdx' isInst' => ?_), FlowContext.defsAt, isAccess]
    obtain ⟨⟨_, access⟩, found', rfl⟩ := map_eq_some_iff.mp isInst'
    obtain ⟨same, -⟩ := lookup_of_access found'
    obtain ⟨rfl, rfl⟩ := Prod.mk.inj (ready.distinct _ _ _ same isInst)
    rw [isAccess] at found'
    cases found'
  | some result =>
    obtain ⟨inst', access⟩ := result
    obtain ⟨same, -⟩ := lookup_of_access isAccess
    obtain rfl := some.inj (isInst.symm.trans same)
    obtain ⟨block', found', _, _, _, step⟩ := flowRound_spec ready numbered mem
    obtain rfl := some.inj (found.symm.trans found')
    rw [step.facts opIdx inst access inside isAccess]

theorem made_flowRound
    (found : context.func.getBlock addr = some block)
    (object : ObjectId) (entries : List (SSAOp × Nat))
    (inside : ∀ entry ∈ entries, entry.2 < block.ops.length) :
    ((flowRound context flow).memoryFacts.made context.graph object addr entries).getLast? =
      lastDef (context.defsIn addr entries) object := by
  rw [lastDef_eq_getLast?, MemorySSAFacts.made, FlowContext.defsIn, filter_flatMap, map_flatMap]
  refine congrArg List.getLast? (flatMap_congr fun entry inEntries => ?_)
  cases isInst : context.graph.opInstBySite.lookup (addr, entry.2) with
  | none =>
    rw [FlowContext.defsAt, FlowContext.access, isInst]
    rfl
  | some inst =>
    rw [← defs_flowRound ready flow numbered mem found (inside entry inEntries) isInst]
    change _ = List.map Prod.snd (List.filter _ (List.map _ _))
    rw [List.filter_map, List.map_map]
    rfl

theorem lastAlong_cons
    (object : ObjectId) (rest : List Nat) :
    (flowRound context flow).memoryFacts.lastAlong context.func context.graph object (addr :: rest) =
      (context.writes object addr).or
        ((flowRound context flow).memoryFacts.lastAlong context.func context.graph object rest) := by
  obtain ⟨block, found⟩ := ready.listed addr mem
  rw [MemorySSAFacts.lastAlong, FlowContext.writes, found, bind_some]
  refine congrArg (Option.or · _) (made_flowRound ready flow numbered mem found object _ ?_)
  intro entry inBlock
  exact (mem_zipIdx' inBlock).1

end

end Made

/-! ## After a round without a change -/

private theorem inputFrom_of_mem {preds : List Nat} {version : Nat → MemoryVersion}
    (inputs : phi.inputs = preds.map fun p => (p, version p)) (mem : p ∈ preds) :
    phi.inputFrom p = some (version p) := by
  have isFound : ((preds.map fun p => (p, version p)).find? fun input => input.1 = p).isSome :=
    List.find?_isSome.mpr ⟨(p, version p), List.mem_map_of_mem mem, decide_eq_true rfl⟩
  obtain ⟨input, found⟩ := isSome_iff_exists.mp isFound
  obtain ⟨q, -, rfl⟩ := List.mem_map.mp (mem_of_find?_eq_some found)
  obtain rfl : q = p := of_decide_eq_true (List.find?_some found :)
  rw [MemoryPhiFact.inputFrom, inputs, found]
  rfl

section Unchanged

variable {context : FlowContext} {next : NextVersions} (ready : Ready context next) {n : Nat}
  (unchanged : (flowRound context (flowAfter context next n)).changed = false)
  {object : ObjectId}
include ready unchanged

theorem outOf_stable (p : Nat) :
    (flowAfter context next (n + 1)).outOf p = (flowAfter context next n).outOf p := by
  rw [flowAfter_succ]
  by_cases listed : p ∈ context.func.blockOrder
  · obtain ⟨_, _, _, _, _, step⟩ := round_of_listed ready n listed
    rw [FlowState.outOf, FlowState.outOf, step.isOut, (step.low unchanged).2]
  · have frame := (numbered_flowRound ready (numbered_flowAfter ready n)).2 p listed
    exact congrArg (fun entry => entry.outState.getD .empty) frame

theorem stable_merging (p : Nat) :
    (merging context next object).outs (versionsIn context next object) (n + 1) p =
      (merging context next object).outs (versionsIn context next object) n p := by
  rw [outs_merging ready, outs_merging ready, outOf_stable ready unchanged]

/-- What a block takes is, along an edge, what the block before hands on. -/
theorem resolve_edge (known : object ∈ context.objectIds)
    (listed : b ∈ context.func.blockOrder) (edge : p ∈ context.func.cfg.predecessors b)
    (rest : List Nat) :
    let facts := (flowRound context (flowAfter context next n)).memoryFacts
    facts.resolve (b :: p :: rest) (versionsIn context next object (n + 1) b) =
      facts.resolve (p :: rest) (versionOf ((flowAfter context next (n + 1)).outOf p) object) := by
  intro facts
  obtain ⟨_, _, mixed, inState, _, step⟩ := round_of_listed ready n listed
  have outs : ∀ q, mixed.outOf q = (flowAfter context next (n + 1)).outOf q := fun q => by
    rw [step.outs, ← flowAfter_succ, outOf_stable ready unchanged, ite_self]
  have isIn : versionsIn context next object (n + 1) b = versionOf inState object := by
    rw [versionsIn, flowAfter_succ, FlowState.inOf, step.isIn, getD_some]
  have isObject := object_versionOf step.proper object
  have takes := step.takes object known
  rw [isIn]
  generalize taken : versionOf inState object = v at takes isObject
  have phis : (flowRound context (flowAfter context next n)).flow =
    flowAfter context next (n + 1) := (flowAfter_succ ..).symm
  cases takes with
  | none empty =>
    rw [empty] at edge
    cases edge
  | common _ same =>
    have isOut : versionOf ((flowAfter context next (n + 1)).outOf p) object = v := by
      rw [← outs]
      exact same p edge
    rw [isOut]
    cases found : facts.phiOf b v with
    | none =>
      rw [MemorySSAFacts.resolve, found]
    | some phi =>
      -- A phi whose value is taken has inputs that differ.
      obtain ⟨isPhi, -⟩ := get?_of_phiOf found
      have phiObject : phi.object = object := by
        have numbered := numbered_flowRound ready (numbered_flowAfter ready n)
        exact (numbered.1.phis b phi.object v isPhi).1.symm.trans isObject
      rw [phiObject, phis] at isPhi
      refine absurd ⟨v, fun q mem => ?_⟩ ((rounds_merging ready known).differ_of_taken
        (stable_merging ready unchanged) (lawful_merging ready) ⟨n + 1, isPhi⟩ listed
        (isIn.trans taken))
      rw [outs_merging ready, ← outs]
      exact same q mem
  | phi _ isPhi inputs =>
    obtain ⟨phi, found⟩ := exists_phiOf isPhi
    have found' : facts.phiOf b v = some phi := found
    obtain ⟨isPhi', isInputs⟩ := get?_of_phiOf found
    have phiObject : phi.object = object := by
      have numbered := numbered_flowRound ready (numbered_flowAfter ready n)
      exact (numbered.1.phis b phi.object v isPhi').1.symm.trans isObject
    rw [phiObject, BTreeMap.listAt, inputs, getD_some] at isInputs
    rw [MemorySSAFacts.resolve, found']
    dsimp only
    rw [List.head?_cons, bind_some, inputFrom_of_mem isInputs edge, bind_some]
    change facts.resolve (p :: rest) (versionOf (mixed.outOf p) object) = _
    rw [outs]

omit unchanged in
theorem resolve_of_isDef (isDef : context.IsDef v) (path : List Nat) :
    (flowRound context (flowAfter context next n)).memoryFacts.resolve path v = some v :=
  resolve_of_not_phi (fun b object found =>
    ((numbered_flowRound ready (numbered_flowAfter ready n)).1.phis b object v found).2.2 isDef) path

omit unchanged in
private theorem resolve_zero (path : List Nat) :
    (flowRound context (flowAfter context next n)).memoryFacts.resolve path ⟨object, 0⟩ =
      some ⟨object, 0⟩ :=
  resolve_of_not_phi (fun b other found => absurd
    ((numbered_flowRound ready (numbered_flowAfter ready n)).1.phis b other _ found).2.1.1
    (Nat.not_succ_le_zero 0)) path

omit unchanged in
private theorem resolve_entry_iff {entry : Nat} :
    (flowRound context (flowAfter context next n)).memoryFacts.resolve [entry]
        (versionsIn context next object (n + 1) entry) = some ⟨object, 0⟩ ↔
      versionsIn context next object (n + 1) entry = ⟨object, 0⟩ := by
  constructor
  · intro zero
    rw [MemorySSAFacts.resolve] at zero
    cases found : (flowRound context (flowAfter context next n)).memoryFacts.phiOf entry
        (versionsIn context next object (n + 1) entry) with
    | none =>
      rw [found] at zero
      exact some.inj zero
    | some phi =>
      rw [found] at zero
      cases zero
  · intro zero
    rw [zero]
    exact resolve_zero ready [entry]

/-- Along a path from the entry, what the last block takes is the last definition
before it, or what the entry takes. -/
theorem resolve_path (closed : OrderClosed context.func) (known : object ∈ context.objectIds)
    {path : List Nat} (isPath : (predGraph context.func).PathTo b path) :
    let facts := (flowRound context (flowAfter context next n)).memoryFacts
    ∃ rest, path = b :: rest ∧
      facts.resolve path (versionsIn context next object (n + 1) b) =
        (facts.lastAlong context.func context.graph object rest).elim
          (facts.resolve [context.func.entry]
            (versionsIn context next object (n + 1) context.func.entry)) some := by
  intro facts
  induction isPath with
  | root => exact ⟨[], rfl, rfl⟩
  | @snoc p b path isPath edge ih =>
    obtain ⟨rest, rfl, resolved⟩ := ih
    have listed := closed.listed ⟨_, isPath.snoc edge⟩
    have listedP := closed.listed ⟨_, isPath⟩
    refine ⟨p :: rest, rfl, ?_⟩
    have handed : (merging context next object).outs (versionsIn context next object) (n + 1) p = _ :=
      outs_merging ready (n + 1) p
    rw [Merging.outs_of_listed (Nat.succ_pos n) listedP] at handed
    rw [resolve_edge ready unchanged known listed edge, ← handed,
      lastAlong_cons ready _ (numbered_flowAfter ready n) listedP]
    change facts.resolve (p :: rest) ((context.writes object p).getD _) = _
    cases isWrite : context.writes object p with
    | none =>
      exact resolved
    | some w =>
      exact resolve_of_isDef ready (isDef_of_writes ready isWrite).1 _

end Unchanged

/-! ## Definitions -/

private theorem lastDef_eq_none_iff {defs : List (MemoryLocation × MemoryVersion)} :
    lastDef defs object = none ↔ ∀ entry ∈ defs, entry.1.object ≠ object := by
  rw [lastDef, map_eq_none_iff, List.find?_eq_none]
  simp only [mem_reverse, decide_eq_true_eq, ne_eq]

section Definitions

variable {context : FlowContext} {next : NextVersions} (ready : Ready context next)
  {object : ObjectId}
include ready

private theorem definesAt_iff :
    DefinesAt context.graph context.summaries object addr opIdx ↔
      ∃ entry ∈ context.defsAt addr opIdx, entry.1.object = object := by
  constructor
  · rintro ⟨inst, access, ⟨isInst, isAccess⟩, location, mem, isObject⟩
    have found : context.access addr opIdx = some (inst, access) := by
      rw [FlowContext.access, isInst, bind_eq_bind, bind_some, isAccess]
      rfl
    rw [← map_defsAt ready.numbers found] at mem
    obtain ⟨entry, inDefs, rfl⟩ := List.mem_map.mp mem
    exact ⟨entry, inDefs, isObject⟩
  · rintro ⟨entry, mem, isObject⟩
    cases found : context.access addr opIdx with
    | none =>
      rw [FlowContext.defsAt, found] at mem
      cases mem
    | some result =>
      obtain ⟨inst, access⟩ := result
      have inDefs := List.mem_map_of_mem (f := Prod.fst) mem
      rw [map_defsAt ready.numbers found] at inDefs
      exact ⟨inst, access, lookup_of_access found, entry.1, inDefs, isObject⟩

theorem lastDef_defsIn_eq_none_iff {entries : List (SSAOp × Nat)} :
    lastDef (context.defsIn addr entries) object = none ↔
      ∀ entry ∈ entries, ¬ DefinesAt context.graph context.summaries object addr entry.2 := by
  rw [lastDef_eq_none_iff, FlowContext.defsIn, forall_mem_flatMap]
  refine forall₂_congr fun entry _ => ?_
  rw [definesAt_iff ready]
  push Not
  rfl

theorem writes_eq_none_iff : context.writes object p = none ↔
    ¬ DefinesIn context.func context.graph context.summaries object p := by
  unfold FlowContext.writes DefinesIn
  cases found : context.func.getBlock p with
  | none => exact iff_of_true rfl fun ⟨_, _, isBlock, _⟩ => nomatch isBlock
  | some block =>
    rw [lastDef_defsIn_eq_none_iff ready]
    constructor
    · rintro never ⟨_, opIdx, isBlock, inside, defines⟩
      cases isBlock
      exact never (block.ops[opIdx], opIdx) (mem_zipIdx_iff_getElem?.mpr
        (List.getElem?_eq_getElem inside)) defines
    · intro never entry mem defines
      exact never ⟨block, entry.2, rfl, (mem_zipIdx' mem).1, defines⟩

theorem lastAlong_eq_none_iff {flow : FlowState} (numbered : Numbered context flow)
    {path : List Nat} (listed : ∀ p ∈ path, p ∈ context.func.blockOrder) :
    (flowRound context flow).memoryFacts.lastAlong context.func context.graph object path = none ↔
      ∀ p ∈ path, ¬ DefinesIn context.func context.graph context.summaries object p := by
  induction path with
  | nil => exact iff_of_true rfl nofun
  | cons p rest ih =>
    obtain ⟨here, later⟩ := forall_mem_cons.mp listed
    rw [lastAlong_cons ready flow numbered here, or_eq_none_iff, ih later,
      writes_eq_none_iff ready, forall_mem_cons]

private theorem comes_entry_iff (closed : OrderClosed context.func) :
    (merging context next object).Comes context.func.entry ↔
      ComesBack context.func context.graph context.summaries object := by
  have written : ∀ {p}, ((merging context next object).writes p).isSome ↔
      DefinesIn context.func context.graph context.summaries object p := fun {p} => by
    rw [← not_iff_not, not_isSome_iff_eq_none]
    exact writes_eq_none_iff ready
  constructor
  · have along : ∀ {b}, (merging context next object).Comes b → ∃ d ∈ context.func.blockOrder,
        DefinesIn context.func context.graph context.summaries object d ∧
          Relation.TransGen (predGraph context.func).edge d b := by
      intro b comes
      induction comes with
      | write mem listed isWrite => exact ⟨_, listed, written.mp isWrite, .single mem⟩
      | along mem _ _ ih =>
        obtain ⟨d, listed, defines, path⟩ := ih
        exact ⟨d, listed, defines, path.tail mem⟩
    exact along
  · rintro ⟨d, listed, defines, path⟩
    have along : ∀ {b}, Relation.TransGen (predGraph context.func).edge d b →
        b ∈ context.func.blockOrder ∧ (merging context next object).Comes b := by
      intro b path
      induction path with
      | single edge => exact ⟨closed.step _ _ listed edge, .write edge listed (written.mpr defines)⟩
      | tail _ edge ih =>
        obtain ⟨listedP, comes⟩ := ih
        exact ⟨closed.step _ _ listedP edge, .along edge listedP comes⟩
    exact (along path).2

end Definitions

/-! ## Reaching definitions -/

section Reaching

variable {context : FlowContext} {next : NextVersions} (ready : Ready context next) {n : Nat}
  (unchanged : (flowRound context (flowAfter context next n)).changed = false)
  (known : ∀ inst access, context.summaries.get? inst = some access →
    ∀ location ∈ access.uses, location.object ∈ context.objectIds)
include ready

theorem facts_at {inst : InstId} {access : AccessSummary}
    (mem : addr ∈ context.func.blockOrder) (found : context.func.getBlock addr = some block)
    (inside : opIdx < block.ops.length)
    (accesses : Accesses context.graph context.summaries addr opIdx inst access) :
    let facts := (flowRound context (flowAfter context next n)).memoryFacts
    facts.usesByInst.listAt inst = access.uses.map (fun location =>
        ⟨location, (lastDef (context.defsIn addr (block.ops.zipIdx.take opIdx))
          location.object).getD (versionsIn context next location.object (n + 1) addr)⟩) ∧
      (facts.defsByInst.listAt inst).map MemoryDefFact.location = access.defs := by
  have isAccess : context.access addr opIdx = some (inst, access) := by
    rw [FlowContext.access, accesses.1, bind_eq_bind, bind_some, accesses.2]
    rfl
  obtain ⟨block', found', _, inState, _, step⟩ := round_of_listed ready n mem
  obtain rfl := some.inj (found.symm.trans found')
  have isIn : (flowAfter context next (n + 1)).inOf addr = inState := by
    rw [flowAfter_succ, FlowState.inOf, step.isIn, getD_some]
  obtain ⟨uses, defs⟩ := Prod.mk.inj (step.facts opIdx inst access inside isAccess)
  constructor
  · refine Eq.trans uses (map_congr_left fun location _ => ?_)
    rw [versionsIn, isIn]
  · rw [← map_defsAt ready.numbers isAccess, ← defs, List.map_map]
    rfl

include unchanged

/-- Along a path on which the object is not defined, a use has the version zero
exactly if no definition comes back to the entry. -/
theorem resolve_use_iff (closed : OrderClosed context.func) {rest : List Nat}
    (objectKnown : object ∈ context.objectIds)
    (isPath : (predGraph context.func).PathTo addr (addr :: rest))
    (found : context.func.getBlock addr = some block) :
    let facts := (flowRound context (flowAfter context next n)).memoryFacts
    facts.resolve (addr :: rest) ((lastDef (context.defsIn addr (block.ops.zipIdx.take opIdx))
        object).getD (versionsIn context next object (n + 1) addr)) =
      some (((facts.made context.graph object addr (block.ops.zipIdx.take opIdx)).getLast?.or
        (facts.lastAlong context.func context.graph object rest)).getD ⟨object, 0⟩) ↔
    (lastDef (context.defsIn addr (block.ops.zipIdx.take opIdx)) object = none →
      facts.lastAlong context.func context.graph object rest = none →
        ¬ ComesBack context.func context.graph context.summaries object) := by
  intro facts
  have listed := closed.listed ⟨_, isPath⟩
  have made : (facts.made context.graph object addr (block.ops.zipIdx.take opIdx)).getLast? =
      lastDef (context.defsIn addr (block.ops.zipIdx.take opIdx)) object :=
    made_flowRound ready _ (numbered_flowAfter ready n) listed found object _ fun entry mem =>
      (mem_zipIdx' (mem_of_mem_take mem)).1
  rw [made]
  cases last : lastDef (context.defsIn addr (block.ops.zipIdx.take opIdx)) object with
  | some w =>
    obtain ⟨entry, mem, -, rfl⟩ := mem_of_lastDef last
    obtain ⟨site, -, inSite⟩ := mem_flatMap.mp mem
    exact iff_of_true (resolve_of_isDef ready (mem_defsAt ready.numbers inSite).2.1 _) nofun
  | none =>
    obtain ⟨rest', same, resolved⟩ := resolve_path ready unchanged closed objectKnown isPath
    obtain rfl := (List.cons.inj same).2
    rw [getD_none, none_or]
    rw [resolved]
    cases along : facts.lastAlong context.func context.graph object rest with
    | some w => exact iff_of_true rfl nofun
    | none =>
      have zero := (rounds_merging ready objectKnown).zero_iff_of_stable
        (stable_merging ready unchanged) (lawful_merging ready) closed.entry
      rw [comes_entry_iff ready closed] at zero
      rw [elim_none, getD_none, resolve_entry_iff ready]
      exact zero.trans ⟨fun never _ _ => never, fun never => never rfl rfl⟩

include known

/-- After a round without changes the facts are the reaching ones exactly if no object
whose initial version is read comes back. -/
theorem reaching_iff_of_unchanged (closed : OrderClosed context.func) :
    (flowRound context (flowAfter context next n)).memoryFacts.Reaching context.func context.graph
        context.summaries ↔
      ¬ ∃ object, ReadsInitial context.func context.graph context.summaries object ∧
        ComesBack context.func context.graph context.summaries object := by
  have noDefs : ∀ {addr opIdx : Nat} {block : SSABlock} {object : ObjectId}, opIdx < block.ops.length →
      (lastDef (context.defsIn addr (block.ops.zipIdx.take opIdx)) object = none ↔
        ∀ i < opIdx, ¬ DefinesAt context.graph context.summaries object addr i) := by
    intro addr opIdx block object inside
    rw [lastDef_defsIn_eq_none_iff ready]
    constructor
    · intro never i less
      refine never (block.ops[i], i) (mem_take_iff_getElem.mpr ⟨i, ?_, ?_⟩)
      · rw [length_zipIdx]
        omega
      · rw [getElem_zipIdx, Nat.zero_add]
    · intro never entry mem
      obtain ⟨i, less, rfl⟩ := mem_take_iff_getElem.mp mem
      rw [getElem_zipIdx, Nat.zero_add]
      exact never i (by omega)
  have restListed : ∀ {addr rest}, (predGraph context.func).PathTo addr (addr :: rest) →
      ∀ p ∈ rest, p ∈ context.func.blockOrder := fun isPath p mem =>
    closed.listed (isPath.reach_of_mem (mem_cons_of_mem _ mem))
  constructor
  · rintro reaching ⟨object, ⟨addr, rest, block, opIdx, inst, access, isPath, found, inside, accesses,
      ⟨location, mem, rfl⟩, notBefore, notAlong⟩, comesBack⟩
    obtain ⟨uses, -⟩ := facts_at (n := n) ready (closed.listed ⟨_, isPath⟩) found inside accesses
    have resolved := reaching.resolved addr rest block opIdx inst access isPath found inside accesses
      _ (uses ▸ List.mem_map_of_mem mem)
    have objectKnown := known inst access accesses.2 location mem
    exact (resolve_use_iff ready unchanged closed objectKnown isPath found).mp resolved
      ((noDefs inside).mpr notBefore)
      ((lastAlong_eq_none_iff ready (numbered_flowAfter ready n) (restListed isPath)).mpr notAlong)
      comesBack
  · intro never
    refine ⟨fun addr rest block opIdx inst access isPath found inside accesses => ?_,
      fun addr rest block opIdx inst access isPath found inside accesses fact mem => ?_⟩
    · obtain ⟨uses, defs⟩ := facts_at (n := n) ready (closed.listed ⟨_, isPath⟩) found inside accesses
      refine ⟨?_, defs⟩
      rw [uses, List.map_map]
      exact List.map_id _
    · obtain ⟨uses, -⟩ := facts_at (n := n) ready (closed.listed ⟨_, isPath⟩) found inside accesses
      rw [uses] at mem
      obtain ⟨location, inUses, rfl⟩ := List.mem_map.mp mem
      have objectKnown := known inst access accesses.2 location inUses
      refine (resolve_use_iff ready unchanged closed objectKnown isPath found).mpr
        fun noneBefore noneAlong comesBack => never ⟨location.object, ?_, comesBack⟩
      exact ⟨addr, rest, block, opIdx, inst, access, isPath, found, inside, accesses,
        ⟨location, inUses, rfl⟩, (noDefs inside).mp noneBefore,
        (lastAlong_eq_none_iff ready (numbered_flowAfter ready n) (restListed isPath)).mp noneAlong⟩

end Reaching

/-! ## Functions -/

private theorem distinctSites_fromFunction (assigned : func.Assigned)
    (indexed : func.Indexed) (small : func.sites.length ≤ 2 ^ 32) {graph : SsaGraph}
    (run : SsaGraph.fromFunction func = some graph) : DistinctSites graph := by
  obtain ⟨built, isGraph, -, passed⟩ := SsaGraph.exists_graph assigned indexed
  obtain rfl := some.inj (run.symm.trans isGraph)
  have ops := passed.ops small (SsaGraph.nodup_opSites assigned indexed)
  intro site site' inst found found'
  obtain ⟨s, position, isSite⟩ := (ops.instBySite site inst).mp found
  obtain ⟨s', position', isSite'⟩ := (ops.instBySite site' inst).mp found'
  obtain rfl := some.inj (position.symm.trans position')
  exact some.inj (isSite.symm.trans isSite')

/-- The loop returns, and each use has the version of the last definition along every
path from the entry exactly if no object that some path uses before all definitions is
defined on a path back to the entry. -/
theorem collectObjectAndMemoryFacts_reaching_iff (func : SSAFunction) (assigned : func.Assigned)
    (indexed : func.Indexed) (closed : OrderClosed func) (small : func.sites.length ≤ 2 ^ 32)
    (facts : Option DecompilePrepFacts) (callSites : CallSiteFacts) {graph : SsaGraph}
    (run : SsaGraph.fromFunction func = some graph) :
    let summaries := collectAccessSummaries func graph facts
      (ObjectModelBuilder.build facts func graph) callSites
    (∃ fuel, (collectObjectAndMemoryFacts func facts graph callSites fuel).isSome) ∧
      ∀ fuel model memory,
        collectObjectAndMemoryFacts func facts graph callSites fuel = some (model, memory) →
          (memory.Reaching func graph summaries ↔ ¬ ∃ object,
            ReadsInitial func graph summaries object ∧ ComesBack func graph summaries object) := by
  intro summaries
  let ids := (ObjectModelBuilder.build facts func graph).objects.keys
  let numbered := numberDefs summaries (initialNext ids)
  let context : FlowContext := ⟨func, graph, ids, summaries, numbered.1⟩
  have ready : Ready context numbered.2 :=
    { distinct := distinctSites_fromFunction assigned indexed small run
      numbers := numbers_numberDefs summaries fun object => (nextOf_initialNext ids object).ge
      objects := BTreeMap.nodup_keys _
      order := assigned.order
      listed := fun addr mem => isSome_iff_exists.mp ((assigned.listed addr).mpr mem) }
  have within := within_collectAccessSummaries (wellFormed_build facts func graph) func graph facts
    callSites
  constructor
  · obtain ⟨fuel, returns⟩ := exists_flowLoop ready
    refine ⟨fuel, ?_⟩
    rw [collectObjectAndMemoryFacts, buildMemorySsa]
    rw [isSome_map, isSome_map]
    exact returns
  · intro fuel model memory returns
    obtain ⟨_, built, same⟩ := map_eq_some_iff.mp returns
    cases same
    obtain ⟨state, loop, rfl⟩ := map_eq_some_iff.mp built
    obtain ⟨n, rfl, unchanged⟩ := flowLoop_eq_some fuel loop
    exact reaching_iff_of_unchanged ready unchanged (fun inst access found location mem =>
      within inst access found location (mem_append_left _ mem)) closed

private theorem orderClosed_of_built {blocks : List R2ILBlock} {arch : Option ArchSpec}
    {callBoundaries : Option CallBoundaryConfig} {renamed : RenamedFunction}
    {final : RenameContext} {entered : Nat → RenameContext}
    (built : Built blocks arch callBoundaries func renamed final entered) : OrderClosed func where
  entry := by
    rw [built.order, built.entry]
    exact (built.spec.order.mem_iff _).mpr .root
  step p b listed edge := by
    rw [built.order] at listed ⊢
    exact (built.spec.order.mem_iff b).mpr
      (((built.spec.order.mem_iff p).mp listed).step (built.consistent.mem_predecessors.mp edge))

/-- A value is written to memory and read back. -/
def storeThenLoad : List R2ILBlock :=
  [⟨4096, 4, [.Store .Ram ⟨.Register, 0, 8⟩ ⟨.Register, 8, 8⟩], none⟩,
   ⟨4100, 4, [.Load ⟨.Unique, 16, 8⟩ .Ram ⟨.Register, 0, 8⟩, .Return ⟨.Unique, 16, 8⟩], none⟩]

theorem storeThenLoad_reaching : ∃ func graph fuel model memory,
    fromBlocksRaw storeThenLoad none = some func ∧ SsaGraph.fromFunction func = some graph ∧
      collectObjectAndMemoryFacts func none graph (collectCallSites func graph) fuel =
        some (model, memory) ∧
      memory.Reaching func graph (collectAccessSummaries func graph none
        (ObjectModelBuilder.build none func graph) (collectCallSites func graph)) := by
  obtain ⟨func, renamed, final, entered, build, built⟩ :=
    fromBlocksRawWithPolicy_built _ _ none none
  obtain ⟨graph, run, -⟩ := SsaGraph.exists_graph built.assigned built.indexed
  have checked : (fromBlocksRaw storeThenLoad none).all (fun func =>
      func.sites.length ≤ 2 ^ 32 ∧ func.cfg.predecessors func.entry = []) = true := by decide +kernel
  rw [show fromBlocksRaw storeThenLoad none = some func from build, all_some,
    decide_eq_true_iff] at checked
  obtain ⟨small, noPreds⟩ := checked
  obtain ⟨⟨fuel, returns⟩, iff⟩ := collectObjectAndMemoryFacts_reaching_iff func built.assigned
    built.indexed (orderClosed_of_built built) small none (collectCallSites func graph) run
  obtain ⟨⟨model, memory⟩, isResult⟩ := isSome_iff_exists.mp returns
  refine ⟨func, graph, fuel, model, memory, build, run, isResult,
    (iff fuel model memory isResult).mpr ?_⟩
  -- No edge leads to the entry.
  rintro ⟨object, -, d, -, -, path⟩
  obtain ⟨p, -, edge⟩ := Relation.TransGen.tail'_iff.mp path
  have edge : p ∈ func.cfg.predecessors func.entry := edge
  rw [noPreds] at edge
  cases edge

/-- The entry reads memory, writes it, and jumps to itself. -/
def loopAtEntry : List R2ILBlock :=
  [⟨4096, 4, [.Load ⟨.Unique, 16, 8⟩ .Ram ⟨.Register, 0, 8⟩,
    .Store .Ram ⟨.Register, 0, 8⟩ ⟨.Register, 8, 8⟩, .Branch ⟨.Const, 4096, 8⟩], none⟩]

/-- On the path that only enters, the version of the read is that of the write after it. -/
theorem loopAtEntry_not_reaching : ∃ func graph fuel model memory,
    fromBlocksRaw loopAtEntry none = some func ∧ SsaGraph.fromFunction func = some graph ∧
      collectObjectAndMemoryFacts func none graph (collectCallSites func graph) fuel =
        some (model, memory) ∧
      ¬ memory.Reaching func graph (collectAccessSummaries func graph none
        (ObjectModelBuilder.build none func graph) (collectCallSites func graph)) := by
  have checked : (fromBlocksRaw loopAtEntry none).any (fun func =>
      (SsaGraph.fromFunction func).any fun graph =>
        (collectObjectAndMemoryFacts func none graph (collectCallSites func graph) 3).any fun result =>
          func.entry = 4096 ∧ (func.getBlock 4096).any fun block =>
            (graph.opInstBySite.lookup (4096, 0)).any fun inst =>
              0 < block.ops.length ∧ ((collectAccessSummaries func graph none
                (ObjectModelBuilder.build none func graph)
                (collectCallSites func graph)).get? inst).isSome ∧
              ∃ fact ∈ result.2.usesByInst.listAt inst,
                result.2.resolve [4096] fact.version ≠ some ⟨fact.location.object, 0⟩) = true := by
    decide +kernel
  obtain ⟨func, build, checked⟩ := (Option.any_eq_true _ _).mp checked
  obtain ⟨graph, run, checked⟩ := (Option.any_eq_true _ _).mp checked
  obtain ⟨⟨model, memory⟩, isResult, checked⟩ := (Option.any_eq_true _ _).mp checked
  obtain ⟨isEntry, checked⟩ := of_decide_eq_true checked
  obtain ⟨block, found, checked⟩ := (Option.any_eq_true _ _).mp checked
  obtain ⟨inst, isInst, checked⟩ := (Option.any_eq_true _ _).mp checked
  obtain ⟨inside, isAccess, fact, mem, other⟩ := of_decide_eq_true checked
  obtain ⟨access, isAccess⟩ := isSome_iff_exists.mp isAccess
  refine ⟨func, graph, 3, model, memory, build, run, isResult, fun reaching => other ?_⟩
  have isPath : (predGraph func).PathTo 4096 [4096] := isEntry ▸ .root
  exact reaching.resolved 4096 [] block 0 inst access isPath found inside ⟨isInst, isAccess⟩ fact mem

end R2Sleigh.Ssa.Semantic
