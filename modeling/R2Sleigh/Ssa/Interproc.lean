import Mathlib.Data.Prod.Lex
import Mathlib.Data.List.Sort
import Mathlib.Data.List.Dedup
import R2Sleigh.Ssa.InterprocSummary
import R2Sleigh.Flow.Scc

/-!
Contract: summaries of functions, and the solver that propagates them along
direct calls.

Owns `resolveSummary`.

Does not own: how a value of the body is classified as an argument, a constant
or a global. The classification of each operand is part of the prepared
function, and the collection of the facts from it is what is modelled here.

Function ids and sites are natural numbers: they are only compared.
-/

namespace R2Sleigh.Ssa

open Lib Flow

/-! ## The order of memory effects -/

/-- The derived order of the variants, then of their fields. -/
def SummaryMemoryEffectKind.rank : SummaryMemoryEffectKind → Nat
  | .read => 0
  | .write => 1
  | .escape => 2
  | .free => 3

def SummaryMemoryRegion.rank : SummaryMemoryRegion → Nat ×ₗ Nat
  | .arg index => toLex (0, index)
  | .global address => toLex (1, address.toNat)
  | .heapReturn => toLex (2, 0)
  | .unknown => toLex (3, 0)

/-- `None` comes before every `Some`. -/
def widthRank : Option Nat → Nat ×ₗ Nat
  | none => toLex (0, 0)
  | some width => toLex (1, width)

def rangeRank : Option SummaryMemoryRange → Nat ×ₗ Int ×ₗ Int ×ₗ Nat ×ₗ Nat
  | none => toLex (0, toLex (0, toLex (0, toLex (0, 0))))
  | some range =>
    toLex (1, toLex (range.offsetLo.toInt, toLex (range.offsetHi.toInt, widthRank range.width)))

def SummaryMemoryEffect.rank (effect : SummaryMemoryEffect) :
    Nat ×ₗ (Nat ×ₗ Nat) ×ₗ Nat ×ₗ Int ×ₗ Int ×ₗ Nat ×ₗ Nat :=
  toLex (effect.kind.rank, toLex (effect.location.region.rank, rangeRank effect.location.range))

theorem SummaryMemoryEffectKind.rank_injective : Function.Injective rank := by
  intro first second same
  cases first <;> cases second <;> simp_all [rank]

theorem SummaryMemoryRegion.rank_injective : Function.Injective rank := by
  intro first second same
  cases first <;> cases second <;> simp_all [rank, BitVec.toNat_inj]

private theorem widthRank_injective : Function.Injective widthRank := by
  intro first second same
  cases first <;> cases second <;> simp_all [widthRank]

private theorem rangeRank_injective : Function.Injective rangeRank := by
  intro first second same
  rcases first with _ | ⟨lo, hi, width⟩ <;> rcases second with _ | ⟨lo', hi', width'⟩
  · rfl
  · simp [rangeRank] at same
  · simp [rangeRank] at same
  · simp only [rangeRank, EmbeddingLike.apply_eq_iff_eq, Prod.mk.injEq, true_and] at same
    obtain ⟨sameLo, sameHi, sameWidth⟩ := same
    rw [BitVec.eq_of_toInt_eq sameLo, BitVec.eq_of_toInt_eq sameHi,
      widthRank_injective sameWidth]

theorem SummaryMemoryEffect.rank_injective : Function.Injective rank := by
  rintro ⟨kind, region, range⟩ ⟨kind', region', range'⟩ same
  simp only [rank, EmbeddingLike.apply_eq_iff_eq, Prod.mk.injEq] at same
  rw [SummaryMemoryEffectKind.rank_injective same.1, SummaryMemoryRegion.rank_injective same.2.1,
    rangeRank_injective same.2.2]

instance : LinearOrder SummaryMemoryEffect :=
  LinearOrder.lift' SummaryMemoryEffect.rank SummaryMemoryEffect.rank_injective

namespace Interproc


section LocalFacts

inductive SummaryOperand where
  | arg (index : Nat)
  | const (value : Word)
  | unknown
deriving DecidableEq

structure CallObservation where
  target : Nat
  args : List SummaryOperand
deriving DecidableEq

inductive SummaryValueObservation where
  | arg (index : Nat)
  | const (value : Word)
  | global (address : Word)
  | call (call : CallObservation)
  | unknown
deriving DecidableEq

/-- What the body of a function says about it. Every call observed, also through
a returned value, has its target among the direct callees. -/
structure LocalSummaryFacts where
  argCountHint : Option Nat
  directCallees : BTreeSet Nat
  callsiteCount : Nat
  hasUnknownCalls : Bool
  argEffects : BTreeMap Nat SummaryArgEffect
  memoryEffects : BTreeSet SummaryMemoryEffect
  returnObservations : List SummaryValueObservation
  callObservations : BTreeMap Nat CallObservation
  calls_direct : ∀ entry ∈ callObservations.entries, entry.2.target ∈ directCallees.keys
  returns_direct : ∀ call, .call call ∈ returnObservations → call.target ∈ directCallees.keys

/-- How a value of the body is classified: as an operand, and where that says
nothing by the call site or the global it may come from. -/
structure ClassifiedValue where
  operand : SummaryOperand
  callSite : Option Nat
  globalAddress : Option Word

/-- A memory access: `read` for the loads, `write` for the stores, both for the
atomic ones. -/
structure MemoryAccess where
  kinds : List SummaryMemoryEffectKind
  operand : SummaryOperand
  location : SummaryMemoryLocation

/-- What the collection reads of one operation. -/
structure PreparedOp where
  sources : List SummaryOperand
  access : Option MemoryAccess
  /-- For a call, its call site if it has one. -/
  call : Option (Option Nat)
  /-- For a write to a return register, the value written. -/
  returnDef : Option ClassifiedValue
  /-- For a return, whether its target is an instruction pointer, and the target. -/
  ret : Option (Bool × ClassifiedValue)

structure PreparedBlock where
  phiSources : List SummaryOperand
  ops : List PreparedOp

structure CallSiteFact where
  directTarget : Option Nat
  /-- The entry of `collect_call_arg_state`, if there is one. -/
  args : Option (List SummaryOperand)

structure Prepared where
  callSites : BTreeMap Nat CallSiteFact
  blocks : List PreparedBlock

namespace LocalSummaryFacts

def start (callsiteCount : Nat) : LocalSummaryFacts where
  argCountHint := some 0
  directCallees := .empty
  callsiteCount := callsiteCount
  hasUnknownCalls := false
  argEffects := .empty
  memoryEffects := .empty
  returnObservations := []
  callObservations := .empty
  calls_direct := by simp [BTreeMap.empty]
  returns_direct := by simp

def addMemoryEffect (facts : LocalSummaryFacts) (location : SummaryMemoryLocation)
    (kind : SummaryMemoryEffectKind) : LocalSummaryFacts :=
  { facts with memoryEffects := facts.memoryEffects.add ⟨kind, location⟩ }

def mergeArgEffect (facts : LocalSummaryFacts) (index : Nat) (effect : SummaryArgEffect) :
    LocalSummaryFacts :=
  { facts with argEffects :=
      facts.argEffects.insert index (((facts.argEffects.get? index).getD {}).mergeFrom effect) }

def recordDirectCall (facts : LocalSummaryFacts) (site target : Nat)
    (args : List SummaryOperand) : LocalSummaryFacts :=
  { facts with
    directCallees := facts.directCallees.add target
    callObservations := facts.callObservations.insert site ⟨target, args⟩
    calls_direct := by
      intro entry mem
      rw [BTreeSet.mem_keys_add]
      rcases BTreeMap.mem_insert mem with rfl | old
      · exact Or.inl rfl
      · exact Or.inr (facts.calls_direct entry old)
    returns_direct := fun call mem =>
      BTreeSet.mem_keys_add.mpr (Or.inr (facts.returns_direct call mem)) }

/-- An argument passed to a call of unknown target is read, written and escapes. -/
def recordEscapedArg (facts : LocalSummaryFacts) : SummaryOperand → LocalSummaryFacts
  | .arg index =>
    [SummaryMemoryEffectKind.read, .write, .escape].foldl
      (addMemoryEffect · (.argLocation index))
      (facts.mergeArgEffect index ⟨true, true, true, false⟩)
  | _ => facts

def recordUnknownCall (facts : LocalSummaryFacts) (args : Option (List SummaryOperand)) :
    LocalSummaryFacts :=
  [SummaryMemoryEffectKind.read, .write].foldl (addMemoryEffect · .unknownLocation)
    ((args.getD []).foldl recordEscapedArg { facts with hasUnknownCalls := true })

def recordCallSite (argLen : Nat) (facts : LocalSummaryFacts) (entry : Nat × CallSiteFact) :
    LocalSummaryFacts :=
  match entry.2.directTarget with
  | some target =>
    facts.recordDirectCall entry.1 target
      (entry.2.args.getD ((List.range argLen).map SummaryOperand.arg))
  | none => facts.recordUnknownCall entry.2.args

def recordArgCountHint (facts : LocalSummaryFacts) : SummaryOperand → LocalSummaryFacts
  | .arg index => { facts with argCountHint := some (max (facts.argCountHint.getD 0) (index + 1)) }
  | _ => facts

def recordAccess (facts : LocalSummaryFacts) (access : MemoryAccess) : LocalSummaryFacts :=
  let throughArg := match access.operand with
    | .arg index =>
      access.kinds.foldl (addMemoryEffect · (.argLocation index))
        (facts.mergeArgEffect index
          ⟨decide (.read ∈ access.kinds), decide (.write ∈ access.kinds), false, false⟩)
    | _ => facts
  access.kinds.foldl (addMemoryEffect · access.location) throughArg

end LocalSummaryFacts

def classifyValueObservation (calls : BTreeMap Nat CallObservation) (value : ClassifiedValue) :
    SummaryValueObservation :=
  match value.operand with
  | .arg index => .arg index
  | .const constant => .const constant
  | .unknown =>
    match value.callSite.bind calls.get? with
    | some call => .call call
    | none =>
      match value.globalAddress with
      | some address => .global address
      | none => .unknown

/-- Walk back over the operations before a return, the nearest first. -/
def recoverReturnObservationFromEpilogue (calls : BTreeMap Nat CallObservation) :
    List PreparedOp → Option SummaryValueObservation
  | [] => none
  | op :: earlier =>
    match op.call with
    | some site => (site.bind calls.get?).map .call
    | none =>
      match op.returnDef with
      | some value => some (classifyValueObservation calls value)
      | none => recoverReturnObservationFromEpilogue calls earlier

def classifyReturnTarget (calls : BTreeMap Nat CallObservation) (earlier : List PreparedOp)
    (instructionPointer : Bool) (target : ClassifiedValue) : SummaryValueObservation :=
  match instructionPointer, recoverReturnObservationFromEpilogue calls earlier with
  | true, some observation => observation
  | _, _ => classifyValueObservation calls target

section

variable {calls : BTreeMap Nat CallObservation} {call : CallObservation}

theorem classifyValueObservation_call
    {value : ClassifiedValue}
    (observed : classifyValueObservation calls value = .call call) :
    ∃ site, calls.get? site = some call := by
  unfold classifyValueObservation at observed
  split at observed
  · cases observed
  · cases observed
  · split at observed
    · rename_i found
      obtain ⟨site, -, lookup⟩ := Option.bind_eq_some_iff.mp found
      cases observed
      exact ⟨site, lookup⟩
    · split at observed <;> cases observed

private theorem recoverReturnObservationFromEpilogue_call
    {earlier : List PreparedOp}
    (observed : recoverReturnObservationFromEpilogue calls earlier = some (.call call)) :
    ∃ site, calls.get? site = some call := by
  induction earlier with
  | nil => cases observed
  | cons op earlier ih =>
    rw [recoverReturnObservationFromEpilogue] at observed
    split at observed
    · obtain ⟨found, lookup, same⟩ := Option.map_eq_some_iff.mp observed
      obtain ⟨site, -, atSite⟩ := Option.bind_eq_some_iff.mp lookup
      cases same
      exact ⟨site, atSite⟩
    · split at observed
      · exact classifyValueObservation_call (Option.some.inj observed)
      · exact ih observed

private theorem classifyReturnTarget_call
    {earlier : List PreparedOp} {instructionPointer : Bool} {target : ClassifiedValue}
    (observed : classifyReturnTarget calls earlier instructionPointer target = .call call) :
    ∃ site, calls.get? site = some call := by
  unfold classifyReturnTarget at observed
  split at observed
  · rename_i found
    exact recoverReturnObservationFromEpilogue_call (observed ▸ found)
  · exact classifyValueObservation_call observed

end

namespace LocalSummaryFacts

def recordReturn (facts : LocalSummaryFacts) (earlier : List PreparedOp)
    (ret : Bool × ClassifiedValue) : LocalSummaryFacts :=
  { facts with
    returnObservations := facts.returnObservations ++
      [classifyReturnTarget facts.callObservations earlier ret.1 ret.2]
    returns_direct := by
      intro call mem
      rcases List.mem_append.mp mem with old | new
      · exact facts.returns_direct call old
      · obtain ⟨site, found⟩ := classifyReturnTarget_call (List.mem_singleton.mp new).symm
        exact facts.calls_direct _ (BTreeMap.mem_of_get? found) }

def recordOp (earlier : List PreparedOp) (facts : LocalSummaryFacts) (op : PreparedOp) :
    LocalSummaryFacts :=
  let hinted := op.sources.foldl recordArgCountHint facts
  match op.ret, op.access with
  | some ret, _ => hinted.recordReturn earlier ret
  | none, some access => hinted.recordAccess access
  | none, none => hinted

/-- The operations in order, with those already passed, the nearest first. -/
def recordOps (facts : LocalSummaryFacts) : List PreparedOp → List PreparedOp → LocalSummaryFacts
  | _, [] => facts
  | earlier, op :: rest => recordOps (recordOp earlier facts op) (op :: earlier) rest

def recordBlock (facts : LocalSummaryFacts) (block : PreparedBlock) : LocalSummaryFacts :=
  recordOps (block.phiSources.foldl recordArgCountHint facts) [] block.ops

end LocalSummaryFacts

def collectLocalSummaryFacts (argLen : Nat) (prepared : Prepared) : LocalSummaryFacts :=
  prepared.blocks.foldl LocalSummaryFacts.recordBlock
    (prepared.callSites.entries.foldl (LocalSummaryFacts.recordCallSite argLen)
      (LocalSummaryFacts.start prepared.callSites.length))

end LocalFacts

section Resolve

abbrev Summaries := BTreeMap Nat FunctionSemanticSummary

abbrev Locals := BTreeMap Nat (Option String × LocalSummaryFacts)

def summarizeMemoryEffectFlags (effects : List SummaryMemoryEffect) : Bool × Bool × Bool :=
  effects.foldl (fun (reads, writes, unknown) effect =>
    match effect.kind, effect.location.region with
    | .read, .global _ => (true, writes, unknown)
    | .write, .global _ | .escape, .global _ | .free, .global _ => (reads, true, unknown)
    | _, .unknown => (reads, writes, true)
    | _, _ => (reads, writes, unknown)) (false, false, false)

def remapMemoryEffect (args : List SummaryOperand) (effect : SummaryMemoryEffect) :
    SummaryMemoryEffect :=
  let location : SummaryMemoryLocation := match effect.location.region with
    | .arg index =>
      match args[index]? with
      | some (.arg callerIndex) => ⟨.arg callerIndex, effect.location.range⟩
      | some (.const value) => ⟨.global value, effect.location.range⟩
      | _ => ⟨.unknown, none⟩
    | other => ⟨other, effect.location.range⟩
  ⟨effect.kind, location⟩

/-- What a returned value says about the caller's own result; `none` where the
whole relation is unknown at once. -/
def observedRelation (current : Summaries) : SummaryValueObservation → Option SummaryReturnRelation
  | .arg index => some (.arg index)
  | .const value => some (.const value)
  | .global address => some (.global address)
  | .unknown => some .unknown
  | .call call =>
    match current.get? call.target with
    | none => none
    | some callee =>
      match callee.returnRelation with
      | .arg index =>
        match call.args[index]? with
        | some (.arg argIndex) => some (.arg argIndex)
        | some (.const value) => some (.const value)
        | _ => some .unknown
      | other => some other

/-- The loop over the observations, with the relation agreed on so far. -/
def returnRelationFrom (current : Summaries) :
    Option SummaryReturnRelation → List SummaryValueObservation → SummaryReturnRelation
  | relation, [] => relation.getD .void
  | relation, observation :: rest =>
    match observedRelation current observation with
    | none => .unknown
    | some next =>
      match relation with
      | none => returnRelationFrom current (some next) rest
      | some agreed =>
        if agreed = next then returnRelationFrom current (some agreed) rest else .unknown

def resolveReturnRelation (observations : List SummaryValueObservation) (current : Summaries) :
    SummaryReturnRelation :=
  returnRelationFrom current none observations

/-- The summary with given effects and return relation, the rest from the local
facts. -/
def summaryWith (id : Nat) (name : Option String) (facts : LocalSummaryFacts)
    (argEffects : BTreeMap Nat SummaryArgEffect) (memoryEffects : BTreeSet SummaryMemoryEffect)
    (returnRelation : SummaryReturnRelation) : FunctionSemanticSummary :=
  let flags := summarizeMemoryEffectFlags memoryEffects.keys
  { id, name, argEffects, returnRelation
    argCountHint := facts.argCountHint
    directCallees := facts.directCallees
    callsiteCount := facts.callsiteCount
    hasUnknownCalls := facts.hasUnknownCalls
    memoryEffects := memoryEffects.keys
    readsGlobalMemory := flags.1
    writesGlobalMemory := flags.2.1
    touchesUnknownMemory := flags.2.2 }

def initialSummary (id : Nat) (name : Option String) (facts : LocalSummaryFacts) :
    FunctionSemanticSummary :=
  summaryWith id name facts facts.argEffects facts.memoryEffects
    (resolveReturnRelation facts.returnObservations .empty)

def mergeCalleeArgs (args : List SummaryOperand) (effects : BTreeMap Nat SummaryArgEffect)
    (callee : FunctionSemanticSummary) : BTreeMap Nat SummaryArgEffect :=
  callee.argEffects.entries.foldl (fun effects (entry : Nat × SummaryArgEffect) =>
    match args[entry.1]? with
    | some (.arg callerIndex) =>
      effects.insert callerIndex (((effects.get? callerIndex).getD {}).mergeFrom entry.2)
    | _ => effects) effects

def mergeCalleeMemory (args : List SummaryOperand) (effects : BTreeSet SummaryMemoryEffect)
    (callee : FunctionSemanticSummary) : BTreeSet SummaryMemoryEffect :=
  callee.memoryEffects.foldl (fun effects effect => effects.add (remapMemoryEffect args effect))
    effects

def mergeCall (current : Summaries)
    (effects : BTreeMap Nat SummaryArgEffect × BTreeSet SummaryMemoryEffect)
    (entry : Nat × CallObservation) :
    BTreeMap Nat SummaryArgEffect × BTreeSet SummaryMemoryEffect :=
  match current.get? entry.2.target with
  | none => effects
  | some callee =>
    (mergeCalleeArgs entry.2.args effects.1 callee, mergeCalleeMemory entry.2.args effects.2 callee)

def resolveSummary (id : Nat) (name : Option String) (facts : LocalSummaryFacts)
    (current : Summaries) : FunctionSemanticSummary :=
  let effects := facts.callObservations.entries.foldl (mergeCall current)
    (facts.argEffects, facts.memoryEffects)
  summaryWith id name facts effects.1 effects.2
    (resolveReturnRelation facts.returnObservations current)

end Resolve

section Solver

def sortIds (ids : List Nat) : List Nat := ids.insertionSort (· ≤ ·)

def calleesIn (locals : Locals) (facts : LocalSummaryFacts) : List Nat :=
  (sortIds (facts.directCallees.keys.filter (· ∈ locals.keys))).dedup

def emptyEdges (locals : Locals) : BTreeMap Nat (List Nat) :=
  locals.keys.foldl (fun edges node => edges.orInsert node []) .empty

/-- Callees and callers of every function. -/
def callEdges (locals : Locals) : BTreeMap Nat (List Nat) × BTreeMap Nat (List Nat) :=
  locals.entries.foldl (fun (succs, rev) entry =>
      let out := calleesIn locals entry.2.2
      (succs.insert entry.1 out, out.foldl (fun rev succ => rev.pushAt succ entry.1) rev))
    (emptyEdges locals, emptyEdges locals)

def computeSummarySccs (locals : Locals) : List (List Nat) :=
  let nodeIds := locals.keys
  let succs := (callEdges locals).1
  let rev := (callEdges locals).2.mapValues fun preds => (sortIds preds).dedup
  let order := postorderFrom succs.listAt (nodeIds.length + 1) nodeIds
  ((components rev.listAt (nodeIds.length + 1) order.reverse []).map sortIds).reverse

/-- One function of a pass over a component. -/
def passStep (locals : Locals) (state : Summaries × Bool) (id : Nat) : Summaries × Bool :=
  match locals.get? id with
  | none => state
  | some (name, facts) =>
    let next := resolveSummary id name facts state.1
    if state.1.get? id = some next then state else (state.1.insert id next, true)

def pass (locals : Locals) (scc : List Nat) (current : Summaries) : Summaries × Bool :=
  scc.foldl (passStep locals) (current, false)

/-- Passes over one component until one changes nothing, with their number and
whether one did. -/
def solveScc (locals : Locals) (scc : List Nat) : Nat → Summaries → Summaries × Nat × Bool
  | 0, current => (current, 0, false)
  | remaining + 1, current =>
    match pass locals scc current with
    | (next, true) =>
      let (final, iterations, converged) := solveScc locals scc remaining next
      (final, iterations + 1, converged)
    | (next, false) => (next, 1, true)

structure InterprocFunctionInput where
  id : Nat
  name : Option String
  prepared : Prepared

structure InterprocSummaryDiagnostics where
  iterations : Nat
  maxIterations : Nat
  converged : Bool
  scopeSize : Nat
  sccCount : Nat
  maxSccSize : Nat

structure InterprocSummarySet where
  root : Option Nat
  summaries : Summaries
  diagnostics : InterprocSummaryDiagnostics

/-- The loop over the components. -/
def solveSccs (locals : Locals) (maxIterations : Nat) (sccs : List (List Nat))
    (start : Summaries) : Summaries × Nat × Bool :=
  sccs.foldl (fun (current, iterations, converged) scc =>
    let (next, more, sccConverged) := solveScc locals scc maxIterations current
    (next, iterations + more, converged && sccConverged)) (start, 0, true)

def collectLocals (argLen : Nat) (functions : List InterprocFunctionInput) : Locals :=
  functions.foldl (fun locals function =>
    locals.insert function.id (function.name, collectLocalSummaryFacts argLen function.prepared))
    .empty

def initialSummaries (argLen : Nat) (functions : List InterprocFunctionInput)
    (seedSummaries : Summaries) : Summaries :=
  functions.foldl (fun current function => current.orInsert function.id
    (initialSummary function.id function.name (collectLocalSummaryFacts argLen function.prepared)))
    seedSummaries

/-- `argLen` is the number of argument slots of the ABI profile. -/
def solveInterprocSummarySet (functions : List InterprocFunctionInput) (argLen : Nat)
    (root : Option Nat) (seedSummaries : Summaries) (maxIterations : Nat) : InterprocSummarySet :=
  let locals := collectLocals argLen functions
  let sccs := computeSummarySccs locals
  let maxIterations := max maxIterations 1
  let (summaries, iterations, converged) := solveSccs locals maxIterations sccs
    (initialSummaries argLen functions seedSummaries)
  { root, summaries
    diagnostics :=
      { iterations, maxIterations, converged
        scopeSize := functions.length
        sccCount := sccs.length
        maxSccSize := sccs.foldl (fun size scc => max size scc.length) 0 } }

end Solver

end Interproc

end R2Sleigh.Ssa
