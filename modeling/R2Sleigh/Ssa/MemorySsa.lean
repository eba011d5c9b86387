import Mathlib.Data.Prod.Lex
import R2Sleigh.Lib.Merging
import R2Sleigh.Ssa.MemoryObjects

/-!
Contract: the versions of the memory objects of a function.

Owns `buildMemorySsa` and `collectObjectAndMemoryFacts`.

Versions are natural numbers; the counters of the source saturate at 32 bits. The
number of rounds is not bounded in the source; here they are counted by fuel.
-/

namespace R2Sleigh.Ssa.Semantic

open Il Lib
open Ssa.Family (DecompilePrepFacts)

structure MemoryVersion where
  object : ObjectId
  version : Nat
deriving DecidableEq, Repr

structure MemoryUseFact where
  location : MemoryLocation
  version : MemoryVersion
deriving DecidableEq, Repr

structure MemoryDefFact where
  location : MemoryLocation
  previousVersion : MemoryVersion
  nextVersion : MemoryVersion
deriving DecidableEq, Repr

structure MemoryPhiFact where
  object : ObjectId
  outputVersion : MemoryVersion
  inputs : List (Nat × MemoryVersion)
deriving DecidableEq, Repr

structure MemorySSAFacts where
  usesByInst : BTreeMap InstId (List MemoryUseFact)
  defsByInst : BTreeMap InstId (List MemoryDefFact)
  phisByBlock : BTreeMap Nat (List MemoryPhiFact)

/-- The version of each object that has one other than zero. -/
abbrev ObjectVersions := BTreeMap ObjectId MemoryVersion

def versionOf (state : ObjectVersions) (object : ObjectId) : MemoryVersion :=
  (state.get? object).getD ⟨object, 0⟩

/-! ## Versions of definitions -/

abbrev NextVersions := BTreeMap ObjectId Nat

/-- A version not given before. -/
def takeVersion (next : NextVersions) (object : ObjectId) : MemoryVersion × NextVersions :=
  let version := (next.get? object).getD 1
  (⟨object, version⟩, next.insert object (version + 1))

def takeVersions (next : NextVersions) : List MemoryLocation → List MemoryVersion × NextVersions
  | [] => ([], next)
  | location :: rest =>
    let (version, next) := takeVersion next location.object
    let (versions, next) := takeVersions next rest
    (version :: versions, next)

/-- The versions that the definitions of each instruction make. -/
def numberDefs (summaries : BTreeMap InstId AccessSummary) (next : NextVersions) :
    BTreeMap InstId (List MemoryVersion) × NextVersions :=
  summaries.entries.foldl (fun acc entry =>
    if entry.2.defs.isEmpty then acc
    else
      let (versions, next) := takeVersions acc.2 entry.2.defs
      (acc.1.insert entry.1 versions, next)) (.empty, next)

/-! ## Rounds -/

abbrev PhiKey := Nat ×ₗ ObjectId

/-- What the rounds carry along. -/
structure FlowState where
  next : NextVersions
  inStates : BTreeMap Nat ObjectVersions
  outStates : BTreeMap Nat ObjectVersions
  phiVersions : BTreeMap PhiKey MemoryVersion
  phiInputs : BTreeMap PhiKey (List (Nat × MemoryVersion))

structure RoundFacts where
  usesByInst : BTreeMap InstId (List MemoryUseFact)
  defsByInst : BTreeMap InstId (List MemoryDefFact)

/-- What the functions read and do not change. -/
structure FlowContext where
  func : SSAFunction
  graph : SsaGraph
  objectIds : List ObjectId
  summaries : BTreeMap InstId AccessSummary
  defVersions : BTreeMap InstId (List MemoryVersion)

def phiKey (addr : Nat) (object : ObjectId) : PhiKey := toLex (addr, object)

/-- The versions at the ends of the predecessors. -/
def FlowState.inputs (flow : FlowState) (preds : List Nat) (object : ObjectId) :
    List (Nat × MemoryVersion) :=
  preds.map fun pred => (pred, versionOf ((flow.outStates.get? pred).getD .empty) object)

/-- One object at the start of a block: the common version, or that of a phi. -/
def mergeObject (addr : Nat) (preds : List Nat) (acc : FlowState × ObjectVersions)
    (object : ObjectId) : FlowState × ObjectVersions :=
  let (flow, inState) := acc
  let inputs := flow.inputs preds object
  match inputs with
  | [] => acc
  | first :: _ =>
    let (merged, flow) :=
      if inputs.all fun input => input.2 = first.2 then (first.2, flow)
      else
        let flow := { flow with phiInputs := flow.phiInputs.insert (phiKey addr object) inputs }
        match flow.phiVersions.get? (phiKey addr object) with
        | some phi => (phi, flow)
        | none =>
          let (version, next) := takeVersion flow.next object
          (version, { flow with
            next := next
            phiVersions := flow.phiVersions.insert (phiKey addr object) version })
    (flow, if merged.version = 0 then inState else inState.insert object merged)

/-- The definitions of an instruction, one after the other. -/
def defineAll (inst : InstId) (acc : ObjectVersions × RoundFacts)
    (entry : MemoryLocation × MemoryVersion) : ObjectVersions × RoundFacts :=
  let (state, facts) := acc
  let fact : MemoryDefFact := ⟨entry.1, versionOf state entry.1.object, entry.2⟩
  (state.insert entry.1.object entry.2,
    { facts with defsByInst := facts.defsByInst.pushAt inst fact })

def flowOp (context : FlowContext) (addr : Nat) (acc : ObjectVersions × RoundFacts)
    (entry : SSAOp × Nat) : ObjectVersions × RoundFacts :=
  let (state, facts) := acc
  let found := do
    let inst ← context.graph.opInstBySite.lookup (addr, entry.2)
    let access ← context.summaries.get? inst
    some (inst, access)
  match found with
  | none => acc
  | some (inst, access) =>
    let facts := { facts with usesByInst := access.uses.foldl (fun uses location =>
      uses.pushAt inst ⟨location, versionOf state location.object⟩) facts.usesByInst }
    match context.defVersions.get? inst with
    | none => (state, facts)
    | some versions => (access.defs.zip versions).foldl (defineAll inst) (state, facts)

structure RoundState where
  flow : FlowState
  facts : RoundFacts
  changed : Bool

def flowBlock (context : FlowContext) (state : RoundState) (addr : Nat) : RoundState :=
  let preds := context.func.cfg.predecessors addr
  let (flow, inState) := context.objectIds.foldl (mergeObject addr preds) (state.flow, .empty)
  let inChanged := flow.inStates.get? addr ≠ some inState
  let flow :=
    if inChanged then { flow with inStates := flow.inStates.insert addr inState } else flow
  match context.func.getBlock addr with
  | none => ⟨flow, state.facts, state.changed || inChanged⟩
  | some block =>
    let (outState, facts) := block.ops.zipIdx.foldl (flowOp context addr) (inState, state.facts)
    let outChanged := flow.outStates.get? addr ≠ some outState
    let flow :=
      if outChanged then { flow with outStates := flow.outStates.insert addr outState }
      else flow
    ⟨flow, facts, state.changed || inChanged || outChanged⟩

def flowRound (context : FlowContext) (flow : FlowState) : RoundState :=
  context.func.blockOrder.foldl (flowBlock context) ⟨flow, ⟨.empty, .empty⟩, false⟩

/-- Rounds until one changes nothing. -/
def flowLoop (context : FlowContext) : Nat → FlowState → Option RoundState
  | 0, _ => none
  | fuel + 1, flow =>
    let after := flowRound context flow
    if after.changed then flowLoop context fuel after.flow else some after

/-! ## The facts -/

/-- The phis with the inputs they were last given. -/
def collectPhis (flow : FlowState) : BTreeMap Nat (List MemoryPhiFact) :=
  flow.phiVersions.entries.foldl (fun phis entry =>
    phis.pushAt (ofLex entry.1).1
      ⟨(ofLex entry.1).2, entry.2, flow.phiInputs.listAt entry.1⟩) .empty

def initialNext (objectIds : List ObjectId) : NextVersions :=
  objectIds.foldl (fun next object => next.insert object 1) .empty

def buildMemorySsa (func : SSAFunction) (graph : SsaGraph) (model : ObjectModel)
    (summaries : BTreeMap InstId AccessSummary) (fuel : Nat) : Option MemorySSAFacts :=
  let (defVersions, next) := numberDefs summaries (initialNext model.objects.keys)
  let context : FlowContext := ⟨func, graph, model.objects.keys, summaries, defVersions⟩
  (flowLoop context fuel ⟨next, .empty, .empty, .empty, .empty⟩).map fun state =>
    ⟨state.facts.usesByInst, state.facts.defsByInst, collectPhis state.flow⟩

def collectObjectAndMemoryFacts (func : SSAFunction) (facts : Option DecompilePrepFacts)
    (graph : SsaGraph) (callSites : CallSiteFacts) (fuel : Nat) :
    Option (ObjectModel × MemorySSAFacts) :=
  let model := ObjectModelBuilder.build facts func graph
  let summaries := collectAccessSummaries func graph facts model callSites
  (buildMemorySsa func graph model summaries fuel).map fun memory => (model, memory)

end R2Sleigh.Ssa.Semantic
