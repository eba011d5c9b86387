import R2Sleigh.Ssa.Var
import R2Sleigh.Types.Below

/-!
Contract: the type solver.
-/

namespace R2Sleigh.Types

open Lib Ssa

namespace TypeLattice

/-- `join` with the fuel its ids need. -/
def joinTypes (arena : TypeArena) (a b : TypeId) : TypeArena × TypeId :=
  (join (max a b + 1) arena a b).getD (arena, arena.top)

/-- `meet` with the fuel its ids need. -/
def meetTypes (arena : TypeArena) (a b : TypeId) : TypeArena × TypeId :=
  (meet (max a b + 1) arena a b).getD (arena, arena.bottom)

end TypeLattice

/-! ## Constraints -/

inductive ConstraintSource where
  | inferred
  | signatureRegistry
  | external
deriving DecidableEq, Repr

def ConstraintSource.priority : ConstraintSource → Nat
  | .inferred => 1
  | .signatureRegistry => 2
  | .external => 3

inductive MemoryCapability where
  | load
  | store
deriving DecidableEq, Repr

inductive Constraint where
  | setType (var : SSAVar) (ty : TypeId) (source : ConstraintSource)
  | equal (a b : SSAVar) (source : ConstraintSource)
  | subtype (var : SSAVar) (ty : TypeId) (source : ConstraintSource)
  | hasCapability (ptr : SSAVar) (capability : MemoryCapability) (elemTy : TypeId)
      (source : ConstraintSource)
  | callSig (target : SSAVar) (args : List SSAVar) (params : List TypeId)
      (ret : Option (SSAVar × TypeId)) (source : ConstraintSource)
  | fieldAccess (basePtr : SSAVar) (offset : Nat) (fieldTy : TypeId) (fieldName : Option String)
      (source : ConstraintSource)
deriving DecidableEq

abbrev VarId := Nat

abbrev ConstraintIdx := Nat

inductive RawConstraint where
  | setType (var : VarId) (ty : TypeId) (source : ConstraintSource)
  | equal (a b : VarId) (source : ConstraintSource)
  | subtype (var : VarId) (ty : TypeId) (source : ConstraintSource)
  | hasCapability (ptr : VarId) (elemTy : TypeId) (source : ConstraintSource)
  | callSig (target : VarId) (args : List VarId) (params : List TypeId)
      (ret : Option (VarId × TypeId)) (source : ConstraintSource)
  | fieldAccess (basePtr : VarId) (offset : Nat) (fieldTy : TypeId) (fieldName : Option String)
      (source : ConstraintSource)

inductive CompactConstraint where
  | setType (var : VarId) (ty : TypeId) (source : ConstraintSource)
  | subtype (var : VarId) (ty : TypeId) (source : ConstraintSource)
  | hasCapability (ptr : VarId) (elemTy : TypeId) (source : ConstraintSource)
  | callSig (target : VarId) (args : List VarId) (params : List TypeId)
      (ret : Option (VarId × TypeId)) (source : ConstraintSource)
  | fieldAccess (basePtr : VarId) (offset : Nat) (fieldTy : TypeId) (fieldName : Option String)
      (source : ConstraintSource)

namespace CompactConstraint

def source : CompactConstraint → ConstraintSource
  | .setType _ _ source => source
  | .subtype _ _ source => source
  | .hasCapability _ _ source => source
  | .callSig _ _ _ _ source => source
  | .fieldAccess _ _ _ _ source => source

/-- The variables of a constraint, sorted and once each. -/
def referencedVars : CompactConstraint → List VarId
  | .setType var _ _ => [var]
  | .subtype var _ _ => [var]
  | .hasCapability ptr _ _ => [ptr]
  | .fieldAccess basePtr _ _ _ _ => [basePtr]
  | .callSig target args _ ret _ =>
    let out := target :: args ++ (ret.map Prod.fst).toList
    (out.mergeSort (· ≤ ·)).dedup

end CompactConstraint

/-! ## Variables and their classes -/

structure VarInterner where
  ids : HashMap SSAVar VarId
  vars : List SSAVar

namespace VarInterner

def default : VarInterner := ⟨∅, []⟩

def intern (interner : VarInterner) (var : SSAVar) : VarInterner × VarId :=
  match interner.ids.lookup var with
  | some id => (interner, id)
  | none =>
    let id := interner.vars.length
    (⟨interner.ids.insert var id, interner.vars ++ [var]⟩, id)

def internAll (interner : VarInterner) : List SSAVar → VarInterner × List VarId
  | [] => (interner, [])
  | var :: rest =>
    let (interner, id) := interner.intern var
    let (interner, ids) := interner.internAll rest
    (interner, id :: ids)

def internConstraint (interner : VarInterner) : Constraint → VarInterner × RawConstraint
  | .setType var ty source =>
    let (interner, var) := interner.intern var
    (interner, .setType var ty source)
  | .equal a b source =>
    let (interner, a) := interner.intern a
    let (interner, b) := interner.intern b
    (interner, .equal a b source)
  | .subtype var ty source =>
    let (interner, var) := interner.intern var
    (interner, .subtype var ty source)
  | .hasCapability ptr _ elemTy source =>
    let (interner, ptr) := interner.intern ptr
    (interner, .hasCapability ptr elemTy source)
  | .callSig target args params ret source =>
    let (interner, target) := interner.intern target
    let (interner, args) := interner.internAll args
    match ret with
    | none => (interner, .callSig target args params none source)
    | some (var, ty) =>
      let (interner, var) := interner.intern var
      (interner, .callSig target args params (some (var, ty)) source)
  | .fieldAccess basePtr offset fieldTy fieldName source =>
    let (interner, basePtr) := interner.intern basePtr
    (interner, .fieldAccess basePtr offset fieldTy fieldName source)

def internConstraints (interner : VarInterner) :
    List Constraint → VarInterner × List RawConstraint
  | [] => (interner, [])
  | constraint :: rest =>
    let (interner, raw) := interner.internConstraint constraint
    let (interner, raws) := interner.internConstraints rest
    (interner, raw :: raws)

end VarInterner

structure VarDsu where
  parent : List VarId
  rank : List Nat

namespace VarDsu

def new (size : Nat) : VarDsu := ⟨List.range size, List.replicate size 0⟩

def parentOf (dsu : VarDsu) (v : VarId) : VarId := dsu.parent.getD v v

def rankOf (dsu : VarDsu) (v : VarId) : Nat := dsu.rank.getD v 0

/-- The climb to the root, which is shorter than the number of variables. -/
def findIn : Nat → VarDsu → VarId → VarDsu × VarId
  | 0, dsu, v => (dsu, v)
  | fuel + 1, dsu, v =>
    let parent := dsu.parentOf v
    if parent = v then (dsu, v)
    else
      let (dsu, root) := findIn fuel dsu parent
      ({ dsu with parent := dsu.parent.set v root }, root)

def find (dsu : VarDsu) (v : VarId) : VarDsu × VarId := findIn dsu.parent.length dsu v

def union (dsu : VarDsu) (a b : VarId) : VarDsu :=
  let (dsu, ra) := dsu.find a
  let (dsu, rb) := dsu.find b
  if ra = rb then dsu
  else
    let (ra, rb) := if dsu.rankOf ra < dsu.rankOf rb then (rb, ra) else (ra, rb)
    let parent := dsu.parent.set rb ra
    -- The rank is a `u16` that saturates.
    let rank := if dsu.rankOf ra = dsu.rankOf rb then
      dsu.rank.set ra (min (dsu.rankOf ra + 1) (2 ^ 16 - 1)) else dsu.rank
    ⟨parent, rank⟩

def findAll (dsu : VarDsu) : List VarId → VarDsu × List VarId
  | [] => (dsu, [])
  | v :: rest =>
    let (dsu, root) := dsu.find v
    let (dsu, roots) := dsu.findAll rest
    (dsu, root :: roots)

/-- A constraint over representatives; an equality is dropped. -/
def compact (dsu : VarDsu) : RawConstraint → VarDsu × Option CompactConstraint
  | .equal _ _ _ => (dsu, none)
  | .setType var ty source =>
    let (dsu, var) := dsu.find var
    (dsu, some (.setType var ty source))
  | .subtype var ty source =>
    let (dsu, var) := dsu.find var
    (dsu, some (.subtype var ty source))
  | .hasCapability ptr elemTy source =>
    let (dsu, ptr) := dsu.find ptr
    (dsu, some (.hasCapability ptr elemTy source))
  | .callSig target args params ret source =>
    let (dsu, target) := dsu.find target
    let (dsu, args) := dsu.findAll args
    match ret with
    | none => (dsu, some (.callSig target args params none source))
    | some (var, ty) =>
      let (dsu, var) := dsu.find var
      (dsu, some (.callSig target args params (some (var, ty)) source))
  | .fieldAccess basePtr offset fieldTy fieldName source =>
    let (dsu, basePtr) := dsu.find basePtr
    (dsu, some (.fieldAccess basePtr offset fieldTy fieldName source))

def compactAll (dsu : VarDsu) : List RawConstraint → List CompactConstraint
  | [] => []
  | raw :: rest =>
    let (dsu, compacted) := dsu.compact raw
    compacted.toList ++ dsu.compactAll rest

end VarDsu

structure RewrittenConstraints where
  constraints : List CompactConstraint
  classMembers : List (List VarId)
  vars : List SSAVar

def rewriteEqualConstraints (constraints : List Constraint) : RewrittenConstraints :=
  let (interner, raw) := VarInterner.default.internConstraints constraints
  let varCount := interner.vars.length
  let dsu := raw.foldl (fun dsu constraint =>
    match constraint with
    | .equal a b _ => dsu.union a b
    | _ => dsu) (VarDsu.new varCount)
  let (dsu, classMembers) := (List.range varCount).foldl (fun (dsu, members) id =>
    let (dsu, rep) := VarDsu.find dsu id
    (dsu, members.modify rep (· ++ [id]))) (dsu, List.replicate varCount [])
  ⟨dsu.compactAll raw, classMembers, interner.vars⟩

def buildAdjacency (varCount : Nat) (constraints : List CompactConstraint) :
    List (List ConstraintIdx) :=
  constraints.zipIdx.foldl (fun adjacency entry =>
    entry.1.referencedVars.foldl (fun adjacency var => adjacency.modify var (· ++ [entry.2]))
      adjacency) (List.replicate varCount [])

/-! ## The solver state -/

/-- What a conflict message is made of. -/
structure Conflict where
  var : SSAVar
  priority : Nat
deriving DecidableEq

def Conflict.message (toUppercase : String → String) (conflict : Conflict) : String :=
  displayName toUppercase conflict.var ++ " overridden by higher-priority source (" ++
    toString conflict.priority ++ ")"

structure SolverDiagnostics where
  warnings : List String
  conflicts : List Conflict
  iterations : Nat
  converged : Bool
  rewrittenConstraints : Nat
  varCount : Nat
  constraintsProcessed : Nat
  queuePushes : Nat
  queuePops : Nat

def SolverDiagnostics.default : SolverDiagnostics := ⟨[], [], 0, false, 0, 0, 0, 0, 0⟩

structure SolvedTypes where
  arena : TypeArena
  varTypes : HashMap SSAVar TypeId
  diagnostics : SolverDiagnostics
  topId : TypeId

structure Assignment where
  ty : TypeId
  priority : Nat
deriving DecidableEq

structure SolverState where
  arena : TypeArena
  assignments : List (Option Assignment)
  vars : List SSAVar
  diagnostics : SolverDiagnostics
  joinCache : HashMap (TypeId × TypeId) TypeId
  meetCache : HashMap (TypeId × TypeId) TypeId
  changedVars : List VarId

def normalizePair (a b : TypeId) : TypeId × TypeId := if a ≤ b then (a, b) else (b, a)

def markChanged (changedVars : List VarId) (var : VarId) : List VarId :=
  if var ∈ changedVars then changedVars else changedVars ++ [var]

/-- The structure a type is, or points to. -/
def structOf (arena : TypeArena) (ty : TypeId) : Option TypeId :=
  match arena.get ty with
  | .ptr inner =>
    match arena.get inner with
    | .struct _ => some inner
    | _ => none
  | .struct _ => some ty
  | _ => none

def fieldAccessIsNoop (arena : TypeArena) (ty : TypeId) (offset : Nat) (fieldTy : TypeId)
    (fieldName : Option String) : Bool :=
  match structOf arena ty with
  | none => false
  | some structTy =>
    match arena.get structTy with
    | .struct shape =>
      match shape.fields.get? offset with
      | none => false
      | some field => if field.ty ≠ fieldTy then false else field.name.isSome || fieldName.isNone
    | _ => false

namespace SolverState

def new (arena : TypeArena) (vars : List SSAVar) : SolverState :=
  ⟨arena, List.replicate vars.length none, vars, .default, ∅, ∅, []⟩

def assignment (state : SolverState) (var : VarId) : Option Assignment :=
  state.assignments.getD var none

def joinCached (state : SolverState) (a b : TypeId) : SolverState × TypeId :=
  let key := normalizePair a b
  match state.joinCache.lookup key with
  | some ty => (state, ty)
  | none =>
    let (arena, ty) := TypeLattice.joinTypes state.arena a b
    ({ state with arena, joinCache := state.joinCache.insert key ty }, ty)

def meetCached (state : SolverState) (a b : TypeId) : SolverState × TypeId :=
  let key := normalizePair a b
  match state.meetCache.lookup key with
  | some ty => (state, ty)
  | none =>
    let (arena, ty) := TypeLattice.meetTypes state.arena a b
    ({ state with arena, meetCache := state.meetCache.insert key ty }, ty)

/-- Write an assignment and mark its variable. -/
def setAssignment (state : SolverState) (var : VarId) (assignment : Assignment) : SolverState :=
  { state with
    assignments := state.assignments.set var (some assignment)
    changedVars := markChanged state.changedVars var }

def noteConflict (state : SolverState) (var : VarId) (priority : Nat) : SolverState :=
  { state with diagnostics := { state.diagnostics with
      conflicts := state.diagnostics.conflicts ++
        (state.vars[var]?.map (Conflict.mk · priority)).toList } }

def assign (state : SolverState) (var : VarId) (ty : TypeId) (priority : Nat) :
    SolverState × Bool :=
  match state.assignment var with
  | none => (state.setAssignment var ⟨ty, priority⟩, true)
  | some existing =>
    if existing.priority < priority then
      let state := if existing.ty ≠ ty then state.noteConflict var priority else state
      (state.setAssignment var ⟨ty, priority⟩, true)
    else if priority < existing.priority then (state, false)
    else if existing.ty = ty then (state, false)
    else
      let (state, joined) := state.joinCached existing.ty ty
      if joined ≠ existing.ty then (state.setAssignment var ⟨joined, priority⟩, true)
      else (state, false)

/-- The arguments assigned in turn. -/
def assignAll (state : SolverState) (priority : Nat) :
    List (VarId × TypeId) → SolverState × Bool
  | [] => (state, false)
  | (var, ty) :: rest =>
    let (state, changed) := state.assign var ty priority
    let (state, others) := state.assignAll priority rest
    (state, changed || others)

def withArena (state : SolverState) (result : TypeArena × TypeId) : SolverState × TypeId :=
  ({ state with arena := result.1 }, result.2)

def accessIsNoop (state : SolverState) (basePtr : VarId) (offset : Nat) (fieldTy : TypeId)
    (fieldName : Option String) : Bool :=
  match state.assignment basePtr with
  | some existing => fieldAccessIsNoop state.arena existing.ty offset fieldTy fieldName
  | none => false

/-- The structure a pointer is assigned, or a new one. -/
def accessedStruct (state : SolverState) (basePtr : VarId) : SolverState × TypeId :=
  match (state.assignment basePtr).bind fun assignment => structOf state.arena assignment.ty with
  | some structTy => (state, structTy)
  | none => state.withArena state.arena.structAnon

def fieldPointer (state : SolverState) (basePtr : VarId) (offset : Nat) (fieldTy : TypeId)
    (fieldName : Option String) : SolverState × TypeId :=
  let (state, structTy) := state.accessedStruct basePtr
  let (state, structTy) :=
    state.withArena (state.arena.structWithField structTy offset fieldName fieldTy)
  state.withArena (state.arena.ptr structTy)

def assignPointer (state : SolverState) (basePtr : VarId) (ptrTy : TypeId) (sourcePriority : Nat) :
    SolverState × Bool :=
  match state.assignment basePtr with
  | some existing =>
    if existing.priority = sourcePriority then
      if existing.ty ≠ ptrTy then
        (state.setAssignment basePtr ⟨ptrTy, existing.priority⟩, true)
      else (state, false)
    else state.assign basePtr ptrTy sourcePriority
  | none => state.assign basePtr ptrTy sourcePriority

def applyFieldAccess (state : SolverState) (basePtr : VarId) (offset : Nat) (fieldTy : TypeId)
    (fieldName : Option String) (sourcePriority : Nat) : SolverState × Bool :=
  if state.accessIsNoop basePtr offset fieldTy fieldName then (state, false)
  else
    let (state, ptrTy) := state.fieldPointer basePtr offset fieldTy fieldName
    state.assignPointer basePtr ptrTy sourcePriority

def applySubtype (state : SolverState) (var : VarId) (ty : TypeId) (sourcePriority : Nat) :
    SolverState × Bool :=
  match state.assignment var with
  | some existing =>
    let (state, tightened) := state.meetCached existing.ty ty
    state.assign var tightened (max sourcePriority existing.priority)
  | none => state.assign var ty sourcePriority

def applyConstraint (state : SolverState) (constraint : CompactConstraint) : SolverState × Bool :=
  let sourcePriority := constraint.source.priority
  match constraint with
  | .setType var ty _ => state.assign var ty sourcePriority
  | .subtype var ty _ => state.applySubtype var ty sourcePriority
  | .hasCapability ptr elemTy _ =>
    let (state, ptrTy) := state.withArena (state.arena.ptr elemTy)
    state.assign ptr ptrTy sourcePriority
  | .fieldAccess basePtr offset fieldTy fieldName _ =>
    state.applyFieldAccess basePtr offset fieldTy fieldName sourcePriority
  | .callSig _ args params ret _ =>
    state.assignAll sourcePriority (args.zip params ++ ret.toList)

end SolverState

/-! ## The solvers -/

structure Worklist where
  state : SolverState
  queue : List ConstraintIdx
  inQueue : List Bool

namespace Worklist

def push (work : Worklist) (dep : ConstraintIdx) : Worklist :=
  if work.inQueue.getD dep true then work
  else
    { state := { work.state with diagnostics := { work.state.diagnostics with
        queuePushes := work.state.diagnostics.queuePushes + 1 } }
      queue := work.queue ++ [dep]
      inQueue := work.inQueue.set dep true }

/-- Take the first constraint of the queue, apply it and queue what it makes
dirty. -/
def pop (constraints : List CompactConstraint) (adjacency : List (List ConstraintIdx))
    (work : Worklist) : Worklist :=
  match work.queue with
  | [] => work
  | index :: queue =>
    let diagnostics := { work.state.diagnostics with
      queuePops := work.state.diagnostics.queuePops + 1
      constraintsProcessed := work.state.diagnostics.constraintsProcessed + 1 }
    let state := { work.state with diagnostics, changedVars := [] }
    let state := match constraints[index]? with
      | some constraint => (state.applyConstraint constraint).1
      | none => state
    let work : Worklist := ⟨state, queue, work.inQueue.set index false⟩
    state.changedVars.foldl (fun work var => (adjacency.getD var []).foldl push work) work

/-- One wave: as many pops as the queue was long. -/
def wave (constraints : List CompactConstraint) (adjacency : List (List ConstraintIdx))
    (work : Worklist) : Worklist :=
  let state := { work.state with diagnostics := { work.state.diagnostics with
    iterations := work.state.diagnostics.iterations + 1 } }
  (pop constraints adjacency)^[work.queue.length] { work with state }

def waves (constraints : List CompactConstraint) (adjacency : List (List ConstraintIdx)) :
    Nat → Worklist → Worklist
  | 0, work => work
  | remaining + 1, work =>
    if work.queue = [] then work
    else waves constraints adjacency remaining (work.wave constraints adjacency)

end Worklist

def SolverDiagnostics.conclude (diagnostics : SolverDiagnostics) (converged : Bool)
    (maxIterations : Nat) : SolverDiagnostics :=
  { diagnostics with
    converged
    warnings := if converged then diagnostics.warnings
      else diagnostics.warnings ++
        ["type solver reached iteration cap (" ++ toString maxIterations ++ ")"] }

/-- Give every member of a class the type of its representative. -/
def materializeSolution (state : SolverState) (classMembers : List (List VarId)) : SolvedTypes :=
  let varTypes := state.assignments.zipIdx.foldl (fun varTypes entry =>
    match entry.1 with
    | none => varTypes
    | some assignment =>
      let members := classMembers.getD entry.2 []
      let members := if members = [] then [entry.2] else members
      members.foldl (fun varTypes mem =>
        match state.vars[mem]? with
        | some var => varTypes.insert var assignment.ty
        | none => varTypes) varTypes) ∅
  ⟨state.arena, varTypes, state.diagnostics, state.arena.top⟩

def startState (arena : TypeArena) (rewritten : RewrittenConstraints) : SolverState :=
  let state := SolverState.new arena rewritten.vars
  { state with diagnostics := { state.diagnostics with
      rewrittenConstraints := rewritten.constraints.length
      varCount := rewritten.vars.length } }

def solveWorklist (arena : TypeArena) (constraints : List Constraint) (maxIterations : Nat) :
    SolvedTypes :=
  let rewritten := rewriteEqualConstraints constraints
  let adjacency := buildAdjacency rewritten.vars.length rewritten.constraints
  let constraintCount := rewritten.constraints.length
  let state := startState arena rewritten
  let state := { state with diagnostics := { state.diagnostics with
    queuePushes := constraintCount } }
  let work := Worklist.waves rewritten.constraints adjacency maxIterations
    ⟨state, List.range constraintCount, List.replicate constraintCount true⟩
  let diagnostics := work.state.diagnostics.conclude (work.queue = []) maxIterations
  materializeSolution { work.state with diagnostics } rewritten.classMembers

end R2Sleigh.Types
