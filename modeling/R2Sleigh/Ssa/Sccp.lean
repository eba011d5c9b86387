import R2Sleigh.Ssa.ConstEval
import R2Sleigh.Ssa.Function

/-!
Contract: sparse conditional constant propagation as the source runs it.

Owns `step`, `runSccp` and `sccp`.

The nested loops of the source drain the edge worklist and then the variable
worklist until both are empty. `draining` marks the second inner loop, which
goes on while variables are left although edges may have been added. Each pop
fixes the evaluations of its loop body; `agenda` holds those still to do, so
that every step evaluates once.
-/

namespace R2Sleigh.Ssa

open Il Flow Lib

inductive LatticeValue where
  | Top
  | Const (value : Word)
  | Bottom
deriving DecidableEq, Repr

def LatticeValue.meet : LatticeValue → LatticeValue → LatticeValue
  | .Top, x => x
  | x, .Top => x
  | .Bottom, _ => .Bottom
  | _, .Bottom => .Bottom
  | .Const a, .Const b => if a = b then .Const a else .Bottom

abbrev Lattice := HashMap VarKey LatticeValue

inductive UseLocation where
  | Phi (blockAddr phiIdx : Nat)
  | Op (blockAddr opIdx : Nat)
deriving DecidableEq, Repr

namespace SSABlock

/-- Sources of the phis, then of the operations, each with the index of its
phi or operation. -/
def useSites (block : SSABlock) : List (SSAVar × UseLocation) :=
  (block.phis.zipIdx.flatMap fun entry =>
    entry.1.sources.map fun source => (source.2, .Phi block.addr entry.2)) ++
  block.ops.zipIdx.flatMap fun entry =>
    entry.1.sources.map fun source => (source, .Op block.addr entry.2)

/-- Every variable of the block: definitions, then sources. -/
def occurrences (block : SSABlock) : List SSAVar := block.dsts ++ block.useSites.map Prod.fst

end SSABlock

namespace SSAFunction

def getBlock (func : SSAFunction) (addr : Nat) : Option SSABlock := func.blocks.lookup addr

/-- The blocks in reverse postorder. -/
def blockList (func : SSAFunction) : List SSABlock := func.blockOrder.filterMap func.getBlock

def successors (func : SSAFunction) (addr : Nat) : List Nat := func.cfg.successors addr

end SSAFunction

def buildUseMap (func : SSAFunction) : HashMap VarKey (List UseLocation) :=
  func.blockList.foldl (fun uses block => block.useSites.foldl
    (fun uses site => uses.pushAt (.fromVar site.1) site.2) uses) ∅

/-! ## Evaluation -/

def latticeAt (lattice : Lattice) (key : VarKey) : LatticeValue := (lattice.lookup key).getD .Top

def getLatticeValue (var : SSAVar) (lattice : Lattice) : LatticeValue :=
  match constValue var with
  | some value => .Const value
  | none => latticeAt lattice (.fromVar var)

def initIfInput (lattice : Lattice) (var : SSAVar) : Lattice :=
  if var.version = 0 ∧ ¬ var.isConst then
    match lattice.lookup (.fromVar var) with
    | some _ => lattice
    | none => lattice.insert (.fromVar var) .Bottom
  else lattice

/-- The lowered lattice, if the value changes. -/
def updateLattice (lattice : Lattice) (var : SSAVar) (newVal : LatticeValue) : Option Lattice :=
  let oldVal := latticeAt lattice (.fromVar var)
  let merged := oldVal.meet newVal
  if merged = oldVal then none else some (lattice.insert (.fromVar var) merged)

/-- Operations whose result is never constant. -/
def isOpaque : SSAOp → Bool
  | .Load .. | .Store .. | .Call .. | .CallInd .. | .CallOther .. | .CpuId .. | .New .. => true
  | _ => false

/-- The constants among the operands and whether one is still unknown; `none`
once an operand varies. -/
def gatherSources (lattice : Lattice) (sources : List SSAVar) :
    Option (Bool × HashMap VarKey Word) :=
  sources.foldlM (fun (gathered : Bool × HashMap VarKey Word) src =>
    match getLatticeValue src lattice with
    | .Bottom => none
    | .Top => some (true, gathered.2)
    | .Const c => some (gathered.1, gathered.2.insert (.fromVar src) c)) (false, ∅)

def evaluateOpSccp (checks : Bool) (op : SSAOp) (lattice : Lattice) :
    Except Panic LatticeValue :=
  if isOpaque op then .ok .Bottom
  else
    match gatherSources lattice op.sources with
    | none => .ok .Bottom
    | some (hasTop, tempConsts) =>
      if hasTop then .ok .Top
      else
        (evalConstOp checks op tempConsts.lookup).map fun
          | some c => .Const c
          | none => .Bottom

theorem lawfulBEq_edge : LawfulBEq (Nat × Nat) := inferInstance

def evaluatePhiSccp (phi : PhiNode) (executable : List (Nat × Nat)) (lattice : Lattice)
    (blockAddr : Nat) : LatticeValue :=
  phi.sources.foldl (fun value source =>
    if (source.1, blockAddr) ∈ executable then value.meet (getLatticeValue source.2 lattice)
    else value) .Top

/-- The condition of a `CBranch`. -/
def cbranchCond : SSAOp → Option SSAVar
  | .CBranch _ cond => some cond
  | _ => none

/-- The condition of the last `CBranch` of a block. -/
def lastCondition (block : SSABlock) : Option SSAVar := block.ops.reverse.findSome? cbranchCond

def findCbranchCondition (func : SSAFunction) (blockAddr : Nat) (lattice : Lattice) :
    LatticeValue :=
  match func.getBlock blockAddr with
  | none => .Bottom
  | some block =>
    match lastCondition block with
    | some cond => getLatticeValue cond lattice
    | none => .Bottom

/-- The edges that `evaluate_terminator_sccp` adds to the worklist. -/
def evaluateTerminatorSccp (func : SSAFunction) (blockAddr : Nat) (lattice : Lattice) :
    List (Nat × Nat) :=
  match func.cfg.getBlock blockAddr with
  | none => []
  | some cfgBlock =>
    match cfgBlock.terminator with
    | .ConditionalBranch trueTarget falseTarget =>
      match findCbranchCondition func blockAddr lattice with
      | .Const value =>
        if value = 0 then [(blockAddr, falseTarget)] else [(blockAddr, trueTarget)]
      | .Top | .Bottom => [(blockAddr, trueTarget), (blockAddr, falseTarget)]
    | _ => (func.successors blockAddr).map fun succ => (blockAddr, succ)

/-! ## The pass -/

/-- One evaluation: a phi of a block, an operation, or the terminator of a
block. -/
inductive Task where
  | phi (blockAddr : Nat) (phi : PhiNode)
  | op (op : SSAOp)
  | terminator (blockAddr : Nat)

structure SccpState where
  lattice : Lattice
  executable : List (Nat × Nat)
  blockVisited : List Nat
  cfgWorklist : List (Nat × Nat)
  ssaWorklist : List VarKey
  draining : Bool
  agenda : List Task

/-- What the source evaluates at one use of a lowered variable. -/
def useTasks (func : SSAFunction) (blockVisited : List Nat) : UseLocation → List Task
  | .Phi blockAddr phiIdx =>
    if blockAddr ∈ blockVisited then
      match (func.getBlock blockAddr).bind fun block => block.phis[phiIdx]? with
      | none => []
      | some phi => [.phi blockAddr phi]
    else []
  | .Op blockAddr opIdx =>
    if blockAddr ∈ blockVisited then
      match (func.getBlock blockAddr).bind fun block => block.ops[opIdx]? with
      | none => []
      | some op =>
        if (cbranchCond op).isSome then [.op op, .terminator blockAddr] else [.op op]
    else []

/-- What the source evaluates in a block on arrival: its phis and, on the first
visit, its operations and its terminator. -/
def arrivalTasks (blockVisited : List Nat) (blockAddr : Nat) (block : SSABlock) : List Task :=
  block.phis.map (.phi blockAddr) ++
    if blockAddr ∈ blockVisited then [] else block.ops.map .op ++ [.terminator blockAddr]

namespace SccpState

/-- Lower a variable and queue it if its value changed. -/
def lower (state : SccpState) (var : SSAVar) (newVal : LatticeValue) : SccpState :=
  match updateLattice state.lattice var newVal with
  | none => state
  | some lattice =>
    { state with lattice := lattice, ssaWorklist := state.ssaWorklist ++ [.fromVar var] }

def perform (checks : Bool) (func : SSAFunction) (state : SccpState) :
    Task → Except Panic SccpState
  | .phi blockAddr phi =>
    .ok (state.lower phi.dst (evaluatePhiSccp phi state.executable state.lattice blockAddr))
  | .op op =>
    match op.dst with
    | none => .ok state
    | some dst => (evaluateOpSccp checks op state.lattice).map (state.lower dst)
  | .terminator blockAddr =>
    .ok { state with cfgWorklist := state.cfgWorklist ++
            evaluateTerminatorSccp func blockAddr state.lattice }

/-- Mark an edge executable and arrive at its target. -/
def visitEdge (func : SSAFunction) (edge : Nat × Nat) (state : SccpState) : SccpState :=
  if edge ∈ state.executable then state
  else
    let state := { state with executable := edge :: state.executable }
    match func.getBlock edge.2 with
    | none => state
    | some block =>
      { state with
        blockVisited := state.blockVisited.insert edge.2
        agenda := arrivalTasks state.blockVisited edge.2 block }

def popEdge (func : SSAFunction) (state : SccpState) : Option SccpState :=
  match state.cfgWorklist with
  | [] => none
  | edge :: rest =>
    some (visitEdge func edge { state with cfgWorklist := rest, draining := false })

def popVariable (func : SSAFunction) (state : SccpState) : Option SccpState :=
  match state.ssaWorklist with
  | [] => none
  | key :: rest => some
      { state with
        ssaWorklist := rest
        draining := true
        agenda := (HashMap.listAt (buildUseMap func) key).flatMap
          (useTasks func state.blockVisited) }

/-- One evaluation, or one pop when there is none to do; `none` at the end. -/
def step (checks : Bool) (func : SSAFunction) (state : SccpState) :
    Option (Except Panic SccpState) :=
  match state.agenda with
  | task :: rest => some ({ state with agenda := rest }.perform checks func task)
  | [] =>
    (if state.draining then (state.popVariable func).or (state.popEdge func)
    else (state.popEdge func).or (state.popVariable func)).map .ok

def start (func : SSAFunction) : SccpState where
  lattice := func.blockList.foldl
    (fun lattice block => block.occurrences.foldl initIfInput lattice) ∅
  executable := []
  blockVisited := []
  cfgWorklist := [(2 ^ 64 - 1, func.entry)]
  ssaWorklist := []
  draining := false
  agenda := []

end SccpState

/-- Step until both worklists are empty; `none` if `fuel` steps do not suffice. -/
def runSccp (checks : Bool) (func : SSAFunction) :
    Nat → SccpState → Option (Except Panic SccpState)
  | 0, _ => none
  | fuel + 1, state =>
    match state.step checks func with
    | none => some (.ok state)
    | some (.error panic) => some (.error panic)
    | some (.ok next) => runSccp checks func fuel next

def latticeConstants (lattice : Lattice) : HashMap VarKey Word :=
  lattice.entries.foldl (fun consts entry =>
    match entry.2 with
    | .Const c => consts.insert entry.1 c
    | .Top | .Bottom => consts) ∅

/-- The constants and the executable edges. -/
def sccp (checks : Bool) (func : SSAFunction) (fuel : Nat) :
    Option (Except Panic (HashMap VarKey Word × List (Nat × Nat))) :=
  (runSccp checks func fuel (.start func)).map
    (Except.map fun state => (latticeConstants state.lattice, state.executable))

end R2Sleigh.Ssa
