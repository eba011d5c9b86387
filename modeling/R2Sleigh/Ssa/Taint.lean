import R2Sleigh.Lib.Spread
import R2Sleigh.Ssa.Closed

/-!
Contract: forward taint propagation over the uses of a function.

Does not own: how a policy chooses sources and sinks; what the analysis finds.

Hash iteration matters in one place, the conversion of the final sets to display
names: there the entries come in any order.
-/

namespace R2Sleigh.Ssa

open Il Lib Relation

structure TaintLabel where
  id : String
  description : Option String
deriving DecidableEq, Repr

abbrev TaintSet := Finset TaintLabel

structure TaintPolicy where
  isSource : SSAVar → Nat → Option (List TaintLabel)
  isSink : SSAOp → Nat → Bool
  isSanitizer : SSAOp → Bool
  propagate : SSAOp → List TaintSet → Option TaintSet

/-- The default of `propagate`. -/
def TaintPolicy.NoCustom (policy : TaintPolicy) : Prop :=
  ∀ op taints, policy.propagate op taints = none

/-- Version 0 of registers is tainted; no `sources` means all of them. -/
structure DefaultTaintPolicy where
  sources : List String
  sinkCalls : Bool
  sinkStores : Bool

def DefaultTaintPolicy.allInputs : DefaultTaintPolicy := ⟨[], true, true⟩

def DefaultTaintPolicy.policy (self : DefaultTaintPolicy) : TaintPolicy where
  isSource var _ :=
    if var.version = 0 ∧ !var.isConst ∧ !startsWith var.name "tmp:" ∧
        (self.sources = [] ∨ var.name ∈ self.sources) then
      some [⟨"input:" ++ var.name, none⟩]
    else none
  isSink op _ :=
    match op with
    | .Call _ | .CallInd _ => self.sinkCalls
    | .Store _ _ _ => self.sinkStores
    | _ => false
  isSanitizer _ := false
  propagate _ _ := none

structure SinkHit where
  blockAddr : Nat
  opIdx : Nat
  op : SSAOp
  taintedVars : List (SSAVar × TaintSet)

structure TaintResult where
  varTaints : HashMap String TaintSet
  sinkHits : List SinkHit

structure TaintAnalysis where
  func : SSAFunction
  policy : TaintPolicy
  callArgRegs : List String

namespace TaintAnalysis

/-- `str::contains`. -/
def containsText (text : String) (s : String) : Bool :=
  s.toList.tails.any fun tail => text.toList.isPrefixOf tail

/-! ## Propagation -/

/-- The state of the worklist loop; `spread` has the taint sets and the
worklist. -/
structure State where
  spread : Spread SSAVar TaintLabel
  propagated : HashMap SSAVar TaintSet

variable (analysis : TaintAnalysis)

def buildUseMap : HashMap SSAVar (List UseLocation) :=
  analysis.func.blockList.foldl (fun uses block => block.useSites.foldl
    (fun uses site => uses.pushAt site.1 site.2) uses) ∅

def maybeAddSource (blockAddr : Nat) (state : Spread SSAVar TaintLabel) (var : SSAVar) :
    Spread SSAVar TaintLabel :=
  match analysis.policy.isSource var blockAddr with
  | some labels => state.extend var labels.toFinset
  | none => state

def initializeSources : Spread SSAVar TaintLabel :=
  analysis.func.blockList.foldl (fun state block => block.useSites.foldl
    (fun state site => analysis.maybeAddSource block.addr state site.1) state) ⟨∅, []⟩

def propagateToPhi (blockAddr phiIdx : Nat) (currentTaint : TaintSet)
    (state : Spread SSAVar TaintLabel) : Spread SSAVar TaintLabel :=
  match (analysis.func.getBlock blockAddr).bind fun block => block.phis[phiIdx]? with
  | some phi => state.extend phi.dst currentTaint
  | none => state

def propagateToOp (blockAddr opIdx : Nat) (currentTaint : TaintSet)
    (state : Spread SSAVar TaintLabel) : Spread SSAVar TaintLabel :=
  match (analysis.func.getBlock blockAddr).bind fun block => block.ops[opIdx]? with
  | some op =>
    if analysis.policy.isSanitizer op then state
    else
      match op.dst with
      | some dst =>
        let sourceTaints := op.sources.filterMap state.sets.lookup
        state.extend dst ((analysis.policy.propagate op sourceTaints).getD currentTaint)
      | none => state
  | none => state

def propagateToUse (currentTaint : TaintSet) (state : Spread SSAVar TaintLabel) :
    UseLocation → Spread SSAVar TaintLabel
  | .Phi blockAddr phiIdx => analysis.propagateToPhi blockAddr phiIdx currentTaint state
  | .Op blockAddr opIdx => analysis.propagateToOp blockAddr opIdx currentTaint state

/-- The body of the loop, for a variable that was taken off the worklist. -/
def propagateVar (useMap : HashMap SSAVar (List UseLocation)) (state : State) (var : SSAVar) :
    State :=
  let currentTaint := labelsAt state.spread.sets var
  if currentTaint = ∅ then state
  else
    let alreadyPropagated := labelsAt state.propagated var
    let newLabels := currentTaint \ alreadyPropagated
    if newLabels = ∅ then
      { state with propagated := state.propagated.insert var alreadyPropagated }
    else
      { spread := (useMap.listAt var).foldl (analysis.propagateToUse newLabels) state.spread
        propagated := state.propagated.insert var (alreadyPropagated ∪ newLabels) }

def State.waiting (state : State) (worklist : List SSAVar) : State :=
  { state with spread := ⟨state.spread.sets, worklist⟩ }

/-- One iteration, for any order of the worklist. -/
def Step (state state' : State) : Prop :=
  ∃ var rest, (var :: rest).Perm state.spread.worklist ∧
    state' = analysis.propagateVar analysis.buildUseMap (state.waiting rest) var

/-- `while let Some(var) = worklist.pop_front()`. -/
def propagate : Nat → State → Option State
  | 0, _ => none
  | fuel + 1, state =>
    match state.spread.worklist with
    | [] => some state
    | var :: rest => propagate fuel (analysis.propagateVar analysis.buildUseMap (state.waiting rest) var)

def initial : State := ⟨analysis.initializeSources, ∅⟩

/-! ## Sinks -/

def canonicalX8664ArgReg (name : String) : Option String :=
  let base := toAsciiLowercase (String.ofList (name.toList.takeWhile (· ≠ '_')))
  if base ∈ ["rdi", "edi", "di", "dil"] then some "rdi"
  else if base ∈ ["rsi", "esi", "si", "sil"] then some "rsi"
  else if base ∈ ["rdx", "edx", "dx", "dl", "dh"] then some "rdx"
  else if base ∈ ["rcx", "ecx", "cx", "cl", "ch"] then some "rcx"
  else if base ∈ ["r8", "r8d", "r8w", "r8b"] then some "r8"
  else if base ∈ ["r9", "r9d", "r9w", "r9b"] then some "r9"
  else none

/-- `matches!(op, SSAOp::Call { .. } | SSAOp::CallInd { .. })`. -/
def isCallOp : SSAOp → Bool
  | .Call _ | .CallInd _ => true
  | _ => false

/-- The argument register an operation sets. -/
def argumentSetup (op : SSAOp) : Option (String × SSAVar) := do
  let dst ← op.dst
  let canonical ← canonicalX8664ArgReg dst.name
  if canonical ∈ analysis.callArgRegs then some (canonical, dst) else none

/-- `found.remove(reg)` for each register in turn. -/
def takeFound : List String → HashMap String SSAVar → List SSAVar
  | [], _ => []
  | reg :: regs, found =>
    match found.lookup reg with
    | some var => var :: takeFound regs (found.erase reg)
    | none => takeFound regs found

def collectCallArgVars (block : SSABlock) (callOpIdx : Nat) : List SSAVar :=
  let before := (block.ops.take callOpIdx).reverse.takeWhile fun op => !isCallOp op
  let found := (before.filterMap analysis.argumentSetup).foldl
    (fun found entry => if entry.1 ∈ found then found else found.insert entry.1 entry.2) ∅
  takeFound analysis.callArgRegs found

def sinkSourcesForOp (block : SSABlock) (opIdx : Nat) (op : SSAOp) : List SSAVar :=
  (op.sources ++ if isCallOp op then analysis.collectCallArgVars block opIdx else []).eraseDups

def sinkHit (varTaints : HashMap SSAVar TaintSet) (block : SSABlock) (opIdx : Nat) (op : SSAOp) :
    Option SinkHit :=
  if analysis.policy.isSink op block.addr then
    let taintedVars := (analysis.sinkSourcesForOp block opIdx op).filterMap fun src =>
      match varTaints.lookup src with
      | some taint => if taint = ∅ then none else some (src, taint)
      | none => none
    if taintedVars = [] then none else some ⟨block.addr, opIdx, op, taintedVars⟩
  else none

def findSinkHits (varTaints : HashMap SSAVar TaintSet) : List SinkHit :=
  analysis.func.blockList.flatMap fun block =>
    block.ops.zipIdx.filterMap fun entry => analysis.sinkHit varTaints block entry.2 entry.1

/-! ## Results -/

/-- `var_taints.into_iter().map(|(var, taint)| (var.display_name(), taint)).collect()`. -/
def byDisplayName (toUppercase : String → String) (entries : List ((_ : SSAVar) × TaintSet)) :
    HashMap String TaintSet :=
  entries.foldl (fun named entry => named.insert (displayName toUppercase entry.1) entry.2) ∅

/-- A result of the analysis: any order of the worklist, and of the entries of
the final map. -/
def Analyzed (toUppercase : String → String) (result : TaintResult) : Prop :=
  ∃ final entries, ReflTransGen analysis.Step analysis.initial final ∧
    final.spread.worklist = [] ∧ List.Perm entries final.spread.sets.entries ∧
    result = ⟨byDisplayName toUppercase entries, analysis.findSinkHits final.spread.sets⟩

/-- The analysis as the code runs it. -/
def analyze (toUppercase : String → String) (fuel : Nat) : Option TaintResult := do
  let final ← analysis.propagate fuel analysis.initial
  some ⟨byDisplayName toUppercase final.spread.sets.entries, analysis.findSinkHits final.spread.sets⟩

end TaintAnalysis

def TaintResult.getTaint (result : TaintResult) (toUppercase : String → String) (var : SSAVar) :
    Option TaintSet :=
  result.varTaints.lookup (displayName toUppercase var)

end R2Sleigh.Ssa
