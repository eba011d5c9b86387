import R2Sleigh.Ssa.Closed

/-!
Contract: the indexed graph of a function.

Owns `SsaGraph`, `fromFunction` and `Site`.
-/

namespace R2Sleigh.Ssa

open Il Lib

/-- `as u32`. -/
def asU32 (n : Nat) : Nat := n % 2 ^ 32

theorem asU32_of_lt {n : Nat} (small : n < 2 ^ 32) : asU32 n = n := Nat.mod_eq_of_lt small

structure UseSite where
  inst : Nat
  inputIdx : Nat
deriving DecidableEq, Repr

structure GraphValue where
  id : Nat
  var : SSAVar
deriving DecidableEq, Repr

inductive InstPayload where
  | Phi (predecessors : List Nat)
  | Op (op : SSAOp)
deriving DecidableEq, Repr

structure GraphInst where
  id : Nat
  block : Nat
  ordinal : Nat
  inputs : List Nat
  output : Option Nat
  payload : InstPayload
deriving DecidableEq, Repr

structure GraphBlock where
  id : Nat
  addr : Nat
  size : Nat
  predecessors : List Nat
  successors : List Nat
  insts : List Nat
deriving DecidableEq, Repr

/-- The tables that the pass over the blocks fills. -/
structure GraphTables where
  blocks : List GraphBlock
  insts : List GraphInst
  values : List GraphValue
  defOf : List (Option Nat)
  usesOf : List (List UseSite)
  valueByVar : HashMap SSAVar Nat
  opInstBySite : HashMap (Nat × Nat) Nat
  opSiteByInst : HashMap Nat (Nat × Nat)

structure SsaGraph extends GraphTables where
  entry : Nat
  blockOrder : List Nat
  blockByAddr : HashMap Nat Nat

namespace GraphTables

/-- `intern_value`. -/
def internValue (tables : GraphTables) (var : SSAVar) : Nat × GraphTables :=
  match tables.valueByVar.lookup var with
  | some id => (id, tables)
  | none =>
    let id := asU32 tables.values.length
    (id, { tables with
      values := tables.values ++ [⟨id, var⟩]
      valueByVar := tables.valueByVar.insert var id
      defOf := tables.defOf ++ [none]
      usesOf := tables.usesOf ++ [[]] })

def internSources (tables : GraphTables) : List SSAVar → List Nat × GraphTables
  | [] => ([], tables)
  | var :: vars =>
    let (id, tables') := tables.internValue var
    let (ids, tables'') := tables'.internSources vars
    (id :: ids, tables'')

def internDst (tables : GraphTables) : Option SSAVar → Option Nat × GraphTables
  | none => (none, tables)
  | some var => ((tables.internValue var).1, (tables.internValue var).2)

/-- Record the inputs of an instruction as uses. -/
def addUses (instId : Nat) (usesOf : List (List UseSite)) (inputs : List Nat) :
    List (List UseSite) :=
  inputs.zipIdx.foldl (fun usesOf input => usesOf.modify input.1 (· ++ [⟨instId, input.2⟩])) usesOf

/-- The common part of the loops over phis and operations. -/
def addInst (tables : GraphTables) (blockId ordinal : Nat) (sources : List SSAVar)
    (dst : Option SSAVar) (payload : InstPayload) : GraphTables :=
  let (inputs, tables) := tables.internSources sources
  let (output, tables) := tables.internDst dst
  let instId := asU32 tables.insts.length
  { tables with
    usesOf := addUses instId tables.usesOf inputs
    defOf :=
      match output with
      | some output => tables.defOf.set output (some instId)
      | none => tables.defOf
    insts := tables.insts ++ [⟨instId, blockId, ordinal, inputs, output, payload⟩]
    blocks := tables.blocks.modify blockId fun block => { block with insts := block.insts ++ [instId] } }

def addPhi (blockByAddr : HashMap Nat Nat) (blockId : Nat) (tables : GraphTables)
    (entry : PhiNode × Nat) : GraphTables :=
  tables.addInst blockId entry.2 (entry.1.sources.map Prod.snd) (some entry.1.dst)
    (.Phi (entry.1.sources.filterMap fun source => blockByAddr.lookup source.1))

def addOp (blockId : Nat) (block : SSABlock) (tables : GraphTables) (entry : SSAOp × Nat) :
    GraphTables :=
  let instId := asU32 tables.insts.length
  let tables := tables.addInst blockId (block.phis.length + entry.2) entry.1.sources entry.1.dst
    (.Op entry.1)
  { tables with
    opInstBySite := tables.opInstBySite.insert (block.addr, entry.2) instId
    opSiteByInst := tables.opSiteByInst.insert instId (block.addr, entry.2) }

def addBlock (blockByAddr : HashMap Nat Nat) (tables : GraphTables) (block : SSABlock) :
    Option GraphTables := do
  let blockId ← blockByAddr.lookup block.addr
  some (block.ops.zipIdx.foldl (addOp blockId block)
    (block.phis.zipIdx.foldl (addPhi blockByAddr blockId) tables))

end GraphTables

namespace SsaGraph

def blockIds (func : SSAFunction) : HashMap Nat Nat :=
  func.blockOrder.zipIdx.foldl (fun ids entry => ids.insert entry.1 (asU32 entry.2)) ∅

def initialBlocks (func : SSAFunction) : List GraphBlock :=
  func.blockOrder.zipIdx.map fun entry =>
    { id := asU32 entry.2
      addr := entry.1
      size := ((func.getBlock entry.1).map SSABlock.size).getD 0
      predecessors := (func.cfg.predecessors entry.1).filterMap (blockIds func).lookup
      successors := (func.successors entry.1).filterMap (blockIds func).lookup
      insts := [] }

def initialTables (func : SSAFunction) : GraphTables :=
  ⟨initialBlocks func, [], [], [], [], ∅, ∅, ∅⟩

def fromFunction (func : SSAFunction) : Option SsaGraph := do
  let tables ← func.blockList.foldlM (GraphTables.addBlock (blockIds func)) (initialTables func)
  some
    { toGraphTables := tables
      entry := ((blockIds func).lookup func.entry).getD 0
      blockOrder := func.blockOrder.zipIdx.map fun entry => asU32 entry.2
      blockByAddr := blockIds func }

end SsaGraph

/-! ## Sites -/

/-- A phi or an operation with its block and its index there. -/
inductive Site where
  | phi (block : SSABlock) (phiIdx : Nat) (node : PhiNode)
  | op (block : SSABlock) (opIdx : Nat) (node : SSAOp)

namespace Site

def block : Site → SSABlock
  | .phi block _ _ | .op block _ _ => block

def ordinal : Site → Nat
  | .phi _ phiIdx _ => phiIdx
  | .op block opIdx _ => block.phis.length + opIdx

def sources : Site → List SSAVar
  | .phi _ _ node => node.sources.map Prod.snd
  | .op _ _ node => node.sources

def dst : Site → Option SSAVar
  | .phi _ _ node => some node.dst
  | .op _ _ node => node.dst

/-- The address of the block and the index of an operation. -/
def opSite : Site → Option (Nat × Nat)
  | .phi _ _ _ => none
  | .op block opIdx _ => some (block.addr, opIdx)

def vars (site : Site) : List SSAVar := site.sources ++ site.dst.toList

end Site

def SSABlock.sites (block : SSABlock) : List Site :=
  block.phis.zipIdx.map (fun entry => .phi block entry.2 entry.1) ++
    block.ops.zipIdx.map fun entry => .op block entry.2 entry.1

/-- All phis and operations in the order of the pass. -/
def SSAFunction.sites (func : SSAFunction) : List Site := func.blockList.flatMap SSABlock.sites

end R2Sleigh.Ssa
