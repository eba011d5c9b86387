import R2Sleigh.Lib.Text
import R2Sleigh.Ssa.Taint

/-!
Contract: backward slices.

Owns `addressesMayAlias`.

The walk is a loop without a bound in the source; here it is counted by fuel.
-/

namespace R2Sleigh.Ssa

open Il Lib

/-- Reference to an operation or a phi of a function. -/
inductive SliceOpRef where
  | Phi (blockAddr phiIdx : Nat)
  | Op (blockAddr opIdx : Nat)
deriving DecidableEq, Repr

def SliceOpRef.blockAddr : SliceOpRef → Nat
  | .Phi blockAddr _ | .Op blockAddr _ => blockAddr

structure BackwardSlice where
  ops : Finset SliceOpRef
  blocks : Finset Nat

/-- Whether the operation is new. -/
def BackwardSlice.addOp (slice : BackwardSlice) (op : SliceOpRef) : Bool × BackwardSlice :=
  if op ∈ slice.ops then (false, slice)
  else (true, ⟨insert op slice.ops, insert op.blockAddr slice.blocks⟩)

/-! ## Definitions -/

/-- Where a variable is defined; of two definitions the last. -/
def defIndex (func : SSAFunction) : HashMap SSAVar SliceOpRef :=
  func.blockList.foldl (fun defs block =>
    let defs := block.phis.zipIdx.foldl (fun defs entry =>
      defs.insert entry.1.dst (.Phi block.addr entry.2)) defs
    block.ops.zipIdx.foldl (fun defs entry =>
      match entry.1.dst with
      | some dst => defs.insert dst (.Op block.addr entry.2)
      | none => defs) defs) ∅

def SSAFunction.findDef (func : SSAFunction) (var : SSAVar) : Option SliceOpRef :=
  (defIndex func).lookup var

/-! ## Stores -/

structure StoreInfo where
  blockAddr : Nat
  opIdx : Nat
  space : String
  addr : SSAVar
  val : SSAVar
  accessSize : Nat
deriving DecidableEq, Repr

def storeInfo (blockAddr : Nat) (entry : SSAOp × Nat) : Option StoreInfo :=
  match entry.1 with
  | .Store space addr val => some ⟨blockAddr, entry.2, space, addr, val, val.size⟩
  | _ => none

def collectStoreInfos (func : SSAFunction) : List StoreInfo :=
  func.blockList.flatMap fun block => block.ops.zipIdx.filterMap (storeInfo block.addr)

/-! ## Provenance -/

namespace Provenance

/-- `u64::from_str_radix`. -/
def parseUnsigned (radix : Nat) (text : List Char) : Option Nat :=
  (fromStrRadix radix text).map BitVec.toNat

/-- `i64::from_str_radix`. -/
def parseSigned (radix : Nat) (text : List Char) : Option Int :=
  let (negative, digits) := match text with
    | '-' :: rest => (true, rest)
    | '+' :: rest => (false, rest)
    | rest => (false, rest)
  if digits = [] then none
  else
    (digits.foldlM (fun value c => (digitValue radix c).map (value * radix + ·)) 0).bind
      fun value =>
        let signed : Int := if negative then -value else value
        if -2 ^ 63 ≤ signed ∧ signed < 2 ^ 63 then some signed else none

/-- A number in hexadecimal after `0x` or `0X`, else in decimal. -/
def literal (text : String) : Option Nat :=
  match (stripPrefix "0x" text).or (stripPrefix "0X" text) with
  | some hex => parseUnsigned 16 hex
  | none => parseUnsigned 10 text.toList

def constValue (var : SSAVar) : Option Nat :=
  (stripPrefix "const:" var.name).bind fun text => literal (.ofList text)

inductive AddressRegion where
  | Const
  | Stack
  | Global
  | Heap
  | Unknown
deriving DecidableEq, Repr

structure AddressProvenance where
  region : AddressRegion
  base : Option String
  offset : Option Int
  absolute : Option Nat
deriving DecidableEq, Repr

/-- The negation of the least number is itself; with overflow checks it panics. -/
def parseI64Component (component : String) : Option Int :=
  let trimmed := String.ofList (trim component.toList)
  if trimmed = "" then none
  else
    match (stripPrefix "-0x" trimmed).or (stripPrefix "-0X" trimmed) with
    | some hex => (parseSigned 16 hex).map fun value => if value = -2 ^ 63 then value else -value
    | none =>
      match (stripPrefix "0x" trimmed).or (stripPrefix "0X" trimmed) with
      | some hex => parseSigned 16 hex
      | none => parseSigned 10 trimmed.toList

/-- The parts of a text between colons. -/
def splitColons (text : List Char) : List String := (text.splitOn ':').map String.ofList

def detectAddressProvenance (var : SSAVar) : AddressProvenance :=
  match constValue var with
  | some abs => ⟨.Const, none, some 0, some abs⟩
  | none =>
    let lower := toAsciiLowercase var.name
    match stripPrefix "ram:" lower with
    | some rest =>
      ⟨.Global, some "ram", none, match stripPrefix "0x" (.ofList rest) with
        | some hex => parseUnsigned 16 hex
        | none => parseUnsigned 10 rest⟩
    | none =>
      match stripPrefix "stack:" lower with
      | some rest =>
        let parts := splitColons rest
        ⟨.Stack, parts[0]?, parts[1]?.bind parseI64Component, none⟩
      | none =>
        if startsWith lower "heap:" || TaintAnalysis.containsText lower "malloc" ||
            TaintAnalysis.containsText lower "heap" then
          ⟨.Heap, some "heap", none, none⟩
        else if ["obj.", "sym.", "data.", "got."].any (startsWith lower) then
          ⟨.Global, some lower, some 0, none⟩
        else if lower ∈ ["rbp", "rsp", "ebp", "esp", "sp", "fp", "bp", "s0", "x8"] then
          ⟨.Stack, some lower, some 0, none⟩
        else ⟨.Unknown, none, none, none⟩

def rangesOverlap (aBase : Int) (aSize : Nat) (bBase : Int) (bSize : Nat) : Bool :=
  decide (aBase < bBase + max bSize 1 ∧ bBase < aBase + max aSize 1)

end Provenance

open Provenance in
def addressesMayAlias (a : SSAVar) (aSize : Nat) (b : SSAVar) (bSize : Nat) : Bool :=
  let pa := detectAddressProvenance a
  let pb := detectAddressProvenance b
  match pa.absolute, pb.absolute with
  | some aAbs, some bAbs => rangesOverlap aAbs aSize bAbs bSize
  | _, _ =>
    if pa.region ≠ .Unknown ∧ pb.region ≠ .Unknown ∧ pa.region ≠ pb.region then false
    else
      match pa.region, pb.region with
      | .Stack, .Stack | .Global, .Global | .Heap, .Heap =>
        if pa.base.isSome ∧ pb.base.isSome ∧ pa.base ≠ pb.base then false
        else
          match pa.offset, pb.offset with
          | some aOff, some bOff => rangesOverlap aOff aSize bOff bSize
          | _, _ => true
      | _, _ => true

/-! ## The walk -/

structure Walk where
  slice : BackwardSlice
  worklist : List SSAVar
  visited : Finset String

/-- Add an operation; if it is new, its variables wait. -/
def Walk.add (walk : Walk) (op : SliceOpRef) (vars : List SSAVar) : Bool × Walk :=
  let (isNew, slice) := walk.slice.addOp op
  (isNew, { walk with
    slice := slice
    worklist := if isNew then walk.worklist ++ vars else walk.worklist })

def addAliasingStores (stores : List StoreInfo) (sinkSpace : String) (sinkAddr : SSAVar)
    (sinkAccessSize : Nat) (walk : Walk) : Walk :=
  stores.foldl (fun walk store =>
    if store.space ≠ sinkSpace then walk
    else if !addressesMayAlias store.addr store.accessSize sinkAddr sinkAccessSize then walk
    else (walk.add (.Op store.blockAddr store.opIdx) [store.addr, store.val]).2) walk

def addAliasingOfLoad (stores : List StoreInfo) (op : SSAOp) (walk : Walk) : Walk :=
  match op with
  | .Load dst space addr => addAliasingStores stores space addr dst.size walk
  | _ => walk

def addAliasingOfStore (stores : List StoreInfo) (op : SSAOp) (walk : Walk) : Walk :=
  match op with
  | .Store space addr val => addAliasingStores stores space addr val.size walk
  | _ => walk

/-- The definition of a variable, its sources, and the stores that a load may read. -/
def visitDef (func : SSAFunction) (stores : List StoreInfo) (walk : Walk) : SliceOpRef → Walk
  | .Phi blockAddr phiIdx =>
    let phi := (func.getBlock blockAddr).bind fun block => block.phis[phiIdx]?
    (walk.add (.Phi blockAddr phiIdx) (phi.elim [] fun phi => phi.sources.map Prod.snd)).2
  | .Op blockAddr opIdx =>
    let op := (func.getBlock blockAddr).bind fun block => block.ops[opIdx]?
    let (isNew, walk) := walk.add (.Op blockAddr opIdx) (op.elim [] SSAOp.sources)
    match op with
    | some op => if isNew then addAliasingOfLoad stores op walk else walk
    | none => walk

section Walk

variable (toUppercase : String → String) (func : SSAFunction) (stores : List StoreInfo)

def visitVar (walk : Walk) (var : SSAVar) : Walk :=
  let key := displayName toUppercase var
  if key ∈ walk.visited then walk
  else
    let walk := { walk with visited := insert key walk.visited }
    match func.findDef var with
    | none => walk
    | some ref => visitDef func stores walk ref

def walkBackward : Nat → Walk → Option BackwardSlice
  | 0, _ => none
  | fuel + 1, walk =>
    match walk.worklist with
    | [] => some walk.slice
    | var :: rest => walkBackward fuel (visitVar toUppercase func stores
        { walk with worklist := rest } var)

end Walk

def Walk.empty : Walk := ⟨⟨∅, ∅⟩, [], ∅⟩

def backwardSliceFromVar (toUppercase : String → String) (func : SSAFunction) (sink : SSAVar)
    (fuel : Nat) : Option BackwardSlice :=
  walkBackward toUppercase func (collectStoreInfos func) fuel { Walk.empty with worklist := [sink] }

def sinkWalk (func : SSAFunction) (stores : List StoreInfo) : SliceOpRef → Walk
  | .Phi blockAddr phiIdx =>
    match (func.getBlock blockAddr).bind fun block => block.phis[phiIdx]? with
    | none => Walk.empty
    | some phi => (Walk.empty.add (.Phi blockAddr phiIdx) (phi.sources.map Prod.snd)).2
  | .Op blockAddr opIdx =>
    match (func.getBlock blockAddr).bind fun block => block.ops[opIdx]? with
    | none => Walk.empty
    | some op => addAliasingOfStore stores op (addAliasingOfLoad stores op
        (Walk.empty.add (.Op blockAddr opIdx) op.sources).2)

def backwardSliceFromOp (toUppercase : String → String) (func : SSAFunction) (sink : SliceOpRef)
    (fuel : Nat) : Option BackwardSlice :=
  let stores := collectStoreInfos func
  walkBackward toUppercase func stores fuel (sinkWalk func stores sink)

end R2Sleigh.Ssa
