import R2Sleigh.Ssa.StrictForm

/-!
Contract: register families, and the contents of their slots through a function.

Owns `RegisterFamilyInfo.fromArch` and `computeDecompileFamilyInStates`.

The rounds are not bounded in the source; here they are counted by fuel.
-/

namespace R2Sleigh.Ssa.Family

open Il Lib

/-! ## Families -/

structure RegisterFamilySlot where
  familyId : Nat
  width : Nat
deriving DecidableEq, Repr

structure RegisterFamilyMember where
  familyId : Nat
  width : Nat
deriving DecidableEq, Repr

structure RegisterFamilyInfo where
  nameToMember : HashMap String RegisterFamilyMember
  familyWidths : HashMap Nat (List Nat)

/-- The variable that holds each known slot. -/
abbrev FamilyRootState := HashMap RegisterFamilySlot SSAVar

structure RangeReg where
  name : String
  offset : Nat
  size : Nat
deriving DecidableEq, Repr

/-- `offset.saturating_add(size)`. -/
def RangeReg.rangeEnd (reg : RangeReg) : Nat := min (reg.offset + reg.size) (2 ^ 64 - 1)

/-- Order of the sweep: by offset, then by end. -/
def RangeReg.le (x y : RangeReg × Nat) : Prop :=
  x.1.offset < y.1.offset ∨ (x.1.offset = y.1.offset ∧ x.1.rangeEnd ≤ y.1.rangeEnd)

instance (x y : RangeReg × Nat) : Decidable (RangeReg.le x y) := by
  unfold RangeReg.le
  infer_instance

/-- The sweep over the registers in order. Every union attaches a register that
was its own root to the first register of its cluster. -/
def clusterRoots : List (RangeReg × Nat) → Nat → Nat → HashMap Nat Nat → HashMap Nat Nat
  | [], _, _, parents => parents
  | (reg, idx) :: rest, clusterRoot, clusterEnd, parents =>
    if reg.offset < clusterEnd then
      clusterRoots rest clusterRoot (max clusterEnd reg.rangeEnd) (parents.insert idx clusterRoot)
    else clusterRoots rest idx reg.rangeEnd (parents.insert idx idx)

/-- The tables while families are numbered. -/
structure FamilyTables where
  rootToFamily : HashMap Nat Nat
  nextFamilyId : Nat
  nameToMember : HashMap String RegisterFamilyMember
  familyWidthSets : HashMap Nat (List Nat)

/-- One register: its family is numbered when it is met first. -/
def FamilyTables.record (parents : HashMap Nat Nat) (tables : FamilyTables)
    (entry : RangeReg × Nat) : FamilyTables :=
  let (reg, idx) := entry
  let root := (parents.lookup idx).getD idx
  let (familyId, rootToFamily, nextFamilyId) :=
    match tables.rootToFamily.lookup root with
    | some id => (id, tables.rootToFamily, tables.nextFamilyId)
    | none =>
      (tables.nextFamilyId, tables.rootToFamily.insert root tables.nextFamilyId,
        tables.nextFamilyId + 1)
  { rootToFamily := rootToFamily
    nextFamilyId := nextFamilyId
    nameToMember := tables.nameToMember.insert reg.name ⟨familyId, reg.size⟩
    familyWidthSets := tables.familyWidthSets.insertAt familyId reg.size }

namespace RegisterFamilyInfo

/-- The families of an architecture, with `lower` as `str::to_lowercase`. -/
def fromArch (lower : String → String) (arch : ArchSpec) : RegisterFamilyInfo :=
  let regs : List RangeReg := arch.registers.map fun reg => ⟨lower reg.name, reg.offset, reg.size⟩
  match regs.zipIdx.insertionSort RangeReg.le with
  | [] => ⟨∅, ∅⟩
  | (reg, idx) :: rest =>
    let parents := clusterRoots rest idx reg.rangeEnd ((∅ : HashMap Nat Nat).insert idx idx)
    let tables := regs.zipIdx.foldl (FamilyTables.record parents) ⟨∅, 0, ∅, ∅⟩
    ⟨tables.nameToMember,
      HashMap.mapValues (fun widths => widths.insertionSort (· ≤ ·)) tables.familyWidthSets⟩

/-- The member a variable names, or names in lower case. -/
def memberFor (info : RegisterFamilyInfo) (var : SSAVar) : Option RegisterFamilyMember :=
  (info.nameToMember.lookup var.name).or <|
    if var.name.toList.any Char.isUpper then info.nameToMember.lookup (toAsciiLowercase var.name)
    else none

end RegisterFamilyInfo

/-! ## Slots -/

/-- The value of a `const:` variable, in hexadecimal. -/
def constValue (var : SSAVar) : Option Word :=
  if var.isConst then fromStrRadix 16 (var.name.toList.drop 6) else none

def maskConstToWidth (value : Word) (width : Nat) : Word :=
  let bits := bitsOf width
  if 64 ≤ bits then value else if bits = 0 then 0 else value &&& ((1 <<< bits) - 1)

def adaptFamilyRoot (root : SSAVar) (width : Nat) : Option SSAVar :=
  if root.size = width then some root
  else if root.isConst then
    (constValue root).map fun value => .constant (maskConstToWidth value width).toNat width
  else none

def killFamilyRoots (familyId : Nat) (state : FamilyRootState) : FamilyRootState :=
  state.retain fun slot => slot.familyId ≠ familyId

/-- The slots of a family that are no wider than a constant written to it. -/
def seedNarrowConstRoots (info : RegisterFamilyInfo) (familyId writtenWidth : Nat) (root : SSAVar)
    (state : FamilyRootState) : FamilyRootState :=
  match constValue root with
  | none => state
  | some value =>
    (info.familyWidths.listAt familyId).foldl
      (fun state width =>
        if writtenWidth < width then state
        else state.insert ⟨familyId, width⟩ (.constant (maskConstToWidth value width).toNat width))
      state

def applyPhiFamilyEffect (info : RegisterFamilyInfo) (state : FamilyRootState) (phi : PhiNode) :
    FamilyRootState :=
  match info.memberFor phi.dst with
  | none => state
  | some ⟨familyId, width⟩ => (killFamilyRoots familyId state).insert ⟨familyId, width⟩ phi.dst

def applyOpFamilyEffect (info : RegisterFamilyInfo) (op : SSAOp) (state : FamilyRootState) :
    FamilyRootState :=
  match op.dst with
  | none => state
  | some dst =>
    match info.memberFor dst with
    | none => state
    | some ⟨familyId, width⟩ =>
      let state := killFamilyRoots familyId state
      let exactSlot : RegisterFamilySlot := ⟨familyId, width⟩
      match op with
      | .Copy _ src | .unary .Cast _ src | .New _ src =>
        match adaptFamilyRoot src width with
        | some root =>
          seedNarrowConstRoots info familyId width root (state.insert exactSlot root)
        | none => state.insert exactSlot dst
      | .unary .IntZExt _ src | .unary .IntSExt _ src =>
        let state := state.insert exactSlot dst
        match adaptFamilyRoot src src.size with
        | some root => state.insert ⟨familyId, src.size⟩ root
        | none => state
      | .unary .Trunc _ src | .Subpiece _ src _ =>
        match adaptFamilyRoot src width with
        | some root => state.insert exactSlot root
        | none => state.insert exactSlot dst
      | _ => state.insert exactSlot dst

/-- A source that names a register as it was on entry, by what its slot holds. -/
def rewriteDecompileFamilySource (info : RegisterFamilyInfo) (state : FamilyRootState)
    (src : SSAVar) : SSAVar :=
  if src.version ≠ 0 then src
  else
    match info.memberFor src with
    | none => src
    | some mem =>
      match state.lookup ⟨mem.familyId, src.size⟩ with
      | none => src
      | some root =>
        match adaptFamilyRoot root src.size with
        | none => src
        | some adapted => if adapted = src then src else adapted

/-! ## The function -/

/-- What all the predecessors agree on. -/
def meetFamilyStates (outStates : HashMap Nat FamilyRootState) : List Nat → FamilyRootState
  | [] => ∅
  | first :: rest =>
    match outStates.lookup first with
    | none => ∅
    | some firstState =>
      (rest.foldlM (fun merged pred => (outStates.lookup pred).map fun state =>
        ⟨merged.entries.filter fun entry => state.lookup entry.1 = some entry.2,
          merged.nodupKeys.sublist List.filter_sublist⟩) firstState).getD ∅

/-- One operation, with its sources rewritten. -/
def rewriteAndApply (info : RegisterFamilyInfo) (state : FamilyRootState) (op : SSAOp) :
    FamilyRootState :=
  applyOpFamilyEffect info (op.mapSources (rewriteDecompileFamilySource info state)) state

def transferFamilyStateForBlock (info : RegisterFamilyInfo) (func : SSAFunction) (addr : Nat)
    (input : FamilyRootState) : FamilyRootState :=
  match func.getBlock addr with
  | none => input
  | some block =>
    block.ops.foldl (rewriteAndApply info) (block.phis.foldl (applyPhiFamilyEffect info) input)

/-- Equality of hash maps. -/
def sameState (x y : FamilyRootState) : Bool :=
  x.keys.all (fun slot => x.lookup slot = y.lookup slot) &&
    y.keys.all (fun slot => x.lookup slot = y.lookup slot)

/-- The states at the start and at the end of the blocks. -/
structure FamilyStates where
  inStates : HashMap Nat FamilyRootState
  outStates : HashMap Nat FamilyRootState

def recordState (states : HashMap Nat FamilyRootState) (addr : Nat) (next : FamilyRootState) :
    HashMap Nat FamilyRootState × Bool :=
  match states.lookup addr with
  | some state => if sameState state next then (states, false) else (states.insert addr next, true)
  | none => (states.insert addr next, true)

def familyStep (info : RegisterFamilyInfo) (func : SSAFunction) (acc : FamilyStates × Bool)
    (addr : Nat) : FamilyStates × Bool :=
  let nextIn := meetFamilyStates acc.1.outStates (func.cfg.predecessors addr)
  let nextOut := transferFamilyStateForBlock info func addr nextIn
  let (inStates, inChanged) := recordState acc.1.inStates addr nextIn
  let (outStates, outChanged) := recordState acc.1.outStates addr nextOut
  (⟨inStates, outStates⟩, acc.2 || inChanged || outChanged)

/-- One iteration of the loop, and whether it changed a state. -/
def familyRound (info : RegisterFamilyInfo) (func : SSAFunction) (states : FamilyStates) :
    FamilyStates × Bool :=
  func.blockOrder.foldl (familyStep info func) (states, false)

/-- Iterate until nothing changes. -/
def familyLoop (info : RegisterFamilyInfo) (func : SSAFunction) :
    Nat → FamilyStates → Option FamilyStates
  | 0, _ => none
  | fuel + 1, states =>
    match familyRound info func states with
    | (next, true) => familyLoop info func fuel next
    | (next, false) => some next

def computeDecompileFamilyInStates (info : RegisterFamilyInfo) (func : SSAFunction) (fuel : Nat) :
    Option (HashMap Nat FamilyRootState) :=
  (familyLoop info func fuel ⟨∅, ∅⟩).map FamilyStates.inStates

end R2Sleigh.Ssa.Family
