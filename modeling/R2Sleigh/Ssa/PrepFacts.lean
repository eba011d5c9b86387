import R2Sleigh.Lib.Text
import R2Sleigh.Ssa.Family

/-!
Contract: the roots that are prepared for decompilation.

Owns `collectDecompilePrepFacts`.

The maps of the source are ordered; they are only looked up here. The number of
passes is not bounded in the source; here they are counted by fuel.
-/

namespace R2Sleigh.Ssa.Family

open Il Lib

inductive StackAddressBase where
  | FramePointer
  | StackPointer
deriving DecidableEq, Repr

/-- `base + offset`, with the offset an `i64`. -/
structure StackAddressRoot where
  base : StackAddressBase
  offset : Int
deriving DecidableEq, Repr

abbrev ValueRoots := HashMap SSAVar SSAVar

abbrev StackRoots := HashMap SSAVar StackAddressRoot

structure DecompilePrepFacts where
  canonicalValueRoots : ValueRoots
  stackAddressRoots : StackRoots

/-! ## Value roots -/

/-- The loop of `canonicalizeValueRoot`, with the variables it has left. -/
def canonicalWalk (roots : ValueRoots) : Nat → List SSAVar → SSAVar → SSAVar
  | 0, _, current => current
  | fuel + 1, seen, current =>
    match roots.lookup current with
    | none => current
    | some next =>
      if next = current ∨ current ∈ seen then current
      else canonicalWalk roots fuel (current :: seen) next

/-- Every variable the loop leaves is a key, and none is left twice. -/
def canonicalizeValueRoot (root : SSAVar) (roots : ValueRoots) : SSAVar :=
  canonicalWalk roots (roots.entries.length + 1) [] root

def ensureValueRootIdentity (roots : ValueRoots) (var : SSAVar) : ValueRoots × Bool :=
  if (roots.lookup var).isSome then (roots, false) else (roots.insert var var, true)

def insertCanonicalRoot (roots : ValueRoots) (dst root : SSAVar) : ValueRoots × Bool :=
  let root := canonicalizeValueRoot root roots
  let changed := decide (roots.lookup dst ≠ some root)
  let roots := roots.insert dst root
  (if (roots.lookup root).isSome then roots else roots.insert root root, changed)

/-- The value all members have. -/
def commonRoot : List SSAVar → Option SSAVar
  | [] => none
  | first :: rest => if rest.all (· = first) then some first else none

def resolveValueRoot (info : RegisterFamilyInfo) (familyState : FamilyRootState) (var : SSAVar)
    (roots : ValueRoots) : SSAVar :=
  let canonical := canonicalizeValueRoot var roots
  if canonical ≠ var then canonical
  else if var.version ≠ 0 then var
  else
    match info.memberFor var with
    | none => var
    | some mem =>
      match familyState.lookup ⟨mem.familyId, var.size⟩ with
      | none => var
      | some root =>
        ((adaptFamilyRoot root var.size).map fun root => canonicalizeValueRoot root roots).getD var

/-! ## Stack roots -/

def stackBaseRootForName (name : String) : Option StackAddressRoot :=
  let lower := toAsciiLowercase (.ofList (trim name.toList))
  if lower ∈ ["sp", "rsp", "esp", "wsp"] then some ⟨.StackPointer, 0⟩
  else if lower ∈ ["fp", "bp", "rbp", "ebp", "x29", "w29", "s0"] then some ⟨.FramePointer, 0⟩
  else none

def resolveStackRoot (info : RegisterFamilyInfo) (familyState : FamilyRootState) (var : SSAVar)
    (facts : DecompilePrepFacts) : Option StackAddressRoot :=
  let resolved := resolveValueRoot info familyState var facts.canonicalValueRoots
  ((facts.stackAddressRoots.lookup var).or (facts.stackAddressRoots.lookup resolved)).or
    (stackBaseRootForName resolved.name)

def normalizeCopiedStackRootForDst (dst : SSAVar) (root : StackAddressRoot) : StackAddressRoot :=
  match stackBaseRootForName dst.name with
  | some ⟨.FramePointer, _⟩ => ⟨.FramePointer, 0⟩
  | _ => root

/-- The root all sources of a phi have. -/
def commonStackRoot (info : RegisterFamilyInfo) (familyState : FamilyRootState)
    (facts : DecompilePrepFacts) : List (Nat × SSAVar) → Option StackAddressRoot
  | [] => none
  | first :: rest =>
    (resolveStackRoot info familyState first.2 facts).bind fun root =>
      if rest.all fun source => resolveStackRoot info familyState source.2 facts = some root then
        some root
      else none

/-- The nearest `i64`. -/
def saturate (n : Int) : Int := max (-2 ^ 63) (min n (2 ^ 63 - 1))

def offsetBy (root : StackAddressRoot) (delta : Word) : StackAddressRoot :=
  ⟨root.base, saturate (root.offset + delta.toInt)⟩

def stackAddressRootFromAdd (info : RegisterFamilyInfo) (familyState : FamilyRootState)
    (facts : DecompilePrepFacts) (a b : SSAVar) : Option StackAddressRoot :=
  match resolveStackRoot info familyState a facts, constValue b with
  | some base, some delta => some (offsetBy base delta)
  | _, _ =>
    match resolveStackRoot info familyState b facts, constValue a with
    | some base, some delta => some (offsetBy base delta)
    | _, _ => none

def stackAddressRootFromSub (info : RegisterFamilyInfo) (familyState : FamilyRootState)
    (facts : DecompilePrepFacts) (a b : SSAVar) : Option StackAddressRoot :=
  match resolveStackRoot info familyState a facts, constValue b with
  | some base, some delta => some ⟨base.base, saturate (base.offset - delta.toInt)⟩
  | _, _ => none

def insertStackRoot (stackRoots : StackRoots) (dst : SSAVar) (root : StackAddressRoot) :
    StackRoots × Bool :=
  if stackRoots.lookup dst = some root then (stackRoots, false)
  else (stackRoots.insert dst root, true)

/-! ## Passes -/

/-- The facts, and whether a pass changed them. -/
structure PrepState where
  facts : DecompilePrepFacts
  changed : Bool

namespace PrepState

def insertRoot (state : PrepState) (dst root : SSAVar) : PrepState :=
  let (roots, changed) := insertCanonicalRoot state.facts.canonicalValueRoots dst root
  ⟨{ state.facts with canonicalValueRoots := roots }, state.changed || changed⟩

def insertStack (state : PrepState) (dst : SSAVar) : Option StackAddressRoot → PrepState
  | none => state
  | some root =>
    let (stackRoots, changed) := insertStackRoot state.facts.stackAddressRoots dst root
    ⟨{ state.facts with stackAddressRoots := stackRoots }, state.changed || changed⟩

def ensureIdentity (state : PrepState) (var : SSAVar) : PrepState :=
  let (roots, changed) := ensureValueRootIdentity state.facts.canonicalValueRoots var
  ⟨{ state.facts with canonicalValueRoots := roots }, state.changed || changed⟩

end PrepState

def prepPhi (info : RegisterFamilyInfo) (familyState : FamilyRootState) (state : PrepState)
    (phi : PhiNode) : PrepState :=
  let sourceRoots := phi.sources.map fun source =>
    resolveValueRoot info familyState source.2 state.facts.canonicalValueRoots
  let state :=
    match commonRoot sourceRoots with
    | some root => state.insertRoot phi.dst root
    | none => state
  state.insertStack phi.dst (commonStackRoot info familyState state.facts phi.sources)

def prepInsert (info : RegisterFamilyInfo) (familyState : FamilyRootState) (state : PrepState) :
    SSAOp → PrepState
  | .Copy dst src | .unary .Cast dst src | .New dst src =>
    let srcRoot := resolveValueRoot info familyState src state.facts.canonicalValueRoots
    let state := state.insertRoot dst srcRoot
    state.insertStack dst ((resolveStackRoot info familyState src state.facts).map
      (normalizeCopiedStackRootForDst dst))
  | .unary .Trunc dst src | .Subpiece dst src _ =>
    let srcRoot := resolveValueRoot info familyState src state.facts.canonicalValueRoots
    state.insertRoot dst ((adaptFamilyRoot srcRoot dst.size).getD srcRoot)
  | .binary .IntAdd dst a b =>
    state.insertStack dst (stackAddressRootFromAdd info familyState state.facts a b)
  | .binary .IntSub dst a b =>
    state.insertStack dst (stackAddressRootFromSub info familyState state.facts a b)
  | _ => state

def prepOp (info : RegisterFamilyInfo) (familyState : FamilyRootState) (state : PrepState)
    (op : SSAOp) : PrepState :=
  let state := prepInsert info familyState state op
  match op.dst with
  | none => state
  | some dst => state.ensureIdentity dst

/-- The phis and operations of a block, with the family state that each is reached
in. -/
def prepBlock (info : RegisterFamilyInfo) (inStates : HashMap Nat FamilyRootState)
    (func : SSAFunction) (state : PrepState) (addr : Nat) : PrepState :=
  match func.getBlock addr with
  | none => state
  | some block =>
    let (familyState, state) := block.phis.foldl
      (fun acc phi => (applyPhiFamilyEffect info acc.1 phi, prepPhi info acc.1 acc.2 phi))
      ((inStates.lookup addr).getD ∅, state)
    (block.ops.foldl
      (fun acc op => (applyOpFamilyEffect info op acc.1, prepOp info acc.1 acc.2 op))
      (familyState, state)).2

def prepPass (info : RegisterFamilyInfo) (inStates : HashMap Nat FamilyRootState)
    (func : SSAFunction) (facts : DecompilePrepFacts) : PrepState :=
  func.blockOrder.foldl (prepBlock info inStates func) ⟨facts, false⟩

/-- Passes until one changes nothing. -/
def prepLoop (info : RegisterFamilyInfo) (inStates : HashMap Nat FamilyRootState)
    (func : SSAFunction) : Nat → DecompilePrepFacts → Option DecompilePrepFacts
  | 0, _ => none
  | fuel + 1, facts =>
    match prepPass info inStates func facts with
    | ⟨next, true⟩ => prepLoop info inStates func fuel next
    | ⟨next, false⟩ => some next

/-- The facts for given states at the start of the blocks. -/
def collectFactsFrom (info : RegisterFamilyInfo) (inStates : HashMap Nat FamilyRootState)
    (func : SSAFunction) (fuel : Nat) : Option DecompilePrepFacts :=
  prepLoop info inStates func fuel ⟨∅, ∅⟩

/-- The families of the architecture, if there is one. -/
def prepFamilyInfo (lower : String → String) (arch : Option ArchSpec) : RegisterFamilyInfo :=
  (arch.map (RegisterFamilyInfo.fromArch lower)).getD ⟨∅, ∅⟩

def collectDecompilePrepFacts (lower : String → String) (arch : Option ArchSpec)
    (func : SSAFunction) (fuel : Nat) : Option DecompilePrepFacts :=
  let info := prepFamilyInfo lower arch
  if info.nameToMember.entries = [] then collectFactsFrom info ∅ func fuel
  else
    (computeDecompileFamilyInStates info func fuel).bind fun inStates =>
      collectFactsFrom info inStates func fuel

end R2Sleigh.Ssa.Family
