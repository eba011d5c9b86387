import R2Sleigh.Lib.BTreeMap
import R2Sleigh.Ssa.ConstDecode
import R2Sleigh.Ssa.PrepFacts
import R2Sleigh.Ssa.SsaGraph

/-!
Contract: the memory objects of a function, and what each operation reads and
writes of them.

Owns `ObjectModel`, `collectCallSites` and `collectAccessSummaries`.

Does not own: the versions of an object, or what the objects say about memory.

Identifiers are natural numbers; the counters of the source saturate at 32 bits.
-/

namespace R2Sleigh.Ssa.Semantic

open Il Lib
open Ssa.Family (DecompilePrepFacts StackAddressBase StackAddressRoot stackBaseRootForName)

abbrev ObjectId := Nat

abbrev InstId := Nat

/-- `FrameObject` and `HeapAlloc` are never built. -/
inductive ObjectKind where
  | StackSlot (base : StackAddressBase) (offset : Int)
  | FrameObject (base : StackAddressBase) (offset : Int)
  | Global (space : String) (address : Word)
  | HeapAlloc (callSite : Nat)
  | EscapedUnknown
deriving DecidableEq, Repr

structure ObjectFact where
  id : ObjectId
  kind : ObjectKind
deriving DecidableEq, Repr

structure GlobalObjectKey where
  space : String
  address : Word
deriving DecidableEq, Repr

structure ObjectModel where
  objects : BTreeMap ObjectId ObjectFact
  valueObjects : HashMap Nat ObjectId
  stackObjects : HashMap StackAddressRoot ObjectId
  globalObjects : HashMap GlobalObjectKey ObjectId
  escapedUnknown : Option ObjectId

structure MemoryLocation where
  object : ObjectId
  offset : Int
  size : Nat
deriving DecidableEq, Repr

/-! ## Addresses -/

def canonicalValueRootWalk (facts : DecompilePrepFacts) : Nat → SSAVar → SSAVar
  | 0, current => current
  | steps + 1, current =>
    match facts.canonicalValueRoots.lookup current with
    | none => current
    | some next => if next = current then current else canonicalValueRootWalk facts steps next

def canonicalValueRoot (facts : Option DecompilePrepFacts) (var : SSAVar) : SSAVar :=
  match facts with
  | none => var
  | some facts => canonicalValueRootWalk facts 32 var

def resolveConstValue (facts : Option DecompilePrepFacts) (var : SSAVar) : Option Word :=
  (constValue (canonicalValueRoot facts var)).or (constValue var)

def resolveStackRoot (facts : Option DecompilePrepFacts) (var : SSAVar) :
    Option StackAddressRoot :=
  facts.bind fun known =>
    let root := canonicalValueRoot facts var
    ((known.stackAddressRoots.lookup var).or (known.stackAddressRoots.lookup root)).or
      (stackBaseRootForName root.name)

/-! ## Objects -/

structure ObjectModelBuilder where
  objects : BTreeMap ObjectId ObjectFact
  valueObjects : HashMap Nat ObjectId
  stackObjects : HashMap StackAddressRoot ObjectId
  globalObjects : HashMap GlobalObjectKey ObjectId
  escapedUnknown : ObjectId
  nextObjectId : Nat

namespace ObjectModelBuilder

def new : ObjectModelBuilder := ⟨BTreeMap.empty.insert 0 ⟨0, .EscapedUnknown⟩, ∅, ∅, ∅, 0, 1⟩

def allocObject (builder : ObjectModelBuilder) (kind : ObjectKind) : ObjectId × ObjectModelBuilder :=
  let id := builder.nextObjectId
  (id, { builder with objects := builder.objects.insert id ⟨id, kind⟩, nextObjectId := id + 1 })

def ensureStackObject (builder : ObjectModelBuilder) (root : StackAddressRoot) :
    ObjectId × ObjectModelBuilder :=
  match builder.stackObjects.lookup root with
  | some object => (object, builder)
  | none =>
    let (id, builder) := builder.allocObject (.StackSlot root.base root.offset)
    (id, { builder with stackObjects := builder.stackObjects.insert root id })

def ensureGlobalObject (builder : ObjectModelBuilder) (key : GlobalObjectKey) :
    ObjectId × ObjectModelBuilder :=
  match builder.globalObjects.lookup key with
  | some object => (object, builder)
  | none =>
    let (id, builder) := builder.allocObject (.Global key.space key.address)
    (id, { builder with globalObjects := builder.globalObjects.insert key id })

def setValueObject (builder : ObjectModelBuilder) (value : Nat) (object : ObjectId) :
    ObjectModelBuilder :=
  { builder with valueObjects := builder.valueObjects.insert value object }

def objectForAddressValue (facts : Option DecompilePrepFacts) (graph : SsaGraph)
    (builder : ObjectModelBuilder) (value : SSAVar) (space : String) : ObjectModelBuilder :=
  match graph.valueByVar.lookup value with
  | none => builder
  | some valueId =>
    match builder.valueObjects.lookup valueId with
    | some _ => builder
    | none =>
      match resolveStackRoot facts value with
      | some root =>
        let (object, builder) := builder.ensureStackObject root
        builder.setValueObject valueId object
      | none =>
        match resolveConstValue facts value with
        | some address =>
          let (object, builder) := builder.ensureGlobalObject ⟨space, address⟩
          builder.setValueObject valueId object
        | none => builder.setValueObject valueId builder.escapedUnknown

/-- The address and the space of an operation on memory. -/
def addressOf : SSAOp → Option (SSAVar × String)
  | .Load _ space addr | .Store space addr _ | .LoadLinked _ space addr _
  | .StoreConditional _ space addr _ _ | .AtomicCAS _ space addr _ _ _
  | .LoadGuarded _ space addr _ _ | .StoreGuarded space addr _ _ _ => some (addr, space)
  | _ => none

def addOp (facts : Option DecompilePrepFacts) (graph : SsaGraph) (builder : ObjectModelBuilder)
    (op : SSAOp) : ObjectModelBuilder :=
  match addressOf op with
  | some (addr, space) => builder.objectForAddressValue facts graph addr space
  | none => builder

def baseRank : StackAddressBase → Nat
  | .FramePointer => 0
  | .StackPointer => 1

/-- The derived order of roots. -/
def rootLe (lhs rhs : StackAddressRoot) : Bool :=
  decide (baseRank lhs.base < baseRank rhs.base) ||
    (decide (baseRank lhs.base = baseRank rhs.base) && decide (lhs.offset ≤ rhs.offset))

/-- An object for each stack root, then one for each variable that has a root. -/
def addRoots (graph : SsaGraph) (builder : ObjectModelBuilder) (facts : DecompilePrepFacts) :
    ObjectModelBuilder :=
  let roots := facts.stackAddressRoots.entries.map Sigma.snd
  let builder := (roots.dedup.mergeSort rootLe).foldl (fun builder root =>
    (builder.ensureStackObject root).2) builder
  (facts.stackAddressRoots.entries.map Sigma.fst).foldl (fun builder var =>
    builder.objectForAddressValue (some facts) graph var "ram") builder

def build (facts : Option DecompilePrepFacts) (func : SSAFunction) (graph : SsaGraph) :
    ObjectModel :=
  let builder := match facts with
    | some facts => new.addRoots graph facts
    | none => new
  let builder := func.blockList.foldl (fun builder block =>
    block.ops.foldl (addOp facts graph) builder) builder
  ⟨builder.objects, builder.valueObjects, builder.stackObjects, builder.globalObjects,
    some builder.escapedUnknown⟩

end ObjectModelBuilder

/-! ## Call sites -/

inductive CallMemoryEffect where
  | ReadOnly
  | WriteOnly
  | ReadWrite
  | Alloc
  | Free
  | Unknown
deriving DecidableEq, Repr

structure CallSiteFact where
  id : Nat
  inst : InstId
  target : Nat
  directTarget : Option Word
  fallthrough : Option Nat
  memoryEffect : CallMemoryEffect
deriving DecidableEq, Repr

structure CallSiteFacts where
  byId : BTreeMap Nat CallSiteFact
  byInst : BTreeMap InstId Nat

def callTarget : SSAOp → Option SSAVar
  | .Call target | .CallInd target => some target
  | _ => none

def callFallthrough : BlockTerminator → Option Nat
  | .Call _ fallthrough | .IndirectCall fallthrough => fallthrough
  | _ => none

/-- The facts so far, with the next identifier. -/
def collectCallSite (graph : SsaGraph) (blockAddr : Nat) (block : SSABlock)
    (fallthrough : Option Nat) (acc : CallSiteFacts × Nat) (entry : SSAOp × Nat) :
    CallSiteFacts × Nat :=
  let found := do
    let target ← callTarget entry.1
    let inst ← graph.opInstBySite.lookup (blockAddr, entry.2)
    let targetId ← graph.valueByVar.lookup target
    some (target, inst, targetId)
  match found with
  | none => acc
  | some (target, inst, targetId) =>
    let id := acc.2
    let fact : CallSiteFact :=
      { id := id
        inst := inst
        target := targetId
        directTarget := resolveConstValue none target
        fallthrough := if entry.2 + 1 = block.ops.length then fallthrough else none
        memoryEffect := .Unknown }
    (⟨acc.1.byId.insert id fact, acc.1.byInst.insert inst id⟩, id + 1)

def collectCallSites (func : SSAFunction) (graph : SsaGraph) : CallSiteFacts :=
  (func.blockOrder.foldl (fun acc addr =>
    match func.getBlock addr with
    | none => acc
    | some block =>
      let fallthrough := (func.cfg.getBlock addr).bind fun cfgBlock =>
        callFallthrough cfgBlock.terminator
      block.ops.zipIdx.foldl (collectCallSite graph addr block fallthrough) acc)
    (⟨.empty, .empty⟩, 0)).1

/-! ## Accesses -/

structure AccessSummary where
  uses : List MemoryLocation
  defs : List MemoryLocation
deriving DecidableEq, Repr

def memoryLocationForAddr (facts : Option DecompilePrepFacts) (model : ObjectModel)
    (graph : SsaGraph) (addr : SSAVar) (space : String) (size : Nat) : MemoryLocation :=
  let ofValue := (graph.valueByVar.lookup addr).bind model.valueObjects.lookup
  let ofStack := (resolveStackRoot facts addr).bind model.stackObjects.lookup
  let ofGlobal := (resolveConstValue facts addr).bind fun address =>
    model.globalObjects.lookup ⟨space, address⟩
  ⟨(((ofValue.or ofStack).or ofGlobal).or model.escapedUnknown).getD 0, 0, size⟩

/-- What an operation reads and writes. A call does both to the unknown object,
where it is a call site. -/
def accessOf (locate : SSAVar → String → Nat → MemoryLocation) (escapedUnknown : ObjectId)
    (isCallSite : Bool) : SSAOp → AccessSummary
  | .Load dst space addr | .LoadLinked dst space addr _ | .LoadGuarded dst space addr _ _ =>
    ⟨[locate addr space dst.size], []⟩
  | .Store space addr val | .StoreGuarded space addr val _ _ => ⟨[], [locate addr space val.size]⟩
  | .StoreConditional _ space addr val _ =>
    ⟨[locate addr space val.size], [locate addr space val.size]⟩
  | .AtomicCAS _ space addr expected replacement _ =>
    let location := locate addr space (max expected.size replacement.size)
    ⟨[location], [location]⟩
  | .Call _ | .CallInd _ =>
    if isCallSite then ⟨[⟨escapedUnknown, 0, 0⟩], [⟨escapedUnknown, 0, 0⟩]⟩ else ⟨[], []⟩
  | _ => ⟨[], []⟩

def collectAccess (facts : Option DecompilePrepFacts) (graph : SsaGraph) (model : ObjectModel)
    (callSites : CallSiteFacts) (addr : Nat) (summaries : BTreeMap InstId AccessSummary)
    (entry : SSAOp × Nat) : BTreeMap InstId AccessSummary :=
  match graph.opInstBySite.lookup (addr, entry.2) with
  | none => summaries
  | some inst =>
    let access := accessOf (memoryLocationForAddr facts model graph)
      (model.escapedUnknown.getD 0) (callSites.byInst.get? inst).isSome entry.1
    if access.uses.isEmpty && access.defs.isEmpty then summaries
    else summaries.insert inst access

def collectAccessSummaries (func : SSAFunction) (graph : SsaGraph)
    (facts : Option DecompilePrepFacts) (model : ObjectModel) (callSites : CallSiteFacts) :
    BTreeMap InstId AccessSummary :=
  func.blockList.foldl (fun summaries block =>
    block.ops.zipIdx.foldl (collectAccess facts graph model callSites block.addr) summaries) .empty

/-! ## Every location names an object -/

namespace ObjectModelBuilder

/-- What the tables name are objects. -/
structure WellFormed (builder : ObjectModelBuilder) : Prop where
  escaped : builder.escapedUnknown ∈ builder.objects.keys
  values : ∀ value object, builder.valueObjects.lookup value = some object →
    object ∈ builder.objects.keys
  stack : ∀ root object, builder.stackObjects.lookup root = some object →
    object ∈ builder.objects.keys
  globals : ∀ key object, builder.globalObjects.lookup key = some object →
    object ∈ builder.objects.keys

theorem wellFormed_new : new.WellFormed :=
  ⟨(BTreeMap.keys_insert _ _ _ _).mpr (Or.inl rfl), nofun, nofun, nofun⟩

variable {builder : ObjectModelBuilder}

theorem WellFormed.allocObject (wellFormed : builder.WellFormed) (kind : ObjectKind) :
    (builder.allocObject kind).2.WellFormed ∧
      (builder.allocObject kind).1 ∈ (builder.allocObject kind).2.objects.keys := by
  have kept : ∀ object ∈ builder.objects.keys,
      object ∈ (builder.allocObject kind).2.objects.keys := fun object mem =>
    (BTreeMap.keys_insert _ _ _ _).mpr (Or.inr mem)
  exact ⟨⟨kept _ wellFormed.escaped, fun value object found => kept _ (wellFormed.values value object found),
    fun root object found => kept _ (wellFormed.stack root object found),
    fun key object found => kept _ (wellFormed.globals key object found)⟩,
    (BTreeMap.keys_insert _ _ _ _).mpr (Or.inl rfl)⟩

theorem forall_lookup_insert {K : Type} [DecidableEq K] {table : HashMap K ObjectId} {k : K}
    {object : ObjectId} {P : ObjectId → Prop} (new : P object)
    (old : ∀ k' o, table.lookup k' = some o → P o) :
    ∀ k' o, (table.insert k object).lookup k' = some o → P o := by
  intro k' o found
  by_cases same : k' = k
  · subst same
    rw [AList.lookup_insert] at found
    exact Option.some.inj found ▸ new
  · rw [AList.lookup_insert_ne same] at found
    exact old k' o found

section

variable (wellFormed : builder.WellFormed)
include wellFormed

theorem WellFormed.ensureStackObject (root : StackAddressRoot) :
    (builder.ensureStackObject root).2.WellFormed ∧
      (builder.ensureStackObject root).1 ∈ (builder.ensureStackObject root).2.objects.keys := by
  unfold ObjectModelBuilder.ensureStackObject
  split
  · rename_i object found
    exact ⟨wellFormed, wellFormed.stack root object found⟩
  · obtain ⟨after, isKey⟩ := wellFormed.allocObject (.StackSlot root.base root.offset)
    exact ⟨⟨after.escaped, after.values, forall_lookup_insert isKey after.stack, after.globals⟩,
      isKey⟩

theorem WellFormed.ensureGlobalObject (key : GlobalObjectKey) :
    (builder.ensureGlobalObject key).2.WellFormed ∧
      (builder.ensureGlobalObject key).1 ∈ (builder.ensureGlobalObject key).2.objects.keys := by
  unfold ObjectModelBuilder.ensureGlobalObject
  split
  · rename_i object found
    exact ⟨wellFormed, wellFormed.globals key object found⟩
  · obtain ⟨after, isKey⟩ := wellFormed.allocObject (.Global key.space key.address)
    exact ⟨⟨after.escaped, after.values, after.stack, forall_lookup_insert isKey after.globals⟩,
      isKey⟩

theorem WellFormed.setValueObject (value : Nat)
    {object : ObjectId} (isKey : object ∈ builder.objects.keys) :
    (builder.setValueObject value object).WellFormed :=
  ⟨wellFormed.escaped, forall_lookup_insert isKey wellFormed.values, wellFormed.stack,
    wellFormed.globals⟩

theorem WellFormed.objectForAddressValue
    (facts : Option DecompilePrepFacts) (graph : SsaGraph) (value : SSAVar) (space : String) :
    (builder.objectForAddressValue facts graph value space).WellFormed := by
  unfold ObjectModelBuilder.objectForAddressValue
  split
  · exact wellFormed
  · split
    · exact wellFormed
    · split
      · rename_i root _
        obtain ⟨after, isKey⟩ := wellFormed.ensureStackObject root
        exact after.setValueObject _ isKey
      · split
        · rename_i address _
          obtain ⟨after, isKey⟩ := wellFormed.ensureGlobalObject ⟨space, address⟩
          exact after.setValueObject _ isKey
        · exact wellFormed.setValueObject _ wellFormed.escaped

end

theorem foldl_wellFormed {A : Type} {step : ObjectModelBuilder → A → ObjectModelBuilder}
    (kept : ∀ builder a, builder.WellFormed → (step builder a).WellFormed) (l : List A) :
    ∀ builder : ObjectModelBuilder, builder.WellFormed → (l.foldl step builder).WellFormed := by
  induction l with
  | nil => exact fun _ wellFormed => wellFormed
  | cons a rest ih =>
    exact fun builder wellFormed => ih _ (kept builder a wellFormed)

theorem WellFormed.addOp (wellFormed : builder.WellFormed) (facts : Option DecompilePrepFacts)
    (graph : SsaGraph) (op : SSAOp) : (addOp facts graph builder op).WellFormed := by
  unfold ObjectModelBuilder.addOp
  split
  · exact wellFormed.objectForAddressValue ..
  · exact wellFormed

theorem WellFormed.addRoots (wellFormed : builder.WellFormed) (graph : SsaGraph)
    (facts : DecompilePrepFacts) : (builder.addRoots graph facts).WellFormed :=
  foldl_wellFormed (fun _ _ here => here.objectForAddressValue ..) _ _
    (foldl_wellFormed (fun _ root here => (here.ensureStackObject root).1) _ _ wellFormed)

end ObjectModelBuilder

structure ObjectModel.WellFormed (model : ObjectModel) : Prop where
  escaped : ∃ object ∈ model.objects.keys, model.escapedUnknown = some object
  values : ∀ value object, model.valueObjects.lookup value = some object →
    object ∈ model.objects.keys
  stack : ∀ root object, model.stackObjects.lookup root = some object → object ∈ model.objects.keys
  globals : ∀ key object, model.globalObjects.lookup key = some object → object ∈ model.objects.keys

/-- The builder registers every object that it hands out. -/
theorem wellFormed_build (facts : Option DecompilePrepFacts) (func : SSAFunction)
    (graph : SsaGraph) : (ObjectModelBuilder.build facts func graph).WellFormed := by
  have start : (match facts with
      | some facts => ObjectModelBuilder.new.addRoots graph facts
      | none => ObjectModelBuilder.new).WellFormed := by
    cases facts with
    | none => exact ObjectModelBuilder.wellFormed_new
    | some facts => exact ObjectModelBuilder.wellFormed_new.addRoots graph facts
  have built := ObjectModelBuilder.foldl_wellFormed (fun builder (block : SSABlock) here =>
    ObjectModelBuilder.foldl_wellFormed (fun _ op inner => inner.addOp facts graph op) block.ops
      builder here) func.blockList _ start
  exact ⟨⟨_, built.escaped, rfl⟩, built.values, built.stack, built.globals⟩

section

variable {model : ObjectModel} (wellFormed : model.WellFormed) (facts : Option DecompilePrepFacts)
  (graph : SsaGraph)
include wellFormed facts graph

theorem ObjectModel.WellFormed.memoryLocationForAddr
    (addr : SSAVar) (space : String) (size : Nat) :
    (memoryLocationForAddr facts model graph addr space size).object ∈ model.objects.keys := by
  obtain ⟨unknown, isKey, escaped⟩ := wellFormed.escaped
  unfold Semantic.memoryLocationForAddr
  rw [escaped]
  cases ofValue : (graph.valueByVar.lookup addr).bind model.valueObjects.lookup with
  | some object =>
    obtain ⟨value, -, found⟩ := Option.bind_eq_some_iff.mp ofValue
    exact wellFormed.values value object found
  | none =>
    cases ofStack : (resolveStackRoot facts addr).bind model.stackObjects.lookup with
    | some object =>
      obtain ⟨root, -, found⟩ := Option.bind_eq_some_iff.mp ofStack
      exact wellFormed.stack root object found
    | none =>
      cases ofGlobal : (resolveConstValue facts addr).bind fun address =>
          model.globalObjects.lookup ⟨space, address⟩ with
      | some object =>
        obtain ⟨address, -, found⟩ := Option.bind_eq_some_iff.mp ofGlobal
        exact wellFormed.globals _ object found
      | none => exact isKey

theorem ObjectModel.WellFormed.accessOf
    (isCallSite : Bool) (op : SSAOp) :
    let access := Semantic.accessOf (Semantic.memoryLocationForAddr facts model graph)
      (model.escapedUnknown.getD 0) isCallSite op
    ∀ location ∈ access.uses ++ access.defs, location.object ∈ model.objects.keys := by
  have located := wellFormed.memoryLocationForAddr facts graph
  have unknown : model.escapedUnknown.getD 0 ∈ model.objects.keys := by
    obtain ⟨object, isKey, escaped⟩ := wellFormed.escaped
    rwa [escaped]
  cases op <;> simp only [Semantic.accessOf, List.append_nil, List.nil_append, List.not_mem_nil,
    List.mem_append, List.mem_singleton, or_self, forall_eq, located, false_implies, implies_true]
  all_goals
    split
    · simpa using unknown
    · simp

end

/-- Every access is to an object of the model. -/
def Within (model : ObjectModel) (summaries : BTreeMap InstId AccessSummary) : Prop :=
  ∀ inst access, summaries.get? inst = some access →
    ∀ location ∈ access.uses ++ access.defs, location.object ∈ model.objects.keys

theorem Within.collectAccess {graph : SsaGraph} {facts : Option DecompilePrepFacts}
    {model : ObjectModel} (wellFormed : model.WellFormed) {callSites : CallSiteFacts}
    {summaries : BTreeMap InstId AccessSummary} (within : Within model summaries) (addr : Nat)
    (entry : SSAOp × Nat) :
    Within model (collectAccess facts graph model callSites addr summaries entry) := by
  intro inst access found
  unfold Semantic.collectAccess at found
  split at found
  · exact within inst access found
  · dsimp only at found
    split at found
    · exact within inst access found
    · rw [BTreeMap.get?_insert] at found
      split at found
      · obtain rfl := Option.some.inj found
        exact wellFormed.accessOf facts graph _ entry.1
      · exact within inst access found

theorem within_collectAccessSummaries {model : ObjectModel} (wellFormed : model.WellFormed)
    (func : SSAFunction) (graph : SsaGraph) (facts : Option DecompilePrepFacts)
    (callSites : CallSiteFacts) :
    Within model (collectAccessSummaries func graph facts model callSites) := by
  have inBlock : ∀ addr (entries : List (SSAOp × Nat)) summaries, Within model summaries →
      Within model (entries.foldl (collectAccess facts graph model callSites addr) summaries) := by
    intro addr entries
    induction entries with
    | nil => exact fun _ within => within
    | cons entry rest ih =>
      exact fun summaries within =>
        ih _ (within.collectAccess wellFormed addr entry)
  have pass : ∀ (blocks : List SSABlock) summaries, Within model summaries →
      Within model (blocks.foldl (fun summaries block =>
        block.ops.zipIdx.foldl (collectAccess facts graph model callSites block.addr) summaries)
          summaries) := by
    intro blocks
    induction blocks with
    | nil => exact fun _ within => within
    | cons block rest ih =>
      exact fun summaries within => ih _ (inBlock _ _ _ within)
  exact pass func.blockList .empty nofun

end R2Sleigh.Ssa.Semantic
