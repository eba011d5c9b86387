import R2Sleigh.Ssa.Machine
import R2Sleigh.Ssa.Slice
import R2Sleigh.Ssa.SsaGraphIndex

/-!
Contract: backward slices against the dependencies of the sink.

Owns `Needs`.
-/

namespace R2Sleigh.Ssa

open Il Lib List

/-! ## Dependencies -/

namespace SSAFunction

variable (func : SSAFunction)

def phiAt (blockAddr phiIdx : Nat) : Option PhiNode :=
  (func.getBlock blockAddr).bind fun block => block.phis[phiIdx]?

def opAt (blockAddr opIdx : Nat) : Option SSAOp :=
  (func.getBlock blockAddr).bind fun block => block.ops[opIdx]?

def sourcesOf : SliceOpRef → List SSAVar
  | .Phi blockAddr phiIdx =>
    (func.phiAt blockAddr phiIdx).elim [] fun phi => phi.sources.map Prod.snd
  | .Op blockAddr opIdx => (func.opAt blockAddr opIdx).elim [] SSAOp.sources

def dstOf : SliceOpRef → Option SSAVar
  | .Phi blockAddr phiIdx => (func.phiAt blockAddr phiIdx).map PhiNode.dst
  | .Op blockAddr opIdx => (func.opAt blockAddr opIdx).bind SSAOp.dst

/-- A store to a space that the names of the addresses let alias. -/
def Aliases (space : String) (addr : SSAVar) (size : Nat) (ref : SliceOpRef) : Prop :=
  ∃ blockAddr opIdx storeAddr val, ref = .Op blockAddr opIdx ∧
    func.opAt blockAddr opIdx = some (.Store space storeAddr val) ∧
    addressesMayAlias storeAddr val.size addr size = true

/-- A load may read what a store writes, as the names say. -/
def LoadAliases (op : SSAOp) (ref : SliceOpRef) : Prop :=
  ∃ dst space addr, op = .Load dst space addr ∧ func.Aliases space addr dst.size ref

/-- A store may overwrite what another writes, as the names say. -/
def StoreAliases (op : SSAOp) (ref : SliceOpRef) : Prop :=
  ∃ space addr val, op = .Store space addr val ∧ func.Aliases space addr val.size ref

/-- The stores that a member of a slice may read. -/
def StoresOf (a b : SliceOpRef) : Prop :=
  ∃ blockAddr opIdx op, a = .Op blockAddr opIdx ∧ func.opAt blockAddr opIdx = some op ∧
    func.LoadAliases op b

/-- What the walk follows: definitions of sources, and stores that a load may read. -/
def Needs (a b : SliceOpRef) : Prop :=
  (∃ var ∈ func.sourcesOf a, func.findDef var = some b) ∨ func.StoresOf a b

end SSAFunction

inductive SliceSink where
  | Var (var : SSAVar)
  | At (ref : SliceOpRef)

def backwardSlice (toUppercase : String → String) (func : SSAFunction) (fuel : Nat) :
    SliceSink → Option BackwardSlice
  | .Var var => backwardSliceFromVar toUppercase func var fuel
  | .At ref => backwardSliceFromOp toUppercase func ref fuel

/-- What a sink starts with: the definition of a variable; an operation, and for a
store the stores that may alias it. -/
def SliceSink.Starts (func : SSAFunction) : SliceSink → SliceOpRef → Prop
  | .Var var, ref => func.findDef var = some ref
  | .At (.Phi blockAddr phiIdx), ref =>
    (func.phiAt blockAddr phiIdx).isSome ∧ ref = .Phi blockAddr phiIdx
  | .At (.Op blockAddr opIdx), ref => ∃ op, func.opAt blockAddr opIdx = some op ∧
      (ref = .Op blockAddr opIdx ∨ func.LoadAliases op ref ∨ func.StoreAliases op ref)

def SliceSink.LeadsTo (func : SSAFunction) (sink : SliceSink) (ref : SliceOpRef) : Prop :=
  ∃ start, sink.Starts func start ∧ Relation.ReflTransGen func.Needs start ref

def SliceSink.vars : SliceSink → List SSAVar
  | .Var var => [var]
  | .At _ => []

/-- The sink, or a source of what it leads to. -/
def SliceSink.Meets (func : SSAFunction) (sink : SliceSink) (var : SSAVar) : Prop :=
  var ∈ sink.vars ∨ ∃ ref, sink.LeadsTo func ref ∧ var ∈ func.sourcesOf ref

/-- Variables of one display name that the walk may meet have one definition. -/
def TellsApart (toUppercase : String → String) (func : SSAFunction) (sink : SliceSink) : Prop :=
  ∀ u v, sink.Meets func u → sink.Meets func v →
    displayName toUppercase u = displayName toUppercase v → func.findDef u = func.findDef v

/-! ## Executions -/

/-- In some execution the one operation writes a byte that the other reads later. -/
def CanWrite (bigEndian : Bool) (func : SSAFunction) (writer reader : SliceOpRef) : Prop :=
  ∃ (start : Point) (b i c j : Nat) (before after there : Machine) (write read : SSAOp)
    (written readRun : Run) (val : SSAVar) (address : Nat),
    writer = .Op b i ∧ reader = .Op c j ∧
    func.opAt b i = some write ∧ func.opAt c j = some read ∧ Starts func start ∧
    Leads bigEndian func start ⟨b, i, before⟩ ∧ before.Executes bigEndian write true after ∧
    Leads bigEndian func ⟨b, i + 1, after⟩ ⟨c, j, there⟩ ∧ there.Reads read ∧
    write.writeRun = some (written, val) ∧ read.readRun = some readRun ∧
    written.space = readRun.space ∧ address ∈ before.addresses written ∧
    address ∈ there.addresses readRun

/-- A slice holds the definitions of its sources and all writes to what it reads. -/
structure BackwardSlice.Closed (slice : BackwardSlice) (bigEndian : Bool) (func : SSAFunction) :
    Prop where
  data : ∀ ref ∈ slice.ops, ∀ var ∈ func.sourcesOf ref, ∀ definition,
    func.dstOf definition = some var → definition ∈ slice.ops
  memory : ∀ reader ∈ slice.ops, ∀ writer, CanWrite bigEndian func writer reader →
    writer ∈ slice.ops

/-! ## Definitions -/

/-- The definitions of a block, in order. -/
def SSABlock.defPairs (block : SSABlock) : List (SSAVar × SliceOpRef) :=
  block.phis.zipIdx.map (fun entry => (entry.1.dst, .Phi block.addr entry.2)) ++
    block.ops.zipIdx.filterMap fun entry =>
      entry.1.dst.map fun dst => (dst, .Op block.addr entry.2)

private theorem defIndex_eq (func : SSAFunction) : defIndex func =
    (func.blockList.flatMap SSABlock.defPairs).foldl (fun m entry => m.insert entry.1 entry.2) ∅ := by
  rw [defIndex, foldl_flatMap]
  refine congrFun (congrFun (congrArg List.foldl (funext fun defs => funext fun block => ?_)) _) _
  rw [SSABlock.defPairs, foldl_append, foldl_map, foldl_filterMap]
  refine congrFun (congrFun (congrArg List.foldl (funext fun defs => funext fun entry => ?_)) _) _
  cases entry.1.dst <;> rfl

private theorem map_fst_defPairs (block : SSABlock) : block.defPairs.map Prod.fst = block.dsts := by
  have phis : (block.phis.zipIdx.map fun entry : PhiNode × Nat =>
      (entry.1.dst, SliceOpRef.Phi block.addr entry.2)).map Prod.fst = block.phis.map PhiNode.dst := by
    conv_rhs => rw [← zipIdx_map_fst 0 block.phis]
    rw [map_map, map_map]
    rfl
  have ops : (block.ops.zipIdx.filterMap fun entry : SSAOp × Nat =>
      entry.1.dst.map fun dst => (dst, SliceOpRef.Op block.addr entry.2)).map Prod.fst =
      block.ops.filterMap SSAOp.dst := by
    conv_rhs => rw [← zipIdx_map_fst 0 block.ops]
    rw [map_filterMap, filterMap_map]
    refine congrFun (congrArg List.filterMap (funext fun entry => ?_)) _
    rw [Option.map_map]
    exact Option.map_id'
  rw [SSABlock.defPairs, map_append, phis, ops]
  rfl

section Definitions

variable {func : SSAFunction} (assigned : func.Assigned) (indexed : func.Indexed)
include assigned indexed

variable {var : SSAVar}

private theorem mem_defPairs {ref : SliceOpRef} :
    (var, ref) ∈ func.blockList.flatMap SSABlock.defPairs ↔ func.dstOf ref = some var := by
  rw [mem_flatMap]
  constructor
  · rintro ⟨block, listed, mem⟩
    obtain ⟨addr, found⟩ := assigned.mem_blockList.mp listed
    rcases mem_append.mp mem with isPhi | isOp
    · obtain ⟨⟨phi, phiIdx⟩, position, same⟩ := mem_map.mp isPhi
      cases same
      rw [SSAFunction.dstOf, SSAFunction.phiAt, indexed.addr found, found, Option.bind_some,
        mk_mem_zipIdx_iff_getElem?.mp position]
      rfl
    · obtain ⟨⟨op, opIdx⟩, position, isPair⟩ := mem_filterMap.mp isOp
      obtain ⟨dst, isDst, same⟩ := Option.map_eq_some_iff.mp isPair
      cases same
      rw [SSAFunction.dstOf, SSAFunction.opAt, indexed.addr found, found, Option.bind_some,
        mk_mem_zipIdx_iff_getElem?.mp position]
      exact isDst
  · intro isDst
    cases ref with
    | Phi addr phiIdx =>
      obtain ⟨phi, isPhi, rfl⟩ := Option.map_eq_some_iff.mp isDst
      obtain ⟨block, found, position⟩ := Option.bind_eq_some_iff.mp isPhi
      refine ⟨block, indexed.mem_blockList found, mem_append_left _ (mem_map.mpr
        ⟨(phi, phiIdx), mk_mem_zipIdx_iff_getElem?.mpr position, ?_⟩)⟩
      rw [indexed.addr found]
    | Op addr opIdx =>
      obtain ⟨op, isOp, isDst⟩ := Option.bind_eq_some_iff.mp isDst
      obtain ⟨block, found, position⟩ := Option.bind_eq_some_iff.mp isOp
      refine ⟨block, indexed.mem_blockList found, mem_append_right _ (mem_filterMap.mpr
        ⟨(op, opIdx), mk_mem_zipIdx_iff_getElem?.mpr position, ?_⟩)⟩
      rw [isDst, indexed.addr found]
      rfl

private theorem findDef_eq_some_iff {ref : SliceOpRef} :
    func.findDef var = some ref ↔ func.dstOf ref = some var := by
  have keys : ((func.blockList.flatMap SSABlock.defPairs).map Prod.fst).Nodup := by
    rw [map_flatMap, flatMap_congr fun block _ => map_fst_defPairs block]
    exact assigned.nodup_dsts
  rw [SSAFunction.findDef, defIndex_eq, HashMap.lookup_foldl_insert Prod.fst Prod.snd keys,
    ← mem_defPairs assigned indexed]
  constructor
  · rintro (⟨⟨var', ref'⟩, mem, rfl, rfl⟩ | ⟨-, stored⟩)
    · exact mem
    · cases stored
  · exact fun mem => Or.inl ⟨(var, ref), mem, rfl, rfl⟩

end Definitions

theorem exists_op_site {func : SSAFunction} (indexed : func.Indexed) {addr opIdx : Nat} {op : SSAOp}
    (isOp : func.opAt addr opIdx = some op) :
    ∃ block, block.addr = addr ∧ Site.op block opIdx op ∈ func.sites := by
  obtain ⟨block, found, position⟩ := Option.bind_eq_some_iff.mp isOp
  refine ⟨block, indexed.addr found, mem_flatMap.mpr ⟨block, indexed.mem_blockList found,
    mem_append_right _ (mem_map.mpr ⟨(op, opIdx), ?_, rfl⟩)⟩⟩
  exact mk_mem_zipIdx_iff_getElem?.mpr position

/-! ## Growing walks -/

/-- Operations are added, and the sources of those that are new wait. -/
structure Walk.Grows (func : SSAFunction) (added : SliceOpRef → Prop) (walk walk' : Walk) : Prop where
  ops : ∀ ref, ref ∈ walk'.slice.ops ↔ ref ∈ walk.slice.ops ∨ added ref
  visited : walk'.visited = walk.visited
  kept : ∀ var ∈ walk.worklist, var ∈ walk'.worklist
  waiting : ∀ var ∈ walk'.worklist, var ∈ walk.worklist ∨ ∃ ref, added ref ∧ var ∈ func.sourcesOf ref
  sources : ∀ ref, added ref → ref ∉ walk.slice.ops → ∀ var ∈ func.sourcesOf ref,
    var ∈ walk'.worklist

namespace Walk.Grows

variable {func : SSAFunction} {added added' : SliceOpRef → Prop} {walk walk' walk'' : Walk}

theorem refl (none : ∀ ref, added ref → ref ∈ walk.slice.ops) : walk.Grows func added walk where
  ops ref := ⟨Or.inl, fun either => either.elim id (none ref)⟩
  visited := rfl
  kept _ mem := mem
  waiting _ mem := Or.inl mem
  sources ref isAdded outside := absurd (none ref isAdded) outside

theorem trans (first : walk.Grows func added walk') (second : walk'.Grows func added' walk'') :
    walk.Grows func (fun ref => added ref ∨ added' ref) walk'' where
  ops ref := by rw [second.ops, first.ops, or_assoc]
  visited := second.visited.trans first.visited
  kept var mem := second.kept var (first.kept var mem)
  waiting var mem := by
    rcases second.waiting var mem with early | ⟨ref, isAdded, isSource⟩
    · rcases first.waiting var early with here | ⟨ref, isAdded, isSource⟩
      · exact Or.inl here
      · exact Or.inr ⟨ref, Or.inl isAdded, isSource⟩
    · exact Or.inr ⟨ref, Or.inr isAdded, isSource⟩
  sources ref isAdded outside var isSource := by
    by_cases here : added ref
    · exact second.kept var (first.sources ref here outside var isSource)
    · refine second.sources ref (isAdded.resolve_left here) (fun inside => ?_) var isSource
      exact ((first.ops ref).mp inside).elim outside here

theorem congr (grows : walk.Grows func added walk') (same : ∀ ref, added ref ↔ added' ref) :
    walk.Grows func added' walk' := by
  rwa [show added' = added from funext fun ref => propext (same ref).symm]

theorem add (ref : SliceOpRef) {vars : List SSAVar} (isSources : vars = func.sourcesOf ref)
    (walk : Walk) : walk.Grows func (· = ref) (walk.add ref vars).2 := by
  unfold Walk.add BackwardSlice.addOp
  by_cases inside : ref ∈ walk.slice.ops
  · rw [if_pos inside]
    exact refl fun other same => same ▸ inside
  · rw [if_neg inside]
    refine ⟨fun other => ?_, rfl, fun var mem => mem_append_left _ mem,
      fun var mem => ?_, fun other isAdded _ var isSource => mem_append_right _ ?_⟩
    · rw [Finset.mem_insert, or_comm]
    · rcases mem_append.mp mem with early | late
      · exact Or.inl early
      · exact Or.inr ⟨ref, rfl, isSources ▸ late⟩
    · rw [isSources]
      exact isAdded ▸ isSource

end Walk.Grows

variable {walk : Walk}

private theorem add_fst {ref : SliceOpRef} {vars : List SSAVar} :
    (walk.add ref vars).1 = true ↔ ref ∉ walk.slice.ops := by
  unfold Walk.add BackwardSlice.addOp
  by_cases inside : ref ∈ walk.slice.ops
  · rw [if_pos inside]
    exact iff_of_false Bool.false_ne_true (not_not.mpr inside)
  · rw [if_neg inside]
    exact iff_of_true rfl inside

section Stores

variable {func : SSAFunction} (indexed : func.Indexed)
include indexed

theorem opAt_of_store {store : StoreInfo} (mem : store ∈ collectStoreInfos func) :
    func.opAt store.blockAddr store.opIdx = some (.Store store.space store.addr store.val) ∧
      store.accessSize = store.val.size := by
  obtain ⟨block, listed, inBlock⟩ := mem_flatMap.mp mem
  obtain ⟨addr, -, found⟩ := mem_filterMap.mp listed
  obtain ⟨entry, inOps, isStore⟩ := mem_filterMap.mp inBlock
  obtain ⟨op, opIdx⟩ := entry
  have position := mk_mem_zipIdx_iff_getElem?.mp inOps
  cases op <;> try cases isStore
  rw [SSAFunction.opAt, indexed.addr found, found]
  exact ⟨position, rfl⟩

private theorem aliases_iff {space : String} {addr : SSAVar} {size : Nat} {ref : SliceOpRef} :
    func.Aliases space addr size ref ↔ ∃ store ∈ collectStoreInfos func,
      ref = .Op store.blockAddr store.opIdx ∧ store.space = space ∧
        addressesMayAlias store.addr store.accessSize addr size = true := by
  constructor
  · rintro ⟨blockAddr, opIdx, storeAddr, val, rfl, isOp, mayAlias⟩
    obtain ⟨block, found, position⟩ := Option.bind_eq_some_iff.mp isOp
    refine ⟨⟨blockAddr, opIdx, space, storeAddr, val, val.size⟩, mem_flatMap.mpr ⟨block,
      indexed.mem_blockList found, mem_filterMap.mpr ⟨_, mk_mem_zipIdx_iff_getElem?.mpr position,
        ?_⟩⟩, rfl, rfl, mayAlias⟩
    rw [storeInfo, indexed.addr found]
  · rintro ⟨store, mem, rfl, rfl, mayAlias⟩
    obtain ⟨isOp, size⟩ := opAt_of_store indexed mem
    exact ⟨_, _, _, _, rfl, isOp, size ▸ mayAlias⟩

private theorem sourcesOf_store {store : StoreInfo} (mem : store ∈ collectStoreInfos func) :
    [store.addr, store.val] = func.sourcesOf (.Op store.blockAddr store.opIdx) := by
  rw [SSAFunction.sourcesOf, (opAt_of_store indexed mem).1]
  rfl

theorem grows_addAliasingStores (space : String) (addr : SSAVar) (size : Nat) (walk : Walk) :
    walk.Grows func (func.Aliases space addr size)
      (addAliasingStores (collectStoreInfos func) space addr size walk) := by
  have pass : ∀ (stores : List StoreInfo), (∀ store ∈ stores, store ∈ collectStoreInfos func) →
      ∀ walk : Walk, walk.Grows func (fun ref => ∃ store ∈ stores,
        ref = .Op store.blockAddr store.opIdx ∧ store.space = space ∧
          addressesMayAlias store.addr store.accessSize addr size = true)
        (addAliasingStores stores space addr size walk) := by
    intro stores
    induction stores with
    | nil => exact fun _ walk => .refl fun _ ⟨_, mem, _⟩ => nomatch mem
    | cons store rest ih =>
      intro members walk
      obtain ⟨here, later⟩ := forall_mem_cons.mp members
      have grows : walk.Grows func (fun ref => ref = .Op store.blockAddr store.opIdx ∧
          store.space = space ∧ addressesMayAlias store.addr store.accessSize addr size = true)
          (if store.space ≠ space then walk
            else if !addressesMayAlias store.addr store.accessSize addr size then walk
            else (walk.add (.Op store.blockAddr store.opIdx) [store.addr, store.val]).2) := by
        by_cases same : store.space = space
        · rw [if_neg (not_not.mpr same)]
          cases mayAlias : addressesMayAlias store.addr store.accessSize addr size with
          | false => exact .refl fun _ ⟨_, _, isAlias⟩ => nomatch isAlias
          | true =>
            refine (Walk.Grows.add _ (sourcesOf_store indexed here) walk).congr fun ref => ?_
            exact ⟨fun isRef => ⟨isRef, same, rfl⟩, And.left⟩
        · rw [if_pos same]
          exact .refl fun _ ⟨_, isSpace, _⟩ => absurd isSpace same
      refine (grows.trans (ih later _)).congr fun ref => ?_
      rw [exists_mem_cons_iff]
  exact (pass _ (fun _ mem => mem) walk).congr fun ref => (aliases_iff indexed).symm

theorem grows_addAliasingOfLoad (op : SSAOp) (walk : Walk) :
    walk.Grows func (func.LoadAliases op)
      (addAliasingOfLoad (collectStoreInfos func) op walk) := by
  unfold addAliasingOfLoad
  split
  · rename_i dst space addr
    refine (grows_addAliasingStores indexed space addr dst.size walk).congr fun ref => ?_
    constructor
    · exact fun aliases => ⟨dst, space, addr, rfl, aliases⟩
    · rintro ⟨_, _, _, same, aliases⟩
      obtain ⟨rfl, rfl, rfl⟩ := SSAOp.Load.inj same
      exact aliases
  · rename_i notLoad
    exact .refl fun _ ⟨dst, space, addr, isLoad, _⟩ => absurd isLoad (notLoad dst space addr)

private theorem grows_addAliasingOfStore (op : SSAOp) (walk : Walk) :
    walk.Grows func (func.StoreAliases op)
      (addAliasingOfStore (collectStoreInfos func) op walk) := by
  unfold addAliasingOfStore
  split
  · rename_i space addr val
    refine (grows_addAliasingStores indexed space addr val.size walk).congr fun ref => ?_
    constructor
    · exact fun aliases => ⟨space, addr, val, rfl, aliases⟩
    · rintro ⟨_, _, _, same, aliases⟩
      obtain ⟨rfl, rfl, rfl⟩ := SSAOp.Store.inj same
      exact aliases
  · rename_i notStore
    exact .refl fun _ ⟨space, addr, val, isStore, _⟩ => absurd isStore (notStore space addr val)

/-- A visit adds a definition and the stores that it may read. -/
theorem grows_visitDef (ref : SliceOpRef)
    (loads : ref ∈ walk.slice.ops → ∀ next, func.StoresOf ref next → next ∈ walk.slice.ops) :
    walk.Grows func (fun next => next = ref ∨ func.StoresOf ref next)
      (visitDef func (collectStoreInfos func) walk ref) := by
  cases ref with
  | Phi blockAddr phiIdx =>
    refine (Walk.Grows.add (.Phi blockAddr phiIdx) rfl walk).congr fun next => ?_
    refine (or_iff_left ?_).symm
    rintro ⟨_, _, _, same, -⟩
    cases same
  | Op blockAddr opIdx =>
    have storesOf : ∀ next, func.StoresOf (.Op blockAddr opIdx) next ↔
        ∃ op, func.opAt blockAddr opIdx = some op ∧ func.LoadAliases op next := fun next => by
      constructor
      · rintro ⟨_, _, op, same, found, aliases⟩
        obtain ⟨rfl, rfl⟩ := SliceOpRef.Op.inj same
        exact ⟨op, found, aliases⟩
      · exact fun ⟨op, found, aliases⟩ => ⟨_, _, op, rfl, found, aliases⟩
    have added : walk.Grows func (· = .Op blockAddr opIdx) (walk.add (.Op blockAddr opIdx)
      ((func.opAt blockAddr opIdx).elim [] SSAOp.sources)).2 := .add _ rfl walk
    have unfolded : visitDef func (collectStoreInfos func) walk (.Op blockAddr opIdx) =
        (func.opAt blockAddr opIdx).elim (walk.add (.Op blockAddr opIdx) []).2 fun op =>
          if (walk.add (.Op blockAddr opIdx) op.sources).1 then
            addAliasingOfLoad (collectStoreInfos func) op
              (walk.add (.Op blockAddr opIdx) op.sources).2
          else (walk.add (.Op blockAddr opIdx) op.sources).2 := by
      rw [visitDef, SSAFunction.opAt]
      cases (func.getBlock blockAddr).bind fun block => block.ops[opIdx]? <;> rfl
    rw [unfolded]
    cases found : func.opAt blockAddr opIdx with
    | none =>
      rw [found] at added
      refine added.congr fun next => (or_iff_left fun isStore => ?_).symm
      obtain ⟨op, isOp, -⟩ := (storesOf next).mp isStore
      rw [found] at isOp
      cases isOp
    | some op =>
      rw [found] at added
      rw [Option.elim_some]
      split
      · refine (added.trans (grows_addAliasingOfLoad indexed op _)).congr fun next => ?_
        refine or_congr_right ((storesOf next).trans ?_).symm
        rw [found]
        simp only [Option.some.injEq, exists_eq_left']
      · rename_i old
        have inside : SliceOpRef.Op blockAddr opIdx ∈ walk.slice.ops :=
          not_not.mp (mt add_fst.mpr old)
        exact added.trans (.refl fun next isStore =>
          (added.ops next).mpr (Or.inl (loads inside next isStore)))

end Stores

/-! ## The walk -/

section Walks

variable (toUppercase : String → String) (func : SSAFunction) (sink : SliceSink)

/-- The invariant of the walk, while some definitions are still to be added. -/
structure Walking (pending : SliceOpRef → Prop) (walk : Walk) : Prop where
  ops : ∀ ref ∈ walk.slice.ops, sink.LeadsTo func ref
  waiting : ∀ var ∈ walk.worklist, sink.Meets func var ∧
    ∀ ref, func.findDef var = some ref → sink.LeadsTo func ref
  starts : ∀ ref, sink.Starts func ref → ref ∈ walk.slice.ops ∨ ∃ var, sink.Meets func var ∧
    func.findDef var = some ref ∧ (var ∈ walk.worklist ∨ displayName toUppercase var ∈ walk.visited)
  sources : ∀ ref ∈ walk.slice.ops, ∀ var ∈ func.sourcesOf ref,
    var ∈ walk.worklist ∨ displayName toUppercase var ∈ walk.visited
  stores : ∀ ref ∈ walk.slice.ops, ∀ next, func.StoresOf ref next → next ∈ walk.slice.ops
  visited : ∀ key ∈ walk.visited, ∃ var, sink.Meets func var ∧ displayName toUppercase var = key ∧
    ∀ ref, func.findDef var = some ref → ref ∈ walk.slice.ops ∨ pending ref

variable {toUppercase func sink} {pending : SliceOpRef → Prop}

theorem SliceSink.LeadsTo.needs {a b : SliceOpRef} (leads : sink.LeadsTo func a)
    (needs : func.Needs a b) : sink.LeadsTo func b := by
  obtain ⟨start, isStart, path⟩ := leads
  exact ⟨start, isStart, path.tail needs⟩

theorem SliceSink.Meets.mem_sources (indexed : func.Indexed) (meets : sink.Meets func var) :
    var ∈ sink.vars ++ func.sites.flatMap Site.sources := by
  rcases meets with isSink | ⟨ref, -, isSource⟩
  · exact mem_append_left _ isSink
  refine mem_append_right _ (mem_flatMap.mpr ?_)
  cases ref with
  | Phi addr phiIdx =>
    cases isPhi : func.phiAt addr phiIdx with
    | none =>
      rw [SSAFunction.sourcesOf, isPhi] at isSource
      cases isSource
    | some phi =>
      rw [SSAFunction.sourcesOf, isPhi] at isSource
      obtain ⟨block, found, position⟩ := Option.bind_eq_some_iff.mp isPhi
      refine ⟨.phi block phiIdx phi, mem_flatMap.mpr ⟨block, indexed.mem_blockList found,
        mem_append_left _ (mem_map.mpr ⟨(phi, phiIdx), ?_, rfl⟩)⟩, isSource⟩
      exact mk_mem_zipIdx_iff_getElem?.mpr position
  | Op addr opIdx =>
    cases isOp : func.opAt addr opIdx with
    | none =>
      rw [SSAFunction.sourcesOf, isOp] at isSource
      cases isSource
    | some op =>
      rw [SSAFunction.sourcesOf, isOp] at isSource
      obtain ⟨block, -, mem⟩ := exists_op_site indexed isOp
      exact ⟨_, mem, isSource⟩

theorem not_storesOf_of_store {space : String} {addr : SSAVar} {size : Nat}
    {ref next : SliceOpRef} (aliases : func.Aliases space addr size ref) :
    ¬ func.StoresOf ref next := by
  obtain ⟨_, _, _, _, rfl, isStore, -⟩ := aliases
  rintro ⟨_, _, op, same, isOp, dst, space', addr', rfl, -⟩
  obtain ⟨rfl, rfl⟩ := SliceOpRef.Op.inj same
  cases isStore.symm.trans isOp

theorem Walking.skip {rest : List SSAVar}
    (walking : Walking toUppercase func sink pending walk) (isNext : walk.worklist = var :: rest)
    (visited : displayName toUppercase var ∈ walk.visited) :
    Walking toUppercase func sink pending { walk with worklist := rest } where
  ops := walking.ops
  waiting other mem := walking.waiting other (isNext ▸ mem_cons_of_mem _ mem)
  starts ref isStart := (walking.starts ref isStart).imp_right fun ⟨other, meets, isDef, either⟩ => by
    refine ⟨other, meets, isDef, ?_⟩
    rcases either with waits | isVisited
    · rw [isNext] at waits
      rcases mem_cons.mp waits with rfl | later
      · exact Or.inr visited
      · exact Or.inl later
    · exact Or.inr isVisited
  sources ref mem other isSource := by
    rcases walking.sources ref mem other isSource with waits | isVisited
    · rw [isNext] at waits
      rcases mem_cons.mp waits with rfl | later
      · exact Or.inr visited
      · exact Or.inl later
    · exact Or.inr isVisited
  stores := walking.stores
  visited := walking.visited

theorem Walking.mark
    (walking : Walking toUppercase func sink (fun _ => False) walk) (meets : sink.Meets func var) :
    Walking toUppercase func sink (fun ref => func.findDef var = some ref)
      { walk with visited := insert (displayName toUppercase var) walk.visited } where
  ops := walking.ops
  waiting := walking.waiting
  starts ref isStart := (walking.starts ref isStart).imp_right fun ⟨other, known, isDef, either⟩ =>
    ⟨other, known, isDef, either.imp_right Finset.mem_insert_of_mem⟩
  sources ref mem other isSource :=
    (walking.sources ref mem other isSource).imp_right Finset.mem_insert_of_mem
  stores := walking.stores
  visited key isVisited := by
    rcases Finset.mem_insert.mp isVisited with rfl | early
    · exact ⟨var, meets, rfl, fun ref isDef => Or.inr isDef⟩
    · obtain ⟨other, known, isKey, isIn⟩ := walking.visited key early
      exact ⟨other, known, isKey, fun ref isDef => (isIn ref isDef).imp_right False.elim⟩

private theorem Walking.none_pending (walking : Walking toUppercase func sink pending walk)
    (none : ∀ ref, ¬ pending ref) : Walking toUppercase func sink (fun _ => False) walk := by
  rwa [show (fun _ => False) = pending from
    funext fun ref => propext (iff_of_false not_false (none ref))]

/-- New members that the dependencies lead to, among them all that were still to be
added. -/
theorem Walking.grow {walk walk' : Walk} {added : SliceOpRef → Prop}
    (walking : Walking toUppercase func sink pending walk) (grows : walk.Grows func added walk')
    (adds : ∀ ref, pending ref → added ref) (leads : ∀ ref, added ref → sink.LeadsTo func ref)
    (stores : ∀ ref, added ref → ∀ next, func.StoresOf ref next → next ∈ walk'.slice.ops) :
    Walking toUppercase func sink (fun _ => False) walk' where
  ops ref mem := ((grows.ops ref).mp mem).elim (walking.ops ref) (leads ref)
  waiting var mem := by
    rcases grows.waiting var mem with early | ⟨ref, isAdded, isSource⟩
    · exact walking.waiting var early
    · exact ⟨.inr ⟨ref, leads ref isAdded, isSource⟩, fun next isDef =>
        (leads ref isAdded).needs (Or.inl ⟨var, isSource, isDef⟩)⟩
  starts ref isStart := by
    rcases walking.starts ref isStart with inside | ⟨var, meets, isDef, either⟩
    · exact Or.inl ((grows.ops ref).mpr (Or.inl inside))
    · refine Or.inr ⟨var, meets, isDef, either.imp (grows.kept var) fun isVisited => ?_⟩
      rw [grows.visited]
      exact isVisited
  sources ref mem var isSource := by
    by_cases inside : ref ∈ walk.slice.ops
    · rw [grows.visited]
      exact (walking.sources ref inside var isSource).imp_left (grows.kept var)
    · exact Or.inl (grows.sources ref (((grows.ops ref).mp mem).resolve_left inside) inside var
        isSource)
  stores ref mem next isStore := by
    rcases (grows.ops ref).mp mem with inside | isAdded
    · exact (grows.ops next).mpr (Or.inl (walking.stores ref inside next isStore))
    · exact stores ref isAdded next isStore
  visited key isVisited := by
    obtain ⟨var, meets, isKey, isIn⟩ := walking.visited key (grows.visited ▸ isVisited)
    exact ⟨var, meets, isKey, fun ref isDef => Or.inl
      ((grows.ops ref).mpr ((isIn ref isDef).imp_right (adds ref)))⟩

theorem Walking.visit (indexed : func.Indexed) {rest : List SSAVar}
    (walking : Walking toUppercase func sink (fun _ => False) walk)
    (isNext : walk.worklist = var :: rest) :
    let next := visitVar toUppercase func (collectStoreInfos func) { walk with worklist := rest } var
    Walking toUppercase func sink (fun _ => False) next ∧
      if displayName toUppercase var ∈ walk.visited then next = { walk with worklist := rest }
      else next.visited = insert (displayName toUppercase var) walk.visited := by
  unfold visitVar
  dsimp only
  split
  · rename_i visited
    exact ⟨walking.skip isNext visited, rfl⟩
  · obtain ⟨meets, leads⟩ := walking.waiting var (isNext ▸ mem_cons_self)
    have marked := (walking.mark meets).skip isNext (Finset.mem_insert_self _ _)
    cases found : func.findDef var with
    | none =>
      refine ⟨marked.none_pending fun ref isDef => ?_, rfl⟩
      rw [found] at isDef
      cases isDef
    | some ref =>
      have grows := grows_visitDef indexed ref (marked.stores ref)
      have storesIn : ∀ next, func.StoresOf ref next → next ∈ (visitDef func (collectStoreInfos func)
          { walk with
            worklist := rest
            visited := insert (displayName toUppercase var) walk.visited } ref).slice.ops :=
        fun next isStore => (grows.ops next).mpr (Or.inr (Or.inr isStore))
      refine ⟨marked.grow grows (fun next isDef => ?_) (fun next isAdded => ?_)
        fun next isAdded other isStore => ?_, grows.visited⟩
      · exact Or.inl (Option.some.inj (isDef.symm.trans found))
      · rcases isAdded with rfl | isStore
        · exact leads next found
        · exact (leads ref found).needs (Or.inr isStore)
      · rcases isAdded with rfl | isAlias
        · exact storesIn other isStore
        · obtain ⟨_, _, _, _, _, _, _, _, _, aliases⟩ := isAlias
          exact absurd isStore (not_storesOf_of_store aliases)

theorem Walking.mem_iff (apart : TellsApart toUppercase func sink)
    (walking : Walking toUppercase func sink (fun _ => False) walk) (done : walk.worklist = [])
    (ref : SliceOpRef) : ref ∈ walk.slice.ops ↔ sink.LeadsTo func ref := by
  have visitedIn : ∀ {var ref}, sink.Meets func var → displayName toUppercase var ∈ walk.visited →
      func.findDef var = some ref → ref ∈ walk.slice.ops := by
    intro var ref meets isVisited isDef
    obtain ⟨other, known, sameName, isIn⟩ := walking.visited _ isVisited
    exact (isIn ref ((apart other var known meets sameName).trans isDef)).elim id False.elim
  refine ⟨walking.ops ref, ?_⟩
  rintro ⟨start, isStart, path⟩
  induction path with
  | refl =>
    rcases walking.starts start isStart with inside | ⟨var, meets, isDef, waits | isVisited⟩
    · exact inside
    · rw [done] at waits
      cases waits
    · exact visitedIn meets isVisited isDef
  | tail _ needs inside =>
    rcases needs with ⟨var, isSource, isDef⟩ | isStore
    · rcases walking.sources _ inside var isSource with waits | isVisited
      · rw [done] at waits
        cases waits
      · exact visitedIn (.inr ⟨_, walking.ops _ inside, isSource⟩) isVisited isDef
    · exact walking.stores _ inside _ isStore

/-! ## The start -/

theorem walking_var (sink : SSAVar) : Walking toUppercase func (.Var sink) (fun _ => False)
    { Walk.empty with worklist := [sink] } where
  ops _ mem := absurd mem (Finset.notMem_empty _)
  waiting var mem := by
    obtain rfl := mem_singleton.mp mem
    exact ⟨.inl (mem_singleton_self _), fun ref isDef => ⟨ref, isDef, .refl⟩⟩
  starts _ isStart := Or.inr ⟨sink, .inl (mem_singleton_self _), isStart,
    Or.inl (mem_singleton_self _)⟩
  sources _ mem := absurd mem (Finset.notMem_empty _)
  stores _ mem := absurd mem (Finset.notMem_empty _)
  visited _ mem := absurd mem (Finset.notMem_empty _)

theorem walking_of_grows {sink : SliceSink}
    (grows : Walk.empty.Grows func (sink.Starts func) walk)
    (stores : ∀ ref, sink.Starts func ref → ∀ next, func.StoresOf ref next →
      next ∈ walk.slice.ops) : Walking toUppercase func sink (fun _ => False) walk := by
  have isStart : ∀ ref ∈ walk.slice.ops, sink.Starts func ref := fun ref mem =>
    ((grows.ops ref).mp mem).resolve_left (Finset.notMem_empty _)
  refine ⟨fun ref mem => ⟨ref, isStart ref mem, .refl⟩, fun var mem => ?_,
    fun ref isStart => Or.inl ((grows.ops ref).mpr (Or.inr isStart)),
    fun ref mem var isSource => Or.inl
      (grows.sources ref (isStart ref mem) (Finset.notMem_empty _) var isSource),
    fun ref mem => stores ref (isStart ref mem), fun key isVisited => ?_⟩
  · rcases grows.waiting var mem with early | ⟨ref, starts, isSource⟩
    · cases early
    · exact ⟨.inr ⟨ref, ⟨ref, starts, .refl⟩, isSource⟩, fun next isDef =>
        ⟨ref, starts, .single (Or.inl ⟨var, isSource, isDef⟩)⟩⟩
  · rw [grows.visited] at isVisited
    exact absurd isVisited (Finset.notMem_empty _)

section

variable (indexed : func.Indexed)
include indexed

theorem walking_sinkWalk (ref : SliceOpRef) :
    Walking toUppercase func (.At ref) (fun _ => False)
      (sinkWalk func (collectStoreInfos func) ref) := by
  cases ref with
  | Phi addr phiIdx =>
    have unfolded : sinkWalk func (collectStoreInfos func) (.Phi addr phiIdx) =
        (func.phiAt addr phiIdx).elim Walk.empty fun phi =>
          (Walk.empty.add (.Phi addr phiIdx) (phi.sources.map Prod.snd)).2 := by
      rw [sinkWalk, SSAFunction.phiAt]
      cases (func.getBlock addr).bind fun block => block.phis[phiIdx]? <;> rfl
    rw [unfolded]
    cases found : func.phiAt addr phiIdx with
    | none =>
      have outside : ∀ next, ¬ (SliceSink.At (.Phi addr phiIdx)).Starts func next := by
        rintro next ⟨known, -⟩
        rw [found] at known
        cases known
      exact walking_of_grows (.refl fun next starts => absurd starts (outside next))
        fun next starts => absurd starts (outside next)
    | some phi =>
      have isSources : phi.sources.map Prod.snd = func.sourcesOf (.Phi addr phiIdx) := by
        rw [SSAFunction.sourcesOf, found]
        rfl
      refine walking_of_grows ((Walk.Grows.add _ isSources Walk.empty).congr fun next => ?_)
        fun next starts other isStore => ?_
      · change _ ↔ (func.phiAt addr phiIdx).isSome = true ∧ _
        rw [found]
        exact (and_iff_right rfl).symm
      · obtain ⟨_, _, _, same, -⟩ := isStore
        rw [starts.2] at same
        cases same
  | Op addr opIdx =>
    have unfolded : sinkWalk func (collectStoreInfos func) (.Op addr opIdx) =
        (func.opAt addr opIdx).elim Walk.empty fun op =>
          addAliasingOfStore (collectStoreInfos func) op (addAliasingOfLoad
            (collectStoreInfos func) op (Walk.empty.add (.Op addr opIdx) op.sources).2) := by
      rw [sinkWalk, SSAFunction.opAt]
      cases (func.getBlock addr).bind fun block => block.ops[opIdx]? <;> rfl
    rw [unfolded]
    cases found : func.opAt addr opIdx with
    | none =>
      have outside : ∀ next, ¬ (SliceSink.At (.Op addr opIdx)).Starts func next := by
        rintro next ⟨_, known, -⟩
        rw [found] at known
        cases known
      exact walking_of_grows (.refl fun next starts => absurd starts (outside next))
        fun next starts => absurd starts (outside next)
    | some op =>
      have isSources : op.sources = func.sourcesOf (.Op addr opIdx) := by
        rw [SSAFunction.sourcesOf, found]
        rfl
      have grows := ((Walk.Grows.add _ isSources Walk.empty).trans
        (grows_addAliasingOfLoad indexed op _)).trans (grows_addAliasingOfStore indexed op _)
      have starts : ∀ ref, ((ref = .Op addr opIdx ∨ func.LoadAliases op ref) ∨
          func.StoreAliases op ref) ↔ (SliceSink.At (.Op addr opIdx)).Starts func ref := by
        intro ref
        rw [SliceSink.Starts, found]
        simp only [Option.some.injEq, exists_eq_left', or_assoc]
      have grows := grows.congr starts
      refine walking_of_grows grows fun ref isStart next isStore => ?_
      rcases (starts ref).mpr isStart with (rfl | ⟨_, _, _, _, aliases⟩) | ⟨_, _, _, _, aliases⟩
      · obtain ⟨_, _, op', same, isOp, isAlias⟩ := isStore
        obtain ⟨rfl, rfl⟩ := SliceOpRef.Op.inj same
        obtain rfl := Option.some.inj (found.symm.trans isOp)
        exact (grows.ops next).mpr (Or.inr ((starts next).mp (Or.inl (Or.inr isAlias))))
      · exact absurd isStore (not_storesOf_of_store aliases)
      · exact absurd isStore (not_storesOf_of_store aliases)

/-! ## The end -/

theorem exists_walking_of_returns (fuel : Nat) :
    ∀ {walk : Walk} {slice : BackwardSlice}, Walking toUppercase func sink (fun _ => False) walk →
      walkBackward toUppercase func (collectStoreInfos func) fuel walk = some slice →
        ∃ last, Walking toUppercase func sink (fun _ => False) last ∧ last.worklist = [] ∧
          last.slice = slice := by
  induction fuel with
  | zero => exact fun _ returns => nomatch returns
  | succ fuel ih =>
    intro walk slice walking returns
    rw [walkBackward] at returns
    cases waits : walk.worklist with
    | nil =>
      rw [waits] at returns
      exact ⟨walk, walking, waits, Option.some.inj returns⟩
    | cons var rest =>
      rw [waits] at returns
      exact ih (walking.visit indexed waits).1 returns

/-- The walk ends: each visit uses up a name or a waiting variable. -/
theorem exists_walkBackward
    (walking : Walking toUppercase func sink (fun _ => False) walk) :
    ∃ fuel, (walkBackward toUppercase func (collectStoreInfos func) fuel walk).isSome := by
  let names : Finset String := ((sink.vars ++ func.sites.flatMap Site.sources).map
    (displayName toUppercase)).toFinset
  induction missing : (names \ walk.visited).card using Nat.strongRecOn generalizing walk with
  | _ n smaller =>
    induction waits : walk.worklist generalizing walk with
    | nil =>
      refine ⟨1, ?_⟩
      rw [walkBackward, waits]
      rfl
    | cons var rest ih =>
      obtain ⟨next, progress⟩ := walking.visit indexed waits
      have later : ∃ fuel, (walkBackward toUppercase func (collectStoreInfos func) fuel
          (visitVar toUppercase func (collectStoreInfos func)
            { walk with worklist := rest } var)).isSome := by
        split at progress
        · rw [progress] at next ⊢
          exact ih next missing rfl
        · rename_i isNew
          have isName : displayName toUppercase var ∈ names := by
            have meets := (walking.waiting var (waits ▸ mem_cons_self)).1
            exact mem_toFinset.mpr (mem_map_of_mem (meets.mem_sources indexed))
          refine smaller _ ?_ next rfl
          rw [← missing, progress]
          refine Finset.card_lt_card ⟨Finset.sdiff_subset_sdiff (Finset.Subset.refl _)
            (Finset.subset_insert _ _), fun all => ?_⟩
          have inside := all (Finset.mem_sdiff.mpr ⟨isName, isNew⟩)
          exact (Finset.mem_sdiff.mp inside).2 (Finset.mem_insert_self _ _)
      obtain ⟨fuel, returns⟩ := later
      refine ⟨fuel + 1, ?_⟩
      rw [walkBackward, waits]
      exact returns

end

end Walks

/-! ## Slices -/

section Slices

variable {toUppercase : String → String} {func : SSAFunction} {sink : SliceSink}
  (indexed : func.Indexed)
include indexed

/-- The walk returns. -/
theorem exists_backwardSlice :
    ∃ fuel, (backwardSlice toUppercase func fuel sink).isSome := by
  cases sink with
  | Var var => exact exists_walkBackward indexed (walking_var var)
  | At ref => exact exists_walkBackward indexed (walking_sinkWalk indexed ref)

/-- The slice is what the sink leads to. -/
theorem mem_backwardSlice_iff (apart : TellsApart toUppercase func sink) {fuel : Nat}
    {slice : BackwardSlice} (returns : backwardSlice toUppercase func fuel sink = some slice)
    (ref : SliceOpRef) : ref ∈ slice.ops ↔ sink.LeadsTo func ref := by
  cases sink with
  | Var var =>
    obtain ⟨last, walking, done, rfl⟩ :=
      exists_walking_of_returns indexed fuel (walking_var var) returns
    exact walking.mem_iff apart done ref
  | At sinkRef =>
    obtain ⟨last, walking, done, rfl⟩ :=
      exists_walking_of_returns indexed fuel (walking_sinkWalk indexed sinkRef) returns
    exact walking.mem_iff apart done ref

end Slices

/-- The walk ends, and a slice is closed exactly if every operation that can write what
a member reads is one of those that the names lead to. -/
theorem backwardSlice_closed_iff (toUppercase : String → String) (bigEndian : Bool)
    (func : SSAFunction) (assigned : func.Assigned) (indexed : func.Indexed) (sink : SliceSink)
    (apart : TellsApart toUppercase func sink) :
    (∃ fuel, (backwardSlice toUppercase func fuel sink).isSome) ∧
      ∀ fuel slice, backwardSlice toUppercase func fuel sink = some slice →
        (slice.Closed bigEndian func ↔ ∀ reader writer, sink.LeadsTo func reader →
          CanWrite bigEndian func writer reader → sink.LeadsTo func writer) := by
  refine ⟨exists_backwardSlice indexed, fun fuel slice returns => ?_⟩
  have mem := mem_backwardSlice_iff indexed apart returns
  constructor
  · intro closed reader writer leads canWrite
    exact (mem writer).mp (closed.memory reader ((mem reader).mpr leads) writer canWrite)
  · intro found
    refine ⟨fun ref inside var isSource definition isDst => ?_,
      fun reader inside writer canWrite => ?_⟩
    · have isDef := (findDef_eq_some_iff assigned indexed).mpr isDst
      exact (mem definition).mpr (((mem ref).mp inside).needs (Or.inl ⟨var, isSource, isDef⟩))
    · exact (mem writer).mpr (found reader writer ((mem reader).mp inside) canWrite)

/-- The place of an operation that writes. -/
def writeSite : Site → Option (Nat × Nat)
  | .phi _ _ _ => none
  | .op block opIdx op => if op.writeRun.isSome then some (block.addr, opIdx) else none

/-- A value is stored and loaded again. -/
def storeAndReload : List R2ILBlock :=
  [⟨4096, 4, [.Store .Ram ⟨.Register, 0, 8⟩ ⟨.Register, 8, 8⟩,
    .Load ⟨.Unique, 16, 8⟩ .Ram ⟨.Register, 0, 8⟩, .Return ⟨.Unique, 16, 8⟩], none⟩]

theorem storeAndReload_closed : ∃ func fuel slice, fromBlocksRaw storeAndReload none = some func ∧
    backwardSlice asciiUppercase func fuel (.Var ⟨"tmp:10", 1, 8⟩) = some slice ∧
      slice.Closed false func := by
  obtain ⟨func, renamed, final, entered, build, built⟩ :=
    fromBlocksRawWithPolicy_built _ _ none none
  have checked : (fromBlocksRaw storeAndReload none).all (fun func =>
      (∀ u ∈ SSAVar.mk "tmp:10" 1 8 :: func.sites.flatMap Site.sources,
        ∀ v ∈ SSAVar.mk "tmp:10" 1 8 :: func.sites.flatMap Site.sources,
          displayName asciiUppercase u = displayName asciiUppercase v →
            func.findDef u = func.findDef v) ∧
      func.sites.filterMap writeSite = [(4096, 0)] ∧
      (backwardSlice asciiUppercase func 9 (.Var ⟨"tmp:10", 1, 8⟩)).any fun slice =>
        .Op 4096 0 ∈ slice.ops) = true := by
    decide +kernel
  rw [show fromBlocksRaw storeAndReload none = some func from build, Option.all_some,
    decide_eq_true_iff] at checked
  obtain ⟨apart, writes, checked⟩ := checked
  obtain ⟨slice, isSlice, checked⟩ := (Option.any_eq_true _ _).mp checked
  have apart : TellsApart asciiUppercase func (.Var ⟨"tmp:10", 1, 8⟩) := fun u v meetsU meetsV =>
    apart u (meetsU.mem_sources built.indexed) v (meetsV.mem_sources built.indexed)
  refine ⟨func, 9, slice, build, isSlice, ((backwardSlice_closed_iff asciiUppercase false func
    built.assigned built.indexed _ apart).2 9 slice isSlice).mpr ?_⟩
  rintro reader writer - ⟨_, b, i, _, _, _, _, _, write, _, _, _, _, _, rfl, -, isWrite, -, -, -, -,
    -, -, isRun, -⟩
  -- The only operation that writes is the store, which is in the slice.
  obtain ⟨block, rfl, mem⟩ := exists_op_site built.indexed isWrite
  have isSite : (block.addr, i) ∈ func.sites.filterMap writeSite :=
    mem_filterMap.mpr ⟨_, mem, by rw [writeSite, isRun]; rfl⟩
  rw [writes] at isSite
  obtain ⟨isAddr, rfl⟩ := Prod.mk.inj (mem_singleton.mp isSite)
  rw [isAddr]
  exact (mem_backwardSlice_iff built.indexed apart isSlice _).mp (of_decide_eq_true checked)

/-- A value is stored under a condition and loaded again. -/
def storeConditionalAndReload : List R2ILBlock :=
  [⟨4096, 4, [.StoreConditional none .Ram ⟨.Register, 0, 8⟩ ⟨.Register, 8, 8⟩ .Relaxed,
    .Load ⟨.Unique, 16, 8⟩ .Ram ⟨.Register, 0, 8⟩, .Return ⟨.Unique, 16, 8⟩], none⟩]

/-- The slice of the loaded value lacks the store. -/
theorem storeConditionalAndReload_not_closed : ∃ func fuel slice,
    fromBlocksRaw storeConditionalAndReload none = some func ∧
    backwardSlice asciiUppercase func fuel (.Var ⟨"tmp:10", 1, 8⟩) = some slice ∧
      ¬ slice.Closed false func := by
  have checked : (fromBlocksRaw storeConditionalAndReload none).any (fun func =>
      func.entry = 4096 ∧ func.opAt 4096 0 = some (.StoreConditional none "Ram" ⟨"reg:0", 0, 8⟩
        ⟨"reg:8", 0, 8⟩ .Relaxed) ∧
      func.opAt 4096 1 = some (.Load ⟨"tmp:10", 1, 8⟩ "Ram" ⟨"reg:0", 0, 8⟩) ∧
      (backwardSlice asciiUppercase func 9 (.Var ⟨"tmp:10", 1, 8⟩)).any fun slice =>
        .Op 4096 1 ∈ slice.ops ∧ .Op 4096 0 ∉ slice.ops) = true := by
    decide +kernel
  obtain ⟨func, build, checked⟩ := (Option.any_eq_true _ _).mp checked
  obtain ⟨isEntry, isStore, isLoad, checked⟩ := of_decide_eq_true checked
  obtain ⟨slice, isSlice, checked⟩ := (Option.any_eq_true _ _).mp checked
  obtain ⟨inside, outside⟩ := of_decide_eq_true checked
  refine ⟨func, 9, slice, build, isSlice, fun closed => outside ?_⟩
  -- Everything is zero, so that the store succeeds without a change.
  let zero : Machine := ⟨fun _ => 0, fun _ _ => 0⟩
  have executes : zero.Executes false (.StoreConditional none "Ram" ⟨"reg:0", 0, 8⟩ ⟨"reg:8", 0, 8⟩
      .Relaxed) true zero :=
    { frame := fun _ _ => rfl
      bounded := nofun
      computed := nofun
      loaded := nofun
      writes := trivial
      stored := fun run val isRun _ => by
        cases isRun
        refine ⟨?_, fun _ _ _ => rfl⟩
        decide +kernel
      kept := nofun
      bytes := fun _ _ => Nat.zero_lt_succ 255 }
  refine closed.memory _ inside _ ⟨⟨4096, 0, zero⟩, 4096, 0, 4096, 1, zero, zero, zero, _, _,
    ⟨"Ram", ⟨"reg:0", 0, 8⟩, 8⟩, ⟨"Ram", ⟨"reg:0", 0, 8⟩, 8⟩, ⟨"reg:8", 0, 8⟩, 0, rfl, rfl, isStore,
    isLoad, ⟨isEntry.symm, rfl, fun _ => Nat.pow_pos (by decide),
      fun _ _ => Nat.zero_lt_succ 255⟩, .refl,
    executes, .refl, trivial, rfl, rfl, rfl, ?_, ?_⟩
  · decide +kernel
  · decide +kernel

end R2Sleigh.Ssa
