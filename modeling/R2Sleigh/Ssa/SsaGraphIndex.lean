import R2Sleigh.Ssa.SsaGraphTables

/-!
Contract: the graph of a function as an index of it.

Owns `Faithful`.
-/

namespace R2Sleigh.Ssa

open Il Lib GraphTables List Option

namespace SsaGraph

/-- An instruction is a site: its block, position, inputs, output and operation. -/
structure Holds (graph : SsaGraph) (site : Site) (inst : GraphInst) : Prop where
  block : graph.blocks[inst.block]?.map GraphBlock.addr = some site.block.addr
  ordinal : inst.ordinal = site.ordinal
  inputs : inst.inputs.map (fun id => graph.values[id]?.map GraphValue.var) = site.sources.map some
  output : inst.output.map (fun id => graph.values[id]?.map GraphValue.var) = site.dst.map some
  payload : match site with
    | .phi _ _ _ => ∃ predecessors, inst.payload = .Phi predecessors
    | .op _ _ op => inst.payload = .Op op

/-- The graph is an index of the function. -/
structure Faithful (graph : SsaGraph) (func : SSAFunction) : Prop where
  blockIds : ∀ {k : Nat} {block : GraphBlock}, graph.blocks[k]? = some block → block.id = k
  instIds : ∀ {k : Nat} {inst : GraphInst}, graph.insts[k]? = some inst → inst.id = k
  valueIds : ∀ {k : Nat} {value : GraphValue}, graph.values[k]? = some value → value.id = k
  blockByAddr : ∀ addr id : Nat, graph.blockByAddr.lookup addr = some id ↔
    ∃ block, graph.blocks[id]? = some block ∧ block.addr = addr
  valueByVar : ∀ (var : SSAVar) (id : Nat), graph.valueByVar.lookup var = some id ↔
    ∃ value, graph.values[id]? = some value ∧ value.var = var
  insts : List.Forall₂ graph.Holds func.sites graph.insts
  blockInsts : ∀ {k : Nat} {block : GraphBlock}, graph.blocks[k]? = some block →
    block.insts = (graph.insts.filter fun inst => inst.block = k).map GraphInst.id
  defLength : graph.defOf.length = graph.values.length
  defOf : ∀ value id : Nat, graph.defOf[value]? = some (some id) ↔
    ∃ inst, graph.insts[id]? = some inst ∧ inst.output = some value
  usesLength : graph.usesOf.length = graph.values.length
  usesOf : ∀ {value : Nat} {uses : List UseSite}, graph.usesOf[value]? = some uses → uses.Nodup ∧
    ∀ use, use ∈ uses ↔
      ∃ inst, graph.insts[use.inst]? = some inst ∧ inst.inputs[use.inputIdx]? = some value
  opSites : ∀ opSite id, graph.opInstBySite.lookup opSite = some id ↔
    graph.opSiteByInst.lookup id = some opSite
  opInsts : ∀ opSite id, graph.opInstBySite.lookup opSite = some id ↔ OpAt func.sites id opSite
  phiPredecessors : ∀ {id : Nat} {inst : GraphInst} {block : SSABlock} {phiIdx : Nat} {node : PhiNode}
    {predecessors : List Nat}, graph.insts[id]? = some inst →
    func.sites[id]? = some (.phi block phiIdx node) → inst.payload = .Phi predecessors →
      predecessors.map (fun pred => graph.blocks[pred]?.map GraphBlock.addr) =
        node.sources.map fun source => some source.1

end SsaGraph

/-- Blocks, instructions and variables can be counted in 32 bits. -/
structure SSAFunction.Fits (func : SSAFunction) : Prop where
  blocks : func.blockOrder.length ≤ 2 ^ 32
  insts : func.sites.length ≤ 2 ^ 32
  values : (func.sites.flatMap Site.vars).dedup.length ≤ 2 ^ 32

def SSAFunction.PhisListed (func : SSAFunction) : Prop :=
  ∀ block ∈ func.blockList, ∀ phi ∈ block.phis, ∀ source ∈ phi.sources, source.1 ∈ func.blockOrder

instance (func : SSAFunction) : Decidable func.PhisListed := by
  unfold SSAFunction.PhisListed
  infer_instance

namespace SsaGraph

variable {func : SSAFunction}

/-! ## Blocks -/

theorem lookup_blockIds (order : func.blockOrder.Nodup) (addr id : Nat) :
    (blockIds func).lookup addr = some id ↔ ∃ k, func.blockOrder[k]? = some addr ∧ id = asU32 k := by
  have keys : func.blockOrder.zipIdx.map Prod.fst = func.blockOrder := zipIdx_map_fst 0 _
  rw [blockIds, HashMap.lookup_foldl_insert Prod.fst (fun entry => asU32 entry.2)
    (by rw [keys]; exact order)]
  constructor
  · rintro (⟨⟨a, k⟩, mem, rfl, rfl⟩ | ⟨-, stored⟩)
    · exact ⟨k, mk_mem_zipIdx_iff_getElem?.mp mem, rfl⟩
    · cases stored
  · rintro ⟨k, position, rfl⟩
    exact .inl ⟨(addr, k), mk_mem_zipIdx_iff_getElem?.mpr position, rfl, rfl⟩

theorem lookup_blockIds_of_fits (order : func.blockOrder.Nodup) (fits : func.Fits) (addr id : Nat) :
    (blockIds func).lookup addr = some id ↔ func.blockOrder[id]? = some addr := by
  rw [lookup_blockIds order]
  constructor
  · rintro ⟨k, position, rfl⟩
    rw [asU32_of_lt]
    · exact position
    · exact Nat.lt_of_lt_of_le (List.getElem?_eq_some_iff.mp position).1 fits.blocks
  · intro position
    refine ⟨id, position, (asU32_of_lt ?_).symm⟩
    exact Nat.lt_of_lt_of_le (List.getElem?_eq_some_iff.mp position).1 fits.blocks

theorem getElem?_initialBlocks (k : Nat) : (initialBlocks func)[k]? =
    func.blockOrder[k]?.map fun addr =>
      { id := asU32 k
        addr := addr
        size := ((func.getBlock addr).map SSABlock.size).getD 0
        predecessors := (func.cfg.predecessors addr).filterMap (blockIds func).lookup
        successors := (func.successors addr).filterMap (blockIds func).lookup
        insts := [] } := by
  rw [initialBlocks, List.getElem?_map, List.getElem?_zipIdx, Option.map_map, Nat.zero_add]
  rfl

section

variable {done : List Site} {tables : GraphTables}
  (agree : Tables (blockIds func) (initialBlocks func) done tables)
include agree

theorem block_iff
    {k : Nat} {block : GraphBlock}
    (position : tables.blocks[k]? = some block) : func.blockOrder[k]? = some block.addr ∧
      block.id = asU32 k ∧
      block.insts = (tables.insts.filter fun inst => inst.block = k).map GraphInst.id := by
  rw [agree.blocks, List.getElem?_mapIdx, getElem?_initialBlocks, Option.map_map,
    map_eq_some_iff] at position
  obtain ⟨addr, listed, rfl⟩ := position
  exact ⟨listed, rfl, nil_append _⟩

theorem exists_block
    {k addr : Nat}
    (listed : func.blockOrder[k]? = some addr) :
    tables.blocks[k]?.map GraphBlock.addr = some addr := by
  rw [agree.blocks, List.getElem?_mapIdx, getElem?_initialBlocks, listed]
  rfl

end

/-! ## Sites -/

private theorem mem_phi_sites {block : SSABlock} {phiIdx : Nat} {node : PhiNode}
    (mem : Site.phi block phiIdx node ∈ func.sites) :
    block ∈ func.blockList ∧ node ∈ block.phis := by
  obtain ⟨listedBlock, listed, inside⟩ := mem_flatMap.mp mem
  obtain rfl := block_of_mem_sites inside
  rcases mem_append.mp inside with isPhi | isOp
  · obtain ⟨⟨phi, index⟩, position, same⟩ := List.mem_map.mp isPhi
    obtain ⟨-, rfl, rfl⟩ := Site.phi.inj same
    exact ⟨listed, mem_of_getElem? (mk_mem_zipIdx_iff_getElem?.mp position)⟩
  · obtain ⟨_, -, same⟩ := List.mem_map.mp isOp
    cases same

theorem exists_phi_site {block : SSABlock} {node : PhiNode} (listed : block ∈ func.blockList)
    (mem : node ∈ block.phis) : ∃ phiIdx, Site.phi block phiIdx node ∈ func.sites := by
  obtain ⟨phiIdx, position⟩ := mem_iff_getElem?.mp mem
  refine ⟨phiIdx, mem_flatMap.mpr ⟨block, listed, mem_append_left _ ?_⟩⟩
  exact List.mem_map.mpr ⟨(node, phiIdx), mk_mem_zipIdx_iff_getElem?.mpr position, rfl⟩

private theorem dsts_sites (block : SSABlock) : block.sites.filterMap Site.dst = block.dsts := by
  have phis : (block.phis.zipIdx.map fun entry => Site.phi block entry.2 entry.1).filterMap
      Site.dst = block.phis.map PhiNode.dst := by
    rw [filterMap_map, ← filterMap_eq_map, ← zipIdx_map_fst 0 block.phis,
      filterMap_map, zipIdx_map_fst]
    rfl
  have ops : (block.ops.zipIdx.map fun entry => Site.op block entry.2 entry.1).filterMap
      Site.dst = block.ops.filterMap SSAOp.dst := by
    conv_rhs => rw [← zipIdx_map_fst 0 block.ops]
    rw [filterMap_map, filterMap_map]
    rfl
  rw [SSABlock.sites, filterMap_append, phis, ops]
  rfl

theorem nodup_dsts (assigned : func.Assigned) : (func.sites.filterMap Site.dst).Nodup := by
  have same : func.sites.filterMap Site.dst = func.blockList.flatMap SSABlock.dsts := by
    rw [SSAFunction.sites, filterMap_flatMap]
    exact flatMap_congr fun block _ => dsts_sites block
  rw [same]
  exact assigned.nodup_dsts

theorem site_unique (assigned : func.Assigned) {i j : Nat} {site site' : Site} {var : SSAVar}
    (position : func.sites[i]? = some site) (position' : func.sites[j]? = some site')
    (defines : site.dst = some var) (defines' : site'.dst = some var) : i = j := by
  have apart := pairwise_iff_getElem.mp (pairwise_filterMap.mp (nodup_dsts assigned))
  obtain ⟨inside, same⟩ := List.getElem?_eq_some_iff.mp position
  obtain ⟨inside', same'⟩ := List.getElem?_eq_some_iff.mp position'
  rcases Nat.lt_trichotomy i j with before | here | after
  · exact absurd rfl (apart i j inside inside' before var (same ▸ defines) var (same' ▸ defines'))
  · exact here
  · exact absurd rfl (apart j i inside' inside after var (same' ▸ defines') var (same ▸ defines))

theorem nodup_opSites (assigned : func.Assigned) (indexed : func.Indexed) :
    (func.sites.filterMap Site.opSite).Nodup := by
  have ofBlock : ∀ block : SSABlock, block.sites.filterMap Site.opSite =
      (List.range block.ops.length).map fun opIdx => (block.addr, opIdx) := by
    intro block
    rw [SSABlock.sites, filterMap_append, filterMap_map, filterMap_map,
      range_eq_range', ← zipIdx_map_snd 0 block.ops, List.map_map]
    rw [show Site.opSite ∘ (fun entry : PhiNode × Nat => Site.phi block entry.2 entry.1) =
      fun _ => none from rfl, filterMap_none, nil_append, ← filterMap_eq_map]
    rfl
  rw [SSAFunction.sites, filterMap_flatMap]
  refine nodup_flatMap.mpr ⟨fun block _ => ?_, ?_⟩
  · rw [ofBlock]
    exact nodup_range.map fun _ _ same => (Prod.mk.inj same).2
  · refine pairwise_filterMap.mpr (assigned.order.imp ?_)
    intro addr addr' other block found block' found' opSite mem member'
    dsimp only at mem member'
    rw [ofBlock] at mem member'
    obtain ⟨_, -, rfl⟩ := List.mem_map.mp mem
    obtain ⟨_, -, same⟩ := List.mem_map.mp member'
    refine other ?_
    rw [← indexed.addr found, ← indexed.addr found']
    exact (Prod.mk.inj same).1.symm

/-! ## Identifiers -/

/-- Positions cast to 32 bits are the positions of a list exactly if it is short
enough. -/
theorem ids_iff {A : Type} {idOf : A → Nat} {l : List A}
    (ids : ∀ {k a}, l[k]? = some a → idOf a = asU32 k) :
    (∀ {k a}, l[k]? = some a → idOf a = k) ↔ l.length ≤ 2 ^ 32 := by
  constructor
  · intro positions
    by_contra long
    have inside : 2 ^ 32 < l.length := Nat.lt_of_not_le long
    have position : l[2 ^ 32]? = some l[2 ^ 32] := List.getElem?_eq_getElem inside
    have same := (ids position).symm.trans (positions position)
    exact absurd same (by decide)
  · intro short k a position
    rw [ids position, asU32_of_lt]
    exact Nat.lt_of_lt_of_le (List.getElem?_eq_some_iff.mp position).1 short

theorem isId_iff {tables : GraphTables} (small : tables.values.length ≤ 2 ^ 32) {id : Nat}
    {var : SSAVar} :
    tables.IsId id var ↔ tables.values[id]?.map GraphValue.var = some var := by
  rw [map_eq_some_iff]
  constructor
  · rintro ⟨k, value, position, isVar, rfl⟩
    rw [asU32_of_lt (Nat.lt_of_lt_of_le (List.getElem?_eq_some_iff.mp position).1 small)]
    exact ⟨value, position, isVar⟩
  · rintro ⟨value, position, isVar⟩
    refine ⟨id, value, position, isVar, (asU32_of_lt ?_).symm⟩
    exact Nat.lt_of_lt_of_le (List.getElem?_eq_some_iff.mp position).1 small

theorem length_values {done : List Site} {tables : GraphTables} {start : List GraphBlock}
    {ids : HashMap Nat Nat} (agree : Tables ids start done tables) :
    tables.values.length = (done.flatMap Site.vars).dedup.length := by
  rw [← length_map GraphValue.var]
  refine List.Perm.length_eq ((perm_ext_iff_of_nodup agree.values.nodup
    (nodup_dedup _)).mpr fun var => ?_)
  rw [agree.known, mem_dedup, mem_flatMap]

/-! ## Uses and definitions -/

private theorem mem_usesIn {insts : List GraphInst} {value : Nat} {use : UseSite} :
    use ∈ usesIn insts value ↔
      ∃ inst ∈ insts, inst.id = use.inst ∧ inst.inputs[use.inputIdx]? = some value := by
  rw [usesIn, mem_flatMap]
  refine exists_congr fun inst => and_congr_right fun _ => ?_
  rw [usesOfInputs, List.mem_map]
  constructor
  · rintro ⟨⟨input, index⟩, mem, rfl⟩
    obtain ⟨inside, same⟩ := mem_filter.mp mem
    obtain rfl := of_decide_eq_true same
    exact ⟨rfl, mk_mem_zipIdx_iff_getElem?.mp inside⟩
  · rintro ⟨same, position⟩
    refine ⟨(value, use.inputIdx), mem_filter.mpr ⟨?_, decide_eq_true rfl⟩, ?_⟩
    · exact mk_mem_zipIdx_iff_getElem?.mpr position
    · rw [same]

private theorem nodup_usesIn {insts : List GraphInst} (distinct : (insts.map GraphInst.id).Nodup)
    (value : Nat) : (usesIn insts value).Nodup := by
  refine nodup_flatMap.mpr ⟨fun inst _ => ?_, ?_⟩
  · have indices : (inst.inputs.zipIdx.map Prod.snd).Nodup := by
      rw [zipIdx_map_snd]
      exact nodup_range'
    have kept := (filter_sublist (p := fun input => decide (input.1 = value))).map Prod.snd
      |>.nodup indices
    rw [usesOfInputs, show (fun input : Nat × Nat => (⟨inst.id, input.2⟩ : UseSite)) =
      UseSite.mk inst.id ∘ Prod.snd from rfl, ← List.map_map]
    exact kept.map fun _ _ same => (UseSite.mk.inj same).2
  · refine (pairwise_map.mp distinct).imp ?_
    intro inst inst' other use mem member'
    obtain ⟨_, -, rfl⟩ := List.mem_map.mp mem
    obtain ⟨_, -, same⟩ := List.mem_map.mp member'
    exact other (UseSite.mk.inj same).1.symm

/-! ## The index -/

section Index

variable {tables : GraphTables}
  (passed : Passed (blockIds func) (initialBlocks func) func.sites tables)
  (order : func.blockOrder.Nodup) (fits : func.Fits)
include passed order fits

omit order in
theorem values_small : tables.values.length ≤ 2 ^ 32 := by
  rw [length_values passed.agree]
  exact fits.values

omit order in
private theorem insts_small : tables.insts.length ≤ 2 ^ 32 := by
  rw [← passed.agree.insts.length_eq]
  exact fits.insts

omit order in
theorem instIds {k : Nat} {inst : GraphInst} (position : tables.insts[k]? = some inst) :
    inst.id = k :=
  (ids_iff passed.agree.instIds).mpr (insts_small passed fits) position

theorem represents_holds {graph : SsaGraph} (same : graph.toGraphTables = tables) {site : Site}
    {inst : GraphInst} (represents : GraphTables.Represents (blockIds func) tables site inst) :
    graph.Holds site inst := by
  have small := values_small passed fits
  refine ⟨?_, represents.ordinal, ?_, ?_, ?_⟩
  · rw [same]
    exact exists_block passed.agree ((lookup_blockIds_of_fits order fits _ _).mp represents.block)
  · have inputs := represents.inputs
    rw [same]
    generalize site.sources = sources at inputs
    generalize inst.inputs = ids at inputs
    induction inputs with
    | nil => rfl
    | cons isId _ ih =>
      rw [map_cons, map_cons, (isId_iff small).mp isId, ih]
  · have output := represents.output
    rw [same]
    generalize site.dst = dst at output ⊢
    generalize inst.output = id at output ⊢
    cases output with
    | none => rfl
    | some isId => exact congrArg some ((isId_iff small).mp isId)
  · cases site with
    | phi block phiIdx node => exact ⟨_, represents.payload⟩
    | op block opIdx node => exact represents.payload

omit order in
/-- A value is defined by the instruction that has it as its output. -/
theorem defOf_iff (assigned : func.Assigned) (value id : Nat) :
    tables.defOf[value]? = some (some id) ↔
      ∃ inst, tables.insts[id]? = some inst ∧ inst.output = some value := by
  have small := values_small passed fits
  constructor
  · intro isDef
    have inside := (List.getElem?_eq_some_iff.mp isDef).1
    rw [passed.agree.values.defLength] at inside
    rw [passed.agree.defs small value inside, Option.some.injEq, lastDef, map_eq_some_iff] at isDef
    obtain ⟨inst, last, rfl⟩ := isDef
    obtain ⟨inInsts, defines⟩ := mem_filter.mp (mem_of_getLast? last)
    obtain ⟨k, position⟩ := mem_iff_getElem?.mp inInsts
    refine ⟨inst, ?_, of_decide_eq_true defines⟩
    rw [instIds passed fits position]
    exact position
  · rintro ⟨inst, position, defines⟩
    have siteOf : ∀ {k : Nat} {inst' : GraphInst}, tables.insts[k]? = some inst' →
        inst'.output = some value → ∃ (site : Site) (var : SSAVar),
          func.sites[k]? = some site ∧ site.dst = some var ∧
          tables.values[value]?.map GraphValue.var = some var := by
      intro k inst' position' defines'
      obtain ⟨site, atSite, represents⟩ := exists_left_of_forall₂ passed.agree.insts position'
      have output := represents.output
      rw [defines'] at output
      generalize isDst : site.dst = dst at output
      cases output with
      | some isId => exact ⟨site, _, atSite, isDst, (isId_iff small).mp isId⟩
    obtain ⟨site, var, atSite, isDst, isVar⟩ := siteOf position defines
    obtain ⟨found, isFound, -⟩ := map_eq_some_iff.mp isVar
    have inside := (List.getElem?_eq_some_iff.mp isFound).1
    rw [passed.agree.defs small value inside, Option.some.injEq, lastDef]
    have waiting : inst ∈ tables.insts.filter fun i => i.output = some value :=
      mem_filter.mpr ⟨mem_of_getElem? position, decide_eq_true defines⟩
    obtain ⟨last, isLast⟩ := ne_none_iff_exists'.mp fun none =>
      ne_nil_of_mem waiting (List.getLast?_eq_none_iff.mp none)
    rw [isLast, map_some, Option.some.injEq]
    obtain ⟨inInsts, definesLast⟩ := mem_filter.mp (mem_of_getLast? isLast)
    obtain ⟨k, positionLast⟩ := mem_iff_getElem?.mp inInsts
    obtain ⟨site', var', atSite', isDst', isVar'⟩ :=
      siteOf positionLast (of_decide_eq_true definesLast)
    obtain rfl : var = var' := some.inj (isVar.symm.trans isVar')
    rw [instIds passed fits positionLast]
    exact site_unique assigned atSite' atSite isDst' isDst

omit order in
theorem usesOf_iff {value : Nat} {uses : List UseSite} (found : tables.usesOf[value]? = some uses) :
    uses.Nodup ∧ ∀ use, use ∈ uses ↔
      ∃ inst, tables.insts[use.inst]? = some inst ∧ inst.inputs[use.inputIdx]? = some value := by
  have inside := (List.getElem?_eq_some_iff.mp found).1
  rw [passed.agree.values.usesLength] at inside
  rw [passed.agree.uses (values_small passed fits) value inside, Option.some.injEq] at found
  subst found
  have positions : tables.insts.map GraphInst.id = List.range tables.insts.length := by
    refine ext_getElem (by simp) fun k inside _ => ?_
    rw [getElem_map, getElem_range]
    exact instIds passed fits (List.getElem?_eq_getElem (by simpa using inside))
  refine ⟨nodup_usesIn (by rw [positions]; exact nodup_range) value, fun use => ?_⟩
  rw [mem_usesIn]
  constructor
  · rintro ⟨inst, mem, same, isInput⟩
    obtain ⟨k, position⟩ := mem_iff_getElem?.mp mem
    rw [← same, instIds passed fits position]
    exact ⟨inst, position, isInput⟩
  · rintro ⟨inst, position, isInput⟩
    exact ⟨inst, mem_of_getElem? position, instIds passed fits position, isInput⟩

omit order in
private theorem valueByVar_iff (var : SSAVar) (id : Nat) : tables.valueByVar.lookup var = some id ↔
    ∃ value, tables.values[id]? = some value ∧ value.var = var := by
  rw [passed.agree.values.byVar, isId_iff (values_small passed fits), map_eq_some_iff]

private theorem blockByAddr_iff (addr id : Nat) : (blockIds func).lookup addr = some id ↔
    ∃ block, tables.blocks[id]? = some block ∧ block.addr = addr := by
  rw [lookup_blockIds_of_fits order fits, ← map_eq_some_iff]
  constructor
  · exact exists_block passed.agree
  · intro isBlock
    obtain ⟨block, position, rfl⟩ := map_eq_some_iff.mp isBlock
    exact (block_iff passed.agree position).1

private theorem predecessors_eq {sources : List (Nat × SSAVar)}
    (listed : ∀ source ∈ sources, source.1 ∈ func.blockOrder) :
    (sources.filterMap fun source => (blockIds func).lookup source.1).map
        (fun pred => tables.blocks[pred]?.map GraphBlock.addr) =
      sources.map fun source => some source.1 := by
  induction sources with
  | nil => rfl
  | cons source rest ih =>
    obtain ⟨here, later⟩ := forall_mem_cons.mp listed
    obtain ⟨id, position⟩ := mem_iff_getElem?.mp here
    have found : (blockIds func).lookup source.1 = some id :=
      (lookup_blockIds_of_fits order fits _ _).mpr position
    simp only [filterMap_cons, found, map_cons, exists_block passed.agree position, ih later]

/-- The tables that one pass leaves are faithful if phis have listed predecessors. -/
theorem faithful {graph : SsaGraph} (assigned : func.Assigned) (indexed : func.Indexed)
    (same : graph.toGraphTables = tables) (ids : graph.blockByAddr = blockIds func)
    (listed : func.PhisListed) : graph.Faithful func := by
  have agree := passed.agree
  have ops := passed.ops fits.insts (nodup_opSites assigned indexed)
  have blocksLength : tables.blocks.length = func.blockOrder.length := by
    rw [agree.blocks, length_mapIdx, initialBlocks, length_map, length_zipIdx]
  subst same
  constructor
  · exact (ids_iff fun position => (block_iff agree position).2.1).mpr (blocksLength ▸ fits.blocks)
  · exact instIds passed fits
  · exact (ids_iff agree.values.ids).mpr (values_small passed fits)
  · rw [ids]
    exact blockByAddr_iff passed order fits
  · exact valueByVar_iff passed fits
  · exact agree.insts.imp fun site inst represents =>
      represents_holds passed order fits rfl represents
  · exact fun position => (block_iff agree position).2.2
  · exact agree.values.defLength
  · exact defOf_iff passed fits assigned
  · exact agree.values.usesLength
  · exact usesOf_iff passed fits
  · exact fun opSite id => (ops.instBySite opSite id).trans (ops.siteByInst opSite id).symm
  · exact ops.instBySite
  · intro id inst block phiIdx node predecessors position atSite isPhi
    obtain ⟨site, atSite', represents⟩ := exists_left_of_forall₂ agree.insts position
    obtain rfl := some.inj (atSite.symm.trans atSite')
    obtain rfl := InstPayload.Phi.inj (isPhi.symm.trans represents.payload)
    obtain ⟨listedBlock, mem⟩ := mem_phi_sites (mem_of_getElem? atSite)
    exact predecessors_eq passed order fits (listed block listedBlock node mem)

omit order fits in
theorem fits_of_faithful {graph : SsaGraph} (same : graph.toGraphTables = tables)
    (faithful : graph.Faithful func) (order : func.blockOrder.Nodup) :
    func.Fits ∧ func.PhisListed := by
  have agree := passed.agree
  have blocksLength : tables.blocks.length = func.blockOrder.length := by
    rw [agree.blocks, length_mapIdx, initialBlocks, length_map, length_zipIdx]
  subst same
  refine ⟨⟨?_, ?_, ?_⟩, ?_⟩
  · rw [← blocksLength]
    exact (ids_iff fun position => (block_iff agree position).2.1).mp faithful.blockIds
  · rw [agree.insts.length_eq]
    exact (ids_iff agree.instIds).mp faithful.instIds
  · rw [← length_values agree]
    exact (ids_iff agree.values.ids).mp faithful.valueIds
  · intro block listed node mem source isSource
    obtain ⟨phiIdx, inSites⟩ := exists_phi_site listed mem
    obtain ⟨id, atSite⟩ := mem_iff_getElem?.mp inSites
    obtain ⟨inst, position, represents⟩ := exists_right_of_forall₂ agree.insts atSite
    have lengths := congrArg List.length
      (faithful.phiPredecessors position atSite represents.payload)
    rw [length_map, length_map] at lengths
    have found := filterMap_length_eq_length.mp lengths source isSource
    obtain ⟨pred, isPred⟩ := isSome_iff_exists.mp found
    obtain ⟨k, listedAt, -⟩ := (lookup_blockIds order source.1 pred).mp isPred
    exact mem_of_getElem? listedAt

end Index

theorem exists_graph (assigned : func.Assigned) (indexed : func.Indexed) :
    ∃ graph, fromFunction func = some graph ∧ graph.blockByAddr = blockIds func ∧
      Passed (blockIds func) (initialBlocks func) func.sites graph.toGraphTables := by
  obtain ⟨tables, run, passed⟩ := Passed.addBlocks func.blockList
    (passed_initial (blockIds func) (initialBlocks func)) fun block listed => by
      obtain ⟨addr, found⟩ := assigned.mem_blockList.mp listed
      obtain ⟨k, position⟩ := mem_iff_getElem?.mp (indexed.listed found)
      rw [indexed.addr found, (lookup_blockIds assigned.order addr (asU32 k)).mpr ⟨k, position, rfl⟩]
      rfl
  refine ⟨⟨tables, ((blockIds func).lookup func.entry).getD 0,
    func.blockOrder.zipIdx.map fun entry => asU32 entry.2, blockIds func⟩, ?_, rfl, passed⟩
  rw [fromFunction, initialTables, run]
  rfl

/-- The graph of a function is an index of it exactly if it fits, and all sources of
phis come from listed blocks. -/
theorem fromFunction_faithful_iff (func : SSAFunction) (assigned : func.Assigned)
    (indexed : func.Indexed) : ∃ graph, fromFunction func = some graph ∧
      (graph.Faithful func ↔ func.Fits ∧ func.PhisListed) := by
  obtain ⟨graph, run, ids, passed⟩ := exists_graph assigned indexed
  refine ⟨graph, run, ?_⟩
  constructor
  · exact fun isFaithful => fits_of_faithful passed rfl isFaithful assigned.order
  · rintro ⟨fits, listed⟩
    exact faithful passed assigned.order fits assigned indexed rfl ids listed

end SsaGraph

/-! ## Functions built from blocks -/

/-- Construction lists each block once and defines each variable once. -/
theorem Built.assigned {blocks : List R2ILBlock} {arch : Option ArchSpec}
    {callBoundaries : Option CallBoundaryConfig} {func : SSAFunction} {renamed : RenamedFunction}
    {final : RenameContext} {entered : Nat → RenameContext}
    (built : Built blocks arch callBoundaries func renamed final entered) : func.Assigned := by
  obtain ⟨nodupEach, apart⟩ := nodup_flatMap.mp built.definitions_fresh.nodup
  have order : func.blockOrder.Nodup := built.order ▸ built.spec.order.nodup
  have defsIn : ∀ {addr block}, func.getBlock addr = some block →
      func.defsIn addr = block.dsts.map fun var => (var.name, var.version) := by
    intro addr block found
    rw [SSAFunction.defsIn, show func.blocks.lookup addr = some block from found]
    rfl
  refine ⟨fun found => ?_, fun found found' mem member' => ?_, order, fun addr => ?_⟩
  · have nodup := nodupEach _ (built.indexed.listed found)
    rw [defsIn found] at nodup
    exact List.Nodup.of_map _ nodup
  · by_contra other
    have symmetric : Std.Symm (Function.onFun List.Disjoint func.defsIn) :=
      ⟨fun _ _ disjoint => disjoint.symm⟩
    have disjoint : List.Disjoint (func.defsIn _) (func.defsIn _) :=
      apart.forall (built.indexed.listed found) (built.indexed.listed found') other
    rw [defsIn found, defsIn found'] at disjoint
    exact disjoint (List.mem_map_of_mem mem) (List.mem_map_of_mem member')
  · rw [SSAFunction.getBlock, built.block, built.order]
    by_cases listed : addr ∈ func.cfg.reversePostorder
    · obtain ⟨cfgBlock, found⟩ := isSome_iff_exists.mp (built.consistent.getBlock_isSome.mpr
        (CFG.reach_mapped built.present ((built.spec.order.mem_iff addr).mp listed)))
      rw [if_pos listed, found]
      exact iff_of_true rfl listed
    · rw [if_neg listed]
      exact iff_of_false (by simp) listed

def setInArm : List R2ILBlock :=
  [⟨4096, 4, [.CBranch ⟨.Const, 4104, 8⟩ ⟨.Register, 8, 1⟩], none⟩,
   ⟨4100, 4, [.Copy ⟨.Register, 0, 8⟩ ⟨.Const, 1, 8⟩], none⟩,
   ⟨4104, 4, [.Copy ⟨.Unique, 16, 8⟩ ⟨.Register, 0, 8⟩, .Return ⟨.Register, 16, 8⟩], none⟩]

theorem fromFunction_faithful_setInArm : ∃ func graph, fromBlocksRaw setInArm none = some func ∧
    SsaGraph.fromFunction func = some graph ∧ graph.Faithful func := by
  obtain ⟨func, renamed, final, entered, build, built⟩ :=
    fromBlocksRawWithPolicy_built _ _ none none
  obtain ⟨graph, run, iff⟩ := SsaGraph.fromFunction_faithful_iff func built.assigned built.indexed
  refine ⟨func, graph, build, run, iff.mpr ?_⟩
  have checked : (fromBlocksRaw setInArm none).all (fun func =>
      func.PhisListed ∧ func.blockOrder.length ≤ 2 ^ 32 ∧ func.sites.length ≤ 2 ^ 32 ∧
        (func.sites.flatMap Site.vars).dedup.length ≤ 2 ^ 32) = true := by decide +kernel
  rw [show fromBlocksRaw setInArm none = some func from build, all_some,
    decide_eq_true_iff] at checked
  obtain ⟨listed, blocks, insts, values⟩ := checked
  exact ⟨⟨blocks, insts, values⟩, listed⟩

def setInSkippedBlock : List R2ILBlock :=
  [⟨4096, 4, [.Branch ⟨.Const, 4104, 8⟩], none⟩,
   ⟨4100, 4, [.Copy ⟨.Register, 0, 8⟩ ⟨.Const, 1, 8⟩], none⟩,
   ⟨4104, 4, [.Copy ⟨.Unique, 16, 8⟩ ⟨.Register, 0, 8⟩, .Return ⟨.Register, 16, 8⟩], none⟩]

/-- The phi at the join has two inputs and one predecessor. -/
theorem setInSkippedBlock_not_faithful : ∃ func graph,
    fromBlocksRaw setInSkippedBlock none = some func ∧
      SsaGraph.fromFunction func = some graph ∧ ¬ graph.Faithful func := by
  obtain ⟨func, renamed, final, entered, build, built⟩ :=
    fromBlocksRawWithPolicy_built _ _ none none
  obtain ⟨graph, run, -, passed⟩ := SsaGraph.exists_graph built.assigned built.indexed
  refine ⟨func, graph, build, run, fun isFaithful => ?_⟩
  have listed := (SsaGraph.fits_of_faithful passed rfl isFaithful built.assigned.order).2
  have unlisted : (fromBlocksRaw setInSkippedBlock none).all (fun func => ¬ func.PhisListed) = true := by
    decide +kernel
  rw [show fromBlocksRaw setInSkippedBlock none = some func from build, all_some] at unlisted
  exact of_decide_eq_true unlisted listed

end R2Sleigh.Ssa
