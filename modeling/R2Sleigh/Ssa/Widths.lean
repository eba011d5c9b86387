import R2Sleigh.Ssa.Function

/-!
Contract: the sizes of the variables that construction makes of varnodes.

Owns `definedSize` and `KeepsSizes`.
-/

namespace R2Sleigh.Ssa

open Il Lib List

/-! ## Sizes of names -/

/-- The listed definitions of a graph in the order of the addresses, with their
sizes. -/
def listedOutputs (regNames : Option RegisterNameMap) (cfg : CFG) : List (String × Nat) :=
  cfg.blockAddrs.flatMap fun addr =>
    (((cfg.getBlock addr).map BasicBlock.ops).getD []).filterMap (getOpOutputWithSize regNames)

/-- The size of the last listed definition of a name, else eight. -/
def definedSize (regNames : Option RegisterNameMap) (cfg : CFG) (x : String) : Nat :=
  ((((listedOutputs regNames cfg).reverse.find? fun entry => entry.1 = x).map Prod.snd).getD 8)

theorem snd_collectBlocks (cfg : CFG) (regNames : Option RegisterNameMap) (addrs : List Nat) :
    ∀ acc : Defs, (addrs.foldl (collectBlock cfg regNames) acc).2 =
      (addrs.flatMap fun addr => (((cfg.getBlock addr).map BasicBlock.ops).getD []).filterMap
        (getOpOutputWithSize regNames)).foldl (fun sizes entry => sizes.insert entry.1 entry.2)
        acc.2 := by
  have ops : ∀ (addr : Nat) (ops : List R2ILOp) (acc : Defs),
      (ops.foldl (collectOp regNames addr) acc).2 =
        (ops.filterMap (getOpOutputWithSize regNames)).foldl
          (fun sizes entry => sizes.insert entry.1 entry.2) acc.2 := by
    intro addr ops
    induction ops with
    | nil => exact fun _ => rfl
    | cons op rest ih =>
      intro acc
      rw [foldl_cons, ih, collectOp]
      cases listed : getOpOutputWithSize regNames op with
      | none => rw [filterMap_cons_none listed]
      | some entry => rw [filterMap_cons_some listed, foldl_cons]
  induction addrs with
  | nil => exact fun _ => rfl
  | cons addr rest ih =>
    intro acc
    rw [foldl_cons, ih, flatMap_cons, foldl_append, collectBlock]
    cases cfg.getBlock addr with
    | none => rfl
    | some block => rw [ops]; rfl

theorem getD_lookup_collectDefs (cfg : CFG) (regNames : Option RegisterNameMap) (x : String) :
    ((collectDefsFromCfgWithNames cfg regNames).2.lookup x).getD 8 = definedSize regNames cfg x := by
  rw [collectDefsFromCfgWithNames, snd_collectBlocks, HashMap.lookup_foldl_insert_last, definedSize,
    listedOutputs]
  cases ((cfg.blockAddrs.flatMap fun addr =>
    (((cfg.getBlock addr).map BasicBlock.ops).getD []).filterMap
      (getOpOutputWithSize regNames)).reverse.find? fun entry => entry.1 = x) <;> rfl

/-! ## Sizes in contexts -/

theorem getSize_initVar (ctx : RenameContext) (x y : String) (size : Nat) :
    (ctx.initVar x size).getSize y = if y = x then size else ctx.getSize y := by
  unfold RenameContext.initVar RenameContext.getSize
  by_cases here : y = x
  · subst here
    simp
  · simp [AList.lookup_insert_ne here, here]

private theorem getSize_foldl_initVar (sizeOf : String → Nat) (phis : List PhiInfo)
    (sized : ∀ phi ∈ phis, phi.varSize = sizeOf phi.varName) :
    ∀ ctx : RenameContext, (∀ x, ctx.getSize x = sizeOf x) →
      ∀ x, (phis.foldl (fun ctx phi => ctx.initVar phi.varName phi.varSize) ctx).getSize x =
        sizeOf x := by
  induction phis with
  | nil => exact fun _ holds => holds
  | cons phi rest ih =>
    intro ctx holds
    obtain ⟨here, later⟩ := forall_mem_cons.mp sized
    refine ih later _ fun x => ?_
    rw [getSize_initVar]
    by_cases same : x = phi.varName
    · rw [if_pos same, here, same]
    · rw [if_neg same, holds]

theorem getSize_foldl_entries (x : String) (l : List ((_ : String) × Nat)) (nodup : l.NodupKeys) :
    ∀ ctx : RenameContext,
      (l.foldl (fun ctx entry => ctx.initVar entry.1 entry.2) ctx).getSize x =
        (l.dlookup x).getD (ctx.getSize x) := by
  induction l with
  | nil => exact fun _ => rfl
  | cons entry rest ih =>
    intro ctx
    obtain ⟨fresh, nodupRest⟩ := nodupKeys_cons.mp nodup
    rw [foldl_cons, ih nodupRest, getSize_initVar]
    by_cases here : x = entry.1
    · subst here
      rw [if_pos rfl, dlookup_eq_none.mpr fresh]
      rw [dlookup_cons_eq]
      rfl
    · obtain ⟨y, size⟩ := entry
      rw [if_neg here, dlookup_cons_ne rest ⟨y, size⟩ here]

private theorem getSize_initialContext {phiPlacement : PhiPlacement} {varSizes : HashMap String Nat}
    (sized : ∀ addr, ∀ phi ∈ phiPlacement.getPhis addr,
      phi.varSize = (varSizes.lookup phi.varName).getD 8) (x : String) :
    (initialContext phiPlacement varSizes).getSize x = (varSizes.lookup x).getD 8 := by
  have sorted : (varSizes.entries.insertionSort fun lhs rhs => lhs.1 ≤ rhs.1).Perm varSizes.entries :=
    perm_insertionSort _ _
  have nodup := (perm_nodupKeys sorted).mpr varSizes.nodupKeys
  have start : ∀ y, ((varSizes.entries.insertionSort fun lhs rhs => lhs.1 ≤ rhs.1).foldl
      (fun ctx entry => ctx.initVar entry.1 entry.2) RenameContext.new).getSize y =
        (varSizes.lookup y).getD 8 := by
    intro y
    rw [getSize_foldl_entries y _ nodup, perm_dlookup y nodup sorted]
    rfl
  unfold initialContext
  generalize (varSizes.entries.insertionSort fun lhs rhs => lhs.1 ≤ rhs.1).foldl
    (fun ctx entry => ctx.initVar entry.1 entry.2) RenameContext.new = ctx at start
  induction phiPlacement.phis.keys.insertionSort (· ≤ ·) generalizing ctx with
  | nil => exact start x
  | cons addr rest ih =>
    refine ih _ fun y => ?_
    exact getSize_foldl_initVar (fun name => (varSizes.lookup name).getD 8) _ (sized addr) ctx start y

/-! ## Operations -/

def isMultiequal : R2ILOp → Bool
  | .Multiequal _ _ => true
  | _ => false

/-- The variables of an operation have the sizes of the varnodes. -/
structure KeepsSizes (op : R2ILOp) (renamed : SSAOp) : Prop where
  sources : renamed.sources.map SSAVar.size = op.inputs.map Varnode.size
  dst : renamed.dst.map SSAVar.size = op.output.map Varnode.size

/-- The variables of a phi made of an operation have the sizes of the varnodes; a phi
has a source for each predecessor at most. -/
structure PhiKeepsSizes (preds : List Nat) (op : R2ILOp) (phi : PhiNode) : Prop where
  sources : phi.sources.map (fun source => source.2.size) =
    (op.inputs.map Varnode.size).take preds.length
  dst : some phi.dst.size = op.output.map Varnode.size

/-- The varnodes of an operation whose variables get the size of a name: literals
have their own. -/
def sizedByName (preds : List Nat) (op : R2ILOp) : List Varnode :=
  op.output.toList ++
    ((if isMultiequal op then op.inputs.take preds.length else op.inputs).filter (·.space ≠ .Const))

theorem size_readVarnode (regNames : Option RegisterNameMap) (ctx : RenameContext) (vn : Varnode) :
    (readVarnode regNames ctx vn).size =
      if vn.space = .Const then vn.size else ctx.getSize (varnodeToName vn regNames) := by
  unfold readVarnode
  cases vn.space <;> rfl

theorem size_define (state : RenameState) (name : String) :
    (state.define name).1.size = state.ctx.getSize name := rfl

section

variable (regNames : Option RegisterNameMap)
include regNames

private theorem isPhi_renameOp (state : RenameState) (op : R2ILOp) :
    (renameOp regNames state op).1.isPhi = isMultiequal op := by
  cases op with
  | StoreConditional result space addr val ordering => cases result <;> rfl
  | CallOther output userop inputs => cases output <;> rfl
  | _ => rfl

theorem map_size_readVarnode_iff (ctx : RenameContext)
    (vns : List Varnode) :
    (vns.map (readVarnode regNames ctx)).map SSAVar.size = vns.map Varnode.size ↔
      ∀ vn ∈ vns.filter (·.space ≠ .Const), vn.size = ctx.getSize (varnodeToName vn regNames) := by
  rw [map_map, map_inj_left]
  constructor
  · intro same vn mem
    obtain ⟨inside, notConst⟩ := mem_filter.mp mem
    have sizes := same vn inside
    rw [Function.comp_apply, size_readVarnode, if_neg (of_decide_eq_true notConst)] at sizes
    exact sizes.symm
  · intro sized vn inside
    rw [Function.comp_apply, size_readVarnode]
    by_cases isConst : vn.space = .Const
    · rw [if_pos isConst]
    · rw [if_neg isConst]
      exact (sized vn (mem_filter.mpr ⟨inside, decide_eq_true isConst⟩)).symm

theorem dst_keepsSizes_iff (state : RenameState) (op : R2ILOp) :
    (renameOp regNames state op).1.dst.map SSAVar.size = op.output.map Varnode.size ↔
      ∀ vn ∈ op.output.toList, vn.size = state.ctx.getSize (varnodeToName vn regNames) := by
  rw [(renameOp_spec regNames state op).2.1, outputName]
  cases op.output with
  | none => simp
  | some vn => simp [size_define, eq_comm]

theorem keepsSizes_iff (state : RenameState) {op : R2ILOp}
    (preds : List Nat) (notPhi : isMultiequal op = false) :
    KeepsSizes op (renameOp regNames state op).1 ↔
      ∀ vn ∈ sizedByName preds op, vn.size = state.ctx.getSize (varnodeToName vn regNames) := by
  rw [sizedByName, notPhi, if_neg Bool.false_ne_true, forall_mem_append,
    ← dst_keepsSizes_iff regNames state op, ← map_size_readVarnode_iff,
    ← (renameOp_spec regNames state op).1]
  exact ⟨fun keeps => ⟨keeps.dst, keeps.sources⟩, fun ⟨dst, sources⟩ => ⟨sources, dst⟩⟩

private theorem phi_sources_eq (ctx : RenameContext)
    (inputs : List Varnode) :
    ∀ preds : List Nat, (((inputs.map (readVarnode regNames ctx)).zip preds).map
      fun entry => (entry.2, entry.1)).map (fun source : Nat × SSAVar => source.2.size) =
      ((inputs.take preds.length).map (readVarnode regNames ctx)).map SSAVar.size := by
  induction inputs with
  | nil => exact fun _ => by simp
  | cons vn rest ih =>
    intro preds
    cases preds with
    | nil => rfl
    | cons pred preds => exact congrArg (_ :: ·) (ih preds)

private theorem phiKeepsSizes_iff (state : RenameState) {op : R2ILOp}
    (preds : List Nat) (isPhi : isMultiequal op = true) : ∃ phi,
    phiNode preds (renameOp regNames state op).1 = some phi ∧ (PhiKeepsSizes preds op phi ↔
      ∀ vn ∈ sizedByName preds op, vn.size = state.ctx.getSize (varnodeToName vn regNames)) := by
  cases op with
  | Multiequal dst inputs =>
    refine ⟨_, rfl, ?_⟩
    have sources := phi_sources_eq regNames state.ctx inputs preds
    rw [sizedByName, isPhi, if_pos rfl, forall_mem_append, ← dst_keepsSizes_iff regNames state,
      ← map_size_readVarnode_iff]
    change _ ↔ _ ∧ ((inputs.take preds.length).map (readVarnode regNames state.ctx)).map
      SSAVar.size = (inputs.take preds.length).map Varnode.size
    rw [← sources, map_take]
    exact ⟨fun keeps => ⟨keeps.dst, keeps.sources⟩,
      fun ⟨sameDst, sameSources⟩ => ⟨sameSources, sameDst⟩⟩
  | _ => cases isPhi

/-! ## Blocks -/

private theorem sizes_renameOp (state : RenameState) (op : R2ILOp) :
    (renameOp regNames state op).2.ctx.sizes = state.ctx.sizes := by
  rw [(renameOp_spec regNames state op).2.2]
  cases outputName regNames op <;> rfl

end

/-- The operations of a block and the phis that its `Multiequal`s become keep
sizes; before these phis stand the placed ones, which come from no operation. -/
structure BlockKeepsSizes (preds : List Nat) (placed : Nat) (source : List R2ILOp)
    (block : SSABlock) : Prop where
  ops : List.Forall₂ KeepsSizes (source.filter fun op => !isMultiequal op) block.ops
  phis : List.Forall₂ (PhiKeepsSizes preds) (source.filter isMultiequal) (block.phis.drop placed)

private theorem renameOps_keepsSizes_iff (regNames : Option RegisterNameMap) (preds : List Nat)
    (sizeOf : String → Nat) (source : List R2ILOp) :
    ∀ state : RenameState, (∀ x, state.ctx.getSize x = sizeOf x) →
      ((List.Forall₂ KeepsSizes (source.filter fun op => !isMultiequal op)
          ((renameOps regNames none source state).1.filter fun op => !op.isPhi) ∧
        List.Forall₂ (PhiKeepsSizes preds) (source.filter isMultiequal)
          (((renameOps regNames none source state).1.filter SSAOp.isPhi).filterMap
            (phiNode preds))) ↔
        ∀ op ∈ source, ∀ vn ∈ sizedByName preds op,
          vn.size = sizeOf (varnodeToName vn regNames)) := by
  induction source with
  | nil => exact fun _ _ => by simp [renameOps]
  | cons op rest ih =>
    intro state sized
    have later : ∀ x, (renameOp regNames state op).2.ctx.getSize x = sizeOf x := by
      intro x
      rw [RenameContext.getSize, sizes_renameOp]
      exact sized x
    rw [renameOps, renameOpWithBoundary_none, forall_mem_cons, ← ih _ later]
    dsimp only
    rw [singleton_append, filter_cons, filter_cons, filter_cons, filter_cons, isPhi_renameOp]
    simp only [← sized]
    cases isPhi : isMultiequal op with
    | false =>
      rw [← keepsSizes_iff regNames state preds isPhi]
      simp only [Bool.not_false, if_true, Bool.false_eq_true, if_false, List.forall₂_cons,
        and_assoc]
    | true =>
      obtain ⟨phi, made, keeps⟩ := phiKeepsSizes_iff regNames state preds isPhi
      rw [← keeps]
      simp only [Bool.not_true, if_true, Bool.false_eq_true, if_false,
        filterMap_cons_some made, List.forall₂_cons]
      exact and_left_comm

private theorem filter_phiRow (sources : PhiInfo → List SSAVar) (phis : List PhiInfo) :
    ∀ dsts : List SSAVar, (phiRow dsts phis sources).filter SSAOp.isPhi = phiRow dsts phis sources ∧
      (phiRow dsts phis sources).filter (fun op => !op.isPhi) = [] := by
  induction phis with
  | nil => exact fun dsts => by simp [phiRow]
  | cons phi rest ih =>
    intro dsts
    cases dsts with
    | nil => exact ⟨rfl, rfl⟩
    | cons dst dsts =>
      obtain ⟨kept, dropped⟩ := ih dsts
      exact ⟨congrArg (_ :: ·) kept, dropped⟩

private theorem length_phiNodes_phiRow (preds : List Nat) (sources : PhiInfo → List SSAVar)
    (phis : List PhiInfo) : ∀ dsts : List SSAVar, dsts.length = phis.length →
      ((phiRow dsts phis sources).filterMap (phiNode preds)).length = phis.length := by
  induction phis with
  | nil => exact fun dsts _ => by simp [phiRow]
  | cons phi rest ih =>
    intro dsts sameLength
    cases dsts with
    | nil => cases sameLength
    | cons dst dsts =>
      exact congrArg (· + 1) (ih dsts (Nat.succ.inj sameLength))

theorem SizesGrow.eq_of_nil {regNames : Option RegisterNameMap} {sizes sizes' : HashMap String Nat}
    (grown : SizesGrow regNames [] sizes sizes') : sizes' = sizes := by
  cases grown with
  | refl => rfl
  | init _ mem _ _ => cases mem

section Function

variable {blocks : List R2ILBlock} {arch : Option ArchSpec} {func : SSAFunction}
  {renamed : RenamedFunction} {final : RenameContext} {entered : Nat → RenameContext}

section

variable {v : Nat} (built : Built blocks arch none func renamed final entered)
  (reach : func.cfg.flow.Reach v)
include built reach

private theorem Built.getSize_entered
    (x : String) :
    (entered v).getSize x = definedSize (arch.map buildRegisterNameMap) func.cfg x := by
  have start : (initialContext (rawArgs func.cfg arch none).phiPlacement
      (rawSizes func.cfg arch)).getSize x = ((rawSizes func.cfg arch).lookup x).getD 8 :=
    getSize_initialContext (fun addr phi mem => by
      obtain ⟨entry, _, _, _, rfl⟩ := (PhiPlacement.mem_getPhis _ _ _ _ addr phi).mp mem
      rfl) x
  rw [rawSizes, getD_lookup_collectDefs] at start
  rw [← start, RenameContext.getSize, RenameContext.getSize, (built.result.sizes v reach).eq_of_nil]
  rfl

theorem Built.blockKeepsSizes_iff
    {cfgBlock : BasicBlock}
    (found : func.cfg.getBlock v = some cfgBlock) :
    BlockKeepsSizes (func.cfg.predecessors v)
        ((rawArgs func.cfg arch none).phiPlacement.getPhis v).length cfgBlock.ops
        (ssaBlock func.cfg cfgBlock v (renamed.getBlock v)) ↔
      ∀ op ∈ cfgBlock.ops, ∀ vn ∈ sizedByName (func.cfg.predecessors v) op, vn.size =
        definedSize (arch.map buildRegisterNameMap) func.cfg
          (varnodeToName vn (arch.map buildRegisterNameMap)) := by
  have contents : renamed.getBlock v = blockOps (rawArgs func.cfg arch none) (some (entered v))
      (filledAt (rawArgs func.cfg arch none) entered v) v := by
    rw [RenamedFunction.getBlock, HashMap.listAt, built.result.block v reach]
    rfl
  have body : bodyOps (rawArgs func.cfg arch none) v = cfgBlock.ops := by
    rw [bodyOps, show (rawArgs func.cfg arch none).cfg = func.cfg from rfl, found]
    rfl
  have sized : ∀ x, (phiState ((rawArgs func.cfg arch none).phiPlacement.getPhis v)
      ⟨entered v, []⟩).ctx.getSize x =
        definedSize (arch.map buildRegisterNameMap) func.cfg x := by
    intro x
    rw [RenameContext.getSize, phiState_sizes]
    exact built.getSize_entered reach x
  rw [← renameOps_keepsSizes_iff _ _ _ _ _ sized, contents, blockOps, Option.map_some,
    Option.getD_some, bodyOf, body]
  obtain ⟨kept, dropped⟩ := filter_phiRow (sourcesOf
    (filledAt (rawArgs func.cfg arch none) entered v) (firstPreds (rawArgs func.cfg arch none) v))
    ((rawArgs func.cfg arch none).phiPlacement.getPhis v)
    (dstsOf (rawArgs func.cfg arch none) (some (entered v)) v)
  have placed := length_phiNodes_phiRow (func.cfg.predecessors v) (sourcesOf
    (filledAt (rawArgs func.cfg arch none) entered v) (firstPreds (rawArgs func.cfg arch none) v))
    ((rawArgs func.cfg arch none).phiPlacement.getPhis v) _
    (dstsOf_length (rawArgs func.cfg arch none) (some (entered v)) v)
  constructor
  · rintro ⟨ops, phis⟩
    rw [ssaBlock] at ops phis
    dsimp only at ops phis
    rw [filter_append, dropped, nil_append] at ops
    rw [filter_append, kept, filterMap_append, drop_left' placed] at phis
    exact ⟨ops, phis⟩
  · rintro ⟨ops, phis⟩
    refine ⟨?_, ?_⟩
    · rw [ssaBlock]
      rw [filter_append, dropped, nil_append]
      exact ops
    · rw [ssaBlock]
      dsimp only
      rw [filter_append, kept, filterMap_append, drop_left' placed]
      exact phis

end

/-- In every block of the function all variables have the sizes of the varnodes
they come from. -/
def SSAFunction.KeepsSizes (func : SSAFunction) (arch : Option ArchSpec) : Prop :=
  ∀ v cfgBlock block, func.cfg.getBlock v = some cfgBlock → func.blocks.lookup v = some block →
    BlockKeepsSizes (func.cfg.predecessors v)
      ((rawArgs func.cfg arch none).phiPlacement.getPhis v).length cfgBlock.ops block

theorem Built.keepsSizes_iff (built : Built blocks arch none func renamed final entered) :
    func.KeepsSizes arch ↔
      ∀ v cfgBlock, func.cfg.flow.Reach v → func.cfg.getBlock v = some cfgBlock →
        ∀ op ∈ cfgBlock.ops, ∀ vn ∈ sizedByName (func.cfg.predecessors v) op, vn.size =
          definedSize (arch.map buildRegisterNameMap) func.cfg
            (varnodeToName vn (arch.map buildRegisterNameMap)) := by
  constructor
  · intro keeps v cfgBlock reach found
    obtain ⟨cfgBlock', found', present⟩ := built.exists_block reach
    rw [found, Option.some.injEq] at found'
    subst found'
    exact (built.blockKeepsSizes_iff reach found).mp (keeps v _ _ found present)
  · intro sized v cfgBlock block found present
    have reach := built.reach_of_lookup present
    obtain ⟨cfgBlock', found', present'⟩ := built.exists_block reach
    rw [found, Option.some.injEq] at found'
    subst found'
    rw [present, Option.some.injEq] at present'
    subst present'
    exact (built.blockKeepsSizes_iff reach found).mpr (sized v _ reach found)

end Function

/-- Renaming keeps sizes exactly if, in the reachable blocks, all varnodes of one
name have the size of the last listed definition of it, or eight bytes where
none is listed. -/
theorem keepsSizes_fromBlocksRaw (first : R2ILBlock) (rest : List R2ILBlock)
    (arch : Option ArchSpec) : ∃ func, fromBlocksRaw (first :: rest) arch = some func ∧
      CFG.fromBlocks (first :: rest) = some func.cfg ∧
      (func.KeepsSizes arch ↔
        ∀ v cfgBlock, func.cfg.flow.Reach v → func.cfg.getBlock v = some cfgBlock →
          ∀ op ∈ cfgBlock.ops, ∀ vn ∈ sizedByName (func.cfg.predecessors v) op, vn.size =
            definedSize (arch.map buildRegisterNameMap) func.cfg
              (varnodeToName vn (arch.map buildRegisterNameMap))) := by
  obtain ⟨func, renamed, final, entered, build, built⟩ :=
    fromBlocksRawWithPolicy_built first rest arch none
  exact ⟨func, build, built.graph, built.keepsSizes_iff⟩

def readFourBytes : List R2ILBlock := [⟨4096, 4, [.Copy ⟨.Unique, 0, 4⟩ ⟨.Register, 16, 4⟩], none⟩]

/-- The register is read with the default size. -/
theorem readFourBytes_grows :
    ∃ func, fromBlocksRaw readFourBytes none = some func ∧ ¬ func.KeepsSizes none := by
  obtain ⟨func, renamed, final, entered, build, built⟩ :=
    fromBlocksRawWithPolicy_built ⟨4096, 4, [.Copy ⟨.Unique, 0, 4⟩ ⟨.Register, 16, 4⟩], none⟩ []
      none none
  refine ⟨func, build, fun keeps => ?_⟩
  have contents : (CFG.fromBlocks readFourBytes).all (fun cfg =>
      (cfg.getBlock cfg.entry).map BasicBlock.ops =
        some [.Copy ⟨.Unique, 0, 4⟩ ⟨.Register, 16, 4⟩] ∧
      definedSize none cfg "reg:10" = 8) = true := by decide +kernel
  rw [show CFG.fromBlocks readFourBytes = some func.cfg from built.graph, Option.all_some,
    decide_eq_true_iff, Option.map_eq_some_iff] at contents
  obtain ⟨⟨cfgBlock, found, ops⟩, eight⟩ := contents
  have sized := built.keepsSizes_iff.mp keeps _ cfgBlock Flow.Graph.Reach.root found _
    (by rw [ops]; exact mem_singleton.mpr rfl) ⟨.Register, 16, 4⟩
    (by simp [sizedByName, isMultiequal, R2ILOp.inputs, R2ILOp.output])
  exact absurd (sized.trans eight) (by decide)

end R2Sleigh.Ssa
