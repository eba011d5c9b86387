import R2Sleigh.Ssa.IteratedFrontier
import R2Sleigh.Ssa.RenameOp

/-!
Contract: phi placement from the definitions that the r2il operations make.

Owns `collectDefsFromCfgWithNames` and `PhiPlacement.compute`.
-/

namespace R2Sleigh.Ssa

open Il Flow Lib List

/-- A phi to be placed: the name, its size and the incoming blocks. -/
structure PhiInfo where
  varName : String
  varSize : Nat
  predecessors : List Nat
deriving DecidableEq, Repr

/-- The phis of each block. -/
structure PhiPlacement where
  phis : HashMap Nat (List PhiInfo)

/-- Order of the phis in a block: by name, then size, then predecessors. -/
def PhiInfo.le (x y : PhiInfo) : Prop :=
  x.varName < y.varName ∨ (x.varName = y.varName ∧
    (x.varSize < y.varSize ∨ (x.varSize = y.varSize ∧ x.predecessors ≤ y.predecessors)))

instance (x y : PhiInfo) : Decidable (PhiInfo.le x y) := by
  unfold PhiInfo.le
  infer_instance

/-- Output of an operation as phi placement sees it. -/
def getOpOutputWithSize (regNames : Option RegisterNameMap) (op : R2ILOp) :
    Option (String × Nat) :=
  let varnode :=
    match op with
    | .Copy dst _ | .Load dst _ _ | .binary _ dst _ _ | .unary _ dst _ | .Piece dst _ _
    | .Subpiece dst _ _ | .CpuId dst | .Multiequal dst _ | .Indirect dst _ _ | .PtrAdd dst _ _ _
    | .PtrSub dst _ _ _ | .SegmentOp dst _ _ | .New dst _ | .Extract dst _ _
    | .Insert dst _ _ _ => some dst
    | .CallOther output _ _ => output
    | _ => none
  varnode.map fun vn => (varnodeToName vn regNames, vn.size)

/-- The blocks defining each name, and the sizes seen last. -/
abbrev Defs := HashMap String (List Nat) × HashMap String Nat

/-- One operation of a block at `addr`. -/
def collectOp (regNames : Option RegisterNameMap) (addr : Nat) (acc : Defs) (op : R2ILOp) : Defs :=
  match getOpOutputWithSize regNames op with
  | none => acc
  | some (name, size) => (acc.1.insertAt name addr, acc.2.insert name size)

/-- The operations of the block at `addr`, if there is one. -/
def collectBlock (cfg : CFG) (regNames : Option RegisterNameMap) (acc : Defs) (addr : Nat) : Defs :=
  match cfg.getBlock addr with
  | none => acc
  | some block => block.ops.foldl (collectOp regNames block.addr) acc

def collectDefsFromCfgWithNames (cfg : CFG) (regNames : Option RegisterNameMap) : Defs :=
  cfg.blockAddrs.foldl (collectBlock cfg regNames) (∅, ∅)

namespace PhiPlacement

def getPhis (placement : PhiPlacement) (block : Nat) : List PhiInfo := placement.phis.listAt block

/-- The phi of one name in one block: a block with fewer than two incoming
edges gets none. -/
def placePhi (cfg : CFG) (varSizes : HashMap String Nat) (varName : String)
    (phis : HashMap Nat (List PhiInfo)) (phiBlock : Nat) : HashMap Nat (List PhiInfo) :=
  let preds := cfg.predecessors phiBlock
  if 2 ≤ preds.length then
    phis.pushAt phiBlock ⟨varName, (varSizes.lookup varName).getD 8, preds⟩
  else phis

/-- The phis of one name. -/
def placeVar (cfg : CFG) (domtree : DomTree) (varSizes : HashMap String Nat)
    (phis : HashMap Nat (List PhiInfo)) (entry : (_ : String) × List Nat) :
    HashMap Nat (List PhiInfo) :=
  let defList := entry.2.insertionSort (· ≤ ·)
  let phiBlocks := (domtree.iteratedFrontier defList).insertionSort (· ≤ ·)
  phiBlocks.foldl (placePhi cfg varSizes entry.1) phis

def compute (cfg : CFG) (domtree : DomTree) (defs : HashMap String (List Nat))
    (varSizes : HashMap String Nat) : PhiPlacement :=
  let defsByName := defs.entries.insertionSort fun lhs rhs => lhs.1 ≤ rhs.1
  ⟨HashMap.mapValues (fun phis => phis.insertionSort PhiInfo.le)
    (defsByName.foldl (placeVar cfg domtree varSizes) ∅)⟩

end PhiPlacement

/-! ## What is recorded -/

/-- The outputs that `getOpOutputWithSize` does not list. -/
def unlistedOutput : R2ILOp → Bool
  | .LoadLinked _ _ _ _ | .AtomicCAS _ _ _ _ _ _ | .LoadGuarded _ _ _ _ _ => true
  | .StoreConditional _ _ _ _ _ => true
  | _ => false

private theorem getOpOutputWithSize_eq (regNames : Option RegisterNameMap) (op : R2ILOp) :
    getOpOutputWithSize regNames op =
      if unlistedOutput op then none
      else op.output.map fun vn => (varnodeToName vn regNames, vn.size) := by
  cases op <;> rfl

private theorem mem_recorded_iff {regNames : Option RegisterNameMap} {op : R2ILOp} {x : String} :
    (∃ size, getOpOutputWithSize regNames op = some (x, size)) ↔
      unlistedOutput op = false ∧ outputName regNames op = some x := by
  rw [getOpOutputWithSize_eq, outputName]
  cases unlistedOutput op with
  | true => simp
  | false => cases op.output <;> simp

theorem mem_collectOps (regNames : Option RegisterNameMap) (addr : Nat) (ops : List R2ILOp) :
    ∀ (acc : Defs) (x : String) (b : Nat),
      b ∈ (ops.foldl (collectOp regNames addr) acc).1.listAt x ↔
        b ∈ acc.1.listAt x ∨ (b = addr ∧
          ∃ op ∈ ops, unlistedOutput op = false ∧ outputName regNames op = some x) := by
  induction ops with
  | nil => simp
  | cons op rest ih =>
    intro acc x b
    rw [foldl_cons, ih]
    have head : b ∈ (collectOp regNames addr acc op).1.listAt x ↔ b ∈ acc.1.listAt x ∨
        (b = addr ∧ unlistedOutput op = false ∧ outputName regNames op = some x) := by
      rw [← mem_recorded_iff, collectOp]
      cases image : getOpOutputWithSize regNames op with
      | none => simp
      | some entry =>
        obtain ⟨name, size⟩ := entry
        rw [HashMap.mem_listAt_insertAt]
        simp [and_comm, eq_comm]
    simp only [mem_cons, exists_eq_or_imp]
    tauto

theorem mem_collectBlocks (cfg : CFG) (regNames : Option RegisterNameMap) (addrs : List Nat) :
    ∀ (acc : Defs) (x : String) (b : Nat),
      b ∈ (addrs.foldl (collectBlock cfg regNames) acc).1.listAt x ↔
        b ∈ acc.1.listAt x ∨ ∃ addr ∈ addrs, ∃ block, cfg.getBlock addr = some block ∧
          b = block.addr ∧
          ∃ op ∈ block.ops, unlistedOutput op = false ∧ outputName regNames op = some x := by
  induction addrs with
  | nil => simp
  | cons addr rest ih =>
    intro acc x b
    rw [foldl_cons, ih, collectBlock]
    simp only [mem_cons, exists_eq_or_imp]
    cases found : cfg.getBlock addr with
    | none => simp
    | some block =>
      rw [mem_collectOps]
      simp only [Option.some.injEq, exists_eq_left']
      rw [or_assoc]

theorem mem_collectDefs {cfg : CFG} (consistent : cfg.Consistent)
    {regNames : Option RegisterNameMap} {x : String} {b : Nat} :
    b ∈ (collectDefsFromCfgWithNames cfg regNames).1.listAt x ↔
      ∃ block, cfg.getBlock b = some block ∧
        ∃ op ∈ block.ops, unlistedOutput op = false ∧ outputName regNames op = some x := by
  rw [collectDefsFromCfgWithNames, mem_collectBlocks]
  have empty : HashMap.listAt (∅ : HashMap String (List Nat)) x = [] := rfl
  simp only [empty, not_mem_nil, false_or]
  constructor
  · rintro ⟨addr, _, block, found, rfl, op⟩
    rw [consistent.getBlock_addr found]
    exact ⟨block, found, op⟩
  · rintro ⟨block, found, op⟩
    refine ⟨b, ?_, block, found, (consistent.getBlock_addr found).symm, op⟩
    exact CFG.mem_blockAddrs.mpr (consistent.getBlock_isSome.mp (by rw [found]; rfl))

/-! ## Where phis go -/

namespace PhiPlacement

variable (cfg : CFG) (domtree : DomTree) (varSizes : HashMap String Nat)

/-- The phi placed for a name at a block. -/
def phiFor (x : String) (y : Nat) : PhiInfo := ⟨x, (varSizes.lookup x).getD 8, cfg.predecessors y⟩

private theorem mem_foldl_placePhi (x : String) (blocks : List Nat) :
    ∀ (phis : HashMap Nat (List PhiInfo)) (y : Nat) (phi : PhiInfo),
      phi ∈ (blocks.foldl (placePhi cfg varSizes x) phis).listAt y ↔ phi ∈ phis.listAt y ∨
        (y ∈ blocks ∧ 2 ≤ (cfg.predecessors y).length ∧ phi = phiFor cfg varSizes x y) := by
  induction blocks with
  | nil => simp
  | cons block rest ih =>
    intro phis y phi
    rw [foldl_cons, ih, placePhi, mem_cons]
    by_cases join : 2 ≤ (cfg.predecessors block).length
    · simp only [join, if_true, HashMap.mem_listAt_pushAt]
      by_cases here : y = block
      · subst here
        tauto
      · simp [here]
    · simp only [join, if_false]
      by_cases here : y = block
      · subst here
        simp [join]
      · simp [here]

private theorem mem_foldl_placeVar (entries : List ((_ : String) × List Nat)) :
    ∀ (phis : HashMap Nat (List PhiInfo)) (y : Nat) (phi : PhiInfo),
      phi ∈ (entries.foldl (placeVar cfg domtree varSizes) phis).listAt y ↔ phi ∈ phis.listAt y ∨
        ∃ entry ∈ entries, y ∈ domtree.iteratedFrontier (entry.2.insertionSort (· ≤ ·)) ∧
          2 ≤ (cfg.predecessors y).length ∧ phi = phiFor cfg varSizes entry.1 y := by
  induction entries with
  | nil => simp
  | cons entry rest ih =>
    intro phis y phi
    rw [foldl_cons, ih, placeVar, mem_foldl_placePhi]
    simp only [mem_insertionSort, mem_cons, exists_eq_or_imp]
    rw [or_assoc]

theorem mem_getPhis (defs : HashMap String (List Nat)) (y : Nat) (phi : PhiInfo) :
    phi ∈ (compute cfg domtree defs varSizes).getPhis y ↔
      ∃ entry ∈ defs.entries, y ∈ domtree.iteratedFrontier (entry.2.insertionSort (· ≤ ·)) ∧
        2 ≤ (cfg.predecessors y).length ∧ phi = phiFor cfg varSizes entry.1 y := by
  rw [getPhis, compute, HashMap.listAt_mapValues _ rfl, mem_insertionSort, mem_foldl_placeVar]
  have empty : HashMap.listAt (∅ : HashMap Nat (List PhiInfo)) y = [] := rfl
  simp [empty, mem_insertionSort]

variable {cfg domtree varSizes}

theorem predecessors_of_mem {defs : HashMap String (List Nat)} {y : Nat} {phi : PhiInfo}
    (mem : phi ∈ (compute cfg domtree defs varSizes).getPhis y) :
    phi.predecessors = cfg.predecessors y := by
  obtain ⟨entry, _, _, _, rfl⟩ := (mem_getPhis cfg domtree varSizes defs y phi).mp mem
  rfl

end PhiPlacement

theorem DomTree.FrontierClosure.mono {tree : DomTree} {blocks blocks' : List Nat}
    (subset : blocks ⊆ blocks') {y : Nat} (closure : tree.FrontierClosure blocks y) :
    tree.FrontierClosure blocks' y := by
  induction closure with
  | base isBase inFrontier => exact .base (subset isBase) inFrontier
  | step _ inFrontier ih => exact .step ih inFrontier

/-- Phis of a name are placed exactly at the closure of its recorded blocks. A
block of a frontier has two incoming edges, so that the length test drops
nothing. -/
theorem PhiPlacement.exists_phi_iff {cfg : CFG} {domtree : DomTree}
    (spec : domtree.Computed cfg) {varSizes : HashMap String Nat}
    {defs : HashMap String (List Nat)} {x : String} {y : Nat} :
    (∃ phi ∈ (compute cfg domtree defs varSizes).getPhis y, phi.varName = x) ↔
      domtree.FrontierClosure (defs.listAt x) y := by
  have join : ∀ {blocks : List Nat}, domtree.FrontierClosure blocks y →
      2 ≤ (cfg.predecessors y).length := by
    intro blocks closure
    cases closure with
    | base _ inFrontier | step _ inFrontier => exact (spec.mem_frontier_iff.mp inFrontier).2.1
  constructor
  · rintro ⟨phi, mem, rfl⟩
    obtain ⟨⟨name, blocks⟩, stored, iterated, _, rfl⟩ :=
      (mem_getPhis cfg domtree varSizes defs y phi).mp mem
    have found : defs.lookup name = some blocks := AList.mem_lookup_iff.mpr stored
    have closure := spec.mem_iteratedFrontier_iff.mp iterated
    rw [show (phiFor cfg varSizes name y).varName = name from rfl, HashMap.listAt, found]
    exact closure.mono (by intro b; simp)
  · intro closure
    cases found : defs.lookup x with
    | none =>
      rw [HashMap.listAt, found] at closure
      exfalso
      clear join
      induction closure with
      | base isBase _ => simp at isBase
      | step _ _ ih => exact ih
    | some blocks =>
      rw [HashMap.listAt, found] at closure
      refine ⟨phiFor cfg varSizes x y, (mem_getPhis cfg domtree varSizes defs y _).mpr
        ⟨⟨x, blocks⟩, AList.mem_lookup_iff.mp found, ?_, join closure, rfl⟩, rfl⟩
      exact spec.mem_iteratedFrontier_iff.mpr (closure.mono (by intro b; simp))

end R2Sleigh.Ssa
