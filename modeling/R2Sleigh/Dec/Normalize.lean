import R2Sleigh.Ssa.SccpRewrite

/-!
Contract: phis turned into copies at the end of predecessors.

Owns `materializePhis`.

A phi stays as a whole when one of its predecessors has another number of
successors than one; its other predecessors get copies all the same.
-/

namespace R2Sleigh.Dec

open Ssa Lib List

def isBlockTerminator : SSAOp → Bool
  | .Branch _ | .CBranch _ _ | .Return _ => true
  | _ => false

/-- The position of the last member that satisfies `p`. -/
def rposition {α : Type} (p : α → Bool) : List α → Option Nat
  | [] => none
  | a :: rest =>
    match rposition p rest with
    | some i => some (i + 1)
    | none => if p a then some 0 else none

section

variable (func : SSAFunction)

/-- A predecessor at whose end the copies of a phi can stand. -/
def hasOneSuccessor (pred : Nat) : Bool := (func.successors pred).length = 1

def collectPhi (copiesByPred : HashMap Nat (List SSAOp)) (phi : PhiNode) : HashMap Nat (List SSAOp) :=
  phi.sources.foldl (fun copies source =>
    if hasOneSuccessor func source.1 then copies.pushAt source.1 (.Copy phi.dst source.2)
    else copies) copiesByPred

def copiesByPred : HashMap Nat (List SSAOp) :=
  func.blockList.foldl (fun copies block => block.phis.foldl (collectPhi func) copies) ∅

def allMaterialized (phi : PhiNode) : Bool := phi.sources.all fun source => hasOneSuccessor func source.1

def keptPhis (block : SSABlock) : List PhiNode := block.phis.filter fun phi => !allMaterialized func phi

def keptPhisByBlock : HashMap Nat (List PhiNode) :=
  func.blockList.foldl (fun kept block =>
    if (keptPhis func block).length ≠ block.phis.length then kept.insert block.addr (keptPhis func block)
    else kept) ∅

/-- Where the copies are inserted: before the last terminator, or at the end. -/
def insertPosition (ops : List SSAOp) : Nat := (rposition isBlockTerminator ops).getD ops.length

def insertCopies (copies ops : List SSAOp) : List SSAOp :=
  ops.take (insertPosition ops) ++ copies ++ ops.drop (insertPosition ops)

def materializePhis : SSAFunction :=
  let withPhis := (keptPhisByBlock func).entries.foldl (fun normalized entry =>
    normalized.modifyBlock entry.1 fun block => { block with phis := entry.2 }) func
  (copiesByPred func).entries.foldl (fun normalized entry =>
    if entry.2.isEmpty then normalized
    else normalized.modifyBlock entry.1 fun block =>
      { block with ops := insertCopies entry.2 block.ops }) withPhis

end

/-! ## The copies of a predecessor -/

section Copies

variable {func : SSAFunction}

/-- The copies inserted at the end of a block. -/
def copiesAt (func : SSAFunction) (pred : Nat) : List SSAOp := (copiesByPred func).listAt pred

theorem mem_collectPhi {copies : HashMap Nat (List SSAOp)} {phi : PhiNode} {pred : Nat} {op : SSAOp} :
    op ∈ (collectPhi func copies phi).listAt pred ↔ op ∈ copies.listAt pred ∨
      (hasOneSuccessor func pred ∧ ∃ src, (pred, src) ∈ phi.sources ∧ op = .Copy phi.dst src) := by
  have loop := HashMap.listAt_foldl_pushAt (fun source : Nat × SSAVar => ¬ hasOneSuccessor func source.1)
    Prod.fst (fun source => SSAOp.Copy phi.dst source.2) phi.sources copies pred
  simp only [ite_not, not_not] at loop
  rw [collectPhi, loop, mem_append, mem_map]
  refine or_congr_right ?_
  constructor
  · rintro ⟨⟨source, src⟩, mem, rfl⟩
    simp only [mem_filter, decide_eq_true_eq] at mem
    obtain ⟨mem, one, rfl⟩ := mem
    exact ⟨one, src, mem, rfl⟩
  · rintro ⟨one, src, mem, rfl⟩
    refine ⟨(pred, src), ?_, rfl⟩
    simp only [mem_filter, decide_eq_true_eq]
    exact ⟨mem, one, trivial⟩

theorem mem_listAt_foldl {A V : Type} {step : HashMap Nat (List V) → A → HashMap Nat (List V)}
    {k : Nat} {v : V} {adds : A → Prop}
    (each : ∀ m a, v ∈ (step m a).listAt k ↔ v ∈ m.listAt k ∨ adds a) (items : List A) :
    ∀ m, v ∈ (items.foldl step m).listAt k ↔ v ∈ m.listAt k ∨ ∃ a ∈ items, adds a := by
  induction items with
  | nil => simp
  | cons a items ih =>
    intro m
    rw [foldl_cons, ih, each, exists_mem_cons_iff, or_assoc]

theorem mem_copiesAt {pred : Nat} {op : SSAOp} : op ∈ copiesAt func pred ↔
    hasOneSuccessor func pred ∧ ∃ block ∈ func.blockList, ∃ phi ∈ block.phis,
      ∃ src, (pred, src) ∈ phi.sources ∧ op = .Copy phi.dst src := by
  have perBlock : ∀ (m : HashMap Nat (List SSAOp)) (block : SSABlock),
      op ∈ (block.phis.foldl (collectPhi func) m).listAt pred ↔ op ∈ m.listAt pred ∨
        ∃ phi ∈ block.phis, hasOneSuccessor func pred ∧
          ∃ src, (pred, src) ∈ phi.sources ∧ op = .Copy phi.dst src := by
    intro m block
    have each : ∀ m phi, op ∈ (collectPhi func m phi).listAt pred ↔ op ∈ m.listAt pred ∨
        (hasOneSuccessor func pred ∧ ∃ src, (pred, src) ∈ phi.sources ∧ op = .Copy phi.dst src) :=
      fun _ _ => mem_collectPhi
    exact mem_listAt_foldl each block.phis m
  have empty : op ∉ HashMap.listAt (∅ : HashMap Nat (List SSAOp)) pred := not_mem_nil
  rw [copiesAt, copiesByPred, mem_listAt_foldl perBlock, or_iff_right empty]
  constructor
  · rintro ⟨block, inBlocks, phi, inPhis, one, src, mem, rfl⟩
    exact ⟨one, block, inBlocks, phi, inPhis, src, mem, rfl⟩
  · rintro ⟨one, block, inBlocks, phi, inPhis, src, mem, rfl⟩
    exact ⟨block, inBlocks, phi, inPhis, one, src, mem, rfl⟩

end Copies

/-! ## The blocks of the result -/

section Blocks

theorem getBlock_foldl_modifyBlock {V : Type} {skip : V → Bool} {change : V → SSABlock → SSABlock}
    (idle : ∀ v, skip v = true → change v = id) (b : Nat)
    (entries : List (Sigma fun _ : Nat => V)) (nodup : entries.NodupKeys) :
    ∀ func : SSAFunction,
      (entries.foldl (fun func entry =>
        if skip entry.2 then func else func.modifyBlock entry.1 (change entry.2)) func).getBlock b =
        match entries.dlookup b with
        | some v => (func.getBlock b).map (change v)
        | none => func.getBlock b := by
  induction entries with
  | nil => exact fun _ => rfl
  | cons entry entries ih =>
    intro func
    rw [nodupKeys_cons] at nodup
    have step : (if skip entry.2 then func else func.modifyBlock entry.1 (change entry.2)).getBlock b =
        if b = entry.1 then (func.getBlock b).map (change entry.2) else func.getBlock b := by
      split
      · rename_i skipped
        rw [idle _ skipped, Option.map_id_fun, id, ite_self]
      · exact SSAFunction.getBlock_modifyBlock ..
    rw [foldl_cons, ih nodup.2, step]
    by_cases same : b = entry.1
    · subst same
      rw [dlookup_eq_none.mpr nodup.1, if_pos rfl, dlookup_cons_eq]
    · rw [if_neg same, dlookup_cons_ne _ _ same]

variable (func : SSAFunction)

def phisAfter (b : Nat) (block : SSABlock) : List PhiNode :=
  ((keptPhisByBlock func).lookup b).getD block.phis

theorem insertCopies_nil (ops : List SSAOp) : insertCopies [] ops = ops := by
  rw [insertCopies, append_nil, take_append_drop]

/-- A block afterwards: the phis that stay and the copies for its successors. -/
theorem getBlock_materializePhis (b : Nat) : (materializePhis func).getBlock b =
    (func.getBlock b).map fun block =>
      { block with
        phis := phisAfter func b block
        ops := insertCopies (copiesAt func b) block.ops } := by
  have idlePhis : ∀ phis : List PhiNode, false = true →
      (fun block : SSABlock => { block with phis := phis }) = id := nofun
  have idleCopies : ∀ copies : List SSAOp, copies.isEmpty = true →
      (fun block : SSABlock => { block with ops := insertCopies copies block.ops }) = id := by
    intro copies empty
    rw [isEmpty_iff.mp empty]
    funext block
    rw [insertCopies_nil]
    rfl
  have phis := getBlock_foldl_modifyBlock idlePhis b (keptPhisByBlock func).entries
    (keptPhisByBlock func).nodupKeys func
  have copies := getBlock_foldl_modifyBlock idleCopies b (copiesByPred func).entries
    (copiesByPred func).nodupKeys
  simp only [Bool.false_eq_true, if_false] at phis
  rw [materializePhis, copies, phis]
  simp only [phisAfter, copiesAt, HashMap.listAt, AList.lookup]
  cases (copiesByPred func).entries.dlookup b <;> cases (keptPhisByBlock func).entries.dlookup b <;>
    simp [insertCopies_nil, Function.comp_def]

theorem foldl_modifyBlock_cfg {V : Type} (skip : V → Bool) (change : V → SSABlock → SSABlock)
    (entries : List (Sigma fun _ : Nat => V)) : ∀ func : SSAFunction,
      let changed := entries.foldl (fun func entry =>
        if skip entry.2 then func else func.modifyBlock entry.1 (change entry.2)) func
      changed.cfg = func.cfg ∧ changed.entry = func.entry := by
  induction entries with
  | nil => exact fun _ => ⟨rfl, rfl⟩
  | cons entry entries ih =>
    intro func
    obtain ⟨cfg, isEntry⟩ := ih
      (if skip entry.2 then func else func.modifyBlock entry.1 (change entry.2))
    refine ⟨cfg.trans ?_, isEntry.trans ?_⟩
    · split
      · rfl
      · exact SSAFunction.modifyBlock_cfg ..
    · split
      · rfl
      · exact SSAFunction.modifyBlock_entry ..

theorem materializePhis_cfg : (materializePhis func).cfg = func.cfg ∧
    (materializePhis func).entry = func.entry := by
  obtain ⟨cfg, isEntry⟩ := foldl_modifyBlock_cfg (fun _ => false)
    (fun phis block => { block with phis := phis }) (keptPhisByBlock func).entries func
  obtain ⟨cfg', isEntry'⟩ := foldl_modifyBlock_cfg List.isEmpty
    (fun copies block => { block with ops := insertCopies copies block.ops })
    (copiesByPred func).entries _
  exact ⟨cfg'.trans cfg, isEntry'.trans isEntry⟩

/-- Blocks stand at their own addresses. -/
def Addressed : Prop := ∀ addr block, func.getBlock addr = some block → block.addr = addr

variable {func}

theorem mem_blockList {block : SSABlock} : block ∈ func.blockList ↔
    ∃ addr ∈ func.blockOrder, func.getBlock addr = some block := mem_filterMap

section

variable {b : Nat} {block : SSABlock} (addressed : Addressed func)
  (found : func.getBlock b = some block)
include addressed found

theorem lookup_keptPhisByBlock
    {phis : List PhiNode}
    (recorded : (keptPhisByBlock func).lookup b = some phis) :
    phis = keptPhis func block ∧ block ∈ func.blockList := by
  have loop : ∀ (blocks : List SSABlock) (m : HashMap Nat (List PhiNode)),
      (∀ other ∈ blocks, other ∈ func.blockList) →
      (∀ phis, m.lookup b = some phis → phis = keptPhis func block ∧ block ∈ func.blockList) →
      ∀ phis, (blocks.foldl (fun kept block =>
        if (keptPhis func block).length ≠ block.phis.length then
          kept.insert block.addr (keptPhis func block)
        else kept) m).lookup b = some phis → phis = keptPhis func block ∧ block ∈ func.blockList := by
    intro blocks
    induction blocks with
    | nil => exact fun m _ start => start
    | cons other blocks ih =>
      intro m listed start
      refine ih _ (fun o mem => listed o (mem_cons_of_mem _ mem)) ?_
      intro phis recorded
      dsimp only at recorded
      split at recorded
      · obtain ⟨addr, -, stored⟩ := mem_blockList.mp (listed other mem_cons_self)
        obtain rfl : other.addr = addr := addressed addr other stored
        by_cases same : b = other.addr
        · subst same
          rw [AList.lookup_insert, Option.some.injEq] at recorded
          obtain rfl : block = other := Option.some.inj (found.symm.trans stored)
          exact ⟨recorded.symm, listed block mem_cons_self⟩
        · rw [AList.lookup_insert_ne same] at recorded
          exact start phis recorded
      · exact start phis recorded
  exact loop func.blockList ∅ (fun _ => id) (by simp) phis recorded

theorem phisAfter_sublist : (phisAfter func b block).Sublist block.phis := by
  unfold phisAfter
  cases recorded : (keptPhisByBlock func).lookup b with
  | none => exact List.Sublist.refl _
  | some phis =>
    rw [(lookup_keptPhisByBlock addressed found recorded).1]
    exact filter_sublist

theorem allMaterialized_of_notMem
    {phi : PhiNode} (mem : phi ∈ block.phis)
    (gone : phi ∉ phisAfter func b block) :
    allMaterialized func phi ∧ block ∈ func.blockList := by
  unfold phisAfter at gone
  cases recorded : (keptPhisByBlock func).lookup b with
  | none =>
    rw [recorded] at gone
    exact absurd mem gone
  | some phis =>
    obtain ⟨rfl, listed⟩ := lookup_keptPhisByBlock addressed found recorded
    rw [recorded] at gone
    refine ⟨?_, listed⟩
    by_contra partly
    exact gone (mem_filter.mpr ⟨mem, by simpa using partly⟩)

end

end Blocks

end R2Sleigh.Dec
