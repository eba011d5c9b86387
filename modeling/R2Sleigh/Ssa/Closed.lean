import R2Sleigh.Ssa.StrictForm

/-!
Contract: functions in which every new version that is used is defined.

Owns `Closed` and `Assigned`.
-/

namespace R2Sleigh.Ssa

open Il Flow Lib

/-- The variables that a block reads. -/
def SSABlock.uses (block : SSABlock) : List SSAVar :=
  (block.phis.flatMap fun phi => phi.sources.map Prod.snd) ++ block.ops.flatMap SSAOp.sources

theorem SSABlock.mem_uses {block : SSABlock} {v : SSAVar} : v ∈ block.uses ↔
    (∃ phi ∈ block.phis, ∃ source ∈ phi.sources, source.2 = v) ∨ ∃ op ∈ block.ops, v ∈ op.sources := by
  simp [SSABlock.uses]

namespace SSAFunction

def Defines (func : SSAFunction) (v : SSAVar) : Prop :=
  ∃ addr block, func.getBlock addr = some block ∧ v ∈ block.dsts

/-- Every new version that a remaining phi or operation uses is defined. -/
def Closed (func : SSAFunction) : Prop :=
  ∀ {addr block v}, func.getBlock addr = some block → v ∈ block.uses → 0 < v.version →
    func.Defines v

theorem Closed.of_blocks {func after : SSAFunction} (closed : func.Closed)
    (blocks : ∀ {addr block'}, after.getBlock addr = some block' →
      ∀ v ∈ block'.uses, 0 < v.version → (∃ b block, func.getBlock b = some block ∧ v ∈ block.uses) ∨
        func.Defines v)
    (defined : ∀ {addr block' v}, after.getBlock addr = some block' → v ∈ block'.uses →
      func.Defines v → after.Defines v) : after.Closed := by
  intro addr block' v found used positive
  refine defined found used ?_
  rcases blocks found v used positive with ⟨b, block, foundBefore, usedBefore⟩ | isDefined
  · exact closed foundBefore usedBefore positive
  · exact isDefined

/-- Single assignment, in blocks that the order lists once. -/
structure Assigned (func : SSAFunction) : Prop where
  nodup : ∀ {addr block}, func.getBlock addr = some block → block.dsts.Nodup
  unique : ∀ {addr addr' block block' v}, func.getBlock addr = some block →
    func.getBlock addr' = some block' → v ∈ block.dsts → v ∈ block'.dsts → addr = addr'
  order : func.blockOrder.Nodup
  listed : ∀ addr, (func.getBlock addr).isSome ↔ addr ∈ func.blockOrder

theorem StrictSsa.assigned {func : SSAFunction} (ssa : func.StrictSsa) : func.Assigned :=
  ⟨ssa.nodup, ssa.unique, ssa.order, ssa.listed⟩

structure Changes (func after : SSAFunction) (change : Nat → SSABlock → SSABlock) : Prop where
  order : after.blockOrder = func.blockOrder
  blocks : ∀ b, after.getBlock b = (func.getBlock b).map (change b)

namespace Changes

variable {func after : SSAFunction} {change : Nat → SSABlock → SSABlock}
  (changes : Changes func after change)
include changes

theorem origin {b : Nat} {block' : SSABlock} (found : after.getBlock b = some block') :
    ∃ block, func.getBlock b = some block ∧ block' = change b block := by
  rw [changes.blocks] at found
  obtain ⟨block, foundBefore, isChanged⟩ := Option.map_eq_some_iff.mp found
  exact ⟨block, foundBefore, isChanged.symm⟩

theorem defines {v : SSAVar} : after.Defines v ↔
    ∃ addr block, func.getBlock addr = some block ∧ v ∈ (change addr block).dsts := by
  constructor
  · rintro ⟨addr, block', found, mem⟩
    obtain ⟨block, foundBefore, rfl⟩ := changes.origin found
    exact ⟨addr, block, foundBefore, mem⟩
  · rintro ⟨addr, block, found, mem⟩
    exact ⟨addr, change addr block, by rw [changes.blocks, found, Option.map_some], mem⟩

theorem assigned (before : func.Assigned)
    (dsts : ∀ addr block, func.getBlock addr = some block →
      ((change addr block).dsts).Sublist block.dsts) : after.Assigned := by
  constructor
  · intro addr block' found
    obtain ⟨block, foundBefore, rfl⟩ := changes.origin found
    exact (before.nodup foundBefore).sublist (dsts addr block foundBefore)
  · intro addr addr' block' other' v found foundOther mem memberOther
    obtain ⟨block, foundBefore, rfl⟩ := changes.origin found
    obtain ⟨other, foundOtherBefore, rfl⟩ := changes.origin foundOther
    exact before.unique foundBefore foundOtherBefore ((dsts _ _ foundBefore).subset mem)
      ((dsts _ _ foundOtherBefore).subset memberOther)
  · rw [changes.order]
    exact before.order
  · intro addr
    rw [changes.order, changes.blocks, Option.isSome_map]
    exact before.listed addr

/-- A pass that keeps all definitions, and introduces no use but of these and of
version zero. -/
theorem closed (before : func.Closed)
    (dsts : ∀ addr block, func.getBlock addr = some block → (change addr block).dsts = block.dsts)
    (uses : ∀ addr block, func.getBlock addr = some block → ∀ v ∈ (change addr block).uses,
      0 < v.version → v ∈ block.uses ∨ v ∈ block.dsts) : after.Closed := by
  refine before.of_blocks ?_ ?_
  · intro addr block' found v used positive
    obtain ⟨block, foundBefore, rfl⟩ := changes.origin found
    rcases uses addr block foundBefore v used positive with isUse | isDst
    · exact .inl ⟨addr, block, foundBefore, isUse⟩
    · exact .inr ⟨addr, block, foundBefore, isDst⟩
  · rintro addr block' v - - ⟨d, block, found, mem⟩
    exact changes.defines.mpr ⟨d, block, found, by rwa [dsts d block found]⟩

end Changes

namespace Assigned

variable {func : SSAFunction} (assigned : func.Assigned)
include assigned

theorem changes (change : Nat → SSABlock → SSABlock) : Changes func (func.update change).1 change :=
  ⟨update_blockOrder change assigned.order,
    SSAFunction.getBlock_update change assigned.order fun addr => (assigned.listed addr).mp⟩

theorem mem_blockList {block : SSABlock} :
    block ∈ func.blockList ↔ ∃ addr, func.getBlock addr = some block := by
  rw [blockList, List.mem_filterMap]
  constructor
  · rintro ⟨addr, -, found⟩
    exact ⟨addr, found⟩
  · rintro ⟨addr, found⟩
    exact ⟨addr, (assigned.listed addr).mp (by rw [found]; rfl), found⟩

theorem nodup_dsts : (func.blockList.flatMap SSABlock.dsts).Nodup := by
  refine List.nodup_flatMap.mpr ⟨fun block mem => ?_, ?_⟩
  · obtain ⟨addr, found⟩ := assigned.mem_blockList.mp mem
    exact assigned.nodup found
  · refine List.pairwise_filterMap.mpr (assigned.order.imp_of_mem ?_)
    intro addr addr' _ _ other block found block' found' v mem member'
    exact other (assigned.unique found found' mem member')

end Assigned

end SSAFunction

end R2Sleigh.Ssa
