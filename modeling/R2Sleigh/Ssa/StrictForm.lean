import R2Sleigh.Ssa.Optimize
import R2Sleigh.Ssa.SccpRewrite
import R2Sleigh.Ssa.SccpSound

/-!
Contract: strict SSA form of functions whose block order lists their blocks.

Owns `StrictSsa`.
-/

namespace R2Sleigh.Ssa

open Il Flow Lib List

namespace SSAFunction

structure StrictSsa (func : SSAFunction) : Prop where
  strict : func.Strict
  nodup : ∀ {addr block}, func.getBlock addr = some block → block.dsts.Nodup
  unique : ∀ {addr addr' block block' v}, func.getBlock addr = some block →
    func.getBlock addr' = some block' → v ∈ block.dsts → v ∈ block'.dsts → addr = addr'
  fresh : ∀ {addr block v}, func.getBlock addr = some block → v ∈ block.dsts →
    0 < v.version ∧ v.isConst = false
  order : func.blockOrder.Nodup
  listed : ∀ addr, (func.getBlock addr).isSome ↔ addr ∈ func.blockOrder

/-! ## Changed blocks -/

section Blocks

variable {func : SSAFunction} (change : Nat → SSABlock → SSABlock)

theorem foldl_change (order : List Nat) : ∀ func : SSAFunction, order.Nodup →
    let after := order.foldl (fun func addr => func.modifyBlock addr (change addr)) func
    after.cfg = func.cfg ∧ after.entry = func.entry ∧ after.blockOrder = func.blockOrder ∧
      ∀ b, after.getBlock b =
        if b ∈ order then (func.getBlock b).map (change b) else func.getBlock b := by
  induction order with
  | nil => exact fun func _ => ⟨rfl, rfl, rfl, fun b => by simp⟩
  | cons addr order ih =>
    intro func nodup
    obtain ⟨notLater, nodupLater⟩ := nodup_cons.mp nodup
    obtain ⟨cfg, entry, blockOrder, blocks⟩ := ih (func.modifyBlock addr (change addr)) nodupLater
    refine ⟨cfg.trans (modifyBlock_cfg ..), entry.trans (modifyBlock_entry ..),
      blockOrder.trans (modifyBlock_blockOrder ..), fun b => (blocks b).trans ?_⟩
    rw [getBlock_modifyBlock]
    by_cases isAddr : b = addr
    · subst isAddr
      simp [notLater]
    · simp [isAddr]

section

variable (order : func.blockOrder.Nodup)
include order

theorem update_cfg : (func.update change).1.cfg = func.cfg :=
  (foldl_change change func.blockOrder func order).1

theorem update_entry : (func.update change).1.entry = func.entry :=
  (foldl_change change func.blockOrder func order).2.1

theorem update_blockOrder : (func.update change).1.blockOrder = func.blockOrder :=
  (foldl_change change func.blockOrder func order).2.2.1

theorem getBlock_update
    (listed : ∀ addr, (func.getBlock addr).isSome → addr ∈ func.blockOrder) (b : Nat) :
    (func.update change).1.getBlock b = (func.getBlock b).map (change b) := by
  refine ((foldl_change change func.blockOrder func order).2.2.2 b).trans ?_
  split
  · rfl
  · rename_i absent
    cases found : func.getBlock b with
    | none => rfl
    | some block => exact absurd (listed b (by rw [found]; rfl)) absent

theorem update_successors :
    (func.update change).1.successors = func.successors := by
  funext addr
  rw [successors, update_cfg change order, successors]

private theorem update_flow : (func.update change).1.flow = func.flow := by
  rw [flow, update_successors change order, update_entry change order, flow]

end

end Blocks

/-! ## Reads -/

namespace StrictSsa

variable {func : SSAFunction}

section

variable (ssa : func.StrictSsa)
include ssa

theorem not_predefined {addr : Nat} {block : SSABlock} {v : SSAVar}
    (found : func.getBlock addr = some block) (defined : v ∈ block.dsts) : ¬ Predefined v := by
  obtain ⟨positive, notConst⟩ := ssa.fresh found defined
  rintro (literal | ⟨zero, _⟩)
  · rw [constValue, notConst, if_neg (by simp)] at literal
    cases literal
  · omega

/-- An operation defines what neither it nor an earlier one of its block reads or
defines. -/
theorem not_read_before {addr : Nat} {block : SSABlock}
    {before after : List SSAOp} {op : SSAOp} {dst : SSAVar} (reach : func.flow.Reach addr)
    (found : func.getBlock addr = some block) (position : block.ops = before ++ op :: after)
    (isDst : op.dst = some dst) :
    dst ∉ op.sources ∧ ∀ earlier ∈ before, dst ∉ earlier.sources ∧ earlier.dst ≠ some dst := by
  have nodup := ssa.nodup found
  rw [SSABlock.dsts, position, filterMap_append, filterMap_cons, isDst] at nodup
  obtain ⟨_, opsNodup, apart⟩ := nodup_append.mp nodup
  obtain ⟨_, _, beforeApart⟩ := nodup_append.mp opsNodup
  have notPhi : dst ∉ block.phis.map PhiNode.dst := fun isPhi =>
    apart dst isPhi dst (by simp) rfl
  have notBefore : dst ∉ before.filterMap SSAOp.dst := fun isBefore =>
    beforeApart dst isBefore dst (by simp) rfl
  have defined : dst ∈ block.dsts := by
    rw [SSABlock.dsts, position]
    simp [isDst]
  -- a use at or before the definition would need another definition
  have unread : ∀ early reader late, before ++ op :: after = early ++ reader :: late →
      (∀ d ∈ early.filterMap SSAOp.dst, d ∈ before.filterMap SSAOp.dst) → dst ∉ reader.sources := by
    intro early reader late split within used
    rcases ssa.strict.opUses reach found (position.trans split) dst used with
      predefined | isPhi | isEarly | ⟨d, dominator, above, foundAbove, definedAbove⟩
    · exact ssa.not_predefined found defined predefined
    · exact notPhi isPhi
    · exact notBefore (within dst isEarly)
    · exact above.2 (ssa.unique foundAbove found definedAbove defined)
  refine ⟨unread before op after rfl fun d mem => mem, fun earlier mem => ⟨?_, ?_⟩⟩
  · obtain ⟨early, late, rfl⟩ := append_of_mem mem
    refine unread early earlier (late ++ op :: after) (by simp) fun d isEarly => ?_
    rw [filterMap_append]
    exact mem_append_left _ isEarly
  · intro same
    exact notBefore (mem_filterMap.mpr ⟨earlier, mem, same⟩)

theorem getBlock_update (change : Nat → SSABlock → SSABlock) (b : Nat) :
    (func.update change).1.getBlock b = (func.getBlock b).map (change b) :=
  SSAFunction.getBlock_update change ssa.order (fun addr => (ssa.listed addr).mp) b

/-- A change that keeps the phis and what each block defines. -/
theorem update (change : Nat → SSABlock → SSABlock)
    (phis : ∀ addr block, func.getBlock addr = some block → (change addr block).phis = block.phis)
    (dsts : ∀ addr block, func.getBlock addr = some block →
      (change addr block).ops.filterMap SSAOp.dst = block.ops.filterMap SSAOp.dst)
    (opUses : ∀ {addr block before op after}, func.flow.Reach addr →
      func.getBlock addr = some block → (change addr block).ops = before ++ op :: after →
      ∀ src ∈ op.sources, Predefined src ∨ src ∈ block.phis.map PhiNode.dst ∨
        src ∈ before.filterMap SSAOp.dst ∨
        ∃ d dominator, func.flow.SDom d addr ∧ func.getBlock d = some dominator ∧
          src ∈ dominator.dsts) : (func.update change).1.StrictSsa := by
  have origin : ∀ {addr block}, (func.update change).1.getBlock addr = some block →
      ∃ old, func.getBlock addr = some old ∧ change addr old = block ∧ block.phis = old.phis ∧
        block.dsts = old.dsts := by
    intro addr block found
    rw [ssa.getBlock_update] at found
    obtain ⟨old, foundOld, rfl⟩ := Option.map_eq_some_iff.mp found
    refine ⟨old, foundOld, rfl, phis addr old foundOld, ?_⟩
    rw [SSABlock.dsts, phis addr old foundOld, dsts addr old foundOld, SSABlock.dsts]
  have kept : ∀ {d block v}, func.getBlock d = some block → v ∈ block.dsts →
      ∃ block', (func.update change).1.getBlock d = some block' ∧ v ∈ block'.dsts := by
    intro d block v found defined
    refine ⟨change d block, by rw [ssa.getBlock_update, found, Option.map_some], ?_⟩
    rwa [SSABlock.dsts, phis d block found, dsts d block found]
  have flow := update_flow change ssa.order
  constructor
  · constructor
    · intro addr block before op after reach found position src used
      obtain ⟨old, foundOld, rfl, samePhis, -⟩ := origin found
      rw [flow] at reach ⊢
      rw [samePhis]
      rcases opUses reach foundOld position src used with
        predefined | isPhi | isEarly | ⟨d, dominator, above, foundAbove, defined⟩
      · exact .inl predefined
      · exact .inr (.inl isPhi)
      · exact .inr (.inr (.inl isEarly))
      · obtain ⟨block', found', defined'⟩ := kept foundAbove defined
        exact .inr (.inr (.inr ⟨d, block', above, found', defined'⟩))
    · intro addr block phi source found mem used reach edge
      obtain ⟨old, foundOld, rfl, samePhis, -⟩ := origin found
      rw [flow] at reach ⊢
      rw [samePhis] at mem
      rw [update_successors change ssa.order] at edge
      rcases ssa.strict.phiUses foundOld mem used reach edge with
        predefined | ⟨d, dominator, above, foundAbove, defined⟩
      · exact .inl predefined
      · obtain ⟨block', found', defined'⟩ := kept foundAbove defined
        exact .inr ⟨d, block', above, found', defined'⟩
    · intro addr block phi pred found mem reach edge
      obtain ⟨old, foundOld, rfl, samePhis, -⟩ := origin found
      rw [flow] at reach
      rw [samePhis] at mem
      rw [update_successors change ssa.order] at edge
      exact ssa.strict.phiSources foundOld mem reach edge
  · intro addr block found
    obtain ⟨old, foundOld, -, -, same⟩ := origin found
    rw [same]
    exact ssa.nodup foundOld
  · intro addr addr' block block' v found found' mem member'
    obtain ⟨old, foundOld, -, -, same⟩ := origin found
    obtain ⟨old', foundOld', -, -, same'⟩ := origin found'
    rw [same] at mem
    rw [same'] at member'
    exact ssa.unique foundOld foundOld' mem member'
  · intro addr block v found mem
    obtain ⟨old, foundOld, -, -, same⟩ := origin found
    rw [same] at mem
    exact ssa.fresh foundOld mem
  · rw [update_blockOrder change ssa.order]
    exact ssa.order
  · intro addr
    rw [update_blockOrder change ssa.order, ssa.getBlock_update, Option.isSome_map]
    exact ssa.listed addr

end

end StrictSsa

end SSAFunction

end R2Sleigh.Ssa
