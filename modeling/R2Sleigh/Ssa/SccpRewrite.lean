import R2Sleigh.Ssa.CfgPairs
import R2Sleigh.Ssa.SccpApply

/-!
Contract: what each phase of applying constant propagation does to the edges,
the blocks and the predecessors listed in phis.

Owns `Restricts`.
-/

namespace R2Sleigh.Ssa

open Il Flow Lib List Option CFG

namespace SSAFunction

variable {func : SSAFunction} {addr x y : Nat} {bad : List (Nat × Nat)}

def phiPreds (func : SSAFunction) (b : Nat) : Option (List (List Nat)) :=
  (func.getBlock b).map fun block => block.phis.map fun phi => phi.sources.map Prod.fst

theorem phiPreds_isSome (func : SSAFunction) (b : Nat) :
    (func.phiPreds b).isSome = (func.getBlock b).isSome := isSome_map

section Changes

variable (func : SSAFunction) (addr : Nat) (change : SSABlock → SSABlock)

theorem getBlock_modifyBlock (b : Nat) : (func.modifyBlock addr change).getBlock b =
    if b = addr then (func.getBlock b).map change else func.getBlock b := by
  unfold modifyBlock
  by_cases same : b = addr
  · rw [if_pos same, same]
    cases found : func.blocks.lookup addr with
    | none | some => simp [getBlock, found]
  · rw [if_neg same]
    cases func.blocks.lookup addr with
    | none => rfl
    | some block => exact AList.lookup_insert_ne same

theorem modifyBlock_cfg : (func.modifyBlock addr change).cfg = func.cfg := by
  unfold modifyBlock
  split <;> rfl

theorem modifyBlock_entry : (func.modifyBlock addr change).entry = func.entry := by
  unfold modifyBlock
  split <;> rfl

theorem modifyBlock_blockOrder : (func.modifyBlock addr change).blockOrder = func.blockOrder := by
  unfold modifyBlock
  split <;> rfl

theorem modifyBlock_isSome (b : Nat) :
    ((func.modifyBlock addr change).getBlock b).isSome = (func.getBlock b).isSome := by
  rw [getBlock_modifyBlock]
  split
  · rw [isSome_map]
  · rfl

private theorem phiPreds_modifyBlock (b : Nat) (same : ∀ block,
    ((change block).phis.map fun phi => phi.sources.map Prod.fst) =
      block.phis.map fun phi => phi.sources.map Prod.fst) :
    (func.modifyBlock addr change).phiPreds b = func.phiPreds b := by
  unfold phiPreds
  rw [getBlock_modifyBlock]
  split
  · rw [Option.map_map]
    exact Option.map_congr fun block _ => same block
  · rfl

theorem phiPreds_removePhiSource (target source b : Nat) :
    (func.removePhiSource target source).phiPreds b =
      if b = target then (func.phiPreds b).map (List.map (List.filter (· ≠ source)))
      else func.phiPreds b := by
  unfold phiPreds removePhiSource
  rw [getBlock_modifyBlock]
  split
  · rw [Option.map_map, Option.map_map]
    refine Option.map_congr fun block _ => ?_
    simp only [Function.comp_apply, List.map_map]
    refine map_congr_left fun phi _ => ?_
    simp only [Function.comp_apply, List.filter_map]
    rfl
  · rfl

end Changes

/-! ## Restrictions -/

theorem map_filter_true (lists : List (List Nat)) : lists.map (List.filter fun _ => true) = lists :=
  (map_congr_left fun preds _ => filter_true preds).trans (List.map_id' lists)

/-- `keep` selects the edges, together with the phi sources that belong to
them, and `alive` the blocks. -/
structure Restricts (keep : Nat × Nat → Bool) (alive : Nat → Bool) (func func' : SSAFunction) :
    Prop where
  bijective : func'.cfg.Bijective
  entry : func'.entry = func.entry
  order : func'.blockOrder = func.blockOrder.filter alive
  mapped : ∀ b, b ∈ func'.cfg.addrToNode ↔ b ∈ func.cfg.addrToNode ∧ alive b = true
  blocks : ∀ b, (func'.getBlock b).isSome ↔ (func.getBlock b).isSome ∧ alive b = true
  pairs : func'.cfg.pairs.Perm (func.cfg.pairs.filter keep)
  phis : ∀ b lists, func'.phiPreds b = some lists → ∃ before select,
    func.phiPreds b = some before ∧ (∀ a, (a, b) ∈ func.cfg.pairs → select a = keep (a, b)) ∧
      lists = before.map (List.filter select)

namespace Restricts

variable {keep keep' : Nat × Nat → Bool} {alive alive' : Nat → Bool}
  {func func' func'' : SSAFunction}

theorem refl (bijective : func.cfg.Bijective) :
    Restricts (fun _ => true) (fun _ => true) func func where
  bijective := bijective
  entry := rfl
  order := by simp
  mapped b := by simp
  blocks b := by simp
  pairs := by simp
  phis b lists found := ⟨lists, fun _ => true, found, fun _ _ => rfl, (map_filter_true lists).symm⟩

theorem trans (first : Restricts keep alive func func')
    (second : Restricts keep' alive' func' func'') :
    Restricts (fun pair => keep pair && keep' pair) (fun b => alive b && alive' b) func func'' where
  bijective := second.bijective
  entry := second.entry.trans first.entry
  order := by
    rw [second.order, first.order, List.filter_filter]
    simp only [Bool.and_comm]
  mapped b := by
    rw [second.mapped, first.mapped, Bool.and_eq_true, and_assoc]
  blocks b := by
    rw [second.blocks, first.blocks, Bool.and_eq_true, and_assoc]
  pairs := by
    refine second.pairs.trans ((first.pairs.filter keep').trans (List.Perm.of_eq ?_))
    rw [List.filter_filter]
    simp only [Bool.and_comm]
  phis b lists found := by
    obtain ⟨middle, select', foundMiddle, agrees', rfl⟩ := second.phis b lists found
    obtain ⟨before, select, foundBefore, agrees, rfl⟩ := first.phis b middle foundMiddle
    refine ⟨before, fun a => select a && select' a, foundBefore, fun a mem => ?_, ?_⟩
    · dsimp only
      rw [agrees a mem]
      cases kept : keep (a, b) with
      | false => rfl
      | true => rw [agrees' a (first.pairs.mem_iff.mpr (mem_filter.mpr ⟨mem, kept⟩))]
    · rw [List.map_map]
      refine map_congr_left fun preds _ => ?_
      rw [Function.comp_apply, List.filter_filter]
      simp only [Bool.and_comm]

theorem congr (restricts : Restricts keep alive func func')
    (sameKeep : ∀ pair ∈ func.cfg.pairs, keep pair = keep' pair)
    (sameAlive : ∀ b, alive b = alive' b) : Restricts keep' alive' func func' := by
  obtain rfl : alive = alive' := funext sameAlive
  exact { restricts with
    pairs := by
      rw [← filter_congr sameKeep]
      exact restricts.pairs
    phis := fun b lists found => by
      obtain ⟨before, select, foundBefore, agrees, cut⟩ := restricts.phis b lists found
      exact ⟨before, select, foundBefore, fun a mem => (agrees a mem).trans (sameKeep _ mem), cut⟩ }

theorem mem_pairs (restricts : Restricts keep alive func func') {pair : Nat × Nat} :
    pair ∈ func'.cfg.pairs ↔ pair ∈ func.cfg.pairs ∧ keep pair = true := by
  rw [restricts.pairs.mem_iff, mem_filter]

end Restricts

private theorem dropEdge_restricts (bijective : func.cfg.Bijective) (source target : Nat) :
    Restricts (fun pair => pair ≠ (source, target)) (fun _ => true) func
      (func.dropEdge source target) where
  bijective := by
    rw [dropEdge, removePhiSource, modifyBlock_cfg]
    exact bijective.removeEdge source target
  entry := by rw [dropEdge, removePhiSource, modifyBlock_entry]
  order := by
    rw [dropEdge, removePhiSource, modifyBlock_blockOrder]
    simp
  mapped b := by
    rw [dropEdge, removePhiSource, modifyBlock_cfg, removeEdge_addrToNode]
    simp
  blocks b := by
    rw [dropEdge, removePhiSource, modifyBlock_isSome]
    simp [getBlock]
  pairs := by
    rw [dropEdge, removePhiSource, modifyBlock_cfg]
    exact bijective.removeEdge_pairs source target
  phis b lists found := by
    rw [dropEdge, phiPreds_removePhiSource] at found
    split at found
    · rename_i same
      obtain ⟨before, foundBefore, rfl⟩ := map_eq_some_iff.mp found
      exact ⟨before, fun a => a ≠ source, foundBefore, fun a _ => by simp [same], rfl⟩
    · rename_i differ
      exact ⟨lists, fun _ => true, found, fun a _ => by simp [differ], (map_filter_true lists).symm⟩

/-! ## Pruning edges -/

private theorem foldl_pruneEdge_restricts {executable : List (Nat × Nat)} :
    ∀ (succs : List Nat) (state : SSAFunction × Bool), state.1.cfg.Bijective →
      Restricts (fun pair => ¬ (pair.1 = addr ∧ pair.2 ∈ succs ∧ pair ∉ executable))
        (fun _ => true) state.1 (succs.foldl (pruneEdge executable addr) state).1 := by
  intro succs
  induction succs with
  | nil =>
    intro state bijective
    exact (Restricts.refl bijective).congr (fun _ _ => by simp) fun _ => rfl
  | cons succ succs ih =>
    intro state bijective
    rw [foldl_cons]
    by_cases kept : (addr, succ) ∈ executable
    · have unchanged : pruneEdge executable addr state succ = state := if_pos kept
      rw [unchanged]
      refine (ih state bijective).congr (fun pair _ => ?_) fun _ => rfl
      obtain ⟨a, b⟩ := pair
      rw [decide_eq_decide]
      refine not_congr (and_congr_right fun isSource => and_congr_left fun notExecutable => ?_)
      rw [mem_cons]
      refine ⟨Or.inr, fun mem => mem.resolve_left fun isSucc => notExecutable ?_⟩
      rw [show (a, b) = (addr, succ) from Prod.ext isSource isSucc]
      exact kept
    · have dropped : pruneEdge executable addr state succ =
          (state.1.dropEdge addr succ, true) := if_neg kept
      have first := dropEdge_restricts bijective addr succ
      rw [dropped]
      refine (first.trans (ih (state.1.dropEdge addr succ, true)
        first.bijective)).congr (fun pair _ => ?_) fun _ => rfl
      obtain ⟨a, b⟩ := pair
      rw [← Bool.decide_and, decide_eq_decide, mem_cons]
      by_cases isDropped : (a, b) = (addr, succ)
      · obtain ⟨rfl, rfl⟩ := isDropped
        simp [kept]
      · rw [Prod.mk.injEq] at isDropped
        simp only [ne_eq, Prod.mk.injEq, isDropped, not_false_eq_true, true_and]
        tauto

private theorem pruneBlock_restricts (executable : List (Nat × Nat)) {state : SSAFunction × Bool}
    (bijective : state.1.cfg.Bijective) (addr : Nat) :
    Restricts (fun pair => pair.1 = addr → pair ∈ executable) (fun _ => true) state.1
      (pruneBlock executable state addr).1 := by
  refine (foldl_pruneEdge_restricts (state.1.successors addr) state bijective).congr
    (fun pair mem => ?_) fun _ => rfl
  obtain ⟨a, b⟩ := pair
  rw [decide_eq_decide]
  have successor : a = addr → b ∈ state.1.successors addr := by
    rintro rfl
    exact bijective.consistent.mem_successors.mpr (bijective.mem_pairs.mp mem)
  tauto

theorem foldl_pruneBlock_restricts (executable : List (Nat × Nat)) :
    ∀ (order : List Nat) (state : SSAFunction × Bool), state.1.cfg.Bijective →
      Restricts (fun pair => pair.1 ∈ order → pair ∈ executable) (fun _ => true) state.1
        (order.foldl (pruneBlock executable) state).1 := by
  intro order
  induction order with
  | nil =>
    intro state bijective
    exact (Restricts.refl bijective).congr (fun _ _ => by simp) fun _ => rfl
  | cons addr order ih =>
    intro state bijective
    have first := pruneBlock_restricts executable bijective addr
    refine (first.trans (ih _ first.bijective)).congr (fun pair _ => ?_) fun _ => rfl
    rw [← Bool.decide_and, decide_eq_decide, mem_cons]
    tauto

/-! ## Removing blocks -/

private theorem foldl_removePhiSource (addr : Nat) : ∀ (succs : List Nat) (func : SSAFunction),
    let after := succs.foldl (fun func succ => func.removePhiSource succ addr) func
    after.cfg = func.cfg ∧ after.entry = func.entry ∧ after.blockOrder = func.blockOrder ∧
      (∀ b, (after.getBlock b).isSome = (func.getBlock b).isSome) ∧
      ∀ b, after.phiPreds b =
        if b ∈ succs then (func.phiPreds b).map (List.map (List.filter (· ≠ addr)))
        else func.phiPreds b := by
  intro succs
  induction succs with
  | nil => exact fun func => ⟨rfl, rfl, rfl, fun _ => rfl, fun b => by simp⟩
  | cons succ succs ih =>
    intro func
    obtain ⟨cfg, entry, order, blocks, phis⟩ := ih (func.removePhiSource succ addr)
    refine ⟨cfg.trans (modifyBlock_cfg ..), entry.trans (modifyBlock_entry ..),
      order.trans (modifyBlock_blockOrder ..),
      fun b => (blocks b).trans (modifyBlock_isSome ..), fun b => ?_⟩
    rw [foldl_cons, phis b, phiPreds_removePhiSource]
    by_cases isHead : b = succ
    · subst isHead
      -- the second removal finds nothing left to remove
      cases func.phiPreds b with
      | none => simp
      | some lists => simp [List.filter_filter]
    · simp [isHead]

private theorem removeUnreachable_restricts {reachable : List Nat} (state : SSAFunction × Bool)
    (bijective : state.1.cfg.Bijective) (unreachable : addr ∉ reachable) :
    Restricts (fun pair => pair.1 ≠ addr ∧ pair.2 ≠ addr) (fun b => b ≠ addr) state.1
      (removeUnreachable reachable state addr).1 := by
  have removed : (removeUnreachable reachable state addr).1 = ((state.1.successors addr).foldl
      (fun func succ => func.removePhiSource succ addr) state.1).removeBlock addr := by
    rw [removeUnreachable, if_neg unreachable]
  obtain ⟨cfg, entry, order, blocks, phis⟩ :=
    foldl_removePhiSource addr (state.1.successors addr) state.1
  rw [removed]
  refine ⟨?_, entry, ?_, fun b => ?_, fun b => ?_, ?_, fun b lists found => ?_⟩
  · rw [SSAFunction.removeBlock, cfg]
    exact bijective.removeBlock addr
  · rw [SSAFunction.removeBlock, order]
  · rw [SSAFunction.removeBlock, cfg, bijective.mem_removeBlock]
    simp
  · rw [← blocks b, decide_eq_true_eq]
    by_cases same : b = addr
    · subst same
      simp [SSAFunction.removeBlock, getBlock]
    · simp [SSAFunction.removeBlock, getBlock, AList.lookup_erase_ne same, same]
  · rw [SSAFunction.removeBlock, cfg]
    exact bijective.removeBlock_pairs addr
  · have differ : b ≠ addr := by
      rintro rfl
      simp [phiPreds, SSAFunction.removeBlock, getBlock] at found
    have same : (((state.1.successors addr).foldl (fun func succ => func.removePhiSource succ addr)
        state.1).removeBlock addr).phiPreds b = ((state.1.successors addr).foldl
        (fun func succ => func.removePhiSource succ addr) state.1).phiPreds b := by
      unfold phiPreds getBlock SSAFunction.removeBlock
      rw [AList.lookup_erase_ne differ]
    rw [same, phis b] at found
    split at found
    · obtain ⟨before, foundBefore, rfl⟩ := map_eq_some_iff.mp found
      exact ⟨before, fun a => a ≠ addr, foundBefore, fun a _ => by simp [differ], rfl⟩
    · rename_i notSuccessor
      refine ⟨lists, fun _ => true, found, fun a mem => ?_, (map_filter_true lists).symm⟩
      have other : a ≠ addr := by
        rintro rfl
        exact notSuccessor (bijective.consistent.mem_successors.mpr (bijective.mem_pairs.mp mem))
      simp [differ, other]

/-- Blocks listed and not reachable. -/
def Doomed (order reachable : List Nat) (b : Nat) : Prop := b ∈ order ∧ b ∉ reachable

instance (order reachable : List Nat) (b : Nat) : Decidable (Doomed order reachable b) :=
  inferInstanceAs (Decidable (b ∈ order ∧ b ∉ reachable))

theorem foldl_removeUnreachable_restricts (reachable : List Nat) :
    ∀ (order : List Nat) (state : SSAFunction × Bool), state.1.cfg.Bijective →
      Restricts (fun pair => ¬ Doomed order reachable pair.1 ∧ ¬ Doomed order reachable pair.2)
        (fun b => ¬ Doomed order reachable b) state.1
        (order.foldl (removeUnreachable reachable) state).1 := by
  intro order
  induction order with
  | nil =>
    intro state bijective
    exact (Restricts.refl bijective).congr (fun _ _ => by simp [Doomed]) fun _ => by simp [Doomed]
  | cons addr order ih =>
    intro state bijective
    rw [foldl_cons]
    by_cases reached : addr ∈ reachable
    · have unchanged : removeUnreachable reachable state addr = state := if_pos reached
      have same : ∀ b, Doomed (addr :: order) reachable b ↔ Doomed order reachable b := by
        intro b
        refine and_congr_left fun notReached => ?_
        rw [mem_cons]
        exact ⟨fun mem => mem.resolve_left fun isAddr => notReached (isAddr ▸ reached), Or.inr⟩
      rw [unchanged]
      refine (ih state bijective).congr (fun pair _ => ?_) fun b => ?_
      · simp only [same]
      · simp only [same]
    · have first := removeUnreachable_restricts state bijective reached
      have split : ∀ b, Doomed (addr :: order) reachable b ↔
          b = addr ∨ Doomed order reachable b := by
        intro b
        simp only [Doomed, mem_cons]
        constructor
        · rintro ⟨isAddr | listed, notReached⟩
          · exact Or.inl isAddr
          · exact Or.inr ⟨listed, notReached⟩
        · rintro (rfl | ⟨listed, notReached⟩)
          · exact ⟨Or.inl rfl, reached⟩
          · exact ⟨Or.inr listed, notReached⟩
      refine (first.trans (ih _ first.bijective)).congr (fun pair _ => ?_) fun b => ?_
      · rw [← Bool.decide_and, decide_eq_decide]
        simp only [split, not_or, ne_eq]
        tauto
      · rw [← Bool.decide_and, decide_eq_decide]
        simp only [split, not_or, ne_eq]

/-! ## Alignment -/

attribute [local instance] lawfulBEq_edge in
/-- Every phi lists the predecessors of its block once for each edge, the pairs
in `bad` left aside. -/
def AlignedUpTo (bad : List (Nat × Nat)) (func : SSAFunction) : Prop :=
  ∀ b lists, func.phiPreds b = some lists → ∀ preds ∈ lists,
    preds.Perm (predsOf (func.cfg.pairs.filter (· ∉ bad)) b)

theorem AlignedUpTo.cut {bad' : List (Nat × Nat)} {keep : Nat × Nat → Bool}
    {func' : SSAFunction} (aligned : AlignedUpTo bad func)
    (pairs : (func'.cfg.pairs.filter (· ∉ bad')).Perm
      ((func.cfg.pairs.filter (· ∉ bad)).filter keep))
    (phis : ∀ b lists, func'.phiPreds b = some lists → ∃ before select,
      func.phiPreds b = some before ∧ (∀ a, (a, b) ∈ func.cfg.pairs → select a = keep (a, b)) ∧
        lists = before.map (List.filter select)) : AlignedUpTo bad' func' := by
  intro b lists found preds mem
  obtain ⟨before, select, foundBefore, agrees, rfl⟩ := phis b lists found
  obtain ⟨preds, inBefore, rfl⟩ := List.mem_map.mp mem
  have cutBefore := (aligned b before foundBefore preds inBefore).filter select
  have cutAfter : (predsOf (func'.cfg.pairs.filter (· ∉ bad')) b).Perm
      (predsOf ((func.cfg.pairs.filter (· ∉ bad)).filter keep) b) :=
    (pairs.filter _).map _
  refine cutBefore.trans (List.Perm.trans (List.Perm.of_eq ?_) cutAfter.symm)
  unfold predsOf
  rw [List.filter_map, List.filter_filter, List.filter_filter, List.filter_filter,
    List.filter_filter]
  refine congrArg _ (filter_congr fun pair inPairs => ?_)
  obtain ⟨a, target⟩ := pair
  by_cases here : target = b
  · subst here
    simp [agrees a inPairs]
  · simp [here]

theorem Restricts.aligned {keep : Nat × Nat → Bool} {alive : Nat → Bool}
    {func' : SSAFunction} (restricts : Restricts keep alive func func')
    (aligned : AlignedUpTo bad func) : AlignedUpTo bad func' := by
  refine aligned.cut ((restricts.pairs.filter _).trans (List.Perm.of_eq ?_)) restricts.phis
  rw [List.filter_filter, List.filter_filter]
  exact filter_congr fun pair _ => Bool.and_comm _ _

/-! ## Rewriting branches -/

/-- The edges of a block are those to its two targets. -/
def Branching (func : SSAFunction) (addr x y : Nat) : Prop :=
  (func.cfg.pairs.filter fun pair => pair.1 = addr).Perm
    (([x, y].filter fun target => target ∈ func.cfg.addrToNode).map fun target => (addr, target))

theorem Branching.symm (branching : Branching func addr x y) : Branching func addr y x :=
  branching.trans (((List.Perm.swap y x []).filter _).map _)

theorem applyRewrite_cfg (func : SSAFunction) (rewrite : BranchRewrite) :
    (applyRewrite func rewrite).cfg = (func.cfg.removeEdge rewrite.blockAddr
      rewrite.deadTarget).setTerminator rewrite.blockAddr (.Branch rewrite.keepTarget) := by
  rw [applyRewrite, removePhiSource, modifyBlock_cfg, modifyBlock_cfg]

private theorem applyRewrite_bijective (bijective : func.cfg.Bijective)
    (rewrite : BranchRewrite) : (applyRewrite func rewrite).cfg.Bijective := by
  rw [applyRewrite_cfg]
  exact (bijective.removeEdge _ _).setTerminator _ _

theorem applyRewrite_addrToNode (func : SSAFunction) (rewrite : BranchRewrite) :
    (applyRewrite func rewrite).cfg.addrToNode = func.cfg.addrToNode := by
  rw [applyRewrite_cfg, setTerminator_addrToNode, removeEdge_addrToNode]

/-- A rewritten block has one edge, to the target kept. -/
theorem applyRewrite_pairs (bijective : func.cfg.Bijective)
    {rewrite : BranchRewrite} (present : rewrite.blockAddr ∈ func.cfg.addrToNode)
    (branching : Branching func rewrite.blockAddr rewrite.keepTarget rewrite.deadTarget) :
    (applyRewrite func rewrite).cfg.pairs.Perm
      ((func.cfg.pairs.filter fun pair => pair.1 ≠ rewrite.blockAddr) ++
        if rewrite.keepTarget ∈ func.cfg.addrToNode then
          [(rewrite.blockAddr, rewrite.keepTarget)] else []) := by
  have removed := bijective.removeEdge_pairs rewrite.blockAddr rewrite.deadTarget
  have few : ((func.cfg.removeEdge rewrite.blockAddr rewrite.deadTarget).pairs.filter
      fun pair => pair.1 = rewrite.blockAddr).length ≤ 1 := by
    have selected := removed.filter fun pair => pair.1 = rewrite.blockAddr
    rw [List.filter_filter] at selected
    have remaining := branching.filter fun pair =>
      decide (pair ≠ (rewrite.blockAddr, rewrite.deadTarget))
    rw [List.filter_filter] at remaining
    have lengths := (selected.trans (List.Perm.of_eq
      (filter_congr fun pair _ => Bool.and_comm _ _))).trans remaining
    rw [lengths.length_eq, List.filter_map, length_map, List.filter_filter,
      ← singleton_append, filter_append]
    have noDead : ([rewrite.deadTarget].filter fun target =>
        ((fun pair => decide (pair ≠ (rewrite.blockAddr, rewrite.deadTarget))) ∘
          fun target => (rewrite.blockAddr, target)) target &&
            decide (target ∈ func.cfg.addrToNode)) = [] := by
      simp
    rw [noDead, append_nil]
    exact length_filter_le _ _
  have terminated := (bijective.removeEdge rewrite.blockAddr rewrite.deadTarget).setTerminator_pairs
    (by rw [removeEdge_addrToNode]; exact present) few (.Branch rewrite.keepTarget)
  rw [applyRewrite_cfg]
  refine terminated.trans (List.Perm.append ?_ (List.Perm.of_eq ?_))
  · refine (removed.filter _).trans (List.Perm.of_eq ?_)
    rw [List.filter_filter]
    refine filter_congr fun pair _ => ?_
    rw [← Bool.decide_and, decide_eq_decide]
    exact ⟨And.left, fun other => ⟨other, fun same => other (congrArg Prod.fst same)⟩⟩
  · unfold presentTargets
    rw [removeEdge_addrToNode, terminatorTargets]
    by_cases kept : rewrite.keepTarget ∈ func.cfg.addrToNode
    · have isSome := AList.lookup_isSome.mpr kept
      simp [kept, isSome]
    · have isNone : func.cfg.addrToNode.lookup rewrite.keepTarget = none :=
        AList.lookup_eq_none.mpr kept
      simp [kept, isNone]

theorem applyRewrite_same (func : SSAFunction) (rewrite : BranchRewrite) :
    (applyRewrite func rewrite).entry = func.entry ∧
    (applyRewrite func rewrite).blockOrder = func.blockOrder ∧
    (∀ b, ((applyRewrite func rewrite).getBlock b).isSome = (func.getBlock b).isSome) ∧
    ∀ b, (applyRewrite func rewrite).phiPreds b = if b = rewrite.deadTarget then
      (func.phiPreds b).map (List.map (List.filter (· ≠ rewrite.blockAddr)))
      else func.phiPreds b := by
  have ops : ∀ block : SSABlock, (({ block with
      ops := block.ops.modify rewrite.opIdx (rewriteOp rewrite.takeTrue) } : SSABlock).phis.map
        fun phi => phi.sources.map Prod.fst) = block.phis.map fun phi => phi.sources.map Prod.fst :=
    fun _ => rfl
  refine ⟨?_, ?_, fun b => ?_, fun b => ?_⟩
  · rw [applyRewrite, removePhiSource, modifyBlock_entry, modifyBlock_entry]
  · rw [applyRewrite, removePhiSource, modifyBlock_blockOrder, modifyBlock_blockOrder]
  · rw [applyRewrite, removePhiSource, modifyBlock_isSome]
    exact modifyBlock_isSome func _ _ b
  · rw [applyRewrite, phiPreds_removePhiSource]
    have same := phiPreds_modifyBlock func rewrite.blockAddr _ b ops
    split
    · exact congrArg _ same
    · exact same

section Rewrite

variable {func : SSAFunction} {rewrite : BranchRewrite} (bijective : func.cfg.Bijective)
  (present : rewrite.blockAddr ∈ func.cfg.addrToNode)
  (branching : Branching func rewrite.blockAddr rewrite.keepTarget rewrite.deadTarget)

theorem Branching.mem_iff {b : Nat} (branching : Branching func addr x y) :
    (addr, b) ∈ func.cfg.pairs ↔ (b = x ∨ b = y) ∧ b ∈ func.cfg.addrToNode := by
  have selected : (addr, b) ∈ func.cfg.pairs.filter (fun pair => pair.1 = addr) ↔
      (addr, b) ∈ ([x, y].filter fun target => target ∈ func.cfg.addrToNode).map
        fun target => (addr, target) := List.Perm.mem_iff branching
  simpa using selected

include bijective present branching

private theorem mem_applyRewrite_pairs {pair : Nat × Nat} :
    pair ∈ (applyRewrite func rewrite).cfg.pairs ↔
      pair ∈ func.cfg.pairs ∧ (pair.1 = rewrite.blockAddr → pair.2 = rewrite.keepTarget) := by
  obtain ⟨a, b⟩ := pair
  rw [(applyRewrite_pairs bijective present branching).mem_iff, mem_append, mem_filter]
  by_cases isSource : a = rewrite.blockAddr
  · subst isSource
    rw [branching.mem_iff]
    by_cases kept : rewrite.keepTarget ∈ func.cfg.addrToNode
    · simp only [kept, if_true, mem_singleton, Prod.mk.injEq, true_and, ne_eq,
        not_true_eq_false, decide_false, Bool.false_eq_true, and_false, false_or, true_imp_iff]
      constructor
      · rintro rfl
        exact ⟨⟨Or.inl rfl, kept⟩, rfl⟩
      · exact And.right
    · simp only [kept, if_false, not_mem_nil, ne_eq, not_true_eq_false, decide_false,
        Bool.false_eq_true, and_false, false_or, true_imp_iff, false_iff, not_and]
      rintro ⟨-, inside⟩ rfl
      exact kept inside
  · have notNew : (a, b) ∉ if rewrite.keepTarget ∈ func.cfg.addrToNode then
        [(rewrite.blockAddr, rewrite.keepTarget)] else [] := by
      split <;> simp [isSource]
    simp [isSource, notNew]

theorem Branching.applyRewrite (other : addr ≠ rewrite.blockAddr)
    (branching' : Branching func addr x y) : Branching (applyRewrite func rewrite) addr x y := by
  unfold Branching at branching' ⊢
  rw [applyRewrite_addrToNode]
  refine List.Perm.trans ?_ branching'
  have after := (applyRewrite_pairs bijective present branching).filter fun pair => pair.1 = addr
  refine after.trans (List.Perm.of_eq ?_)
  have notNew : (if rewrite.keepTarget ∈ func.cfg.addrToNode then
      [(rewrite.blockAddr, rewrite.keepTarget)] else []).filter (fun pair => pair.1 = addr) = [] := by
    split <;> simp [Ne.symm other]
  rw [filter_append, notNew, append_nil, List.filter_filter]
  refine filter_congr fun pair _ => ?_
  rw [← Bool.decide_and, decide_eq_decide]
  exact ⟨And.left, fun isSource => ⟨isSource, isSource ▸ other⟩⟩

/-- Up to the edge that a branch with one target leaves, a rewritten branch loses
the edge to its dead target. -/
theorem rewrite_cut (bad : List (Nat × Nat)) :
    ((applyRewrite func rewrite).cfg.pairs.filter fun pair =>
      pair ∉ if rewrite.keepTarget = rewrite.deadTarget then
        (rewrite.blockAddr, rewrite.keepTarget) :: bad else bad).Perm
      ((func.cfg.pairs.filter (· ∉ bad)).filter fun pair =>
        pair ≠ (rewrite.blockAddr, rewrite.deadTarget)) := by
  have before : func.cfg.pairs.Perm
      ((func.cfg.pairs.filter fun pair => pair.1 ≠ rewrite.blockAddr) ++
        ([rewrite.keepTarget, rewrite.deadTarget].filter fun target =>
          target ∈ func.cfg.addrToNode).map fun target => (rewrite.blockAddr, target)) := by
    have apart := filter_append_perm (fun pair => decide (pair.1 ≠ rewrite.blockAddr))
      func.cfg.pairs
    refine apart.symm.trans (List.Perm.append (List.Perm.refl _) (List.Perm.trans ?_ branching))
    exact List.Perm.of_eq (filter_congr fun pair _ => by simp)
  refine ((applyRewrite_pairs bijective present branching).filter _).trans
    (List.Perm.trans (List.Perm.of_eq ?_) ((before.filter _).filter _).symm)
  rw [filter_append, filter_append, filter_append]
  congr 1
  · -- the edges of the other blocks
    rw [List.filter_filter, List.filter_filter, List.filter_filter]
    refine filter_congr fun pair _ => ?_
    by_cases isSource : pair.1 = rewrite.blockAddr
    · simp [isSource]
    · have notKeep : pair ≠ (rewrite.blockAddr, rewrite.keepTarget) := fun same =>
        isSource (congrArg Prod.fst same)
      have notDead : pair ≠ (rewrite.blockAddr, rewrite.deadTarget) := fun same =>
        isSource (congrArg Prod.fst same)
      split <;> simp [isSource, notKeep, notDead]
  · -- the edges of the block itself
    rw [List.filter_filter]
    by_cases collapsed : rewrite.keepTarget = rewrite.deadTarget
    · by_cases kept : rewrite.deadTarget ∈ func.cfg.addrToNode <;> simp [collapsed, kept]
    · by_cases kept : rewrite.keepTarget ∈ func.cfg.addrToNode <;>
        by_cases dead : rewrite.deadTarget ∈ func.cfg.addrToNode <;>
        simp [filter_cons, collapsed, kept, dead]

theorem AlignedUpTo.applyRewrite (aligned : AlignedUpTo bad func) :
    AlignedUpTo (if rewrite.keepTarget = rewrite.deadTarget then
      (rewrite.blockAddr, rewrite.keepTarget) :: bad else bad) (applyRewrite func rewrite) := by
  obtain ⟨-, -, -, phis⟩ := applyRewrite_same func rewrite
  refine aligned.cut (rewrite_cut bijective present branching bad) fun b lists found => ?_
  · rw [phis b] at found
    split at found
    · rename_i isDead
      obtain ⟨before, foundBefore, rfl⟩ := map_eq_some_iff.mp found
      exact ⟨before, fun a => a ≠ rewrite.blockAddr, foundBefore, fun a _ => by simp [isDead], rfl⟩
    · rename_i notDead
      exact ⟨lists, fun _ => true, found, fun a _ => by simp [notDead],
        (map_filter_true lists).symm⟩

end Rewrite

theorem AlignedUpTo.congr {bad' : List (Nat × Nat)}
    (aligned : AlignedUpTo bad func) (same : ∀ pair, pair ∈ bad ↔ pair ∈ bad') :
    AlignedUpTo bad' func := by
  intro b lists found preds mem
  simpa only [same] using aligned b lists found preds mem

def collapsedEdges (rewrites : List BranchRewrite) : List (Nat × Nat) :=
  (rewrites.filter fun rewrite => rewrite.keepTarget = rewrite.deadTarget).map
    fun rewrite => (rewrite.blockAddr, rewrite.keepTarget)

structure Rewritten (rewrites : List BranchRewrite) (func func' : SSAFunction) : Prop where
  bijective : func'.cfg.Bijective
  entry : func'.entry = func.entry
  order : func'.blockOrder = func.blockOrder
  mapped : func'.cfg.addrToNode = func.cfg.addrToNode
  blocks : ∀ b, (func'.getBlock b).isSome = (func.getBlock b).isSome
  mem_pairs : ∀ pair, pair ∈ func'.cfg.pairs ↔ pair ∈ func.cfg.pairs ∧
    ∀ rewrite ∈ rewrites, pair.1 = rewrite.blockAddr → pair.2 = rewrite.keepTarget
  phis : ∀ b lists, func'.phiPreds b = some lists →
    ∃ before, func.phiPreds b = some before ∧ (lists = [] ↔ before = [])
  aligned : ∀ bad, AlignedUpTo bad func → AlignedUpTo (collapsedEdges rewrites ++ bad) func'

theorem foldl_applyRewrite : ∀ (rewrites : List BranchRewrite) (func : SSAFunction),
    func.cfg.Bijective → (rewrites.map (·.blockAddr)).Nodup →
    (∀ rewrite ∈ rewrites, rewrite.blockAddr ∈ func.cfg.addrToNode ∧
      Branching func rewrite.blockAddr rewrite.keepTarget rewrite.deadTarget) →
    Rewritten rewrites func (rewrites.foldl applyRewrite func) := by
  intro rewrites
  induction rewrites with
  | nil =>
    intro func bijective _ _
    exact ⟨bijective, rfl, rfl, rfl, fun _ => rfl, fun _ => by simp,
      fun b lists found => ⟨lists, found, Iff.rfl⟩, fun bad aligned => aligned⟩
  | cons rewrite rewrites ih =>
    intro func bijective nodup conditions
    obtain ⟨present, branching⟩ := conditions rewrite mem_cons_self
    obtain ⟨notLater, nodupLater⟩ := nodup_cons.mp nodup
    have later : ∀ other ∈ rewrites,
        other.blockAddr ∈ (applyRewrite func rewrite).cfg.addrToNode ∧
        Branching (applyRewrite func rewrite) other.blockAddr other.keepTarget
          other.deadTarget := by
      intro other mem
      obtain ⟨otherPresent, otherBranching⟩ := conditions other (mem_cons_of_mem _ mem)
      have differ : other.blockAddr ≠ rewrite.blockAddr := fun same =>
        notLater (List.mem_map.mpr ⟨other, mem, same⟩)
      exact ⟨by rw [applyRewrite_addrToNode]; exact otherPresent,
        Branching.applyRewrite bijective present branching differ otherBranching⟩
    have rest := ih (applyRewrite func rewrite)
      (applyRewrite_bijective bijective rewrite) nodupLater later
    obtain ⟨entry, order, blocks, phis⟩ := applyRewrite_same func rewrite
    refine ⟨rest.bijective, rest.entry.trans entry, rest.order.trans order,
      rest.mapped.trans (applyRewrite_addrToNode func rewrite),
      fun b => (rest.blocks b).trans (blocks b), fun pair => ?_, fun b lists found => ?_,
      fun bad aligned => ?_⟩
    · rw [foldl_cons, rest.mem_pairs, mem_applyRewrite_pairs bijective present branching,
        forall_mem_cons, and_assoc]
    · obtain ⟨middle, foundMiddle, empty⟩ := rest.phis b lists found
      rw [phis b] at foundMiddle
      split at foundMiddle
      · obtain ⟨before, foundBefore, rfl⟩ := map_eq_some_iff.mp foundMiddle
        exact ⟨before, foundBefore, empty.trans map_eq_nil_iff⟩
      · exact ⟨middle, foundMiddle, empty⟩
    · have after := rest.aligned _ (aligned.applyRewrite bijective present branching)
      refine after.congr fun pair => ?_
      unfold collapsedEdges
      by_cases collapsed : rewrite.keepTarget = rewrite.deadTarget
      · rw [if_pos collapsed, filter_cons_of_pos (by simpa using collapsed)]
        simp only [mem_append, map_cons, mem_cons]
        tauto
      · rw [if_neg collapsed, filter_cons_of_neg (by simpa using collapsed)]

end SSAFunction

end R2Sleigh.Ssa
