import R2Sleigh.Lib.Settling
import R2Sleigh.Ssa.OptimizeClosed

/-!
Contract: which definitions dead code elimination removes.

Owns `Dead`.

A circle of definitions that read one another is not dead. A return value counts as
used only if it is defined in the return block.
-/

namespace R2Sleigh.Ssa

open Il Flow Lib List Option

variable {preserveMemoryReads : Bool} {dropped : SSAVar → Bool} {block : SSABlock} {v : SSAVar}

/-- Neither preserved nor defined with a side effect, and read by dead definitions
alone. -/
inductive Dead (preserveMemoryReads : Bool) (func : SSAFunction) : SSAVar → Prop
  | intro {v : SSAVar} (unpreserved : .fromVar v ∉ collectPreservedReturnDefs func)
      (pure : ∀ addr block op, func.getBlock addr = some block → op ∈ block.ops →
        op.dst = some v → op.hasSideEffects preserveMemoryReads = false)
      (phis : ∀ addr block phi source, func.getBlock addr = some block → phi ∈ block.phis →
        source ∈ phi.sources → source.2 = v → Dead preserveMemoryReads func phi.dst)
      (reads : ∀ addr block op, func.getBlock addr = some block → op ∈ block.ops →
        v ∈ op.sources → op.dst.isSome)
      (readers : ∀ addr block op dst, func.getBlock addr = some block → op ∈ block.ops →
        v ∈ op.sources → op.dst = some dst → Dead preserveMemoryReads func dst) :
      Dead preserveMemoryReads func v

/-! ## Return values -/

/-- The picks of a list are those of a part of it that holds them all. -/
theorem firstOfFamilies_sublist {l' l : List SSAVar} (sublist : l'.Sublist l) : ∀ {seen},
    l.Nodup → (∀ v ∈ l, .fromVar v ∈ firstOfFamilies seen l → v ∈ l') →
    firstOfFamilies seen l' = firstOfFamilies seen l := by
  induction sublist with
  | slnil => exact fun _ _ => rfl
  | @cons l' l a sublist ih =>
    intro seen nodup picked
    obtain ⟨fresh, nodupRest⟩ := nodup_cons.mp nodup
    have notPicked : .fromVar a ∉ firstOfFamilies seen (a :: l) := fun isPicked =>
      fresh (sublist.subset (picked a mem_cons_self isPicked))
    have same : firstOfFamilies seen (a :: l) = firstOfFamilies seen l := by
      rw [firstOfFamilies] at notPicked ⊢
      split
      · rfl
      · rename_i family isFamily
        rw [isFamily] at notPicked
        dsimp only at notPicked
        split at notPicked
        · rename_i isSeen
          exact if_pos isSeen
        · exact absurd mem_cons_self notPicked
    rw [same] at picked ⊢
    exact ih nodupRest fun v mem => picked v (mem_cons_of_mem _ mem)
  | @cons_cons l' l a sublist ih =>
    intro seen nodup picked
    obtain ⟨fresh, nodupRest⟩ := nodup_cons.mp nodup
    have inRest : ∀ v ∈ l, v ∈ a :: l' → v ∈ l' := by
      intro v mem inPart
      rcases mem_cons.mp inPart with rfl | inRest
      · exact absurd mem fresh
      · exact inRest
    simp only [firstOfFamilies] at picked ⊢
    cases isFamily : returnValueFamily a.name with
    | none =>
      rw [isFamily] at picked
      exact ih nodupRest fun v mem isPicked =>
        inRest v mem (picked v (mem_cons_of_mem _ mem) isPicked)
    | some family =>
      rw [isFamily] at picked
      dsimp only at picked ⊢
      split at picked <;> rename_i isSeen
      · rw [if_pos isSeen, if_pos isSeen]
        exact ih nodupRest fun v mem isPicked =>
          inRest v mem (picked v (mem_cons_of_mem _ mem) isPicked)
      · rw [if_neg isSeen, if_neg isSeen]
        refine congrArg _ (ih nodupRest fun v mem isPicked => ?_)
        exact inRest v mem (picked v (mem_cons_of_mem _ mem) (mem_cons_of_mem _ isPicked))

/-! ## Dropped variables -/

def withoutDropped (preserveMemoryReads : Bool) (dropped : SSAVar → Bool) (block : SSABlock) :
    SSABlock :=
  { block with
    ops := block.ops.filter fun op =>
      op.dst.all (fun dst => !dropped dst) || op.hasSideEffects preserveMemoryReads
    phis := block.phis.filter fun phi => !dropped phi.dst }

theorem dropUnused_withoutDropped (preserveMemoryReads : Bool) (dropped : SSAVar → Bool)
    (uses : List VarKey) (block : SSABlock) :
    dropUnused preserveMemoryReads uses (withoutDropped preserveMemoryReads dropped block) =
      withoutDropped preserveMemoryReads (fun v => dropped v || decide (.fromVar v ∉ uses)) block := by
  have ops : ∀ op : SSAOp, (keepsOp preserveMemoryReads uses op &&
      (op.dst.all (fun dst => !dropped dst) || op.hasSideEffects preserveMemoryReads)) =
      (op.dst.all (fun dst => !(dropped dst || decide (.fromVar dst ∉ uses))) ||
        op.hasSideEffects preserveMemoryReads) := by
    intro op
    unfold keepsOp
    cases op.dst with
    | none => rfl
    | some dst =>
      cases op.hasSideEffects preserveMemoryReads
      · simp [Bool.and_comm]
      · simp
  have phis : ∀ phi : PhiNode, (decide (.fromVar phi.dst ∈ uses) && !dropped phi.dst) =
      !(dropped phi.dst || decide (.fromVar phi.dst ∉ uses)) := by
    simp [Bool.and_comm]
  simp only [dropUnused, withoutDropped, List.filter_filter, ops, phis]

theorem withoutDropped_dsts (preserveMemoryReads : Bool) (dropped : SSAVar → Bool)
    (block : SSABlock) : ((withoutDropped preserveMemoryReads dropped block).dsts).Sublist block.dsts :=
  (filter_sublist.map _).append (filter_sublist.filterMap _)

theorem mem_withoutDropped (defined : v ∈ block.dsts) (stays : dropped v = false) :
    v ∈ (withoutDropped preserveMemoryReads dropped block).dsts := by
  rcases mem_append.mp defined with isPhi | isOp
  · obtain ⟨phi, inPhis, rfl⟩ := List.mem_map.mp isPhi
    refine mem_append_left _ (List.mem_map_of_mem (mem_filter.mpr ⟨inPhis, ?_⟩))
    rw [stays]
    rfl
  · obtain ⟨op, inOps, isDst⟩ := mem_filterMap.mp isOp
    refine mem_append_right _ (mem_filterMap.mpr ⟨op, mem_filter.mpr ⟨inOps, ?_⟩, isDst⟩)
    simp [isDst, stays]

private theorem preservedReturnDefs_withoutDropped (nodup : block.dsts.Nodup)
    (stay : ∀ v, .fromVar v ∈ preservedReturnDefs block → dropped v = false) :
    preservedReturnDefs (withoutDropped preserveMemoryReads dropped block) =
      preservedReturnDefs block := by
  have perm : ∀ block : SSABlock, ((block.ops.filterMap SSAOp.dst).reverse ++
      (block.phis.map PhiNode.dst).reverse) = block.dsts.reverse := fun _ => by
    rw [SSABlock.dsts, reverse_append]
  unfold preservedReturnDefs at stay ⊢
  rw [perm] at stay ⊢
  rw [perm]
  refine firstOfFamilies_sublist (withoutDropped_dsts preserveMemoryReads dropped block).reverse
    (nodup_reverse.mpr nodup) fun v mem isPicked => ?_
  rw [mem_reverse] at mem ⊢
  exact mem_withoutDropped mem (stay v isPicked)

private theorem withoutDropped_congr {dropped' : SSAVar → Bool}
    (same : ∀ v ∈ block.dsts, dropped v = dropped' v) :
    withoutDropped preserveMemoryReads dropped block =
      withoutDropped preserveMemoryReads dropped' block := by
  have ops : ∀ op ∈ block.ops, op.dst.all (fun dst => !dropped dst) =
      op.dst.all (fun dst => !dropped' dst) := by
    intro op mem
    cases isDst : op.dst with
    | none => rfl
    | some dst =>
      have defined := mem_append_right (block.phis.map PhiNode.dst)
        (mem_filterMap.mpr ⟨op, mem, isDst⟩)
      rw [all_some, all_some, same dst defined]
  have phis : ∀ phi ∈ block.phis, (!dropped phi.dst) = !dropped' phi.dst := by
    intro phi mem
    rw [same phi.dst (mem_append_left _ (List.mem_map_of_mem mem))]
  unfold withoutDropped
  rw [filter_congr phis, filter_congr fun op mem => by rw [ops op mem]]

/-! ## Rounds -/

namespace SSAFunction

variable {func f : SSAFunction} {preserveMemoryReads : Bool} {dropped : SSAVar → Bool}

def DefinedWithEffect (preserveMemoryReads : Bool) (func : SSAFunction) (v : SSAVar) : Prop :=
  ∃ addr block op, func.getBlock addr = some block ∧ op ∈ block.ops ∧ op.dst = some v ∧
    op.hasSideEffects preserveMemoryReads = true

/-- The function of a round: variables are dropped that are dead or stay all the
same, and none that is preserved. -/
structure Dropping (preserveMemoryReads : Bool) (func f : SSAFunction) (dropped : SSAVar → Bool) :
    Prop where
  changes : Changes func f fun _ => withoutDropped preserveMemoryReads dropped
  cfg : f.cfg = func.cfg
  preserved : ∀ v, .fromVar v ∈ collectPreservedReturnDefs func → dropped v = false
  dead : ∀ v, dropped v = true →
    Dead preserveMemoryReads func v ∨ func.DefinedWithEffect preserveMemoryReads v

theorem Dropping.start (preserveMemoryReads : Bool) (func : SSAFunction) :
    Dropping preserveMemoryReads func func fun _ => false := by
  refine ⟨⟨rfl, fun b => ?_⟩, rfl, fun _ _ => rfl, fun _ isDropped => by cases isDropped⟩
  have same : withoutDropped preserveMemoryReads (fun _ => false) = id := by
    funext block
    have ops : ∀ op : SSAOp, (op.dst.all (fun _ => true) ||
        op.hasSideEffects preserveMemoryReads) = true := by
      intro op
      cases op.dst <;> rfl
    simp only [withoutDropped, Bool.not_false, ops, filter_true, id]
  rw [same, Option.map_id, id]

theorem Dropping.assigned (dropping : Dropping preserveMemoryReads func f dropped)
    (assigned : func.Assigned) : f.Assigned :=
  dropping.changes.assigned assigned fun _ block _ => withoutDropped_dsts _ _ block

theorem Dropping.collectPreserved (dropping : Dropping preserveMemoryReads func f dropped)
    (assigned : func.Assigned) :
    collectPreservedReturnDefs f = collectPreservedReturnDefs func := by
  have blockList : f.blockList = func.blockList.map (withoutDropped preserveMemoryReads dropped) := by
    rw [SSAFunction.blockList, SSAFunction.blockList, dropping.changes.order, map_filterMap]
    exact filterMap_congr fun addr _ => dropping.changes.blocks addr
  unfold collectPreservedReturnDefs
  rw [blockList, dropping.cfg, flatMap_map]
  refine flatMap_congr fun block listed => ?_
  obtain ⟨addr, found⟩ := assigned.mem_blockList.mp listed
  show (if isReturnBlock func.cfg block.addr then _ else _) = _
  split
  · rename_i returns
    refine preservedReturnDefs_withoutDropped (assigned.nodup found) fun v isPreserved => ?_
    refine dropping.preserved v (mem_flatMap.mpr ⟨block, listed, ?_⟩)
    rw [if_pos returns]
    exact isPreserved
  · rfl

theorem mem_collectUses_iff : .fromVar v ∈ collectUses f ↔
    (∃ addr block, f.getBlock addr = some block ∧ v ∈ block.uses) ∨
      .fromVar v ∈ collectPreservedReturnDefs f := by
  constructor
  · intro used
    rcases mem_append.mp used with read | isPreserved
    · left
      rcases mem_append.mp read with isPhi | isOp
      · obtain ⟨phi, inAll, isSource⟩ := mem_flatMap.mp isPhi
        obtain ⟨entry, stored, inPhis⟩ := mem_flatMap.mp inAll
        obtain ⟨source, inSources, isV⟩ := List.mem_map.mp isSource
        exact ⟨entry.1, entry.2, AList.mem_lookup_iff.mpr stored, SSABlock.mem_uses.mpr
          (.inl ⟨phi, inPhis, source, inSources, VarKey.fromVar_injective isV⟩)⟩
      · obtain ⟨op, inAll, isSource⟩ := mem_flatMap.mp isOp
        obtain ⟨entry, stored, inOps⟩ := mem_flatMap.mp inAll
        obtain ⟨src, inSources, isV⟩ := List.mem_map.mp isSource
        obtain rfl := VarKey.fromVar_injective isV
        exact ⟨entry.1, entry.2, AList.mem_lookup_iff.mpr stored, SSABlock.mem_uses.mpr
          (.inr ⟨op, inOps, inSources⟩)⟩
    · exact .inr isPreserved
  · rintro (⟨addr, block, found, used⟩ | isPreserved)
    · exact mem_collectUses found used
    · exact mem_append_right _ isPreserved

section

variable {addr : Nat} (assigned : func.Assigned) (found : func.getBlock addr = some block)
include assigned found

theorem Assigned.not_effect_of_phi
    {phi : PhiNode} (mem : phi ∈ block.phis) :
    ¬ func.DefinedWithEffect preserveMemoryReads phi.dst := by
  rintro ⟨addr', other, op, foundOther, inOps, isDst, -⟩
  have isPhi := List.mem_map_of_mem (f := PhiNode.dst) mem
  have isOp : phi.dst ∈ other.ops.filterMap SSAOp.dst := mem_filterMap.mpr ⟨op, inOps, isDst⟩
  obtain rfl := assigned.unique found foundOther (mem_append_left _ isPhi) (mem_append_right _ isOp)
  obtain rfl := some.inj (found.symm.trans foundOther)
  exact (nodup_append.mp (assigned.nodup found)).2.2 _ isPhi _ isOp rfl

theorem Assigned.not_effect_of_op
    {op : SSAOp} {dst : SSAVar} (mem : op ∈ block.ops)
    (isDst : op.dst = some dst) (pure : op.hasSideEffects preserveMemoryReads = false) :
    ¬ func.DefinedWithEffect preserveMemoryReads dst := by
  rintro ⟨addr', other, op', foundOther, inOps, isDst', effect⟩
  have isOp : dst ∈ block.ops.filterMap SSAOp.dst := mem_filterMap.mpr ⟨op, mem, isDst⟩
  have isOp' : dst ∈ other.ops.filterMap SSAOp.dst := mem_filterMap.mpr ⟨op', inOps, isDst'⟩
  obtain rfl := assigned.unique found foundOther (mem_append_right _ isOp)
    (mem_append_right _ isOp')
  obtain rfl := some.inj (found.symm.trans foundOther)
  have nodup := (nodup_append.mp (assigned.nodup found)).2.1
  rw [eq_of_filterMap_nodup nodup mem inOps isDst isDst', effect] at pure
  cases pure

end

section

variable (dropping : Dropping preserveMemoryReads func f dropped) (assigned : func.Assigned)
include dropping assigned

/-- What a round drops is dead: whatever reads it was dropped before. -/
theorem Dropping.dead_of_unused
    (unused : .fromVar v ∉ collectUses f)
    (noEffect : ¬ func.DefinedWithEffect preserveMemoryReads v) :
    Dead preserveMemoryReads func v := by
  have after : ∀ {addr block}, func.getBlock addr = some block →
      f.getBlock addr = some (withoutDropped preserveMemoryReads dropped block) := by
    intro addr block found
    rw [dropping.changes.blocks, found, map_some]
  have unread : ∀ {addr block}, func.getBlock addr = some block →
      v ∉ (withoutDropped preserveMemoryReads dropped block).uses := fun found used =>
    unused (mem_collectUses_iff.mpr (.inl ⟨_, _, after found, used⟩))
  have opDropped : ∀ {addr block op}, func.getBlock addr = some block → op ∈ block.ops →
      v ∈ op.sources → (op.dst.all (fun dst => !dropped dst) ||
        op.hasSideEffects preserveMemoryReads) = false := by
    intro addr block op found mem used
    by_contra stays
    rw [Bool.not_eq_false] at stays
    exact unread found (SSABlock.mem_uses.mpr (.inr ⟨op, mem_filter.mpr ⟨mem, stays⟩, used⟩))
  refine .intro ?_ ?_ ?_ ?_ ?_
  · intro isPreserved
    rw [← dropping.collectPreserved assigned] at isPreserved
    exact unused (mem_collectUses_iff.mpr (.inr isPreserved))
  · intro addr block op found mem isDst
    by_contra effect
    rw [Bool.not_eq_false] at effect
    exact noEffect ⟨addr, block, op, found, mem, isDst, effect⟩
  · intro addr block phi source found mem inSources isV
    cases isDropped : dropped phi.dst with
    | true => exact (dropping.dead _ isDropped).resolve_right (assigned.not_effect_of_phi found mem)
    | false =>
      refine absurd (SSABlock.mem_uses.mpr (.inl ⟨phi, ?_, source, inSources, isV⟩)) (unread found)
      exact mem_filter.mpr ⟨mem, by rw [isDropped]; rfl⟩
  · intro addr block op found mem used
    have isDropped := opDropped found mem used
    cases isDst : op.dst with
    | none => rw [isDst] at isDropped; cases isDropped
    | some _ => rfl
  · intro addr block op dst found mem used isDst
    have isDropped := opDropped found mem used
    rw [isDst, all_some, Bool.or_eq_false_iff, Bool.not_eq_false'] at isDropped
    exact (dropping.dead _ isDropped.1).resolve_right
      (assigned.not_effect_of_op found mem isDst isDropped.2)

theorem Dropping.round : Dropping preserveMemoryReads func
      (dropUnusedRound preserveMemoryReads f).1
      fun v => dropped v || decide (.fromVar v ∉ collectUses f) := by
  have round := (dropping.assigned assigned).changes
    fun _ => dropUnused preserveMemoryReads (collectUses f)
  refine ⟨⟨round.order.trans dropping.changes.order, fun b => ?_⟩, ?_, fun v isPreserved => ?_,
    fun v isDropped => ?_⟩
  · refine (round.blocks b).trans ?_
    rw [dropping.changes.blocks, Option.map_map]
    exact Option.map_congr fun block _ => dropUnused_withoutDropped ..
  · exact (update_cfg _ (dropping.assigned assigned).order).trans dropping.cfg
  · have used : .fromVar v ∈ collectUses f := by
      rw [← dropping.collectPreserved assigned] at isPreserved
      exact mem_collectUses_iff.mpr (.inr isPreserved)
    simp [dropping.preserved v isPreserved, used]
  · rcases (Bool.or_eq_true _ _).mp isDropped with before | now
    · exact dropping.dead v before
    · by_cases effect : func.DefinedWithEffect preserveMemoryReads v
      · exact .inr effect
      · exact .inl (dropping.dead_of_unused assigned (of_decide_eq_true now) effect)

end

/-! ## The end of the rounds -/

/-- Nothing is left to drop. -/
def Stable (preserveMemoryReads : Bool) (f : SSAFunction) : Prop :=
  ∀ {addr block}, f.getBlock addr = some block →
    dropUnused preserveMemoryReads (collectUses f) block = block

/-- The definitions not dropped, with room for one in each round. -/
def aliveCount (func : SSAFunction) (dropped : SSAVar → Bool) : Nat :=
  ((func.blocks.entries.flatMap fun entry => entry.2.dsts).filter fun v => !dropped v).length

private theorem aliveCount_le (func : SSAFunction) (dropped : SSAVar → Bool) :
    func.aliveCount dropped ≤ func.definitionCount := by
  refine (length_filter_le _ _).trans ?_
  unfold definitionCount allPhis allOps
  induction func.blocks.entries with
  | nil => exact Nat.le_refl 0
  | cons entry rest ih =>
    have ops := length_filterMap_le SSAOp.dst entry.2.ops
    simp only [flatMap_cons, length_append, SSABlock.dsts, length_map] at ih ⊢
    omega

private theorem Dropping.aliveCount_lt (dropping : Dropping preserveMemoryReads func f dropped)
    (changed : ¬ Stable preserveMemoryReads f) :
    func.aliveCount (fun v => dropped v || decide (.fromVar v ∉ collectUses f)) <
      func.aliveCount dropped := by
  have exists_dropped : ∃ addr block, func.getBlock addr = some block ∧
      ∃ v ∈ block.dsts, dropped v = false ∧ .fromVar v ∉ collectUses f := by
    by_contra none
    refine changed fun {addr block'} found => ?_
    obtain ⟨block, foundBefore, rfl⟩ := dropping.changes.origin found
    rw [dropUnused_withoutDropped]
    refine (withoutDropped_congr fun v defined => ?_).symm
    cases isDropped : dropped v with
    | true => rfl
    | false =>
      have used : .fromVar v ∈ collectUses f := by
        by_contra unused
        exact none ⟨addr, block, foundBefore, v, defined, isDropped, unused⟩
      simp [used]
  obtain ⟨addr, block, found, v, defined, alive, unused⟩ := exists_dropped
  have stored : ⟨addr, block⟩ ∈ func.blocks.entries := AList.mem_lookup_iff.mp found
  have split : ((func.blocks.entries.flatMap fun entry => entry.2.dsts).filter fun v =>
      !(dropped v || decide (.fromVar v ∉ collectUses f))) =
      ((func.blocks.entries.flatMap fun entry => entry.2.dsts).filter fun v => !dropped v).filter
        fun v => decide (.fromVar v ∈ collectUses f) := by
    rw [List.filter_filter]
    simp [Bool.and_comm]
  unfold aliveCount
  rw [split, length_filter_lt_length_iff_exists]
  refine ⟨v, mem_filter.mpr ⟨mem_flatMap.mpr ⟨_, stored, defined⟩, by rw [alive]; rfl⟩, ?_⟩
  simpa using unused

theorem stable_iff_unchanged (assigned : f.Assigned) :
    Stable preserveMemoryReads f ↔ (dropUnusedRound preserveMemoryReads f).2 = false := by
  constructor
  · intro stable
    refine List.any_eq_false.mpr fun addr _ => ?_
    cases found : f.getBlock addr with
    | none => simp
    | some block =>
      have same := stable found
      simp [same]
  · intro unchanged addr block found
    have listed := (assigned.listed addr).mp (by rw [found]; rfl)
    have same := List.any_eq_false.mp unchanged addr listed
    rw [found, any_some] at same
    simpa using same

theorem Stable.blocks (stable : Stable preserveMemoryReads f) (assigned : f.Assigned) (b : Nat) :
    (dropUnusedRound preserveMemoryReads f).1.getBlock b = f.getBlock b := by
  refine ((assigned.changes fun _ =>
    dropUnused preserveMemoryReads (collectUses f)).blocks b).trans ?_
  cases found : f.getBlock b with
  | none => rfl
  | some block => exact congrArg some (stable found)

/-- A round that drops nothing leaves nothing to drop. -/
theorem Stable.round (stable : Stable preserveMemoryReads f) (assigned : f.Assigned) :
    Stable preserveMemoryReads (dropUnusedRound preserveMemoryReads f).1 := by
  have preserved := ((Dropping.start preserveMemoryReads f).round assigned).collectPreserved assigned
  have used : ∀ v, .fromVar v ∈ collectUses (dropUnusedRound preserveMemoryReads f).1 ↔
      .fromVar v ∈ collectUses f := by
    intro v
    rw [mem_collectUses_iff, mem_collectUses_iff, preserved]
    simp only [stable.blocks assigned]
  intro addr block found
  rw [stable.blocks assigned] at found
  refine Eq.trans ?_ (stable found)
  have keeps : ∀ op, keepsOp preserveMemoryReads
      (collectUses (dropUnusedRound preserveMemoryReads f).1) op =
      keepsOp preserveMemoryReads (collectUses f) op := by
    simp only [keepsOp, used, implies_true]
  rw [dropUnused, funext keeps]
  simp only [dropUnused, used]

/-- With a round for each definition, the last one drops nothing. -/
theorem Dropping.rounds (assigned : func.Assigned) (fuel : Nat) : ∀ {f dropped},
    Dropping preserveMemoryReads func f dropped → func.aliveCount dropped < fuel →
    Stable preserveMemoryReads (dropUnusedRounds preserveMemoryReads fuel f).1 ∧
      ∃ dropped', Dropping preserveMemoryReads func
        (dropUnusedRounds preserveMemoryReads fuel f).1 dropped' := by
  induction fuel with
  | zero => exact fun _ bound => absurd bound (Nat.not_lt_zero _)
  | succ fuel ih =>
    intro f dropped dropping bound
    have assignedF := dropping.assigned assigned
    rw [dropUnusedRounds]
    cases changed : (dropUnusedRound preserveMemoryReads f).2 with
    | false =>
      have stable : Stable preserveMemoryReads f := (stable_iff_unchanged assignedF).mpr changed
      exact ⟨fun found => stable.round assignedF found, _, dropping.round assigned⟩
    | true =>
      have fewer := dropping.aliveCount_lt fun stable => by
        rw [(stable_iff_unchanged assignedF).mp @stable] at changed
        cases changed
      exact ih (dropping.round assigned) (by omega)

/-- The rounds end with one that drops nothing. -/
theorem dropping_deadCodeElim (preserveMemoryReads : Bool) (assigned : func.Assigned) :
    Stable preserveMemoryReads (deadCodeElim preserveMemoryReads func).1 ∧
      ∃ dropped, Dropping preserveMemoryReads func (deadCodeElim preserveMemoryReads func).1
        dropped :=
  Dropping.rounds assigned _ (Dropping.start preserveMemoryReads func)
    (Nat.lt_succ_of_le (aliveCount_le func _))

theorem Dropping.not_defines_of_dead (dropping : Dropping preserveMemoryReads func f dropped)
    (assigned : func.Assigned) (stable : Stable preserveMemoryReads f)
    (dead : Dead preserveMemoryReads func v) : ¬ f.Defines v := by
  have origin : ∀ {addr block'}, f.getBlock addr = some block' →
      ∃ block, func.getBlock addr = some block ∧ (∀ phi ∈ block'.phis, phi ∈ block.phis) ∧
        ∀ op ∈ block'.ops, op ∈ block.ops := by
    intro addr block' found
    obtain ⟨block, foundBefore, rfl⟩ := dropping.changes.origin found
    exact ⟨block, foundBefore, fun _ mem => mem_of_mem_filter mem,
      fun _ mem => mem_of_mem_filter mem⟩
  induction dead with
  | @intro v unpreserved pure phis reads readers phisUndefined readersUndefined =>
    have unused : .fromVar v ∉ collectUses f := by
      rw [mem_collectUses_iff, dropping.collectPreserved assigned]
      rintro (⟨addr, block', found, used⟩ | isPreserved)
      · obtain ⟨block, foundBefore, phisBefore, opsBefore⟩ := origin found
        rcases SSABlock.mem_uses.mp used with ⟨phi, inPhis, source, inSources, isV⟩ |
          ⟨op, inOps, isSource⟩
        · exact phisUndefined addr block phi source foundBefore (phisBefore phi inPhis) inSources isV
            ⟨addr, block', found, mem_append_left _ (List.mem_map_of_mem inPhis)⟩
        · obtain ⟨dst, isDst⟩ := isSome_iff_exists.mp
            (reads addr block op foundBefore (opsBefore op inOps) isSource)
          exact readersUndefined addr block op dst foundBefore (opsBefore op inOps) isSource isDst
            ⟨addr, block', found, mem_append_right _ (mem_filterMap.mpr ⟨op, inOps, isDst⟩)⟩
      · exact unpreserved isPreserved
    rintro ⟨addr, block', found, defined⟩
    obtain ⟨block, foundBefore, -, opsBefore⟩ := origin found
    have same := stable found
    rcases mem_append.mp defined with isPhi | isOp
    · obtain ⟨phi, inPhis, rfl⟩ := List.mem_map.mp isPhi
      rw [← same] at inPhis
      exact unused (of_decide_eq_true (mem_filter.mp inPhis).2)
    · obtain ⟨op, inOps, isDst⟩ := mem_filterMap.mp isOp
      have noEffect := pure addr block op foundBefore (opsBefore op inOps) isDst
      rw [← same] at inOps
      have keeps := (mem_filter.mp inOps).2
      rw [keepsOp, isDst] at keeps
      simp [unused, noEffect] at keeps

/-- What the pass leaves defined is what is not dead. -/
theorem defines_deadCodeElim (assigned : func.Assigned) :
    (deadCodeElim preserveMemoryReads func).1.Defines v ↔
      func.Defines v ∧ ¬ Dead preserveMemoryReads func v := by
  obtain ⟨stable, dropped, dropping⟩ := dropping_deadCodeElim preserveMemoryReads assigned
  constructor
  · intro defines
    refine ⟨?_, fun dead => dropping.not_defines_of_dead assigned stable dead defines⟩
    obtain ⟨addr, block, found, mem⟩ := dropping.changes.defines.mp defines
    exact ⟨addr, block, found, (withoutDropped_dsts _ _ block).subset mem⟩
  · rintro ⟨⟨addr, block, found, defined⟩, alive⟩
    cases isDropped : dropped v with
    | false => exact dropping.changes.defines.mpr ⟨addr, block, found, mem_withoutDropped defined isDropped⟩
    | true =>
      obtain ⟨addr', other, op, foundOther, inOps, isDst, effect⟩ :=
        (dropping.dead v isDropped).resolve_left alive
      refine dropping.changes.defines.mpr ⟨addr', other, foundOther, mem_append_right _ ?_⟩
      refine mem_filterMap.mpr ⟨op, mem_filter.mpr ⟨inOps, ?_⟩, isDst⟩
      rw [effect, Bool.or_true]

/-- A second call of the pass finds nothing to drop. -/
theorem deadCodeElim_again (preserveMemoryReads : Bool) (assigned : func.Assigned) :
    let after := (deadCodeElim preserveMemoryReads func).1
    (deadCodeElim preserveMemoryReads after).2 = false ∧
      ∀ b, (deadCodeElim preserveMemoryReads after).1.getBlock b = after.getBlock b := by
  intro after
  obtain ⟨stable, _, dropping⟩ := dropping_deadCodeElim preserveMemoryReads assigned
  have assignedAfter : after.Assigned := dropping.assigned assigned
  have unchanged := (stable_iff_unchanged assignedAfter).mp @stable
  rw [deadCodeElim, dropUnusedRounds, unchanged]
  exact ⟨rfl, stable.blocks assignedAfter⟩

/-! ## Current definitions -/

/-- The definition of a name that is current at the end of a path, whose blocks are
listed from the last one back. -/
def currentDef (func : SSAFunction) (name : String) (path : List Nat) : Option SSAVar :=
  path.findSome? fun b => (func.getBlock b).bind fun block =>
    block.dsts.reverse.find? fun v => v.name = name

/-- `v` is the definition of a return register that is current where a path from the
entry returns. -/
def IsReturned (func : SSAFunction) (v : SSAVar) : Prop :=
  ∃ addr path, func.flow.PathTo addr path ∧ isReturnBlock func.cfg addr = true ∧
    ∃ name, isReturnValue name = true ∧ func.currentDef name path = some v

theorem IsReturned.defines (returned : func.IsReturned v) : func.Defines v := by
  obtain ⟨addr, path, -, -, name, -, current⟩ := returned
  obtain ⟨b, -, isLast⟩ := exists_of_findSome?_eq_some current
  obtain ⟨block, found, isDst⟩ := bind_eq_some_iff.mp isLast
  exact ⟨b, block, found, mem_reverse.mp (mem_of_find?_eq_some isDst)⟩

/-- The pass keeps what is returned on every path exactly if none of it is dead. -/
theorem deadCodeElim_keeps_returned (preserveMemoryReads : Bool) {func : SSAFunction}
    (ssa : func.StrictSsa) :
    (∀ v, func.IsReturned v → (deadCodeElim preserveMemoryReads func).1.Defines v) ↔
      ∀ v, func.IsReturned v → ¬ Dead preserveMemoryReads func v := by
  refine forall₂_congr fun v returned => ?_
  rw [defines_deadCodeElim ssa.assigned]
  exact and_iff_right returned.defines

def setThenReturn : SSAFunction :=
  (fromBlocksRaw [⟨0, 4, [.Copy ⟨.Register, 0, 8⟩ ⟨.Const, 5, 8⟩, .Branch ⟨.Const, 4, 8⟩], none⟩,
    ⟨4, 4, [.Return ⟨.Register, 48, 8⟩], none⟩]
    (some ⟨"x86-64", 8, [⟨"rax", 0, 8⟩]⟩)).get (by decide +kernel)

theorem setThenReturn_strictSsa : setThenReturn.StrictSsa :=
  strictSsa_of_checksStrict (fun b => if b = 0 then [0] else [0, 4]) (by decide +kernel)

theorem deadCodeElim_again_setThenReturn :
    let after := (deadCodeElim true setThenReturn).1
    (deadCodeElim true after).2 = false ∧
      ∀ b, (deadCodeElim true after).1.getBlock b = after.getBlock b :=
  deadCodeElim_again true setThenReturn_strictSsa.assigned

private theorem setThenReturn_returns : setThenReturn.IsReturned ⟨"rax", 1, 8⟩ := by
  have edge : 4 ∈ setThenReturn.successors 0 := by decide +kernel
  exact ⟨4, [4, 0], .snoc .root edge, by decide +kernel, "rax", by decide +kernel, by decide +kernel⟩

theorem deadCodeElim_keeps_returned_setThenReturn :
    (∀ v, setThenReturn.IsReturned v → (deadCodeElim true setThenReturn).1.Defines v) ↔
      ∀ v, setThenReturn.IsReturned v → ¬ Dead true setThenReturn v :=
  deadCodeElim_keeps_returned true setThenReturn_strictSsa

/-- Nothing in the return block defines the register, and nothing reads it. -/
theorem deadCodeElim_drops_returned : ¬ ∀ (preserveMemoryReads : Bool) (func : SSAFunction),
    func.StrictSsa → ∀ v, func.IsReturned v →
      (deadCodeElim preserveMemoryReads func).1.Defines v := by
  intro keeps
  obtain ⟨addr, block, found, defined⟩ :=
    keeps true setThenReturn setThenReturn_strictSsa _ setThenReturn_returns
  have gone : (deadCodeElim true setThenReturn).1.blocks.entries.all (fun entry =>
      (⟨"rax", 1, 8⟩ : SSAVar) ∉ entry.2.dsts) = true := by decide +kernel
  have absent := List.all_eq_true.mp gone ⟨addr, block⟩ (AList.mem_lookup_iff.mp found)
  exact of_decide_eq_true absent defined

end SSAFunction

end R2Sleigh.Ssa
