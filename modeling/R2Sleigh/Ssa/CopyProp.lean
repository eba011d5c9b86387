import R2Sleigh.Lib.Chains
import R2Sleigh.Ssa.Closed

/-!
Contract: which uses are left without a definition by copy propagation.

Owns `CopiesSafely`.

A phi whose sources are all the same is removed whatever becomes of its uses.
The phis of return values keep theirs, as do variables in a circle.
-/

namespace R2Sleigh.Ssa

open Il Flow Lib List Option

/-! ## Sources of operations -/

namespace SSAOp

variable {replacements : HashMap VarKey SSAVar} {e v : SSAVar}

@[simp] theorem dst_mapSources (map : SSAVar → SSAVar) (op : SSAOp) :
    (op.mapSources map).dst = op.dst := by
  cases op <;> rfl

@[simp] theorem sources_mapSources (map : SSAVar → SSAVar) (op : SSAOp) :
    (op.mapSources map).sources = op.sources.map map := by
  cases op <;> rfl

private theorem mapSources_id (op : SSAOp) : op.mapSources id = op := by
  cases op <;> simp [mapSources]

private theorem mapSources_mapSources (map next : SSAVar → SSAVar) (op : SSAOp) :
    (op.mapSources map).mapSources next = op.mapSources (next ∘ map) := by
  cases op <;> simp [mapSources]

theorem forEachSource_eq_foldl {S : Type} (visit : S → SSAVar → S) (s : S) (op : SSAOp) :
    op.forEachSource visit s = op.sources.foldl visit s := by
  cases op <;> rfl

/-- Mapping the sources of an operation changes nothing else, one operand after the other, and two
mappings in sequence are one. -/
theorem mapSources_lawful (op : SSAOp) (map next : SSAVar → SSAVar) :
    (op.mapSources map).sources = op.sources.map map ∧ (op.mapSources map).dst = op.dst ∧
      (op.mapSources map).ctorIdx = op.ctorIdx ∧ (op.mapSources map).fields = op.fields ∧
      (op.mapSources map).mapSources next = op.mapSources (next ∘ map) ∧
      op.sources = op.forEachSource (fun seen src => seen ++ [src]) [] ∧
      ∀ {S : Type} (visit : S → SSAVar → S) (s : S), (op.mapSources map).forEachSource visit s =
        op.forEachSource (fun s src => visit s (map src)) s := by
  refine ⟨sources_mapSources map op, dst_mapSources map op, ?_, ?_,
    mapSources_mapSources map next op, ?_, fun visit s => ?_⟩
  · cases op <;> rfl
  · cases op <;> rfl
  · simp [forEachSource_eq_foldl, ← flatMap_def]
  · rw [forEachSource_eq_foldl, forEachSource_eq_foldl, sources_mapSources, foldl_map]

end SSAOp

/-! ## Replacements -/

/-- What a trivial phi is replaced by, unless it is its own source. -/
def PhiNode.replacement (phi : PhiNode) : Option (SSAVar × SSAVar) :=
  phi.trivialSource.bind fun first => if phi.dst ≠ first then some (phi.dst, first) else none

def SSABlock.replacements (block : SSABlock) : List (SSAVar × SSAVar) :=
  block.phis.filterMap PhiNode.replacement ++ block.ops.filterMap SSAOp.copied

private theorem PhiNode.replacement_dst {phi : PhiNode} {pair : SSAVar × SSAVar}
    (replaces : phi.replacement = some pair) : pair.1 = phi.dst := by
  obtain ⟨first, -, isPair⟩ := bind_eq_some_iff.mp replaces
  split at isPair
  · rw [← some.inj isPair]
  · cases isPair

theorem SSAOp.copied_dst {op : SSAOp} {pair : SSAVar × SSAVar} (copies : op.copied = some pair) :
    op.dst = some pair.1 := by
  unfold copied at copies
  split at copies
  · split at copies
    · rw [← some.inj copies]
      rfl
    · cases copies
  · cases copies

theorem map_fst_filterMap_sublist {α : Type} {pair? : α → Option (SSAVar × SSAVar)}
    {yields : α → Option SSAVar}
    (first : ∀ a pair, pair? a = some pair → yields a = some pair.1) (l : List α) :
    ((l.filterMap pair?).map Prod.fst).Sublist (l.filterMap yields) := by
  induction l with
  | nil => exact List.Sublist.slnil
  | cons a rest ih =>
    rw [filterMap_cons, filterMap_cons]
    cases isPair : pair? a with
    | none =>
      dsimp only
      split
      · exact ih
      · exact ih.cons _
    | some pair =>
      rw [first a pair isPair]
      exact ih.cons_cons _

private theorem SSABlock.replacements_sublist (block : SSABlock) :
    (block.replacements.map Prod.fst).Sublist block.dsts := by
  have phis : ((block.phis.filterMap PhiNode.replacement).map Prod.fst).Sublist
      (block.phis.filterMap (some ∘ PhiNode.dst)) :=
    map_fst_filterMap_sublist (fun _ _ isPair => congrArg some (PhiNode.replacement_dst isPair).symm) _
  rw [filterMap_eq_map] at phis
  rw [replacements, map_append]
  exact phis.append (map_fst_filterMap_sublist (fun _ _ => SSAOp.copied_dst) block.ops)

namespace SSAFunction

variable (func : SSAFunction)

def replacements : List (SSAVar × SSAVar) := func.blockList.flatMap SSABlock.replacements

/-- What a trivial phi or a copy in full replaces a variable by. -/
def replacementOf (v : SSAVar) : Option SSAVar :=
  (func.replacements.find? fun pair => pair.1 = v).map Prod.snd

/-- A phi with this variable is removed. -/
def TrivialPhi (v : SSAVar) : Prop :=
  ∃ addr block, func.getBlock addr = some block ∧
    ∃ phi ∈ block.phis, phi.dst = v ∧ phi.trivialSource.isSome

/-- A use is rewritten to a variable that stays: the replacements do not end at a
trivial phi of itself, nor go around from a trivial phi. -/
def Settles (v : SSAVar) : Prop :=
  (∀ e, Ends func.replacementOf v e → ¬ func.TrivialPhi e) ∧
    ((∀ e, ¬ Ends func.replacementOf v e) → ¬ func.TrivialPhi v)

/-- The phis that stay and keep their sources read no variable of a trivial phi, and
the others, like the operations, read variables that settle. -/
structure CopiesSafely : Prop where
  kept : ∀ {addr block phi}, func.getBlock addr = some block → phi ∈ block.phis →
    phi.trivialSource = none → keepsSources (isReturnBlock func.cfg addr) phi = true →
    ∀ source ∈ phi.sources, ¬ func.TrivialPhi source.2
  phis : ∀ {addr block phi}, func.getBlock addr = some block → phi ∈ block.phis →
    phi.trivialSource = none → keepsSources (isReturnBlock func.cfg addr) phi = false →
    ∀ source ∈ phi.sources, func.Settles source.2
  ops : ∀ {addr block op}, func.getBlock addr = some block → op ∈ block.ops →
    ∀ src ∈ op.sources, func.Settles src

end SSAFunction

/-! ## The map of replacements -/

/-- A map of replacements as a function on variables. -/
def stored (replacements : HashMap VarKey SSAVar) (v : SSAVar) : Option SSAVar :=
  replacements.lookup (.fromVar v)

def VarKey.toVar (key : VarKey) : SSAVar := ⟨key.name, key.version, key.size⟩

private theorem stored_insert_ne {key : VarKey} {w u : SSAVar}
    (other : u ≠ key.toVar) : stored (replacements.insert key w) u = stored replacements u := by
  refine AList.lookup_insert_ne fun same => other ?_
  rw [← same]
  rfl

private theorem addBlockReplacements_eq (replacements : HashMap VarKey SSAVar) (block : SSABlock) :
    addBlockReplacements replacements block =
      block.replacements.foldl (fun m pair => m.insert (.fromVar pair.1) pair.2) replacements := by
  have phis : ∀ (phis : List PhiNode) (m : HashMap VarKey SSAVar),
      phis.foldl addPhiReplacement m = (phis.filterMap PhiNode.replacement).foldl
        (fun m pair => m.insert (.fromVar pair.1) pair.2) m := by
    intro phis m
    rw [foldl_filterMap]
    refine congrArg (fun step => phis.foldl step m) ?_
    funext m phi
    rw [addPhiReplacement, PhiNode.replacement]
    cases phi.trivialSource with
    | none => rfl
    | some first =>
      dsimp only [bind_some]
      split <;> rfl
  have ops : ∀ (ops : List SSAOp) (m : HashMap VarKey SSAVar),
      ops.foldl addCopyReplacement m = (ops.filterMap SSAOp.copied).foldl
        (fun m pair => m.insert (.fromVar pair.1) pair.2) m := by
    intro ops m
    rw [foldl_filterMap]
    refine congrArg (fun step => ops.foldl step m) ?_
    funext m op
    rw [addCopyReplacement]
    cases op.copied with
    | none => rfl
    | some pair => rfl
  rw [addBlockReplacements, ops, phis, SSABlock.replacements, foldl_append]

/-- The map built from the blocks stores the replacement of each variable. -/
theorem stored_build {func : SSAFunction} (assigned : func.Assigned) (v : SSAVar) :
    stored (func.blockList.foldl addBlockReplacements ∅) v = func.replacementOf v := by
  have nodup : (func.replacements.map fun pair => VarKey.fromVar pair.1).Nodup := by
    have sublist : (func.replacements.map Prod.fst).Sublist
        (func.blockList.flatMap SSABlock.dsts) := by
      rw [SSAFunction.replacements, map_flatMap]
      induction func.blockList with
      | nil => exact List.Sublist.slnil
      | cons block rest ih =>
        exact block.replacements_sublist.append ih
    have distinct := (assigned.nodup_dsts.sublist sublist).map VarKey.fromVar_injective
    rwa [List.map_map] at distinct
  have isFold : func.blockList.foldl addBlockReplacements ∅ = func.replacements.foldl
      (fun m pair => m.insert (.fromVar pair.1) pair.2) ∅ := by
    rw [SSAFunction.replacements, foldl_flatMap]
    refine congrArg (fun step => func.blockList.foldl step ∅) ?_
    funext m block
    exact addBlockReplacements_eq m block
  refine Option.ext fun w => ?_
  rw [stored, isFold, HashMap.lookup_foldl_insert _ _ nodup, SSAFunction.replacementOf,
    map_eq_some_iff]
  constructor
  · rintro (⟨pair, mem, isKey, rfl⟩ | ⟨-, found⟩)
    · refine ⟨pair, ?_, rfl⟩
      obtain rfl := VarKey.fromVar_injective isKey
      cases isFirst : func.replacements.find? fun other => other.1 = pair.1 with
      | none => exact absurd (by simp) (List.find?_eq_none.mp isFirst pair mem)
      | some other =>
        have same : other.1 = pair.1 := by simpa using List.find?_some isFirst
        rw [inj_on_of_nodup_map nodup (mem_of_find?_eq_some isFirst) mem
          (congrArg VarKey.fromVar same)]
    · cases found
  · rintro ⟨pair, isFirst, rfl⟩
    refine .inl ⟨pair, mem_of_find?_eq_some isFirst, ?_, rfl⟩
    rw [show pair.1 = v by simpa using List.find?_some isFirst]

/-! ## Following replacements -/

private theorem chainEnd_sound (fuel : Nat) :
    ∀ {visited v}, chainEnd replacements fuel visited v = some e → Ends (stored replacements) v e := by
  induction fuel with
  | zero => exact fun found => by cases found
  | succ fuel ih =>
    intro visited v found
    unfold chainEnd at found
    split at found
    · cases found
    · split at found
      · rename_i follow isNext
        exact (ends_iff_of_step isNext).mpr (ih found)
      · rename_i isLast
        cases found
        exact ends_of_undefined isLast

theorem ends_resolveKey (replacements : HashMap VarKey SSAVar) (key : VarKey) (v e : SSAVar) :
    Ends (stored (resolveKey replacements key)) v e ↔ Ends (stored replacements) v e := by
  unfold resolveKey
  split
  · rename_i last isLast
    obtain ⟨w, isNext, isEnd⟩ := bind_eq_some_iff.mp isLast
    refine ends_shortcut (v := key.toVar) isNext (chainEnd_sound _ isEnd) ?_ ?_ v e
    · exact AList.lookup_insert _
    · exact fun u other => stored_insert_ne other
  · rfl

theorem ends_resolveReplacements (replacements : HashMap VarKey SSAVar) (v e : SSAVar) :
    Ends (stored (resolveReplacements replacements)) v e ↔ Ends (stored replacements) v e := by
  exact iff_of_eq (foldl_kept (fun r => Ends (stored r) v e)
    (fun r key _ => propext (ends_resolveKey r key v e)) replacements)

private theorem replaceFrom_of_ends {var : SSAVar} (fuel : Nat) :
    ∀ {visited current n}, EndsIn (stored replacements) n current e → n < fuel →
      (∀ key ∈ visited, ∃ k, n < k ∧ EndsIn (stored replacements) k key.toVar e) →
      replaceFrom replacements var fuel visited current = e := by
  induction fuel with
  | zero => exact fun _ bound => absurd bound (Nat.not_lt_zero _)
  | succ fuel ih =>
    intro visited current n ends bound earlier
    unfold replaceFrom
    cases ends with
    | stop undefined => rw [show replacements.lookup (.fromVar e) = none from undefined]
    | @step n _ w _ defined rest =>
      rw [show replacements.lookup (.fromVar current) = some w from defined]
      dsimp only
      rw [if_neg]
      · refine ih rest (by omega) fun key mem => ?_
        rcases mem_cons.mp mem with rfl | isEarlier
        · exact ⟨n + 1, by omega, .step defined rest⟩
        · obtain ⟨k, more, ends⟩ := earlier key isEarlier
          exact ⟨k, by omega, ends⟩
      · intro again
        obtain ⟨k, more, ends⟩ := earlier _ again
        have same := (ends.unique (.step defined rest)).1
        omega

theorem replaceVar_of_ends
    (ends : Ends (stored replacements) v e) : replaceVar replacements v = e := by
  obtain ⟨n, ends⟩ := ends
  refine replaceFrom_of_ends _ ends ?_ (fun _ mem => absurd mem not_mem_nil)
  have atMost := ends.le_length (replacements.entries.map fun entry => entry.1.toVar) ?_
  · rw [length_map] at atMost
    omega
  · intro u isSome
    obtain ⟨entry, mem, isKey⟩ := List.mem_map.mp (AList.lookup_isSome.mp isSome)
    exact List.mem_map.mpr ⟨entry, mem, by rw [isKey]; rfl⟩

private theorem replaceFrom_of_around {var : SSAVar} (fuel : Nat) :
    ∀ {visited current}, (∀ e, ¬ Ends (stored replacements) current e) →
      replaceFrom replacements var fuel visited current = var := by
  induction fuel with
  | zero => exact fun _ => rfl
  | succ fuel ih =>
    intro visited current around
    unfold replaceFrom
    split
    · rename_i isLast
      exact absurd (ends_of_undefined isLast) (around _)
    · rename_i next isNext
      split
      · rfl
      · exact ih fun e ends => around e ((ends_iff_of_step isNext).mpr ends)

private theorem replaceVar_of_around
    (around : ∀ e, ¬ Ends (stored replacements) v e) : replaceVar replacements v = v :=
  replaceFrom_of_around _ around

/-! ## One call -/

namespace SSAFunction

variable {func : SSAFunction}

/-- The map that the uses are rewritten by. -/
def resolved (func : SSAFunction) : HashMap VarKey SSAVar :=
  resolveReplacements (func.blockList.foldl addBlockReplacements ∅)

theorem resolved_of_ends (assigned : func.Assigned)
    (ends : Ends func.replacementOf v e) : replaceVar func.resolved v = e := by
  refine replaceVar_of_ends ((ends_resolveReplacements _ _ _).mpr ?_)
  rwa [funext (stored_build assigned)]

theorem resolved_of_around (assigned : func.Assigned)
    (around : ∀ e, ¬ Ends func.replacementOf v e) : replaceVar func.resolved v = v := by
  refine replaceVar_of_around fun e ends => around e ?_
  rwa [resolved, ends_resolveReplacements, funext (stored_build assigned)] at ends

/-- A block after the call. -/
def propagated (func : SSAFunction) (addr : Nat) (block : SSABlock) : SSABlock :=
  applyToBlock func.resolved (isReturnBlock func.cfg addr) (dropTrivialPhis block)

theorem applyToBlock_empty (replacements : HashMap VarKey SSAVar) (empty : replacements.entries = [])
    (isReturn : Bool) (block : SSABlock) : applyToBlock replacements isReturn block = block := by
  have isId : replaceVar replacements = id := by
    funext v
    refine replaceVar_of_ends (ends_of_undefined ?_)
    rw [stored, AList.lookup_eq_none]
    intro mem
    rw [AList.mem_keys, AList.keys, empty] at mem
    exact absurd mem not_mem_nil
  have phis : ∀ phi, applyToPhi replacements isReturn phi = phi := by
    intro phi
    rw [applyToPhi, isId]
    split
    · rfl
    · exact congrArg (PhiNode.mk phi.dst) (List.map_id' phi.sources)
  rw [applyToBlock, isId, funext phis, List.map_id', funext SSAOp.mapSources_id, List.map_id']

theorem dropTrivialPhis_dsts (block : SSABlock) :
    ((dropTrivialPhis block).dsts).Sublist block.dsts :=
  (filter_sublist.map _).append (List.Sublist.refl _)

theorem dsts_map {f : PhiNode → PhiNode} (same : ∀ phi, (f phi).dst = phi.dst)
    (g : SSAVar → SSAVar) (block : SSABlock) :
    SSABlock.dsts { block with phis := block.phis.map f, ops := block.ops.map (SSAOp.mapSources g) } =
      block.dsts := by
  have phis : block.phis.map (PhiNode.dst ∘ f) = block.phis.map PhiNode.dst :=
    map_congr_left fun phi _ => same phi
  have ops : block.ops.filterMap (SSAOp.dst ∘ SSAOp.mapSources g) = block.ops.filterMap SSAOp.dst :=
    filterMap_congr fun op _ => SSAOp.dst_mapSources g op
  rw [SSABlock.dsts, List.map_map, filterMap_map, phis, ops, SSABlock.dsts]

theorem applyToBlock_dsts (replacements : HashMap VarKey SSAVar) (isReturn : Bool)
    (block : SSABlock) : (applyToBlock replacements isReturn block).dsts = block.dsts :=
  dsts_map (fun phi => by rw [applyToPhi]; split <;> rfl) _ block

private theorem propagated_dsts (addr : Nat) (block : SSABlock) :
    ((func.propagated addr block).dsts).Sublist block.dsts := by
  rw [propagated, applyToBlock_dsts]
  exact dropTrivialPhis_dsts block

theorem Assigned.dropTrivialPhis (assigned : func.Assigned) :
    (func.update fun _ => dropTrivialPhis).1.Assigned :=
  (assigned.changes _).assigned assigned fun _ block _ => dropTrivialPhis_dsts block

theorem copyPropagation_eq (func : SSAFunction) : copyPropagation func =
    if func.resolved.entries = [] then func.update fun _ => dropTrivialPhis
    else
      ((applyReplacements (func.update fun _ => dropTrivialPhis).1 func.resolved).1,
        (func.update fun _ => dropTrivialPhis).2 ||
          (applyReplacements (func.update fun _ => dropTrivialPhis).1 func.resolved).2) := rfl

section

variable (assigned : func.Assigned)
include assigned

theorem Assigned.getBlock_copyPropagation (addr : Nat) :
    (copyPropagation func).1.getBlock addr = (func.getBlock addr).map (func.propagated addr) := by
  have dropped := (assigned.changes fun _ => Ssa.dropTrivialPhis).blocks addr
  rw [copyPropagation_eq]
  split
  · rename_i empty
    rw [dropped]
    refine Option.map_congr fun block _ => ?_
    rw [propagated, applyToBlock_empty _ empty]
  · rw [applyReplacements, (assigned.dropTrivialPhis.changes _).blocks, dropped, Option.map_map]
    refine Option.map_congr fun block _ => ?_
    rw [Function.comp_apply, propagated, update_cfg _ assigned.order]

theorem Assigned.copyPropagation : (copyPropagation func).1.Assigned := by
  rw [copyPropagation_eq]
  split
  · exact assigned.dropTrivialPhis
  · refine (assigned.dropTrivialPhis.changes _).assigned assigned.dropTrivialPhis fun addr block _ => ?_
    rw [applyToBlock_dsts]

private theorem replacementOf_source {w : SSAVar}
    (replaces : func.replacementOf v = some w) :
    ∃ addr block, func.getBlock addr = some block ∧ w ∈ block.uses := by
  obtain ⟨pair, isFirst, rfl⟩ := map_eq_some_iff.mp replaces
  obtain ⟨block, listed, mem⟩ := mem_flatMap.mp (mem_of_find?_eq_some isFirst)
  obtain ⟨addr, found⟩ := assigned.mem_blockList.mp listed
  refine ⟨addr, block, found, SSABlock.mem_uses.mpr ?_⟩
  rcases mem_append.mp mem with isPhi | isCopy
  · obtain ⟨phi, inPhis, isPair⟩ := mem_filterMap.mp isPhi
    obtain ⟨first, isTrivial, isPair⟩ := bind_eq_some_iff.mp isPair
    refine .inl ⟨phi, inPhis, ?_⟩
    unfold PhiNode.trivialSource at isTrivial
    split at isPair
    · rw [← some.inj isPair]
      split at isTrivial
      · cases isTrivial
      · rename_i source rest isSources
        split at isTrivial
        · exact ⟨source, by rw [isSources]; exact mem_cons_self, some.inj isTrivial⟩
        · cases isTrivial
    · cases isPair
  · obtain ⟨op, inOps, isPair⟩ := mem_filterMap.mp isCopy
    refine .inr ⟨op, inOps, ?_⟩
    unfold SSAOp.copied at isPair
    split at isPair
    · split at isPair
      · rw [← some.inj isPair]
        exact mem_singleton_self _
      · cases isPair
    · cases isPair

private theorem use_of_ends (ends : Ends func.replacementOf v e)
    (used : ∃ addr block, func.getBlock addr = some block ∧ v ∈ block.uses) :
    ∃ addr block, func.getBlock addr = some block ∧ e ∈ block.uses := by
  obtain ⟨n, ends⟩ := ends
  induction ends with
  | stop _ => exact used
  | step defined _ ih =>
    exact ih (replacementOf_source assigned defined)

/-- A variable is defined after the call unless a trivial phi defined it. -/
theorem defines_copyPropagation :
    (copyPropagation func).1.Defines v ↔ func.Defines v ∧ ¬ func.TrivialPhi v := by
  constructor
  · rintro ⟨addr, block', found, mem⟩
    rw [assigned.getBlock_copyPropagation] at found
    obtain ⟨block, foundBefore, rfl⟩ := map_eq_some_iff.mp found
    have defined := (propagated_dsts addr block).subset mem
    refine ⟨⟨addr, block, foundBefore, defined⟩, ?_⟩
    rintro ⟨addr', other, foundOther, phi, inPhis, rfl, isTrivial⟩
    obtain rfl := assigned.unique foundOther foundBefore
      (mem_append_left _ (List.mem_map_of_mem inPhis)) defined
    obtain rfl := some.inj (foundOther.symm.trans foundBefore)
    obtain ⟨phisNodup, -, apart⟩ := nodup_append.mp (assigned.nodup foundBefore)
    rw [propagated, applyToBlock_dsts, SSABlock.dsts] at mem
    rcases mem_append.mp mem with isPhi | isOp
    · obtain ⟨kept, inKept, sameDst⟩ := List.mem_map.mp isPhi
      obtain ⟨inBlock, stays⟩ := mem_filter.mp inKept
      rw [inj_on_of_nodup_map phisNodup inBlock inPhis sameDst] at stays
      rw [isNone_iff_eq_none.mp stays] at isTrivial
      cases isTrivial
    · exact apart _ (List.mem_map_of_mem inPhis) _ isOp rfl
  · rintro ⟨⟨addr, block, found, mem⟩, stays⟩
    refine ⟨addr, func.propagated addr block, ?_, ?_⟩
    · rw [assigned.getBlock_copyPropagation, found, map_some]
    · rw [propagated, applyToBlock_dsts, SSABlock.dsts]
      rcases mem_append.mp mem with isPhi | isOp
      · obtain ⟨phi, inPhis, rfl⟩ := List.mem_map.mp isPhi
        refine mem_append_left _ (List.mem_map_of_mem (mem_filter.mpr ⟨inPhis, ?_⟩))
        rw [isNone_iff_eq_none, ← not_isSome_iff_eq_none]
        exact fun isTrivial => stays ⟨addr, block, found, phi, inPhis, rfl, isTrivial⟩
      · exact mem_append_right _ isOp

theorem settles_iff :
    func.Settles v ↔ ¬ func.TrivialPhi (replaceVar func.resolved v) := by
  by_cases around : ∀ e, ¬ Ends func.replacementOf v e
  · rw [resolved_of_around assigned around]
    exact ⟨fun settles => settles.2 around, fun stays =>
      ⟨fun e ends => absurd ends (around e), fun _ => stays⟩⟩
  · obtain ⟨e, ends⟩ := not_forall_not.mp around
    rw [resolved_of_ends assigned ends]
    refine ⟨fun settles => settles.1 e ends, fun stays => ⟨fun d other => ?_, fun all => ?_⟩⟩
    · rwa [other.unique ends]
    · exact absurd ends (all e)

theorem use_replaceVar
    (used : ∃ addr block, func.getBlock addr = some block ∧ v ∈ block.uses) :
    ∃ addr block, func.getBlock addr = some block ∧ replaceVar func.resolved v ∈ block.uses := by
  by_cases around : ∀ e, ¬ Ends func.replacementOf v e
  · rwa [resolved_of_around assigned around]
  · obtain ⟨e, ends⟩ := not_forall_not.mp around
    rw [resolved_of_ends assigned ends]
    exact use_of_ends assigned ends used

end

/-- The uses of a block after the call: sources that are kept, and rewritten ones. -/
theorem mem_uses_propagated {addr : Nat} {block : SSABlock} :
    v ∈ (func.propagated addr block).uses ↔
      (∃ phi ∈ block.phis, phi.trivialSource = none ∧ ∃ source ∈ phi.sources,
        (if keepsSources (isReturnBlock func.cfg addr) phi = true then source.2
          else replaceVar func.resolved source.2) = v) ∨
      ∃ op ∈ block.ops, ∃ src ∈ op.sources, replaceVar func.resolved src = v := by
  rw [SSABlock.mem_uses]
  refine or_congr ?_ ?_
  · constructor
    · rintro ⟨phi', mem, source', inSources, rfl⟩
      obtain ⟨phi, inKept, rfl⟩ := List.mem_map.mp mem
      obtain ⟨inPhis, stays⟩ := mem_filter.mp inKept
      refine ⟨phi, inPhis, isNone_iff_eq_none.mp stays, ?_⟩
      rw [applyToPhi] at inSources
      split at inSources
      · rename_i keeps
        exact ⟨source', inSources, if_pos keeps⟩
      · rename_i rewrites
        obtain ⟨source, isSource, rfl⟩ := List.mem_map.mp inSources
        exact ⟨source, isSource, if_neg rewrites⟩
    · rintro ⟨phi, inPhis, stays, source, inSources, rfl⟩
      refine ⟨applyToPhi func.resolved (isReturnBlock func.cfg addr) phi, List.mem_map_of_mem
        (mem_filter.mpr ⟨inPhis, isNone_iff_eq_none.mpr stays⟩), ?_⟩
      rw [applyToPhi]
      split
      · exact ⟨source, inSources, rfl⟩
      · exact ⟨_, List.mem_map_of_mem inSources, rfl⟩
  · constructor
    · rintro ⟨op', mem, used⟩
      obtain ⟨op, inOps, rfl⟩ := List.mem_map.mp mem
      rw [SSAOp.sources_mapSources] at used
      obtain ⟨src, isSource, rfl⟩ := List.mem_map.mp used
      exact ⟨op, inOps, src, isSource, rfl⟩
    · rintro ⟨op, inOps, src, isSource, rfl⟩
      refine ⟨_, List.mem_map_of_mem inOps, ?_⟩
      rw [SSAOp.sources_mapSources]
      exact List.mem_map_of_mem isSource

theorem stays_of_closed (assigned : func.Assigned)
    (fresh : ∀ {addr block v}, func.getBlock addr = some block → v ∈ block.dsts → 0 < v.version)
    (closed : (copyPropagation func).1.Closed) {addr : Nat} {block : SSABlock}
    (found : func.getBlock addr = some block)
    (used : v ∈ (func.propagated addr block).uses) : ¬ func.TrivialPhi v := by
  rintro ⟨d, other, foundOther, phi, inPhis, rfl, isTrivial⟩
  have positive := fresh foundOther (mem_append_left _ (List.mem_map_of_mem inPhis))
  have after : (copyPropagation func).1.getBlock addr = some (func.propagated addr block) := by
    rw [assigned.getBlock_copyPropagation, found, map_some]
  exact ((defines_copyPropagation assigned).mp (closed after used positive)).2
    ⟨d, other, foundOther, phi, inPhis, rfl, isTrivial⟩

theorem CopiesSafely.closed (assigned : func.Assigned) (closed : func.Closed)
    (safe : func.CopiesSafely) : (copyPropagation func).1.Closed := by
  intro addr block' v found used positive
  rw [assigned.getBlock_copyPropagation] at found
  obtain ⟨block, foundBefore, rfl⟩ := map_eq_some_iff.mp found
  have usedBefore : ∀ src, src ∈ block.uses →
      ∃ addr block, func.getBlock addr = some block ∧ src ∈ block.uses :=
    fun src mem => ⟨addr, block, foundBefore, mem⟩
  refine (defines_copyPropagation assigned).mpr ?_
  rcases mem_uses_propagated.mp used with
    ⟨phi, inPhis, stays, source, inSources, rfl⟩ | ⟨op, inOps, src, isSource, rfl⟩
  · have isUse : source.2 ∈ block.uses :=
      SSABlock.mem_uses.mpr (.inl ⟨phi, inPhis, source, inSources, rfl⟩)
    split at positive <;> rename_i keeps
    · rw [if_pos keeps]
      exact ⟨closed foundBefore isUse positive,
        safe.kept foundBefore inPhis stays keeps source inSources⟩
    · rw [if_neg keeps]
      obtain ⟨b, user, foundUser, usedThere⟩ := use_replaceVar assigned (usedBefore _ isUse)
      refine ⟨closed foundUser usedThere positive, (settles_iff assigned).mp ?_⟩
      exact safe.phis foundBefore inPhis stays (Bool.not_eq_true _ ▸ keeps) source inSources
  · have isUse : src ∈ block.uses := SSABlock.mem_uses.mpr (.inr ⟨op, inOps, isSource⟩)
    obtain ⟨b, user, foundUser, usedThere⟩ := use_replaceVar assigned (usedBefore _ isUse)
    exact ⟨closed foundUser usedThere positive,
      (settles_iff assigned).mp (safe.ops foundBefore inOps src isSource)⟩

/-- The pass keeps closed functions closed exactly if the copies are safe. -/
theorem closed_copyPropagation_iff (assigned : func.Assigned)
    (fresh : ∀ {addr block v}, func.getBlock addr = some block → v ∈ block.dsts → 0 < v.version)
    (closed : func.Closed) : (copyPropagation func).1.Closed ↔ func.CopiesSafely := by
  refine ⟨fun after => ⟨?_, ?_, ?_⟩, fun safe => safe.closed assigned closed⟩
  · intro addr block phi found inPhis stays keeps source inSources
    refine stays_of_closed assigned fresh after found (mem_uses_propagated.mpr (.inl ?_))
    exact ⟨phi, inPhis, stays, source, inSources, if_pos keeps⟩
  · intro addr block phi found inPhis stays rewrites source inSources
    rw [settles_iff assigned]
    refine stays_of_closed assigned fresh after found (mem_uses_propagated.mpr (.inl ?_))
    exact ⟨phi, inPhis, stays, source, inSources, if_neg (by rw [rewrites]; simp)⟩
  · intro addr block op found inOps src isSource
    rw [settles_iff assigned]
    refine stays_of_closed assigned fresh after found (mem_uses_propagated.mpr (.inr ?_))
    exact ⟨op, inOps, src, isSource, rfl⟩

end SSAFunction

end R2Sleigh.Ssa
