import R2Sleigh.Lib.Settling
import R2Sleigh.Ssa.CopyProp
import R2Sleigh.Ssa.Family

/-!
Contract: where the contents of a family slot come from.

Owns `slotOrigin`.
-/

namespace R2Sleigh.Ssa.Family

open Il Lib List Option

variable {info : RegisterFamilyInfo}
variable {slot origin : RegisterFamilySlot} {state state' : FamilyRootState} {op : SSAOp}

/-! ## States -/

theorem lookup_killFamilyRoots (familyId : Nat) (state : FamilyRootState)
    (slot : RegisterFamilySlot) : (killFamilyRoots familyId state).lookup slot =
      if slot.familyId = familyId then none else state.lookup slot := by
  rw [killFamilyRoots, HashMap.lookup_retain]
  by_cases here : slot.familyId = familyId <;> simp [here]

theorem sameState_iff {x y : FamilyRootState} :
    sameState x y = true ↔ ∀ slot, x.lookup slot = y.lookup slot := by
  rw [sameState, Bool.and_eq_true, List.all_eq_true, List.all_eq_true]
  constructor
  · rintro ⟨left, right⟩ slot
    by_cases inX : slot ∈ x
    · exact of_decide_eq_true (left slot (AList.mem_keys.mp inX))
    · by_cases inY : slot ∈ y
      · exact of_decide_eq_true (right slot (AList.mem_keys.mp inY))
      · rw [AList.lookup_eq_none.mpr inX, AList.lookup_eq_none.mpr inY]
  · intro same
    exact ⟨fun slot _ => decide_eq_true (same slot), fun slot _ => decide_eq_true (same slot)⟩

/-- What a block leaves in a slot, if it was visited. -/
def slotAt (states : HashMap Nat FamilyRootState) (b : Nat) (slot : RegisterFamilySlot) :
    Option SSAVar :=
  (states.lookup b).bind fun state => state.lookup slot

/-- A slot is known where every predecessor leaves the same variable in it. -/
theorem lookup_meetFamilyStates {outStates : HashMap Nat FamilyRootState} {preds : List Nat}
    {v : SSAVar} :
    (meetFamilyStates outStates preds).lookup slot = some v ↔
      preds ≠ [] ∧ ∀ p ∈ preds, slotAt outStates p slot = some v := by
  have merged : ∀ (rest : List Nat) (state : FamilyRootState),
      ((rest.foldlM (fun (merged : FamilyRootState) pred =>
        (outStates.lookup pred).map fun state =>
          (⟨merged.entries.filter fun entry => state.lookup entry.1 = some entry.2,
            merged.nodupKeys.sublist filter_sublist⟩ : FamilyRootState)) state).getD
        ∅).lookup slot = some v ↔
      state.lookup slot = some v ∧ ∀ p ∈ rest, slotAt outStates p slot = some v := by
    intro rest
    induction rest with
    | nil => simp
    | cons pred rest ih =>
      intro state
      rw [foldlM_cons]
      cases found : outStates.lookup pred with
      | none => simp [slotAt, found]
      | some predState =>
        have kept : (⟨state.entries.filter fun entry => predState.lookup entry.1 = some entry.2,
            state.nodupKeys.sublist filter_sublist⟩ : FamilyRootState).lookup slot =
            some v ↔ state.lookup slot = some v ∧ predState.lookup slot = some v := by
          rw [← mem_def, AList.mem_lookup_iff, mem_filter, decide_eq_true_eq,
            ← AList.mem_lookup_iff, mem_def]
        refine (ih _).trans ?_
        rw [kept, and_assoc, forall_mem_cons, slotAt, found, bind_some]
  cases preds with
  | nil => simp [meetFamilyStates]
  | cons first rest =>
    rw [meetFamilyStates]
    cases found : outStates.lookup first with
    | none => simp [slotAt, found]
    | some state =>
      refine (merged rest state).trans ?_
      simp [slotAt, found]

theorem lookup_meetFamilyStates_congr {outStates outStates' : HashMap Nat FamilyRootState}
    {preds : List Nat} (same : ∀ p ∈ preds, slotAt outStates p slot = slotAt outStates' p slot) :
    (meetFamilyStates outStates preds).lookup slot =
      (meetFamilyStates outStates' preds).lookup slot := by
  refine Option.ext fun v => ?_
  rw [lookup_meetFamilyStates, lookup_meetFamilyStates]
  exact and_congr_right fun _ => forall₂_congr fun p mem => by rw [same p mem]

/-! ## Operations -/

def WritesFamily (info : RegisterFamilyInfo) (op : SSAOp) (familyId : Nat) : Prop :=
  ∃ mem, op.dst.bind info.memberFor = some mem ∧ mem.familyId = familyId

/-- The source whose value an operation hands to its destination. -/
def handedOn : SSAOp → Option SSAVar
  | .Copy _ src | .New _ src | .unary .Cast _ src | .unary .IntZExt _ src | .unary .IntSExt _ src
  | .unary .Trunc _ src | .Subpiece _ src _ => some src
  | _ => none

def sourceSlot (info : RegisterFamilyInfo) (src : SSAVar) : Option RegisterFamilySlot :=
  if src.version = 0 then (info.memberFor src).map fun mem => ⟨mem.familyId, src.size⟩
  else none

def handedWidths (info : RegisterFamilyInfo) (mem : RegisterFamilyMember) : SSAOp → List Nat
  | .Copy _ _ | .New _ _ | .unary .Cast _ _ =>
    mem.width :: (info.familyWidths.listAt mem.familyId).filter (· ≤ mem.width)
  | .unary .IntZExt _ src | .unary .IntSExt _ src => [src.size]
  | .unary .Trunc _ _ | .Subpiece _ _ _ => [mem.width]
  | _ => []

/-- The slot before an operation that a slot after it can come from. -/
def opOrigin (info : RegisterFamilyInfo) (op : SSAOp) (slot : RegisterFamilySlot) :
    Option RegisterFamilySlot :=
  match op.dst.bind info.memberFor with
  | none => some slot
  | some mem =>
    if slot.familyId ≠ mem.familyId then some slot
    else if slot.width ∈ handedWidths info mem op then (handedOn op).bind (sourceSlot info)
    else none

private theorem rewriteDecompileFamilySource_congr {src : SSAVar}
    (same : ∀ slot, sourceSlot info src = some slot → state.lookup slot = state'.lookup slot) :
    rewriteDecompileFamilySource info state src = rewriteDecompileFamilySource info state' src := by
  unfold rewriteDecompileFamilySource
  split
  · rfl
  · rename_i isEntry
    cases found : info.memberFor src with
    | none => rfl
    | some mem =>
      have read := same ⟨mem.familyId, src.size⟩ (by
        rw [sourceSlot, if_pos (not_not.mp isEntry), found, map_some])
      simp only [read]

private theorem size_adaptFamilyRoot {root adapted : SSAVar} {width : Nat}
    (adapts : adaptFamilyRoot root width = some adapted) : adapted.size = width := by
  unfold adaptFamilyRoot at adapts
  split at adapts
  · rename_i same
    exact (some.inj adapts) ▸ same
  · split at adapts
    · obtain ⟨value, -, rfl⟩ := map_eq_some_iff.mp adapts
      rfl
    · cases adapts

theorem holds_adaptFamilyRoot (holds : SSAVar → Prop)
    (constants : ∀ n width, holds (.constant n width)) {root adapted : SSAVar} {width : Nat}
    (here : holds root) (adapts : adaptFamilyRoot root width = some adapted) : holds adapted := by
  unfold adaptFamilyRoot at adapts
  split at adapts
  · obtain rfl := some.inj adapts
    exact here
  · split at adapts
    · obtain ⟨value, -, rfl⟩ := map_eq_some_iff.mp adapts
      exact constants _ _
    · cases adapts

theorem size_rewriteDecompileFamilySource (state : FamilyRootState) (src : SSAVar) :
    (rewriteDecompileFamilySource info state src).size = src.size := by
  unfold rewriteDecompileFamilySource
  repeat' split
  all_goals first | rfl | exact size_adaptFamilyRoot ‹_›

theorem lookup_seedNarrowConstRoots (familyId writtenWidth : Nat) (root : SSAVar)
    (state : FamilyRootState) (slot : RegisterFamilySlot) :
    (seedNarrowConstRoots info familyId writtenWidth root state).lookup slot =
      match constValue root with
      | none => state.lookup slot
      | some value =>
        if slot.familyId = familyId ∧
            slot.width ∈ (info.familyWidths.listAt familyId).filter (· ≤ writtenWidth) then
          some (.constant (maskConstToWidth value slot.width).toNat slot.width)
        else state.lookup slot := by
  unfold seedNarrowConstRoots
  cases constValue root with
  | none => rfl
  | some value =>
    dsimp only
    induction info.familyWidths.listAt familyId generalizing state with
    | nil => simp
    | cons width widths ih =>
      rw [foldl_cons, ih]
      by_cases wide : writtenWidth < width
      · rw [if_pos wide, filter_cons_of_neg (by simpa using wide)]
      · rw [if_neg wide, filter_cons_of_pos (by simpa using wide), HashMap.lookup_insert_ite]
        obtain ⟨slotFamily, slotWidth⟩ := slot
        by_cases here : slotFamily = familyId ∧ slotWidth = width
        · obtain ⟨rfl, rfl⟩ := here
          simp
        · simp only [RegisterFamilySlot.mk.injEq, if_neg here, mem_cons]
          by_cases sameFamily : slotFamily = familyId
          · have otherWidth : slotWidth ≠ width := fun same => here ⟨sameFamily, same⟩
            simp [otherWidth]
          · simp [sameFamily]

/-- Outside the family an operation writes nothing changes; inside, nothing is
kept. -/
theorem lookup_applyOpFamilyEffect (op : SSAOp) (state : FamilyRootState)
    (slot : RegisterFamilySlot) : (applyOpFamilyEffect info op state).lookup slot =
      match op.dst.bind info.memberFor with
      | none => state.lookup slot
      | some mem =>
        if slot.familyId ≠ mem.familyId then state.lookup slot
        else (applyOpFamilyEffect info op ∅).lookup slot := by
  unfold applyOpFamilyEffect
  cases isDst : op.dst with
  | none => rfl
  | some dst =>
    rw [bind_some]
    dsimp only
    cases info.memberFor dst with
    | none => rfl
    | some mem =>
      obtain ⟨familyId, width⟩ := mem
      dsimp only
      have killed : (killFamilyRoots familyId state).lookup slot =
          if slot.familyId ≠ familyId then state.lookup slot
          else (killFamilyRoots familyId ∅).lookup slot := by
        rw [lookup_killFamilyRoots, lookup_killFamilyRoots]
        by_cases here : slot.familyId = familyId <;> simp [here]
      split
      all_goals
        repeat' split
        all_goals simp only [lookup_seedNarrowConstRoots, HashMap.lookup_insert_ite, killed] at *
        all_goals grind

section

variable {mem : RegisterFamilyMember} (isMember : op.dst.bind info.memberFor = some mem)
include isMember

/-- What an operation leaves in its family depends on its sources only through
the one it hands on, and only at the widths it hands it on at. -/
theorem lookup_written_congr {f g : SSAVar → SSAVar}
    (sizes : ∀ v, (f v).size = v.size ∧ (g v).size = v.size)
    (inFamily : slot.familyId = mem.familyId)
    (handed : slot.width ∈ handedWidths info mem op → ∀ src, handedOn op = some src →
      f src = g src) :
    (applyOpFamilyEffect info (op.mapSources f) ∅).lookup slot =
      (applyOpFamilyEffect info (op.mapSources g) ∅).lookup slot := by
  obtain ⟨dst, isDst, isMember⟩ := bind_eq_some_iff.mp isMember
  by_cases hands : slot.width ∈ handedWidths info mem op
  · have same := handed hands
    cases op
    case' unary kind dst src => cases kind
    all_goals first
      | rfl
      | rw [SSAOp.mapSources, same _ rfl]
        rfl
  · obtain ⟨familyId, width⟩ := slot
    obtain ⟨memberId, memberWidth⟩ := mem
    obtain rfl : familyId = memberId := inFamily
    unfold applyOpFamilyEffect
    rw [SSAOp.dst_mapSources, SSAOp.dst_mapSources, isDst]
    simp only [isMember]
    -- at another width there is the destination or nothing
    cases op
    case' unary kind dst src => cases kind
    all_goals first
      | rfl
      | simp only [handedWidths, mem_cons, not_mem_nil, or_false, not_or] at hands
        simp only [SSAOp.mapSources, adaptFamilyRoot, sizes]
        repeat' split
        all_goals
          simp [lookup_seedNarrowConstRoots, HashMap.lookup_insert_ite, lookup_killFamilyRoots, sizes] at *
        all_goals grind

/-- An operation leaves something at the width it writes and at those it hands its
source on at. -/
theorem width_of_written {f : SSAVar → SSAVar}
    (sizes : ∀ v, (f v).size = v.size)
    {v : SSAVar}
    (found : (applyOpFamilyEffect info (op.mapSources f) ∅).lookup slot = some v) :
    slot.width = mem.width ∨ slot.width ∈ handedWidths info mem op := by
  by_contra outside
  obtain ⟨notExact, notHanded⟩ := not_or.mp outside
  obtain ⟨dst, isDst, isMember⟩ := bind_eq_some_iff.mp isMember
  obtain ⟨familyId, width⟩ := slot
  obtain ⟨memberId, memberWidth⟩ := mem
  unfold applyOpFamilyEffect at found
  rw [SSAOp.dst_mapSources, isDst] at found
  simp only [isMember] at found
  have killed : (killFamilyRoots memberId ∅).lookup ⟨familyId, width⟩ = none := by
    rw [lookup_killFamilyRoots]
    split <;> rfl
  have exact : (⟨familyId, width⟩ : RegisterFamilySlot) ≠ ⟨memberId, memberWidth⟩ := by
    rintro same
    exact notExact (congrArg RegisterFamilySlot.width same)
  cases op with
  | unary kind dst src =>
    cases kind
    all_goals
      simp only [handedWidths, mem_cons, not_mem_nil, or_false, not_or] at notHanded
      simp only [SSAOp.mapSources, sizes] at found
    all_goals grind [HashMap.lookup_insert_ite, lookup_seedNarrowConstRoots]
  | Copy _ src | New _ src | Subpiece _ src _ =>
    simp only [handedWidths, mem_cons, not_mem_nil, or_false, not_or] at notHanded
    simp only [SSAOp.mapSources] at found
    grind [HashMap.lookup_insert_ite, lookup_seedNarrowConstRoots]
  | _ =>
    simp only [SSAOp.mapSources] at found
    grind [HashMap.lookup_insert_ite]

end

private theorem lookup_rewriteAndApply_congr (same : ∀ origin, opOrigin info op slot = some origin →
      state.lookup origin = state'.lookup origin) :
    (rewriteAndApply info state op).lookup slot = (rewriteAndApply info state' op).lookup slot := by
  rw [rewriteAndApply, rewriteAndApply, lookup_applyOpFamilyEffect _ state,
    lookup_applyOpFamilyEffect _ state', SSAOp.dst_mapSources, SSAOp.dst_mapSources]
  unfold opOrigin at same
  cases isMember : op.dst.bind info.memberFor with
  | none => exact same slot (by rw [isMember])
  | some mem =>
    rw [isMember] at same
    dsimp only at same ⊢
    by_cases outside : slot.familyId ≠ mem.familyId
    · rw [if_pos outside, if_pos outside]
      exact same slot (if_pos outside)
    · rw [if_neg outside, if_neg outside]
      rw [if_neg outside] at same
      refine lookup_written_congr isMember (fun v => ⟨size_rewriteDecompileFamilySource ..,
        size_rewriteDecompileFamilySource ..⟩) (not_not.mp outside) fun hands src isHanded => ?_
      rw [if_pos hands, isHanded, bind_some] at same
      exact rewriteDecompileFamilySource_congr same

private theorem lookup_rewriteAndApply_of_not_writes
    (unwritten : ¬ WritesFamily info op slot.familyId) (state : FamilyRootState) :
    (rewriteAndApply info state op).lookup slot = state.lookup slot := by
  rw [rewriteAndApply, lookup_applyOpFamilyEffect, SSAOp.dst_mapSources]
  cases isMember : op.dst.bind info.memberFor with
  | none => rfl
  | some mem =>
    exact if_pos fun same => unwritten ⟨mem, isMember, same.symm⟩

private theorem opOrigin_of_not_writes
    (unwritten : ¬ WritesFamily info op slot.familyId) : opOrigin info op slot = some slot := by
  unfold opOrigin
  cases isMember : op.dst.bind info.memberFor with
  | none => rfl
  | some mem => exact if_pos fun same => unwritten ⟨mem, isMember, same.symm⟩

private theorem handedOn_of_opOrigin (isOrigin : opOrigin info op slot = some origin)
    (writes : WritesFamily info op slot.familyId) : (handedOn op).isSome := by
  obtain ⟨mem, isMember, same⟩ := writes
  unfold opOrigin at isOrigin
  rw [isMember] at isOrigin
  dsimp only at isOrigin
  rw [if_neg (not_not.mpr same.symm)] at isOrigin
  split at isOrigin
  · obtain ⟨src, isHanded, -⟩ := bind_eq_some_iff.mp isOrigin
    rw [isHanded]
    rfl
  · cases isOrigin

/-! ## Blocks -/

def PhiWritesFamily (info : RegisterFamilyInfo) (phi : PhiNode) (familyId : Nat) : Prop :=
  ∃ mem, info.memberFor phi.dst = some mem ∧ mem.familyId = familyId

theorem lookup_applyPhiFamilyEffect (state : FamilyRootState) (phi : PhiNode)
    (slot : RegisterFamilySlot) : (applyPhiFamilyEffect info state phi).lookup slot =
      match info.memberFor phi.dst with
      | none => state.lookup slot
      | some mem =>
        if slot.familyId ≠ mem.familyId then state.lookup slot
        else if slot.width = mem.width then some phi.dst else none := by
  unfold applyPhiFamilyEffect
  cases info.memberFor phi.dst with
  | none => rfl
  | some mem =>
    obtain ⟨familyId, width⟩ := mem
    obtain ⟨slotFamily, slotWidth⟩ := slot
    dsimp only
    rw [HashMap.lookup_insert_ite, lookup_killFamilyRoots]
    by_cases here : slotFamily = familyId <;> simp [here]

/-- The slot at the start of a list of operations that a slot at its end can
come from. -/
def opsOrigin (info : RegisterFamilyInfo) : List SSAOp → RegisterFamilySlot →
    Option RegisterFamilySlot
  | [], slot => some slot
  | op :: rest, slot => (opsOrigin info rest slot).bind (opOrigin info op)

/-- A phi keeps nothing of the family it writes. -/
def phisOrigin (info : RegisterFamilyInfo) (phis : List PhiNode) (slot : RegisterFamilySlot) :
    Option RegisterFamilySlot :=
  if phis.any fun phi => (info.memberFor phi.dst).any fun mem =>
    mem.familyId = slot.familyId then none else some slot

/-- The slot at the start of a block that a slot at its end can come from. -/
def slotOrigin (info : RegisterFamilyInfo) (block : Option SSABlock) (slot : RegisterFamilySlot) :
    Option RegisterFamilySlot :=
  match block with
  | none => some slot
  | some block => (opsOrigin info block.ops slot).bind (phisOrigin info block.phis)

def BlockWritesFamily (info : RegisterFamilyInfo) (block : SSABlock) (familyId : Nat) : Prop :=
  (∃ phi ∈ block.phis, PhiWritesFamily info phi familyId) ∨
    ∃ op ∈ block.ops, WritesFamily info op familyId

theorem phisOrigin_eq_some_iff {phis : List PhiNode} :
    phisOrigin info phis slot = some origin ↔
      origin = slot ∧ ∀ phi ∈ phis, ¬ PhiWritesFamily info phi slot.familyId := by
  have anyIff : (phis.any fun phi => (info.memberFor phi.dst).any fun mem =>
      decide (mem.familyId = slot.familyId)) = true ↔
      ∃ phi ∈ phis, PhiWritesFamily info phi slot.familyId := by
    simp only [List.any_eq_true, Option.any_eq_true, decide_eq_true_eq, PhiWritesFamily]
  unfold phisOrigin
  split
  · rename_i written
    obtain ⟨phi, mem, writes⟩ := anyIff.mp written
    exact ⟨nofun, fun both => absurd writes (both.2 phi mem)⟩
  · rename_i unwritten
    refine ⟨fun same => ⟨(some.inj same).symm, fun phi mem writes => ?_⟩, fun both => ?_⟩
    · exact unwritten (anyIff.mpr ⟨phi, mem, writes⟩)
    · rw [both.1]

private theorem lookup_foldl_rewriteAndApply_congr (ops : List SSAOp) :
    ∀ {state state' : FamilyRootState} {slot : RegisterFamilySlot},
      (∀ origin, opsOrigin info ops slot = some origin →
        state.lookup origin = state'.lookup origin) →
      (ops.foldl (rewriteAndApply info) state).lookup slot =
        (ops.foldl (rewriteAndApply info) state').lookup slot := by
  induction ops with
  | nil => exact fun same => same _ rfl
  | cons op rest ih =>
    intro state state' slot same
    refine ih fun between isBetween => lookup_rewriteAndApply_congr ?_
    intro origin isOrigin
    refine same origin ?_
    rw [opsOrigin, isBetween]
    exact isOrigin

private theorem lookup_foldl_phis_congr (phis : List PhiNode) :
    ∀ {state state' : FamilyRootState} {slot : RegisterFamilySlot},
      ((∀ phi ∈ phis, ¬ PhiWritesFamily info phi slot.familyId) →
        state.lookup slot = state'.lookup slot) →
      (phis.foldl (applyPhiFamilyEffect info) state).lookup slot =
        (phis.foldl (applyPhiFamilyEffect info) state').lookup slot := by
  induction phis with
  | nil => exact fun same => same (by simp)
  | cons phi rest ih =>
    intro state state' slot same
    refine ih fun unwritten => ?_
    rw [lookup_applyPhiFamilyEffect, lookup_applyPhiFamilyEffect]
    cases isMember : info.memberFor phi.dst with
    | none =>
      refine same (forall_mem_cons.mpr ⟨?_, unwritten⟩)
      rintro ⟨mem, found, -⟩
      rw [isMember] at found
      cases found
    | some mem =>
      dsimp only
      by_cases outside : slot.familyId ≠ mem.familyId
      · rw [if_pos outside, if_pos outside]
        refine same (forall_mem_cons.mpr ⟨?_, unwritten⟩)
        rintro ⟨member', found, inFamily⟩
        rw [isMember] at found
        cases found
        exact outside inFamily.symm
      · rw [if_neg outside, if_neg outside]

theorem lookup_transfer_congr {func : SSAFunction} {addr : Nat}
    (same : ∀ origin, slotOrigin info (func.getBlock addr) slot = some origin →
      state.lookup origin = state'.lookup origin) :
    (transferFamilyStateForBlock info func addr state).lookup slot =
      (transferFamilyStateForBlock info func addr state').lookup slot := by
  unfold transferFamilyStateForBlock
  unfold slotOrigin at same
  cases found : func.getBlock addr with
  | none => exact same slot (by rw [found])
  | some block =>
    rw [found] at same
    dsimp only at same ⊢
    refine lookup_foldl_rewriteAndApply_congr _ fun between isBetween =>
      lookup_foldl_phis_congr _ fun unwritten => same between ?_
    rw [isBetween]
    exact phisOrigin_eq_some_iff.mpr ⟨rfl, unwritten⟩

private theorem lookup_foldl_rewriteAndApply_of_not_writes (ops : List SSAOp) :
    (∀ op ∈ ops, ¬ WritesFamily info op slot.familyId) → ∀ state : FamilyRootState,
      (ops.foldl (rewriteAndApply info) state).lookup slot = state.lookup slot :=
  fun unwritten => foldl_kept (AList.lookup slot) fun state op mem =>
    lookup_rewriteAndApply_of_not_writes (unwritten op mem) state

private theorem lookup_foldl_phis_of_not_writes (phis : List PhiNode) :
    (∀ phi ∈ phis, ¬ PhiWritesFamily info phi slot.familyId) → ∀ state : FamilyRootState,
      (phis.foldl (applyPhiFamilyEffect info) state).lookup slot = state.lookup slot := by
  refine fun unwritten => foldl_kept (AList.lookup slot) fun state phi inPhis => ?_
  rw [lookup_applyPhiFamilyEffect]
  cases isMember : info.memberFor phi.dst with
  | none => rfl
  | some mem => exact if_pos fun same => unwritten phi inPhis ⟨mem, isMember, same.symm⟩

theorem lookup_transfer_of_not_writes {func : SSAFunction} {addr : Nat}
    (unwritten : ∀ block, func.getBlock addr = some block →
      ¬ BlockWritesFamily info block slot.familyId) (state : FamilyRootState) :
    (transferFamilyStateForBlock info func addr state).lookup slot = state.lookup slot := by
  unfold transferFamilyStateForBlock
  cases found : func.getBlock addr with
  | none => rfl
  | some block =>
    have silent := not_or.mp (unwritten block found)
    have phis := fun phi mem writes => silent.1 ⟨phi, mem, writes⟩
    have ops := fun op mem writes => silent.2 ⟨op, mem, writes⟩
    exact (lookup_foldl_rewriteAndApply_of_not_writes _ ops _).trans
      (lookup_foldl_phis_of_not_writes _ phis _)

theorem opsOrigin_cases (ops : List SSAOp) (isOrigin : opsOrigin info ops slot = some origin) :
    ((∀ op ∈ ops, ¬ WritesFamily info op slot.familyId) ∧ origin = slot) ∨
      ∃ op ∈ ops, WritesFamily info op slot.familyId ∧ (handedOn op).isSome := by
  induction ops generalizing origin with
  | nil => exact .inl ⟨by simp, (some.inj isOrigin).symm⟩
  | cons op rest ih =>
    obtain ⟨between, isBetween, fromBetween⟩ := bind_eq_some_iff.mp isOrigin
    rcases ih isBetween with ⟨unwritten, rfl⟩ | ⟨op', mem, writes⟩
    · by_cases writes : WritesFamily info op between.familyId
      · exact .inr ⟨op, mem_cons_self, writes, handedOn_of_opOrigin fromBetween writes⟩
      · rw [opOrigin_of_not_writes writes] at fromBetween
        exact .inl ⟨forall_mem_cons.mpr ⟨writes, unwritten⟩, (some.inj fromBetween).symm⟩
    · exact .inr ⟨op', mem_cons_of_mem _ mem, writes⟩

section

variable {block : SSABlock} (isOrigin : slotOrigin info (some block) slot = some origin)
include isOrigin

/-- A slot with an origin stays where it is, or an operation hands a source to
its family. -/
theorem slotOrigin_cases :
    (¬ BlockWritesFamily info block slot.familyId ∧ origin = slot) ∨
      ∃ op ∈ block.ops, WritesFamily info op slot.familyId ∧ (handedOn op).isSome := by
  obtain ⟨between, isBetween, fromBetween⟩ := bind_eq_some_iff.mp isOrigin
  obtain ⟨rfl, phis⟩ := phisOrigin_eq_some_iff.mp fromBetween
  refine (opsOrigin_cases _ isBetween).imp ?_ id
  rintro ⟨ops, rfl⟩
  refine ⟨?_, rfl⟩
  rintro (⟨phi, mem, writes⟩ | ⟨op, mem, writes⟩)
  · exact phis phi mem writes
  · exact ops op mem writes

theorem phi_not_writes_origin :
    ∀ phi ∈ block.phis, ¬ PhiWritesFamily info phi origin.familyId := by
  obtain ⟨between, -, fromBetween⟩ := bind_eq_some_iff.mp isOrigin
  obtain ⟨rfl, phis⟩ := phisOrigin_eq_some_iff.mp fromBetween
  exact phis

end

end R2Sleigh.Ssa.Family
