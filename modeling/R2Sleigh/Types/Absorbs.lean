import R2Sleigh.Types.Bounds

/-!
Contract: types that a join leaves as they are.

Owns `Absorbs`.
-/

namespace R2Sleigh.Types

open Lib List Option

namespace TypeLattice

/-! ## Merges that make no type -/

/-- A merge that makes no type is the same in a larger arena. -/
def Repeats (merge : TypeArena → TypeId → TypeId → Option (TypeArena × TypeId))
    (arena' : TypeArena) : Prop :=
  ∀ {arena : TypeArena} {a b : TypeId} {result : TypeArena × TypeId}, arena.Built →
    arena.Extends arena' → arena.Present a → arena.Present b → merge arena a b = some result →
    result.1.types.length = arena.types.length → merge arena' a b = some (arena', result.2)

def Enlarges (merge : TypeArena → TypeId → TypeId → Option (TypeArena × TypeId)) : Prop :=
  ∀ {arena : TypeArena} {a b : TypeId} {result : TypeArena × TypeId}, arena.Built →
    arena.Present a → arena.Present b → merge arena a b = some result → arena.Grows result

section Repeating

variable {arena arena' : TypeArena}

theorem extends_of_length {next : TypeArena} (keeps : arena.Extends next)
    (whole : arena.Extends arena') (same : next.types.length = arena.types.length) :
    next.Extends arena' := by
  have sameTypes : arena.types = next.types := keeps.eq_of_length same.symm
  rw [TypeArena.Extends, ← sameTypes]
  exact whole

theorem intern_repeats (built : arena.Built) (built' : arena'.Built) (keeps : arena.Extends arena')
    {ty : Ty} (same : (arena.intern ty).1.types.length = arena.types.length) :
    arena'.intern ty = (arena', (arena.intern ty).2) := by
  cases found : arena.internIndex.lookup ty with
  | none =>
    rw [TypeArena.intern, found] at same
    simp at same
  | some idx =>
    have stored := built.wellFormed.indexed _ _ found
    obtain ⟨more, grown⟩ := keeps
    have stored' : arena'.types[idx]? = some ty := by
      rw [← grown]
      exact (List.getElem?_append_left (TypeArena.present_of_getElem? stored)).trans stored
    rw [TypeArena.intern, TypeArena.intern, found, indexed_of_built built' _ _ stored']

theorem length_before_intern {next : TypeArena} {ty : Ty} (keeps : arena.Extends next)
    (same : (next.intern ty).1.types.length = arena.types.length) :
    next.types.length = arena.types.length :=
  Nat.le_antisymm (same ▸ (TypeArena.extends_intern next ty).length_le) keeps.length_le

variable {merge meets : TypeArena → TypeId → TypeId → Option (TypeArena × TypeId)}

private theorem joinFields_repeats (enlarges : Enlarges merge) (repeats : Repeats merge arena')
    {bFields : BTreeMap Nat StructField} {entries : List (Nat × StructField)} :
    ∀ {arena : TypeArena} {merged : BTreeMap Nat StructField}
      {state : TypeArena × BTreeMap Nat StructField}, arena.Built →
      (∀ entry ∈ entries, arena.Present entry.2.ty) → FieldsPresent arena bFields →
      entries.foldlM (joinFields merge bFields) (arena, merged) = some state →
      arena.Extends state.1 ∧ state.1.Built ∧
        (arena.Extends arena' → state.1.types.length = arena.types.length →
          entries.foldlM (joinFields merge bFields) (arena', merged) = some (arena', state.2)) := by
  induction entries with
  | nil =>
    intro arena merged state built _ _ run
    cases run
    exact ⟨.refl _, built, fun _ _ => rfl⟩
  | cons entry rest ih =>
    intro arena merged state built present bPresent run
    obtain ⟨entryPresent, restPresent⟩ := forall_mem_cons.mp present
    rw [foldlM_cons] at run ⊢
    obtain ⟨mid, step, later⟩ := bind_eq_some_iff.mp run
    have first : arena.Extends mid.1 ∧ mid.1.Built ∧
        (arena.Extends arena' → mid.1.types.length = arena.types.length →
          joinFields merge bFields (arena', merged) entry = some (arena', mid.2)) := by
      unfold joinFields at step ⊢
      cases inB : bFields.get? entry.1 with
      | none =>
        rw [inB] at step
        cases step
        exact ⟨.refl _, built, fun _ _ => rfl⟩
      | some bField =>
        rw [inB] at step
        obtain ⟨result, inner, same⟩ := bind_eq_some_iff.mp step
        cases same
        have bFieldPresent := bPresent _ (BTreeMap.mem_of_get? inB)
        have grows := enlarges built entryPresent bFieldPresent inner
        refine ⟨grows.keeps, grows.built, fun keeps length => ?_⟩
        dsimp only
        rw [repeats built keeps entryPresent bFieldPresent inner length]
        rfl
    obtain ⟨firstKeeps, midBuilt, firstRepeats⟩ := first
    obtain ⟨keeps, stateBuilt, restRepeats⟩ := @ih mid.1 mid.2 state midBuilt
      (fun other mem => firstKeeps.present (restPresent other mem))
      (bPresent.extends firstKeeps) later
    refine ⟨firstKeeps.trans keeps, stateBuilt, fun whole length => ?_⟩
    have sameFirst : mid.1.types.length = arena.types.length :=
      Nat.le_antisymm (length ▸ keeps.length_le) firstKeeps.length_le
    rw [firstRepeats whole sameFirst]
    exact restRepeats (extends_of_length firstKeeps whole sameFirst) (length.trans sameFirst.symm)

private theorem meetParams_repeats (enlarges : Enlarges meets) (repeats : Repeats meets arena')
    {pairs : List (TypeId × TypeId)} :
    ∀ {arena : TypeArena} {params : List TypeId} {state : TypeArena × List TypeId}, arena.Built →
      (∀ pair ∈ pairs, arena.Present pair.1 ∧ arena.Present pair.2) →
      pairs.foldlM (meetParams meets) (arena, params) = some state →
      arena.Extends state.1 ∧ state.1.Built ∧
        (arena.Extends arena' → state.1.types.length = arena.types.length →
          pairs.foldlM (meetParams meets) (arena', params) = some (arena', state.2)) := by
  induction pairs with
  | nil =>
    intro arena params state built _ run
    cases run
    exact ⟨.refl _, built, fun _ _ => rfl⟩
  | cons pair rest ih =>
    intro arena params state built present run
    obtain ⟨pairPresent, restPresent⟩ := forall_mem_cons.mp present
    rw [foldlM_cons] at run ⊢
    obtain ⟨mid, step, later⟩ := bind_eq_some_iff.mp run
    obtain ⟨result, met, same⟩ := bind_eq_some_iff.mp step
    cases same
    have grows := enlarges built pairPresent.1 pairPresent.2 met
    obtain ⟨keeps, stateBuilt, restRepeats⟩ := ih grows.built
      (fun other mem => (restPresent other mem).imp grows.keeps.present grows.keeps.present)
      later
    refine ⟨grows.keeps.trans keeps, stateBuilt, fun whole length => ?_⟩
    have sameFirst : result.1.types.length = arena.types.length :=
      Nat.le_antisymm (length ▸ keeps.length_le) grows.keeps.length_le
    rw [meetParams, repeats built whole pairPresent.1 pairPresent.2 met sameFirst]
    exact restRepeats (extends_of_length grows.keeps whole sameFirst) (length.trans sameFirst.symm)

theorem carryOut_repeats (mergeEnlarges : Enlarges merge) (mergeRepeats : Repeats merge arena')
    (meetsEnlarges : Enlarges meets) (meetsRepeats : Repeats meets arena') (built : arena.Built)
    (built' : arena'.Built) (whole : arena.Extends arena') {a b : TypeId} {plan : MergePlan}
    (forTypes : plan.For arena (arena.get a) (arena.get b)) {result : TypeArena × TypeId}
    (run : carryOut merge meets arena plan = some result)
    (length : result.1.types.length = arena.types.length) :
    carryOut merge meets arena' plan = some (arena', result.2) := by
  have wellFormed := built.wellFormed
  have mergesPresent : ∀ pair ∈ plan.merges, arena.Present pair.1 ∧ arena.Present pair.2 := by
    intro pair mem
    rcases forTypes.merges pair mem with ⟨inA, inB⟩ | ⟨inEither, isTop⟩
    · exact ⟨wellFormed.component_present inA, wellFormed.component_present inB⟩
    · refine ⟨inEither.elim wellFormed.component_present wellFormed.component_present, ?_⟩
      rw [isTop]
      exact TypeArena.present_of_getElem? wellFormed.top
  -- A pointer or an array of the merged components.
  have around : ∀ {x y : TypeId} {make : TypeId → Ty}, (x, y) ∈ plan.merges →
      ((merge arena x y).bind fun inner => some (inner.1.intern (make inner.2))) = some result →
      ((merge arena' x y).bind fun inner => some (inner.1.intern (make inner.2))) =
        some (arena', result.2) := by
    intro x y make listed run
    obtain ⟨xPresent, yPresent⟩ := mergesPresent _ listed
    obtain ⟨inner, merged, rest⟩ := bind_eq_some_iff.mp run
    cases rest
    have grows := mergeEnlarges built xPresent yPresent merged
    have sameInner := length_before_intern grows.keeps length
    rw [mergeRepeats built whole xPresent yPresent merged sameInner, bind_some,
      intern_repeats grows.built built' (extends_of_length grows.keeps whole sameInner)
        (length.trans sameInner.symm)]
  cases plan with
  | existing id =>
    cases run
    rfl
  | intern ty =>
    cases run
    exact congrArg some (intern_repeats built built' whole length)
  | ptr x y => exact @around _ _ .ptr mem_cons_self run
  | array x y len stride => exact @around _ _ (fun elem => .array elem len stride) mem_cons_self run
  | struct x y =>
    have xPresent : ∀ entry ∈ x.fields.entries, arena.Present entry.2.ty := fun entry mem =>
      forTypes.parts_present wellFormed _ (mem_append_left _ (field_mem_components mem))
    have yPresent : FieldsPresent arena y.fields := fun entry mem =>
      forTypes.parts_present wellFormed _ (mem_append_right _ (field_mem_components mem))
    obtain ⟨state, fields, rest⟩ := bind_eq_some_iff.mp run
    cases rest
    obtain ⟨keeps, stateBuilt, repeated⟩ :=
      joinFields_repeats mergeEnlarges mergeRepeats built xPresent yPresent fields
    have sameState := length_before_intern keeps length
    have last := intern_repeats stateBuilt built' (extends_of_length keeps whole sameState)
      (length.trans sameState.symm)
    rw [carryOut, repeated whole sameState]
    exact congrArg some last
  | function pairs aRet bRet variadic =>
    have pairsPresent : ∀ pair ∈ pairs, arena.Present pair.1 ∧ arena.Present pair.2 :=
      fun pair mem => (forTypes.meets pair mem).imp wellFormed.component_present
        wellFormed.component_present
    obtain ⟨retA, retB⟩ := mergesPresent (aRet, bRet) mem_cons_self
    obtain ⟨state, params, rest⟩ := bind_eq_some_iff.mp run
    obtain ⟨ret, returned, rest⟩ := bind_eq_some_iff.mp rest
    cases rest
    obtain ⟨keeps, stateBuilt, repeated⟩ :=
      meetParams_repeats meetsEnlarges meetsRepeats built pairsPresent params
    have grows := mergeEnlarges stateBuilt (keeps.present retA) (keeps.present retB) returned
    have sameRet := length_before_intern (keeps.trans grows.keeps) length
    have sameState : state.1.types.length = arena.types.length :=
      Nat.le_antisymm (sameRet ▸ grows.keeps.length_le) keeps.length_le
    have stateWhole := extends_of_length keeps whole sameState
    have returned' := mergeRepeats stateBuilt stateWhole (keeps.present retA) (keeps.present retB)
      returned (sameRet.trans sameState.symm)
    have last := intern_repeats grows.built built'
      (extends_of_length (keeps.trans grows.keeps) whole sameRet) (length.trans sameRet.symm)
    rw [carryOut, repeated whole sameState]
    dsimp only [bind_eq_bind, bind_some]
    rw [returned']
    exact congrArg some last

theorem starts_eq (built : arena.Built) (built' : arena'.Built) (keeps : arena.Extends arena') :
    arena'.top = arena.top ∧ arena'.bottom = arena.bottom ∧ arena'.boolTy = arena.boolTy := by
  have same : ∀ {id id' : TypeId} {ty : Ty}, arena.types[id]? = some ty →
      arena'.types[id']? = some ty → id' = id := by
    intro id id' ty stored stored'
    have present := TypeArena.present_of_getElem? stored
    refine eq_of_get_eq built' (TypeArena.present_of_getElem? stored') (keeps.present present) ?_
    rw [TypeArena.get_of_getElem? stored', keeps.get present, TypeArena.get_of_getElem? stored]
  exact ⟨same built.wellFormed.top built'.wellFormed.top,
    same built.wellFormed.bottom built'.wellFormed.bottom,
    same built.wellFormed.boolTy built'.wellFormed.boolTy⟩

theorem plan_eq (built : arena.Built) (built' : arena'.Built) (keeps : arena.Extends arena')
    (x y : Ty) : meetPlan arena' x y = meetPlan arena x y ∧ joinPlan arena' x y = joinPlan arena x y := by
  obtain ⟨top, bottom, boolTy⟩ := starts_eq built built' keeps
  constructor
  · unfold meetPlan
    rw [bottom]
  · unfold joinPlan
    rw [top, boolTy]

theorem repeats_of_plan {merge : Nat → TypeArena → TypeId → TypeId → Option (TypeArena × TypeId)}
    {inner meets : Nat → TypeArena → TypeId → TypeId → Option (TypeArena × TypeId)}
    {first second : TypeId → TypeId → TypeId} {plan : TypeArena → Ty → Ty → MergePlan} {fuel : Nat}
    (follows : ∀ arena a b, Follows merge inner meets arena a b (first a b) (second a b)
      (plan arena (arena.get a) (arena.get b)))
    (planFor : ∀ arena x y, (plan arena x y).For arena x y) (built' : arena'.Built)
    (samePlan : ∀ {arena : TypeArena}, arena.Built → arena.Extends arena' → ∀ x y,
      plan arena' x y = plan arena x y)
    (innerEnlarges : Enlarges (inner fuel)) (innerRepeats : Repeats (inner fuel) arena')
    (meetsEnlarges : Enlarges (meets fuel)) (meetsRepeats : Repeats (meets fuel) arena') :
    Repeats (merge (fuel + 1)) arena' := by
  intro arena a b result built keeps aPresent bPresent run length
  rw [follows] at run ⊢
  rw [isSubtype_extends built.wellFormed keeps _ aPresent bPresent,
    isSubtype_extends built.wellFormed keeps _ bPresent aPresent, samePlan built keeps,
    keeps.get aPresent, keeps.get bPresent]
  obtain ⟨below, compared, rest⟩ := bind_eq_some_iff.mp run
  rw [compared, bind_some]
  split at rest
  · rename_i isBelow
    cases rest
    rw [if_pos isBelow]
  · rename_i notBelow
    rw [if_neg notBelow]
    obtain ⟨above, compared', rest⟩ := bind_eq_some_iff.mp rest
    rw [compared', bind_some]
    split at rest
    · rename_i isAbove
      cases rest
      rw [if_pos isAbove]
    · rename_i notAbove
      rw [if_neg notAbove]
      exact carryOut_repeats innerEnlarges innerRepeats meetsEnlarges meetsRepeats built built' keeps
        (planFor arena _ _) rest length

end Repeating

theorem meet_enlarges (fuel : Nat) : Enlarges (meet fuel) := fun built aPresent bPresent found =>
  (meet_spec fuel built aPresent bPresent found).grows

theorem join_enlarges (fuel : Nat) : Enlarges (join fuel) := fun built aPresent bPresent found =>
  (join_spec fuel built aPresent bPresent found).grows

private theorem meet_repeats {arena' : TypeArena} (built' : arena'.Built) (fuel : Nat) :
    Repeats (meet fuel) arena' := by
  induction fuel with
  | zero =>
    intro arena a b result _ _ _ _ found
    cases found
  | succ fuel ih =>
    exact repeats_of_plan meet_follows meetPlan_for built'
      (fun built keeps x y => (plan_eq built built' keeps x y).1) (meet_enlarges fuel)
      ih (meet_enlarges fuel) ih

private theorem join_repeats {arena' : TypeArena} (built' : arena'.Built) (fuel : Nat) :
    Repeats (join fuel) arena' := by
  induction fuel with
  | zero =>
    intro arena a b result _ _ _ _ found
    cases found
  | succ fuel ih =>
    exact repeats_of_plan join_follows joinPlan_for built'
      (fun built keeps x y => (plan_eq built built' keeps x y).2) (join_enlarges fuel)
      ih (meet_enlarges fuel) (meet_repeats built' fuel)

/-! ## Absorbed types -/

/-- Joining `ty` with `upper`, in one order, makes no type and gives `upper`. -/
def Absorbs (arena : TypeArena) (ty upper : TypeId) : Prop :=
  ∃ result ∈ [joinTypes arena upper ty, joinTypes arena ty upper],
    result.1.types.length = arena.types.length ∧ result.2 = upper

instance (arena : TypeArena) (ty upper : TypeId) : Decidable (Absorbs arena ty upper) :=
  inferInstanceAs (Decidable (∃ result ∈ [joinTypes arena upper ty, joinTypes arena ty upper],
    result.1.types.length = arena.types.length ∧ result.2 = upper))

theorem joinTypes_run {arena : TypeArena} (built : arena.Built) {a b : TypeId}
    (aPresent : arena.Present a) (bPresent : arena.Present b) :
    join (max a b + 1) arena a b = some (joinTypes arena a b) := by
  obtain ⟨result, run, _⟩ := join_settles (max a b + 1) built aPresent bPresent
    (Nat.lt_succ_of_le (le_max_left a b)) (Nat.lt_succ_of_le (le_max_right a b))
  rw [joinTypes, run _ le_rfl]
  rfl

section

variable {arena arena' : TypeArena} (built : arena.Built) (built' : arena'.Built)
  (keeps : arena.Extends arena')
include built built' keeps

theorem joinTypes_repeats
    {a b : TypeId} (aPresent : arena.Present a)
    (bPresent : arena.Present b) (length : (joinTypes arena a b).1.types.length = arena.types.length) :
    joinTypes arena' a b = (arena', (joinTypes arena a b).2) := by
  have run := join_repeats built' (max a b + 1) built keeps aPresent bPresent
    (joinTypes_run built aPresent bPresent) length
  rw [joinTypes, run]
  rfl

theorem Absorbs.extends
    {ty upper : TypeId} (tyPresent : arena.Present ty)
    (upperPresent : arena.Present upper) (absorbs : Absorbs arena ty upper) :
    Absorbs arena' ty upper := by
  obtain ⟨result, listed, length, isUpper⟩ := absorbs
  rcases mem_cons.mp listed with rfl | listed
  · have same := joinTypes_repeats built built' keeps upperPresent tyPresent length
    exact ⟨_, mem_cons_self, by rw [same], by rw [same, isUpper]⟩
  · obtain rfl := mem_singleton.mp listed
    have same := joinTypes_repeats built built' keeps tyPresent upperPresent length
    exact ⟨_, mem_cons_of_mem _ mem_cons_self, by rw [same], by rw [same, isUpper]⟩

end

theorem absorbs_of_below {arena : TypeArena} (built : arena.Built) {ty upper : TypeId}
    (tyPresent : arena.Present ty) (upperPresent : arena.Present upper)
    (below : Below arena ty upper) : Absorbs arena ty upper := by
  have run := joinTypes_run built tyPresent upperPresent
  rcases follows_cases (join_follows arena ty upper) run with
    ⟨_, same⟩ | ⟨notBelow, _⟩ | ⟨notBelow, _⟩
  · exact ⟨_, mem_cons_of_mem _ mem_cons_self, by rw [same], by rw [same]⟩
  · exact absurd below notBelow
  · exact absurd below notBelow

end TypeLattice

end R2Sleigh.Types
