import Mathlib.Algebra.Order.BigOperators.Group.List
import R2Sleigh.Types.Absorbs
import R2Sleigh.Types.Capped

/-!
Contract: when the worklist solver's queue empties.

Owns `Want` and `Ascends`.
-/

namespace R2Sleigh.Types

open Lib Ssa TypeLattice List Option

/-! ## Wants -/

/-- A type, or a pointer to one, that a variable's type is to absorb. -/
inductive Want where
  | type (ty : TypeId)
  | pointer (elemTy : TypeId)

def Want.Met (arena : TypeArena) (ty : TypeId) : Want → Prop
  | .type want => arena.Present want ∧ Absorbs arena want ty
  | .pointer elemTy => ∃ id, arena.types[id]? = some (.ptr elemTy) ∧ Absorbs arena id ty

instance (arena : TypeArena) (ty : TypeId) : ∀ want : Want, Decidable (want.Met arena ty)
  | .type want => inferInstanceAs (Decidable (arena.Present want ∧ Absorbs arena want ty))
  | .pointer elemTy => decidable_of_iff (∃ id ∈ range arena.types.length,
      arena.types[id]? = some (.ptr elemTy) ∧ Absorbs arena id ty)
    ⟨fun ⟨id, _, met⟩ => ⟨id, met⟩,
      fun ⟨id, stored, absorbs⟩ =>
        ⟨id, mem_range.mpr (TypeArena.present_of_getElem? stored), stored, absorbs⟩⟩

namespace CompactConstraint

def wants (var : VarId) : CompactConstraint → List (Nat × Want)
  | .setType target ty source => if target = var then [(source.priority, .type ty)] else []
  | .subtype _ _ _ => []
  | .hasCapability target elemTy source =>
    if target = var then [(source.priority, .pointer elemTy)] else []
  | .callSig _ args params ret source =>
    ((args.zip params ++ ret.toList).filter fun pair => pair.1 = var).map fun pair =>
      (source.priority, .type pair.2)
  | .fieldAccess _ _ _ _ _ => []

/-- The field that a constraint accesses through a variable, with its priority. -/
def field (var : VarId) : CompactConstraint → List (Nat × Nat × TypeId × Option String)
  | .fieldAccess target offset fieldTy fieldName source =>
    if target = var then [(source.priority, offset, fieldTy, fieldName)] else []
  | _ => []

end CompactConstraint

theorem Want.Met.extends {arena arena' : TypeArena} (built : arena.Built) (built' : arena'.Built)
    (keeps : arena.Extends arena') {ty : TypeId} (present : arena.Present ty) {want : Want}
    (met : want.Met arena ty) : want.Met arena' ty := by
  cases want with
  | type other => exact ⟨keeps.present met.1, met.2.extends built built' keeps met.1 present⟩
  | pointer elemTy =>
    obtain ⟨id, stored, absorbs⟩ := met
    have idPresent := TypeArena.present_of_getElem? stored
    have absorbs' := absorbs.extends built built' keeps idPresent present
    obtain ⟨more, grown⟩ := keeps
    refine ⟨id, ?_, absorbs'⟩
    rw [← grown]
    exact (List.getElem?_append_left idPresent).trans stored

/-- An integer with a sign, or a pointer to one. -/
inductive Signed (arena : TypeArena) : TypeId → Prop
  | int {ty : TypeId} {bits : Nat} {sign : Signedness} (isInt : arena.get ty = .int bits sign)
      (signed : sign ≠ .unknown) : Signed arena ty
  | ptr {ty inner : TypeId} (isPtr : arena.get ty = .ptr inner) (inside : Signed arena inner) :
      Signed arena ty

theorem Widens.signed {arena : TypeArena} {ty wide : TypeId} (widens : Widens arena ty wide) :
    Signed arena ty ∧ ¬ Signed arena wide := by
  induction widens with
  | int isInt signed isWide =>
    refine ⟨.int isInt signed, fun isSigned => ?_⟩
    cases isSigned with
    | int isInt' signed' =>
      obtain ⟨_, rfl⟩ := Ty.int.inj (isWide.symm.trans isInt')
      exact signed' rfl
    | ptr isPtr _ => cases isWide.symm.trans isPtr
  | ptr isPtr isWide _ inside =>
    refine ⟨.ptr isPtr inside.1, fun isSigned => ?_⟩
    cases isSigned with
    | int isInt _ => cases isWide.symm.trans isInt
    | ptr isPtr' inner =>
      obtain rfl := Ty.ptr.inj (isWide.symm.trans isPtr')
      exact inside.2 inner

private theorem signed_extends {arena arena' : TypeArena} (wellFormed : arena.WellFormed)
    (keeps : arena.Extends arena') {ty : TypeId} (present : arena.Present ty) :
    Signed arena' ty → Signed arena ty := by
  intro isSigned
  induction isSigned with
  | int isInt signed => exact .int ((keeps.get present).symm.trans isInt) signed
  | ptr isPtr _ inside =>
    have isPtr' := (keeps.get present).symm.trans isPtr
    exact .ptr isPtr' (inside (wellFormed.part_present isPtr' (by simp [Ty.components])))

/-! ## Ranks -/

def KeepsFields (constraints : List CompactConstraint) (arena : TypeArena) (var : VarId)
    (priority : Nat) (old new : TypeId) : Prop :=
  ∀ access ∈ constraints.flatMap (·.field var), access.1 = priority →
    fieldAccessIsNoop arena old access.2.1 access.2.2.1 access.2.2.2 = true →
    fieldAccessIsNoop arena new access.2.1 access.2.2.1 access.2.2.2 = true

def KeepsWants (constraints : List CompactConstraint) (arena : TypeArena) (var : VarId)
    (priority : Nat) (old new : TypeId) : Prop :=
  ∀ want ∈ constraints.flatMap (·.wants var), want.1 = priority →
    want.2.Met arena old → want.2.Met arena new

instance (constraints : List CompactConstraint) (arena : TypeArena) (var : VarId) (priority : Nat)
    (old new : TypeId) : Decidable (KeepsFields constraints arena var priority old new) :=
  inferInstanceAs (Decidable (∀ access ∈ constraints.flatMap (·.field var), access.1 = priority →
    fieldAccessIsNoop arena old access.2.1 access.2.2.1 access.2.2.2 = true →
    fieldAccessIsNoop arena new access.2.1 access.2.2.1 access.2.2.2 = true))

instance (constraints : List CompactConstraint) (arena : TypeArena) (var : VarId) (priority : Nat)
    (old new : TypeId) : Decidable (KeepsWants constraints arena var priority old new) :=
  inferInstanceAs (Decidable (∀ want ∈ constraints.flatMap (·.wants var), want.1 = priority →
    want.2.Met arena old → want.2.Met arena new))

section Ranks

open Classical

variable (constraints : List CompactConstraint)

/-- The wants of the assignment's priority that its type meets. -/
noncomputable def wantsMet (arena : TypeArena) (var : VarId) (assignment : Assignment) : Nat :=
  (constraints.flatMap (·.wants var)).countP fun want =>
    decide (want.1 = assignment.priority ∧ want.2.Met arena assignment.ty)

/-- The accesses of the assignment's priority that find their field. -/
noncomputable def fieldsMet (arena : TypeArena) (var : VarId) (assignment : Assignment) : Nat :=
  (constraints.flatMap (·.field var)).countP fun access =>
    decide (access.1 = assignment.priority ∧
      fieldAccessIsNoop arena assignment.ty access.2.1 access.2.2.1 access.2.2.2 = true)

/-- How far a type has come among those of its priority. -/
noncomputable def level (arena : TypeArena) (var : VarId) (assignment : Assignment) : Nat :=
  fieldsMet constraints arena var assignment * (2 * (constraints.flatMap (·.wants var)).length + 2) +
    (2 * wantsMet constraints arena var assignment + if Signed arena assignment.ty then 0 else 1)

/-- More than any level. -/
def height (var : VarId) : Nat :=
  ((constraints.flatMap (·.field var)).length + 1) *
    (2 * (constraints.flatMap (·.wants var)).length + 2)

noncomputable def rank (state : SolverState) (var : VarId) : Nat :=
  match state.assignment var with
  | none => 0
  | some assignment =>
    assignment.priority * height constraints var + level constraints state.arena var assignment

theorem level_lt_height (arena : TypeArena) (var : VarId) (assignment : Assignment) :
    level constraints arena var assignment < height constraints var := by
  have wants : wantsMet constraints arena var assignment ≤
      (constraints.flatMap (·.wants var)).length := countP_le_length
  have fields : fieldsMet constraints arena var assignment ≤
      (constraints.flatMap (·.field var)).length := countP_le_length
  have scaled := Nat.mul_le_mul_right (2 * (constraints.flatMap (·.wants var)).length + 2) fields
  unfold level height
  rw [Nat.add_mul, Nat.one_mul]
  split <;> omega

theorem height_pos (var : VarId) : 0 < height constraints var := by
  exact Nat.mul_pos (Nat.succ_pos _) (Nat.succ_pos _)

theorem rank_lt {state : SolverState} {var : VarId}
    (bounded : ∀ assignment, state.assignment var = some assignment → assignment.priority ≤ 3) :
    rank constraints state var < 4 * height constraints var := by
  unfold rank
  have positive := height_pos constraints var
  split
  · omega
  · rename_i assignment assigned
    have most := bounded assignment assigned
    have less := level_lt_height constraints state.arena var assignment
    have scaled := Nat.mul_le_mul_right (height constraints var) most
    omega

variable {constraints}

theorem level_extends {arena arena' : TypeArena} (built : arena.Built) (built' : arena'.Built)
    (keeps : arena.Extends arena') (var : VarId) {assignment : Assignment}
    (present : arena.Present assignment.ty) :
    level constraints arena var assignment ≤ level constraints arena' var assignment := by
  have wants : wantsMet constraints arena var assignment ≤ wantsMet constraints arena' var assignment :=
    countP_mono_left fun want _ met => by
      simp only [decide_eq_true_eq] at met ⊢
      exact ⟨met.1, met.2.extends built built' keeps present⟩
  have fields : fieldsMet constraints arena var assignment =
      fieldsMet constraints arena' var assignment := by
    unfold fieldsMet
    simp only [SolverState.fieldAccessIsNoop_extends built.wellFormed keeps present]
  unfold level
  rw [← fields]
  have signs : (if Signed arena assignment.ty then 0 else 1) ≤
      if Signed arena' assignment.ty then 0 else 1 := by
    by_cases isSigned : Signed arena' assignment.ty
    · rw [if_pos (signed_extends built.wellFormed keeps present isSigned)]
      exact Nat.zero_le _
    · split <;> omega
  omega

section

variable {arena : TypeArena} {var : VarId} {old new : TypeId} {priority : Nat}
  (fields : KeepsFields constraints arena var priority old new)
include fields

theorem fieldsMet_le : fieldsMet constraints arena var ⟨old, priority⟩ ≤
    fieldsMet constraints arena var ⟨new, priority⟩ :=
  countP_mono_left fun access listed met => by
    simp only [decide_eq_true_eq] at met ⊢
    exact ⟨met.1, fields access listed met.1 met.2⟩

/-- A new type at the same priority that keeps what was reached and meets a further
want. -/
theorem level_lt_of_want
    (wants : KeepsWants constraints arena var priority old new) {want : Want}
    (wanted : (priority, want) ∈ constraints.flatMap (·.wants var))
    (unmet : ¬ want.Met arena old) (met : want.Met arena new) :
    level constraints arena var ⟨old, priority⟩ < level constraints arena var ⟨new, priority⟩ := by
  have more : wantsMet constraints arena var ⟨old, priority⟩ <
      wantsMet constraints arena var ⟨new, priority⟩ := by
    refine countP_lt (fun want listed met => ?_) ⟨_, wanted, ?_, ?_⟩
    · simp only [decide_eq_true_eq] at met ⊢
      exact ⟨met.1, wants want listed met.1 met.2⟩
    · simpa using unmet
    · simpa using met
  have scaled := Nat.mul_le_mul_right (2 * (constraints.flatMap (·.wants var)).length + 2)
    (fieldsMet_le fields)
  unfold level
  split <;> split <;> omega

private theorem level_lt_of_widens
    (wants : KeepsWants constraints arena var priority old new)
    (widens : Widens arena old new) :
    level constraints arena var ⟨old, priority⟩ < level constraints arena var ⟨new, priority⟩ := by
  have keptWants : wantsMet constraints arena var ⟨old, priority⟩ ≤
      wantsMet constraints arena var ⟨new, priority⟩ :=
    countP_mono_left fun want listed met => by
      simp only [decide_eq_true_eq] at met ⊢
      exact ⟨met.1, wants want listed met.1 met.2⟩
  have scaled := Nat.mul_le_mul_right (2 * (constraints.flatMap (·.wants var)).length + 2)
    (fieldsMet_le fields)
  unfold level
  rw [if_pos widens.signed.1, if_neg widens.signed.2]
  omega

private theorem level_lt_of_field
    {access : Nat × TypeId × Option String}
    (listed : (priority, access) ∈ constraints.flatMap (·.field var))
    (unmet : fieldAccessIsNoop arena old access.1 access.2.1 access.2.2 = false)
    (met : fieldAccessIsNoop arena new access.1 access.2.1 access.2.2 = true) :
    level constraints arena var ⟨old, priority⟩ < level constraints arena var ⟨new, priority⟩ := by
  have more : fieldsMet constraints arena var ⟨old, priority⟩ <
      fieldsMet constraints arena var ⟨new, priority⟩ := by
    refine countP_lt (fun access listed met => ?_) ⟨_, listed, ?_, ?_⟩
    · simp only [decide_eq_true_eq] at met ⊢
      exact ⟨met.1, fields access listed met.1 met.2⟩
    · simp [unmet]
    · simp [met]
  have wants : wantsMet constraints arena var ⟨old, priority⟩ ≤
      (constraints.flatMap (·.wants var)).length := countP_le_length
  have scaled := Nat.mul_le_mul_right (2 * (constraints.flatMap (·.wants var)).length + 2)
    (Nat.succ_le_of_lt more)
  rw [Nat.succ_mul] at scaled
  unfold level
  split <;> split <;> omega

end

end Ranks

/-! ## Applications that climb -/

/-- A step that lowers no rank and raises that of every variable it marks. -/
structure Climbs (constraints : List CompactConstraint) (state next : SolverState) : Prop where
  ranks : ∀ var, rank constraints state var ≤ rank constraints next var
  marked : ∀ var ∈ next.changedVars, var ∈ state.changedVars ∨
    rank constraints state var < rank constraints next var

/-- A call of `assign`. -/
structure AssignCall where
  state : SolverState
  var : VarId
  ty : TypeId
  priority : Nat

/-- If the call changes the type of a variable that has its priority, then the new type
absorbs the offered one, which the old type did not, and what constraints of that
priority had reached with the old type is reached with the new one. -/
def AssignCall.Ascends (constraints : List CompactConstraint) (call : AssignCall) : Prop :=
  ∀ existing, call.state.assignment call.var = some existing → existing.priority = call.priority →
    existing.ty ≠ call.ty → (call.state.joinCached existing.ty call.ty).2 ≠ existing.ty →
    let arena := (call.state.joinCached existing.ty call.ty).1.arena
    let joined := (call.state.joinCached existing.ty call.ty).2
    Absorbs arena call.ty joined ∧ ¬ Absorbs arena call.ty existing.ty ∧
      KeepsWants constraints arena call.var call.priority existing.ty joined ∧
      KeepsFields constraints arena call.var call.priority existing.ty joined

instance (constraints : List CompactConstraint) (call : AssignCall) :
    Decidable (call.Ascends constraints) :=
  decidable_of_iff (∀ existing ∈ call.state.assignment call.var, existing.priority = call.priority →
    existing.ty ≠ call.ty → (call.state.joinCached existing.ty call.ty).2 ≠ existing.ty →
    let arena := (call.state.joinCached existing.ty call.ty).1.arena
    let joined := (call.state.joinCached existing.ty call.ty).2
    Absorbs arena call.ty joined ∧ ¬ Absorbs arena call.ty existing.ty ∧
      KeepsWants constraints arena call.var call.priority existing.ty joined ∧
      KeepsFields constraints arena call.var call.priority existing.ty joined) Iff.rfl

namespace SolverState

/-- The calls of `assign` for arguments in turn. -/
def assignCalls (priority : Nat) : SolverState → List (VarId × TypeId) → List AssignCall
  | _, [] => []
  | state, (var, ty) :: rest =>
    ⟨state, var, ty, priority⟩ :: assignCalls priority (state.assign var ty priority).1 rest

/-- Applying the constraint undoes nothing at the priority a variable has: each call of
`assign` ascends, and a field written in place keeps the fields that were there. -/
def Ascends (constraints : List CompactConstraint) (state : SolverState) :
    CompactConstraint → Prop
  | .setType var ty source => AssignCall.Ascends constraints ⟨state, var, ty, source.priority⟩
  | .subtype var ty source => ∀ existing, state.assignment var = some existing →
      AssignCall.Ascends constraints ⟨(state.meetCached existing.ty ty).1, var,
        (state.meetCached existing.ty ty).2, max source.priority existing.priority⟩
  | .hasCapability ptr elemTy source => AssignCall.Ascends constraints
      ⟨(state.withArena (state.arena.ptr elemTy)).1, ptr, (state.arena.ptr elemTy).2, source.priority⟩
  | .callSig _ args params ret source =>
    ∀ call ∈ assignCalls source.priority state (args.zip params ++ ret.toList),
      call.Ascends constraints
  | .fieldAccess basePtr offset fieldTy fieldName source => ∀ existing,
      state.assignment basePtr = some existing → existing.priority = source.priority →
      state.accessIsNoop basePtr offset fieldTy fieldName = false →
      KeepsFields constraints (state.fieldPointer basePtr offset fieldTy fieldName).1.arena basePtr
        source.priority existing.ty (state.fieldPointer basePtr offset fieldTy fieldName).2

instance (constraints : List CompactConstraint) (state : SolverState) :
    ∀ constraint : CompactConstraint, Decidable (state.Ascends constraints constraint)
  | .setType var ty source => inferInstanceAs (Decidable
      (AssignCall.Ascends constraints ⟨state, var, ty, source.priority⟩))
  | .subtype var ty source => inferInstanceAs (Decidable
      (∀ existing ∈ state.assignment var, AssignCall.Ascends constraints
        ⟨(state.meetCached existing.ty ty).1, var, (state.meetCached existing.ty ty).2,
          max source.priority existing.priority⟩))
  | .hasCapability ptr elemTy source => inferInstanceAs (Decidable (AssignCall.Ascends constraints
      ⟨(state.withArena (state.arena.ptr elemTy)).1, ptr, (state.arena.ptr elemTy).2,
        source.priority⟩))
  | .callSig _ args params ret source => inferInstanceAs (Decidable
      (∀ call ∈ assignCalls source.priority state (args.zip params ++ ret.toList),
        call.Ascends constraints))
  | .fieldAccess basePtr offset fieldTy fieldName source => inferInstanceAs (Decidable
      (∀ existing ∈ state.assignment basePtr, existing.priority = source.priority →
        state.accessIsNoop basePtr offset fieldTy fieldName = false →
        KeepsFields constraints (state.fieldPointer basePtr offset fieldTy fieldName).1.arena basePtr
          source.priority existing.ty (state.fieldPointer basePtr offset fieldTy fieldName).2))

end SolverState

namespace Climbs

variable {constraints : List CompactConstraint} {state next last : SolverState}

theorem trans (first : Climbs constraints state next) (second : Climbs constraints next last) :
    Climbs constraints state last := by
  refine ⟨fun var => (first.ranks var).trans (second.ranks var), fun var marked => ?_⟩
  rcases second.marked var marked with before | higher
  · rcases first.marked var before with earlier | higher
    · exact .inl earlier
    · exact .inr (Nat.lt_of_lt_of_le higher (second.ranks var))
  · exact .inr (Nat.lt_of_le_of_lt (first.ranks var) higher)

end Climbs

section Climbing

variable {constraints : List CompactConstraint} {state next : SolverState} {var : VarId}

theorem rank_of_assigned {assignment : Assignment} (assigned : state.assignment var = some assignment) :
    rank constraints state var = assignment.priority * height constraints var +
      level constraints state.arena var assignment := by
  rw [rank, assigned]

theorem rank_of_unassigned (unassigned : state.assignment var = none) :
    rank constraints state var = 0 := by
  rw [rank, unassigned]

theorem rank_le_of_kept (sound : state.Sound) (built' : next.arena.Built)
    (keeps : state.arena.Extends next.arena)
    (kept : next.assignment var = state.assignment var) :
    rank constraints state var ≤ rank constraints next var := by
  cases assigned : state.assignment var with
  | none =>
    rw [rank_of_unassigned assigned]
    exact Nat.zero_le _
  | some assignment =>
    rw [rank_of_assigned assigned, rank_of_assigned (kept.trans assigned)]
    exact Nat.add_le_add_left (level_extends sound.built built' keeps var
      (sound.assigned _ _ assigned)) _

section

variable (sound : state.Sound) (quiet : state.Touches next [])
include sound quiet

theorem climbs_of_quiet : Climbs constraints state next :=
  ⟨fun var => rank_le_of_kept sound quiet.sound.built quiet.keeps (quiet.outside var not_mem_nil),
    fun var marked => .inl ((quiet.within var marked).resolve_right not_mem_nil)⟩

theorem climbs_of_set
    (inside : var < state.assignments.length) {assignment : Assignment}
    (higher : rank constraints state var < assignment.priority * height constraints var +
      level constraints next.arena var assignment) :
    Climbs constraints state (next.setAssignment var assignment) := by
  have written : (next.setAssignment var assignment).assignment var = some assignment :=
    SolverState.setAssignment_self assignment (quiet.length.symm ▸ inside)
  have raised : rank constraints state var <
      rank constraints (next.setAssignment var assignment) var := by
    rw [rank_of_assigned written]
    exact higher
  refine ⟨fun other => ?_, fun other marked => ?_⟩
  · by_cases same : other = var
    · subst same
      exact Nat.le_of_lt raised
    · exact rank_le_of_kept sound quiet.sound.built quiet.keeps
        ((SolverState.assignment_set_ne same).trans (quiet.outside other not_mem_nil))
  · rcases SolverState.mem_markChanged.mp marked with old | rfl
    · exact .inl ((quiet.within other old).resolve_right not_mem_nil)
    · exact .inr raised

end

theorem rank_lt_of_priority {priority : Nat} (positive : 0 < priority)
    (lower : ∀ existing, state.assignment var = some existing → existing.priority < priority) :
    rank constraints state var < priority * height constraints var := by
  have isHeight := height_pos constraints var
  cases assigned : state.assignment var with
  | none =>
    rw [rank_of_unassigned assigned]
    exact Nat.mul_pos positive isHeight
  | some existing =>
    rw [rank_of_assigned assigned]
    have less := level_lt_height constraints state.arena var existing
    have scaled := Nat.mul_le_mul_right (height constraints var)
      (Nat.succ_le_of_lt (lower existing assigned))
    rw [Nat.succ_mul] at scaled
    omega

section

variable {ty : TypeId} {priority : Nat} (sound : state.Sound) (positive : 0 < priority)
  (present : state.arena.Present ty) (inside : var < state.assignments.length)
include sound positive present inside

/-- A call of `assign` climbs when a join at the variable's own priority raises its
level. -/
theorem climbs_assign
    (raises : ∀ existing, state.assignment var = some existing → existing.priority = priority →
      existing.ty ≠ ty → (state.joinCached existing.ty ty).2 ≠ existing.ty →
      level constraints (state.joinCached existing.ty ty).1.arena var existing <
        level constraints (state.joinCached existing.ty ty).1.arena var
          ⟨(state.joinCached existing.ty ty).2, priority⟩) :
    Climbs constraints state (state.assign var ty priority).1 := by
  cases assigned : state.assignment var with
  | none =>
    rw [SolverState.assign_fresh assigned]
    refine climbs_of_set sound (sound.touches_self []) inside ?_
    have less := @rank_lt_of_priority constraints state var _ positive
      (fun existing isSome => by rw [assigned] at isSome; cases isSome)
    exact Nat.lt_of_lt_of_le less (Nat.le_add_right _ _)
  | some existing =>
    rcases lt_trichotomy existing.priority priority with lower | equal | higher
    · obtain ⟨diagnostics, same⟩ := @SolverState.assign_over _ _ ty _ _ assigned lower
      rw [same]
      have quiet : state.Touches { state with diagnostics } [] :=
        @SolverState.Advances.touches state _ ⟨sound.bookkeeping diagnostics state.changedVars, .refl _⟩
          (fun _ _ found => found) (fun _ _ found => found) rfl rfl rfl []
      refine climbs_of_set sound quiet inside ?_
      have less := @rank_lt_of_priority constraints state var _ positive
        (fun other isSome => some.inj (assigned.symm.trans isSome) ▸ lower)
      exact Nat.lt_of_lt_of_le less (Nat.le_add_right _ _)
    · by_cases same : existing.ty = ty
      · rw [SolverState.assign_same assigned equal same]
        exact climbs_of_quiet sound (sound.touches_self [])
      · rw [SolverState.assign_joined assigned equal same]
        obtain ⟨quiet, _⟩ := SolverState.joinCached_touches sound
          (sound.assigned var existing assigned) present []
        split
        · rename_i changes
          refine climbs_of_set sound quiet inside ?_
          have before := @level_extends constraints _ _ sound.built quiet.sound.built quiet.keeps
            var _ (sound.assigned var existing assigned)
          have raised := raises existing assigned equal same changes
          rw [rank_of_assigned assigned, equal]
          exact Nat.add_lt_add_left (Nat.lt_of_le_of_lt before raised) _
        · exact climbs_of_quiet sound quiet
    · rw [SolverState.assign_under assigned higher]
      exact climbs_of_quiet sound (sound.touches_self [])

theorem climbs_assign_wanted
    (ascends : AssignCall.Ascends constraints ⟨state, var, ty, priority⟩) {want : Want}
    (wanted : (priority, want) ∈ constraints.flatMap (·.wants var))
    (means : ∀ {arena : TypeArena} {upper : TypeId}, state.arena.Extends arena → arena.Built →
      (want.Met arena upper ↔ Absorbs arena ty upper)) :
    Climbs constraints state (state.assign var ty priority).1 := by
  refine climbs_assign sound positive present inside fun existing assigned equal apart changes => ?_
  obtain ⟨absorbs, notYet, wants, fields⟩ := ascends existing assigned equal apart changes
  obtain ⟨advances, _⟩ := SolverState.joinCached_advances sound
    (sound.assigned var existing assigned) present
  have meant := @means (state.joinCached existing.ty ty).1.arena
  subst equal
  exact level_lt_of_want fields wants wanted
    (fun met => notYet ((meant advances.keeps advances.sound.built).mp met))
    ((meant advances.keeps advances.sound.built).mpr absorbs)

end

private theorem climbs_assign_met (sound : state.Sound) {ty other : TypeId} {priority : Nat}
    (positive : 0 < priority) (inside : var < state.assignments.length)
    (ascends : AssignCall.Ascends constraints ⟨state, var, ty, priority⟩) {existing : Assignment}
    (assigned : state.assignment var = some existing) (meets : MetAs state.arena existing.ty other ty) :
    Climbs constraints state (state.assign var ty priority).1 := by
  refine climbs_assign sound positive meets.answer inside fun known assigned' equal apart changes => ?_
  obtain rfl := some.inj (assigned.symm.trans assigned')
  obtain ⟨_, notYet, wants, fields⟩ := ascends existing assigned equal apart changes
  obtain ⟨advances, joins⟩ := SolverState.joinCached_advances sound meets.first meets.answer
  have built := advances.sound.built
  have notBelow : ¬ Below (state.joinCached existing.ty ty).1.arena ty existing.ty := fun below =>
    notYet (absorbs_of_below built (advances.keeps.present meets.answer)
      (advances.keeps.present meets.first) below)
  obtain ⟨_, _, _, fuel, merged⟩ :=
    meets.extends meetHead_looksInside sound.built.wellFormed advances.keeps
  obtain ⟨_, _, _, fuel', joined⟩ := joins
  subst equal
  refine level_lt_of_widens fields wants ?_
  rcases merged with merged | merged
  · exact (widens_of_met built.wellFormed fuel merged).1 notBelow _ ⟨fuel', joined⟩
  · exact (widens_of_met built.wellFormed fuel merged).2 notBelow _ ⟨fuel', joined⟩

theorem climbs_assignAll {priority : Nat} (positive : 0 < priority) {pairs : List (VarId × TypeId)} :
    ∀ {state : SolverState}, state.Sound → (∀ pair ∈ pairs, state.arena.Present pair.2) →
      (∀ pair ∈ pairs, pair.1 < state.assignments.length) →
      (∀ pair ∈ pairs, (priority, Want.type pair.2) ∈ constraints.flatMap (·.wants pair.1)) →
      (∀ call ∈ SolverState.assignCalls priority state pairs, call.Ascends constraints) →
      Climbs constraints state (state.assignAll priority pairs).1 := by
  induction pairs with
  | nil => exact fun sound _ _ _ _ => climbs_of_quiet sound (sound.touches_self [])
  | cons pair rest ih =>
    intro state sound present inside wanted ascends
    obtain ⟨pairPresent, restPresent⟩ := forall_mem_cons.mp present
    obtain ⟨pairInside, restInside⟩ := forall_mem_cons.mp inside
    obtain ⟨pairWanted, restWanted⟩ := forall_mem_cons.mp wanted
    obtain ⟨pairAscends, restAscends⟩ := forall_mem_cons.mp ascends
    obtain ⟨touches, _⟩ := SolverState.assign_touches sound pair.1 priority pairPresent
    have first : Climbs constraints state (state.assign pair.1 pair.2 priority).1 :=
      climbs_assign_wanted sound positive pairPresent pairInside pairAscends pairWanted
        fun keeps _ => and_iff_right (keeps.present pairPresent)
    exact first.trans (ih touches.sound
      (fun other mem => touches.keeps.present (restPresent other mem))
      (fun other mem => touches.length.symm ▸ restInside other mem) restWanted restAscends)

theorem priority_pos (source : ConstraintSource) : 0 < source.priority := by
  cases source <;> decide

/-- A field that was missing is written in place, or its pointer is assigned. -/
theorem climbs_applyFieldAccess (sound : state.Sound) {offset : Nat} {fieldTy : TypeId}
    {fieldName : Option String} {source : ConstraintSource}
    (listed : .fieldAccess var offset fieldTy fieldName source ∈ constraints)
    (present : state.arena.Present fieldTy) (inside : var < state.assignments.length)
    (ascends : state.Ascends constraints (.fieldAccess var offset fieldTy fieldName source)) :
    Climbs constraints state
      (state.applyFieldAccess var offset fieldTy fieldName source.priority).1 := by
  unfold SolverState.applyFieldAccess
  split
  · exact climbs_of_quiet sound (sound.touches_self [])
  · rename_i noField
    dsimp only
    have missing : state.accessIsNoop var offset fieldTy fieldName = false :=
      Bool.eq_false_iff.mpr noField
    obtain ⟨pointed, ptrPresent, hasField⟩ :=
      SolverState.fieldPointer_touches sound var offset fieldName present []
    have kept := pointed.outside var not_mem_nil
    have first : Climbs constraints state (state.fieldPointer var offset fieldTy fieldName).1 :=
      climbs_of_quiet sound pointed
    have assigns : (∀ existing, state.assignment var = some existing →
        existing.priority ≠ source.priority) →
        Climbs constraints state ((state.fieldPointer var offset fieldTy fieldName).1.assign var
          (state.fieldPointer var offset fieldTy fieldName).2 source.priority).1 := fun differs =>
      first.trans (climbs_assign pointed.sound (priority_pos source) ptrPresent
        (pointed.length.symm ▸ inside) fun existing assigned equal =>
          absurd equal (differs existing (kept.symm.trans assigned)))
    unfold SolverState.assignPointer
    rw [kept]
    cases assigned : state.assignment var with
    | none =>
      refine assigns fun existing isSome => ?_
      rw [assigned] at isSome
      cases isSome
    | some existing =>
      dsimp only
      split
      · rename_i equal
        split
        · refine climbs_of_set sound pointed inside ?_
          have before := @level_extends constraints _ _ sound.built pointed.sound.built
            pointed.keeps var _
            (sound.assigned var existing assigned)
          have unmet : fieldAccessIsNoop (state.fieldPointer var offset fieldTy fieldName).1.arena
              existing.ty offset fieldTy fieldName = false := by
            rw [SolverState.fieldAccessIsNoop_extends sound.built.wellFormed pointed.keeps
              (sound.assigned var existing assigned),
              ← SolverState.accessIsNoop_of_assigned assigned, missing]
          have accessed : (source.priority, offset, fieldTy, fieldName) ∈
              constraints.flatMap (·.field var) :=
            mem_flatMap.mpr ⟨_, listed, by simp [CompactConstraint.field]⟩
          have raised := @level_lt_of_field constraints
            (state.fieldPointer var offset fieldTy fieldName).1.arena var existing.ty
            (state.fieldPointer var offset fieldTy fieldName).2 source.priority
            (ascends existing assigned equal missing) (offset, fieldTy, fieldName) accessed unmet
            hasField
          rw [rank_of_assigned assigned]
          rw [← equal] at raised
          exact Nat.add_lt_add_left (Nat.lt_of_le_of_lt before raised) _
        · exact first
      · rename_i differs
        refine assigns fun other isSome => ?_
        obtain rfl := some.inj (assigned.symm.trans isSome)
        exact differs

private theorem climbs_applyConstraint (sound : state.Sound) {constraint : CompactConstraint}
    (listed : constraint ∈ constraints)
    (present : ∀ id ∈ constraint.types, state.arena.Present id)
    (inside : ∀ var ∈ constraint.referencedVars, var < state.assignments.length)
    (ascends : state.Ascends constraints constraint) :
    Climbs constraints state (state.applyConstraint constraint).1 := by
  cases constraint with
  | setType var ty source =>
    have tyPresent := present ty (by simp [CompactConstraint.types])
    have wanted : (source.priority, Want.type ty) ∈ constraints.flatMap (·.wants var) :=
      mem_flatMap.mpr ⟨_, listed, by simp [CompactConstraint.wants]⟩
    exact climbs_assign_wanted sound (priority_pos source) tyPresent
      (inside var (by simp [CompactConstraint.referencedVars])) ascends wanted
      fun keeps _ => and_iff_right (keeps.present tyPresent)
  | subtype var ty source =>
    have tyPresent := present ty (by simp [CompactConstraint.types])
    have varInside := inside var (by simp [CompactConstraint.referencedVars])
    have unfolded : state.applyConstraint (.subtype var ty source) =
        state.applySubtype var ty source.priority := rfl
    rw [unfolded, SolverState.applySubtype]
    cases assigned : state.assignment var with
    | none =>
      refine climbs_assign sound (priority_pos source) tyPresent varInside fun existing isSome => ?_
      rw [assigned] at isSome
      cases isSome
    | some existing =>
      have ePresent := sound.assigned var existing assigned
      obtain ⟨_, meets⟩ := SolverState.meetCached_advances sound ePresent tyPresent
      obtain ⟨quiet, _⟩ := SolverState.meetCached_touches sound ePresent tyPresent []
      exact (climbs_of_quiet sound quiet).trans (climbs_assign_met quiet.sound
        (Nat.lt_of_lt_of_le (priority_pos source) (Nat.le_max_left _ _))
        (quiet.length.symm ▸ varInside) (ascends existing assigned)
        ((quiet.outside var not_mem_nil).trans assigned) meets)
  | hasCapability ptr elemTy source =>
    have grows := SolverState.grows_ptr sound.built
      (present elemTy (by simp [CompactConstraint.types]))
    have pointed := sound.withArena_touches grows []
    have wanted : (source.priority, Want.pointer elemTy) ∈ constraints.flatMap (·.wants ptr) :=
      mem_flatMap.mpr ⟨_, listed, by simp [CompactConstraint.wants]⟩
    have stored := grows.present.getElem?
    erw [get_intern sound.built.wellFormed (.ptr elemTy)] at stored
    refine (climbs_of_quiet sound pointed).trans (climbs_assign_wanted pointed.sound (priority_pos source) grows.present
      (inside ptr (by simp [CompactConstraint.referencedVars])) ascends wanted
      fun {arena upper} keeps built => ?_)
    -- The arena has one id for the pointer.
    obtain ⟨more, grown⟩ := keeps
    have kept : arena.types[(state.arena.ptr elemTy).2]? = some (.ptr elemTy) := by
      rw [← grown]
      exact (List.getElem?_append_left grows.present).trans stored
    refine ⟨?_, fun below => ⟨_, kept, below⟩⟩
    rintro ⟨id, isPtr, below⟩
    have same := (indexed_of_built built _ _ isPtr).symm.trans (indexed_of_built built _ _ kept)
    exact some.inj same ▸ below
  | callSig target args params ret source =>
    have typesPresent : ∀ pair ∈ args.zip params ++ ret.toList, state.arena.Present pair.2 :=
      fun pair mem => present pair.2 (SolverState.mem_types pair mem)
    refine climbs_assignAll (priority_pos source) sound typesPresent
      (fun pair mem => inside _ (SolverState.mem_referencedVars rfl pair mem))
      (fun pair mem => ?_) ascends
    refine mem_flatMap.mpr ⟨_, listed, ?_⟩
    exact mem_map.mpr ⟨pair, mem_filter.mpr ⟨mem, by simp⟩, rfl⟩
  | fieldAccess basePtr offset fieldTy fieldName source =>
    exact climbs_applyFieldAccess sound listed (present fieldTy (by simp [CompactConstraint.types]))
      (inside basePtr (by simp [CompactConstraint.referencedVars])) ascends

end Climbing

/-! ## The queue -/

namespace Worklist

/-- The entries of a queue are distinct and flagged. -/
structure Tidy (count : Nat) (work : Worklist) : Prop where
  distinct : work.queue.Nodup
  flagged : ∀ index ∈ work.queue, work.inQueue[index]? = some true
  length : work.inQueue.length = count

section Queue

variable {count : Nat} {work : Worklist}

private theorem Tidy.queue_length (tidy : Tidy count work) : work.queue.length ≤ count := by
  have inside : work.queue ⊆ List.range count := fun index listed =>
    mem_range.mpr (tidy.length ▸ (List.getElem?_eq_some_iff.mp (tidy.flagged index listed)).1)
  have fewer := (tidy.distinct.subperm inside).length_le
  rwa [length_range] at fewer

theorem Tidy.push (tidy : Tidy count work) (dep : ConstraintIdx) : Tidy count (work.push dep) := by
  unfold Worklist.push
  split
  · exact tidy
  · rename_i unqueued
    have flag : work.inQueue[dep]? = some false := by
      cases row : work.inQueue[dep]? with
      | none => simp [row] at unqueued
      | some flag => simpa [row] using unqueued
    have absent : dep ∉ work.queue := fun listed => by
      have isFlagged := tidy.flagged dep listed
      rw [flag] at isFlagged
      cases isFlagged
    refine ⟨?_, fun index listed => ?_, length_set.trans tidy.length⟩
    · exact tidy.distinct.append (nodup_singleton dep) (by simpa using absent)
    · rcases mem_append.mp listed with old | new
      · have differs : dep ≠ index := by
          rintro rfl
          exact absent old
        rw [List.getElem?_set_ne differs]
        exact tidy.flagged index old
      · obtain rfl := mem_singleton.mp new
        rw [List.getElem?_set_self', flag]
        rfl

theorem Tidy.pop {constraints : List CompactConstraint} {adjacency : List (List ConstraintIdx)}
    (tidy : Tidy count work) : Tidy count (work.pop constraints adjacency) := by
  cases isQueue : work.queue with
  | nil => rwa [pop_empty isQueue]
  | cons index queue =>
    have distinct := tidy.distinct
    have flagged := tidy.flagged
    rw [isQueue] at distinct flagged
    obtain ⟨once, rest⟩ := nodup_cons.mp distinct
    rw [pop_cons isQueue]
    have popped : Tidy count
        ⟨applied constraints work index, queue, work.inQueue.set index false⟩ := by
      refine ⟨rest, fun other listed => ?_, length_set.trans tidy.length⟩
      have differs : index ≠ other := by
        rintro rfl
        exact once listed
      rw [List.getElem?_set_ne differs]
      exact flagged other (mem_cons_of_mem _ listed)
    exact List.foldlRecOn (motive := Tidy count) _ _ popped fun _ tidy var _ =>
      List.foldlRecOn (motive := Tidy count) _ _ tidy fun _ tidy dep _ => tidy.push dep

private theorem startWorklist_tidy (arena : TypeArena) (constraints : List Constraint) :
    Tidy (rewriteEqualConstraints constraints).constraints.length (startWorklist arena constraints) := by
  refine ⟨nodup_range, fun index listed => ?_, length_replicate⟩
  have inside := mem_range.mp listed
  have flag : (List.replicate (rewriteEqualConstraints constraints).constraints.length true)[index]? =
      some true := by
    rw [List.getElem?_replicate, if_pos inside]
  exact flag

end Queue

/-- The next application undoes nothing at the priority a variable has. -/
def Ascends (constraints : List CompactConstraint) (work : Worklist) : Prop :=
  ∀ (index : ConstraintIdx) (queue : List ConstraintIdx) (constraint : CompactConstraint),
    work.queue = index :: queue → constraints[index]? = some constraint →
    work.popping.Ascends constraints constraint

instance (constraints : List CompactConstraint) (work : Worklist) :
    Decidable (work.Ascends constraints) :=
  decidable_of_iff (∀ index ∈ work.queue.head?, ∀ constraint ∈ constraints[index]?,
      work.popping.Ascends constraints constraint)
    ⟨fun ascends index queue constraint queued found =>
        ascends index (by simp [queued]) constraint found,
      fun ascends index queued constraint found => by
        obtain ⟨queue, isQueue⟩ := head?_eq_some_iff.mp queued
        exact ascends index queue constraint isQueue found⟩

/-! ## The distance to the end -/

noncomputable def potential (constraints : List CompactConstraint) (count : Nat)
    (state : SolverState) : Nat :=
  ((List.range count).map (rank constraints state)).sum

def summit (constraints : List CompactConstraint) (count : Nat) : Nat :=
  ((List.range count).map fun var => 4 * height constraints var).sum

/-- What is left to climb comes before what is left in the queue. -/
noncomputable def distance (constraints : List CompactConstraint) (count : Nat) (work : Worklist) :
    Nat :=
  (summit constraints count - potential constraints count work.state) * (constraints.length + 1) +
    work.queue.length

section Descent

variable {arena : TypeArena} {constraints : List CompactConstraint} {vars : List SSAVar}
variable {adjacency : List (List ConstraintIdx)} {work : Worklist}

section

variable {state next : SolverState} (climbs : Climbs constraints state next)
include climbs

private theorem potential_mono
    (count : Nat) : potential constraints count state ≤ potential constraints count next :=
  sum_le_sum fun var _ => climbs.ranks var

private theorem potential_lt {count : Nat} {var : VarId} (inside : var < count)
    (higher : rank constraints state var < rank constraints next var) :
    potential constraints count state < potential constraints count next :=
  sum_lt_sum _ _ (fun other _ => climbs.ranks other) ⟨var, mem_range.mpr inside, higher⟩

end

private theorem potential_le_summit {state : SolverState} {count : Nat}
    (bounded : ∀ var < count, ∀ existing, state.assignment var = some existing →
      existing.priority ≤ 3) : potential constraints count state ≤ summit constraints count :=
  sum_le_sum fun var listed =>
    (rank_lt constraints (bounded var (mem_range.mp listed))).le

/-- What a worklist keeps on its way down. -/
structure Steady (arena : TypeArena) (constraints : List CompactConstraint) (vars : List SSAVar)
    (work : Worklist) : Prop where
  regular : Regular arena constraints vars work.state
  tidy : Tidy constraints.length work
  bounded : ∀ var < vars.length, ∀ existing, work.state.assignment var = some existing →
    existing.priority ≤ 3

section

variable (steady : Steady arena constraints vars work)
include steady

theorem Steady.pop :
    Steady arena constraints vars (work.pop constraints adjacency) := by
  refine ⟨(regular_kept vars).pop steady.regular, steady.tidy.pop, fun var inside => ?_⟩
  refine pop_bounded ⟨inside, fun constraint _ _ => ?_⟩ steady.regular (steady.bounded var inside)
  cases constraint.source <;> decide

theorem Steady.counted : Steady arena constraints vars work.counted :=
  ⟨(regular_kept vars).bookkeeping work.state _ work.state.changedVars steady.regular,
    ⟨steady.tidy.distinct, steady.tidy.flagged, steady.tidy.length⟩, steady.bounded⟩

section

variable (inside : ∀ constraint ∈ constraints, ∀ var ∈ constraint.referencedVars, var < vars.length)
include inside

private theorem climbs_popping
    {index : ConstraintIdx} {queue : List ConstraintIdx} (isQueue : work.queue = index :: queue)
    (ascends : work.Ascends constraints) :
    Climbs constraints work.popping (applied constraints work index) ∧
      ∀ var ∈ (applied constraints work index).changedVars, var < vars.length := by
  have start := steady.regular.popping
  unfold applied
  cases found : constraints[index]? with
  | none => exact ⟨climbs_of_quiet start.sound (start.sound.touches_self []), nofun⟩
  | some constraint =>
    have listed := mem_of_getElem? found
    have varsInside := inside constraint listed
    refine ⟨climbs_applyConstraint start.sound listed (start.present constraint listed)
      (fun var isVar => start.length.symm ▸ varsInside var isVar)
      (ascends index queue constraint isQueue found), fun var marked => ?_⟩
    obtain ⟨touches, _⟩ :=
      SolverState.applyConstraint_touches start.sound constraint (start.present constraint listed)
    rcases touches.within var marked with old | isVar
    · cases old
    · exact varsInside var isVar

/-- A pop that ascends shortens the distance: it climbs, or it leaves the queue
shorter. -/
theorem Steady.distance_pop
    (ascends : work.Ascends constraints) (nonempty : work.queue ≠ []) :
    distance constraints vars.length (work.pop constraints adjacency) <
      distance constraints vars.length work := by
  obtain ⟨index, queue, isQueue⟩ := exists_cons_of_ne_nil nonempty
  obtain ⟨climbs, marksInside⟩ := climbs_popping steady inside isQueue ascends
  have popped : Steady arena constraints vars (work.pop constraints adjacency) := steady.pop
  obtain ⟨diagnostics, same⟩ := @pop_cons_state constraints adjacency _ _ _ isQueue
  have ends : potential constraints vars.length (work.pop constraints adjacency).state =
      potential constraints vars.length (applied constraints work index) := by
    rw [same]
    rfl
  have starts : potential constraints vars.length work.popping =
      potential constraints vars.length work.state := rfl
  have most := @potential_le_summit constraints _ _ popped.bounded
  have length := popped.tidy.queue_length
  unfold distance
  rw [ends] at most ⊢
  cases marks : (applied constraints work index).changedVars with
  | nil =>
    have queueLength : (work.pop constraints adjacency).queue.length + 1 = work.queue.length := by
      rw [pop_cons isQueue, marks, isQueue]
      rfl
    have up := potential_mono climbs vars.length
    rw [starts] at up
    have scaled := Nat.mul_le_mul_right (constraints.length + 1)
      (Nat.sub_le_sub_left up (summit constraints vars.length))
    omega
  | cons var rest =>
    have marked : var ∈ (applied constraints work index).changedVars := by simp [marks]
    have higher := (climbs.marked var marked).resolve_left (not_mem_nil)
    have up := potential_lt climbs (marksInside var marked) higher
    have closer : summit constraints vars.length -
        potential constraints vars.length (applied constraints work index) + 1 ≤
        summit constraints vars.length - potential constraints vars.length work.state := by omega
    have scaled := Nat.mul_le_mul_right (constraints.length + 1) closer
    rw [Nat.add_mul, Nat.one_mul] at scaled
    omega

end

end

/-- With as many iterations as the distance the queue runs empty. -/
theorem waves_empty
    (inside : ∀ constraint ∈ constraints, ∀ var ∈ constraint.referencedVars, var < vars.length) :
    ∀ (maxIterations : Nat) {work : Worklist}, Steady arena constraints vars work →
      (∀ visited ∈ history constraints adjacency maxIterations work, visited.Ascends constraints) →
      distance constraints vars.length work ≤ maxIterations →
      (waves constraints adjacency maxIterations work).queue = [] := by
  intro maxIterations
  induction maxIterations with
  | zero =>
    intro work _ _ near
    have short : work.queue.length ≤ distance constraints vars.length work := Nat.le_add_left _ _
    exact length_eq_zero_iff.mp (Nat.le_zero.mp (short.trans near))
  | succ remaining ih =>
    intro work steady ascends near
    rw [waves]
    rw [history] at ascends
    split
    · rename_i empty
      exact empty
    · rename_i nonempty
      rw [if_neg nonempty] at ascends
      obtain ⟨length, isLength⟩ : ∃ length, work.queue.length = length + 1 :=
        Nat.exists_eq_succ_of_ne_zero (mt length_eq_zero_iff.mp nonempty)
      have inWave : ∀ count < length + 1,
          ((pop constraints adjacency)^[count] work.counted).Ascends constraints :=
        fun count bounded => ascends _ (mem_append_left _
          (mem_map_of_mem (mem_range.mpr (isLength ▸ bounded))))
      have first := @Steady.distance_pop _ _ _ adjacency _ steady.counted inside
        (inWave 0 (Nat.succ_pos _)) nonempty
      have start : Steady arena constraints vars (work.counted.pop constraints adjacency) ∧
          distance constraints vars.length (work.counted.pop constraints adjacency) ≤ remaining :=
        ⟨steady.counted.pop, by
          have same : distance constraints vars.length work.counted =
            distance constraints vars.length work := rfl
          omega⟩
      have wave : work.wave constraints adjacency =
          (pop constraints adjacency)^[length] (work.counted.pop constraints adjacency) := by
        rw [← Function.iterate_succ_apply, Nat.succ_eq_add_one, ← isLength]
        rfl
      have after := @iterate_keeps constraints adjacency
        (fun work => Steady arena constraints vars work ∧
          distance constraints vars.length work ≤ remaining)
        (work.counted.pop constraints adjacency) start length fun earlier before holds => by
          obtain ⟨kept, close⟩ := holds
          refine ⟨kept.pop, ?_⟩
          rw [← Function.iterate_succ_apply] at kept close ⊢
          by_cases empty : ((pop constraints adjacency)^[earlier + 1] work.counted).queue = []
          · rw [pop_empty empty]
            exact close
          · exact (kept.distance_pop inside (inWave _ (Nat.succ_lt_succ before)) empty).le.trans close
      rw [← wave] at after
      exact ih after.1 (fun visited listed => ascends visited (mem_append_right _ listed)) after.2

end Descent

end Worklist

/-! ## Solvers -/

section Solutions

variable {arena : TypeArena} {constraints : List Constraint}

private theorem startWorklist_steady (built : arena.Built)
    (present : ∀ constraint ∈ constraints, ∀ id ∈ constraint.types, arena.Present id) :
    Worklist.Steady arena (rewriteEqualConstraints constraints).constraints (interned constraints).vars
      (startWorklist arena constraints) := by
  refine ⟨(startWorklist_inv built present).regular, Worklist.startWorklist_tidy arena constraints,
    fun var _ existing assigned => ?_⟩
  rw [startWorklist_unassigned] at assigned
  cases assigned

/-- The most waves that a solver whose applications all ascend needs. -/
def waveBound (constraints : List Constraint) : Nat :=
  let rewritten := rewriteEqualConstraints constraints
  Worklist.summit rewritten.constraints (interned constraints).vars.length *
      (rewritten.constraints.length + 1) + rewritten.constraints.length

/-- From a number of waves on that the constraints determine, a solver converges when no
application of its run undoes what constraints of the same priority had reached. -/
theorem solveWorklist_converges (built : arena.Built)
    (present : ∀ constraint ∈ constraints, ∀ id ∈ constraint.types, arena.Present id)
    {maxIterations : Nat} (enough : waveBound constraints ≤ maxIterations)
    (ascends : ∀ visited ∈ solverHistory arena constraints maxIterations,
      visited.Ascends (rewriteEqualConstraints constraints).constraints) :
    (solveWorklist arena constraints maxIterations).diagnostics.converged = true := by
  refine converged_iff.mpr (Worklist.waves_empty (fun compacted listed id isVar => ?_) maxIterations
    (startWorklist_steady built present) ascends (le_trans ?_ enough))
  · obtain ⟨var, isMentioned, rfl⟩ := rewritten_vars listed id isVar
    exact representative_lt isMentioned
  · have length : (startWorklist arena constraints).queue.length =
        (rewriteEqualConstraints constraints).constraints.length := length_range
    unfold Worklist.distance waveBound
    rw [length]
    exact Nat.add_le_add_right (Nat.mul_le_mul_right _ (Nat.sub_le _ _)) _

/-- A pointer to a structure without fields and an access to a field of it are not both
settled at the priority that the variable has. -/
theorem not_settled_of_fieldless {state : SolverState} (sound : state.Sound) {var : VarId}
    {ptrTy structTy : TypeId} {shape : StructShape} {offset : Nat} {fieldTy : TypeId}
    {fieldName : Option String} {source : ConstraintSource}
    (isPtr : state.arena.get ptrTy = .ptr structTy) (isStruct : state.arena.get structTy = .struct shape)
    (fieldless : ∀ off, shape.fields.get? off = none)
    (bounded : ∀ existing, state.assignment var = some existing → existing.priority ≤ source.priority)
    (setType : state.Settled (.setType var ptrTy source))
    (fieldAccess : state.Settled (.fieldAccess var offset fieldTy fieldName source)) : False := by
  obtain ⟨existing, assigned, ends⟩ := setType
  have most := bounded existing assigned
  have wellFormed := sound.built.wellFormed
  -- The variable's type has the field.
  have hasField : fieldAccessIsNoop state.arena existing.ty offset fieldTy fieldName = true := by
    rcases fieldAccess with isNoop | ⟨other, assigned', higher⟩
    · rw [← SolverState.accessIsNoop_of_assigned assigned, isNoop]
    · obtain rfl := some.inj (assigned.symm.trans assigned')
      exact absurd higher (Nat.not_lt.mpr most)
  have points : ∃ inner found field, structOf state.arena existing.ty = some inner ∧
      state.arena.get inner = .struct found ∧ found.fields.get? offset = some field := by
    unfold fieldAccessIsNoop at hasField
    split at hasField
    · cases hasField
    · rename_i inner isInner
      split at hasField
      · rename_i found isFound
        split at hasField
        · cases hasField
        · rename_i field isField
          exact ⟨inner, found, field, isInner, isFound, isField⟩
      · cases hasField
  obtain ⟨inner, found, field, isInner, isFound, isField⟩ := points
  have structBelow : Below state.arena inner structTy :=
    (below_struct_iff wellFormed isFound isStruct).mpr fun off other isOther => by
      rw [fieldless off] at isOther
      cases isOther
  have notAbove : ¬ Below state.arena structTy inner := fun below => by
    obtain ⟨other, isOther, _⟩ := (below_struct_iff wellFormed isStruct isFound).mp below offset field isField
    rw [fieldless offset] at isOther
    cases isOther
  have apart : existing.ty ≠ ptrTy := by
    rintro rfl
    have sameInner : structOf state.arena existing.ty = some structTy := by
      unfold structOf
      rw [isPtr]
      dsimp only
      rw [isStruct]
    obtain rfl := some.inj (isInner.symm.trans sameInner)
    exact notAbove (.refl _ _)
  -- A join with the pointer gives another type.
  rcases ends with higher | ⟨_, same | inCache⟩
  · exact absurd higher (Nat.not_lt.mpr most)
  · exact apart same
  · have joined := sound.joins _ _ _ inCache
    unfold structOf at isInner
    cases isTy : state.arena.get existing.ty with
    | ptr innerTy =>
      rw [isTy] at isInner
      dsimp only at isInner
      split at isInner
      · obtain rfl := some.inj isInner
        have absorbed : Absorbed state.arena existing.ty ptrTy :=
          .inr ⟨(below_ptr_iff wellFormed isTy isPtr).mpr structBelow,
            mt (below_ptr_iff wellFormed isPtr isTy).mp notAbove⟩
        exact apart (absorbed.join joined.symm)
      · cases isInner
    | struct fields =>
      have apartHeads : ∀ {low high : TypeId}, low = existing.ty ∧ high = ptrTy ∨
          low = ptrTy ∧ high = existing.ty → ¬ Below state.arena low high := by
        rintro low high (⟨rfl, rfl⟩ | ⟨rfl, rfl⟩) below <;>
          rcases (below_iff wellFormed).mp below with same | head
        · exact apart same
        rotate_left
        · exact apart same.symm
        all_goals
          rw [isTy, isPtr] at head
          cases head
      obtain ⟨_, _, _, merged⟩ := joined
      rcases JoinsTo.cases merged (apartHeads (.inr ⟨rfl, rfl⟩)) with ⟨below, _⟩ | ⟨fuel, head | head⟩
      · exact apartHeads (.inl ⟨rfl, rfl⟩) below
      · rw [isTy, isPtr] at head
        cases head
      · rw [isTy, isPtr] at head
        cases head
    | _ =>
      rw [isTy] at isInner
      cases isInner

private theorem finalWorklist_bounded (built : arena.Built)
    (present : ∀ constraint ∈ constraints, ∀ id ∈ constraint.types, arena.Present id) {rep : VarId}
    {priority : Nat} (highest : Worklist.Highest (rewriteEqualConstraints constraints).constraints
      (interned constraints).vars rep priority) (maxIterations : Nat) :
    ∀ existing, (finalWorklist arena constraints maxIterations).state.assignment rep = some existing →
      existing.priority ≤ priority := by
  refine (@Worklist.waves_keeps (rewriteEqualConstraints constraints).constraints
    (buildAdjacency (rewriteEqualConstraints constraints).vars.length
      (rewriteEqualConstraints constraints).constraints)
    (fun work => Worklist.Regular arena (rewriteEqualConstraints constraints).constraints
        (interned constraints).vars work.state ∧
      ∀ existing, work.state.assignment rep = some existing → existing.priority ≤ priority)
    ?_ ?_ maxIterations (startWorklist arena constraints) ⟨(startWorklist_inv built present).regular, ?_⟩).2
  · exact fun work ⟨regular, bounded⟩ =>
      ⟨(Worklist.regular_kept _).bookkeeping work.state _ work.state.changedVars regular, bounded⟩
  · exact fun work ⟨regular, bounded⟩ =>
      ⟨(Worklist.regular_kept _).pop regular, Worklist.pop_bounded highest regular bounded⟩
  · intro existing assigned
    rw [startWorklist_unassigned] at assigned
    cases assigned

/-- A pointer to a structure, and an access to a field that the structure lacks. -/
def demoPointer : TypeArena :=
  [.structNamed "Demo", .ptr 3].foldl (fun arena call => (arena.construct call).1) TypeArena.default

theorem demoPointer_built : demoPointer.Built := by
  refine .construct (.ptr 3) (.construct (.structNamed "Demo") .default ?_) ?_ <;> decide +kernel

def undone : List Constraint :=
  [.setType ⟨"rdi", 0, 8⟩ 4 .inferred, .fieldAccess ⟨"rdi", 0, 8⟩ 0 2 none .inferred]

theorem undone_present :
    ∀ constraint ∈ undone, ∀ id ∈ constraint.types, demoPointer.Present id := by
  decide +kernel

/-- The access adds the field and the join takes it away, in every wave. -/
theorem undone_diverges : demoPointer.Built ∧
    (∀ constraint ∈ undone, ∀ id ∈ constraint.types, demoPointer.Present id) ∧
    ¬ ∃ bound, ∀ maxIterations ≥ bound,
      (solveWorklist demoPointer undone maxIterations).diagnostics.converged = true := by
  refine ⟨demoPointer_built, undone_present, fun ⟨bound, converges⟩ => ?_⟩
  have inv := finalWorklist_inv demoPointer_built undone_present bound
  have settled := inv.settled_of_empty (converged_iff.mp (converges bound le_rfl))
  have grown := inv.regular.grown
  have isPtr : (finalWorklist demoPointer undone bound).state.arena.get 4 = .ptr 3 :=
    (grown.get (by decide +kernel)).trans (by decide +kernel)
  have isStruct : (finalWorklist demoPointer undone bound).state.arena.get 3 =
      .struct ⟨some "Demo", .empty⟩ :=
    (grown.get (by decide +kernel)).trans (by decide +kernel)
  have isMentioned : (⟨"rdi", 0, 8⟩ : SSAVar) ∈ mentioned undone := by decide
  refine not_settled_of_fieldless inv.regular.sound isPtr isStruct (fun _ => rfl) ?_
    (settled _ (mem_rewritten.mpr ⟨_, mem_cons_self, rfl⟩))
    (settled _ (mem_rewritten.mpr ⟨_, mem_cons_of_mem _ mem_cons_self, rfl⟩))
  refine finalWorklist_bounded demoPointer_built undone_present
    ⟨representative_lt isMentioned, fun compacted listed _ => ?_⟩ bound
  obtain ⟨constraint, mem, isCompact⟩ := mem_rewritten.mp listed
  rw [(Constraint.compactBy_assigned isCompact).1]
  rcases mem_cons.mp mem with rfl | later
  · exact le_rfl
  · obtain rfl := mem_singleton.mp later
    exact le_rfl

/-- Two types that a variable is given at one priority. -/
def widened : List Constraint :=
  [.setType ⟨"rax", 1, 8⟩ 3 .inferred, .setType ⟨"rax", 1, 8⟩ 4 .inferred]

/-- The second type replaces the first by the join of both. -/
theorem solveWorklist_converges_widened :
    (solveWorklist twoInts widened 80).varTypes.lookup ⟨"rax", 1, 8⟩ = some 4 ∧
    (solveWorklist twoInts widened 80).diagnostics.converged = true :=
  ⟨by decide +kernel, solveWorklist_converges twoInts_built (by decide +kernel)
    (by decide +kernel) (by decide +kernel)⟩

end Solutions

end R2Sleigh.Types
