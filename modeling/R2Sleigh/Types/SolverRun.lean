import Mathlib.Data.List.Dedup
import R2Sleigh.Types.Bounds

/-!
Contract: the states a solver reaches, and what its caches hold there.

Owns `Reached`, `Sound` and `Settled`.
-/

namespace R2Sleigh.Types

open Lib Ssa TypeLattice List

variable {a b ty : TypeId} {state : SolverState} {arena : TypeArena}

/-- The type ids a constraint names. -/
def CompactConstraint.types : CompactConstraint → List TypeId
  | .setType _ ty _ => [ty]
  | .subtype _ ty _ => [ty]
  | .hasCapability _ elemTy _ => [elemTy]
  | .callSig _ _ params ret _ => params ++ (ret.map Prod.snd).toList
  | .fieldAccess _ _ fieldTy _ _ => [fieldTy]

private theorem normalizePair_eq {c d : TypeId} (same : normalizePair a b = normalizePair c d) :
    (a = c ∧ b = d) ∨ (a = d ∧ b = c) := by
  unfold normalizePair at same
  split at same <;> split at same <;> simp_all

/-- An answer that a merge of the two ids, in one of the two orders, has given. -/
structure CachedAs (head : TypeArena → (TypeId → TypeId → TypeId → Prop) → Ty → Ty → Ty → Prop)
    (pick : TypeId → TypeId → TypeId) (arena : TypeArena) (a b ty : TypeId) : Prop where
  first : arena.Present a
  second : arena.Present b
  answer : arena.Present ty
  merged : ∃ fuel, Merged head pick arena fuel a b ty ∨ Merged head pick arena fuel b a ty

section Cached

variable {head : TypeArena → (TypeId → TypeId → TypeId → Prop) → Ty → Ty → Ty → Prop}
variable {pick : TypeId → TypeId → TypeId} {arena arena' : TypeArena} {a b ty : TypeId}

theorem CachedAs.symm (cached : CachedAs head pick arena a b ty) : CachedAs head pick arena b a ty := by
  obtain ⟨fuel, merged⟩ := cached.merged
  exact ⟨cached.second, cached.first, cached.answer, fuel, merged.symm⟩

theorem CachedAs.extends (looksInside : LooksInside head) (wellFormed : arena.WellFormed)
    (keeps : arena.Extends arena') (cached : CachedAs head pick arena a b ty) :
    CachedAs head pick arena' a b ty := by
  obtain ⟨first, second, answer, fuel, merged⟩ := cached
  refine ⟨keeps.present first, keeps.present second, keeps.present answer, fuel, ?_⟩
  exact merged.imp (Merged.extends looksInside wellFormed keeps fuel first second answer)
    (Merged.extends looksInside wellFormed keeps fuel second first answer)

/-- Every entry of a cache is an answer for its pair. -/
def CacheSound (head : TypeArena → (TypeId → TypeId → TypeId → Prop) → Ty → Ty → Ty → Prop)
    (pick : TypeId → TypeId → TypeId) (arena : TypeArena)
    (cache : HashMap (TypeId × TypeId) TypeId) : Prop :=
  ∀ a b ty, cache.lookup (normalizePair a b) = some ty → CachedAs head pick arena a b ty

theorem CacheSound.extends {cache : HashMap (TypeId × TypeId) TypeId}
    (looksInside : LooksInside head) (wellFormed : arena.WellFormed)
    (keeps : arena.Extends arena') (sound : CacheSound head pick arena cache) :
    CacheSound head pick arena' cache :=
  fun a b ty found => (sound a b ty found).extends looksInside wellFormed keeps

theorem CacheSound.insert {cache : HashMap (TypeId × TypeId) TypeId}
    (sound : CacheSound head pick arena cache) (cached : CachedAs head pick arena a b ty) :
    CacheSound head pick arena (cache.insert (normalizePair a b) ty) := by
  intro c d found answer
  by_cases same : normalizePair c d = normalizePair a b
  · rw [same, AList.lookup_insert] at answer
    cases answer
    rcases normalizePair_eq same with ⟨rfl, rfl⟩ | ⟨rfl, rfl⟩
    · exact cached
    · exact cached.symm
  · rw [AList.lookup_insert_ne same] at answer
    exact sound c d found answer

end Cached

namespace SolverState

structure Sound (state : SolverState) : Prop where
  built : state.arena.Built
  assigned : ∀ var assignment, state.assignment var = some assignment →
    state.arena.Present assignment.ty
  joins : CacheSound JoinHead (fun _ b => b) state.arena state.joinCache
  meets : CacheSound MeetHead (fun a _ => a) state.arena state.meetCache

/-- A step that keeps the invariant and every type. -/
structure Advances (state next : SolverState) : Prop where
  sound : next.Sound
  keeps : state.arena.Extends next.arena

theorem Advances.trans {next last : SolverState} (first : state.Advances next)
    (second : next.Advances last) : state.Advances last :=
  ⟨second.sound, first.keeps.trans second.keeps⟩

theorem Sound.advances_self (sound : state.Sound) : state.Advances state := ⟨sound, .refl _⟩

theorem Sound.withArena {result : TypeArena × TypeId} (sound : state.Sound)
    (grows : state.arena.Grows result) : state.Advances (state.withArena result).1 :=
  ⟨⟨grows.built, fun var assignment found => grows.keeps.present (sound.assigned var assignment found),
    sound.joins.extends joinHead_looksInside sound.built.wellFormed grows.keeps,
    sound.meets.extends meetHead_looksInside sound.built.wellFormed grows.keeps⟩, grows.keeps⟩

theorem joinCached_hit (hit : state.joinCache.lookup (normalizePair a b) = some ty) :
    state.joinCached a b = (state, ty) := by
  simp only [joinCached, hit]

theorem joinCached_miss (miss : state.joinCache.lookup (normalizePair a b) = none) :
    state.joinCached a b = ({ state with
      arena := (joinTypes state.arena a b).1
      joinCache := state.joinCache.insert (normalizePair a b) (joinTypes state.arena a b).2 },
      (joinTypes state.arena a b).2) := by
  simp only [joinCached, miss]

theorem meetCached_hit (hit : state.meetCache.lookup (normalizePair a b) = some ty) :
    state.meetCached a b = (state, ty) := by
  simp only [meetCached, hit]

theorem meetCached_miss (miss : state.meetCache.lookup (normalizePair a b) = none) :
    state.meetCached a b = ({ state with
      arena := (meetTypes state.arena a b).1
      meetCache := state.meetCache.insert (normalizePair a b) (meetTypes state.arena a b).2 },
      (meetTypes state.arena a b).2) := by
  simp only [meetCached, miss]

section

variable (sound : state.Sound) (aPresent : state.arena.Present a) (bPresent : state.arena.Present b)
include sound aPresent bPresent

theorem joinCached_advances :
    state.Advances (state.joinCached a b).1 ∧
      CachedAs JoinHead (fun _ b => b) (state.joinCached a b).1.arena a b (state.joinCached a b).2 := by
  cases hit : state.joinCache.lookup (normalizePair a b) with
  | some ty =>
    rw [joinCached_hit hit]
    exact ⟨sound.advances_self, sound.joins a b ty hit⟩
  | none =>
    rw [joinCached_miss hit]
    obtain ⟨_, grows, merged⟩ := joinTypes_spec sound.built aPresent bPresent
    have cached : CachedAs JoinHead (fun _ b => b) (joinTypes state.arena a b).1 a b
        (joinTypes state.arena a b).2 :=
      ⟨grows.keeps.present aPresent, grows.keeps.present bPresent, grows.present, _, Or.inl merged⟩
    obtain ⟨grown, keeps⟩ := sound.withArena grows
    exact ⟨⟨⟨grown.built, grown.assigned, grown.joins.insert cached, grown.meets⟩, keeps⟩, cached⟩

theorem meetCached_advances :
    state.Advances (state.meetCached a b).1 ∧
      CachedAs MeetHead (fun a _ => a) (state.meetCached a b).1.arena a b (state.meetCached a b).2 := by
  cases hit : state.meetCache.lookup (normalizePair a b) with
  | some ty =>
    rw [meetCached_hit hit]
    exact ⟨sound.advances_self, sound.meets a b ty hit⟩
  | none =>
    rw [meetCached_miss hit]
    obtain ⟨_, grows, merged⟩ := meetTypes_spec sound.built aPresent bPresent
    have cached : CachedAs MeetHead (fun a _ => a) (meetTypes state.arena a b).1 a b
        (meetTypes state.arena a b).2 :=
      ⟨grows.keeps.present aPresent, grows.keeps.present bPresent, grows.present, _, Or.inl merged⟩
    obtain ⟨grown, keeps⟩ := sound.withArena grows
    exact ⟨⟨⟨grown.built, grown.assigned, grown.joins, grown.meets.insert cached⟩, keeps⟩, cached⟩

end

private theorem assignment_set {assignments : List (Option Assignment)} {var other : VarId}
    {assignment found : Assignment}
    (reads : (assignments.set var (some assignment)).getD other none = some found) :
    found = assignment ∨ assignments.getD other none = some found := by
  by_cases same : var = other
  · subst same
    by_cases inside : var < assignments.length
    · simp [List.getD, inside] at reads
      exact Or.inl reads.symm
    · rw [set_eq_of_length_le (not_lt.mp inside)] at reads
      exact Or.inr reads
  · simp only [List.getD, List.getElem?_set_ne same] at reads
    exact Or.inr reads

theorem Sound.setAssignment (sound : state.Sound) (var : VarId)
    {assignment : Assignment} (present : state.arena.Present assignment.ty) :
    state.Advances (state.setAssignment var assignment) := by
  refine ⟨⟨sound.built, fun other found reads => ?_, sound.joins, sound.meets⟩, .refl _⟩
  rcases assignment_set reads with rfl | old
  · exact present
  · exact sound.assigned other found old

private theorem structOf_present (wellFormed : arena.WellFormed) {structTy : TypeId}
    (present : arena.Present ty) (found : structOf arena ty = some structTy) :
    arena.Present structTy := by
  unfold structOf at found
  split at found
  · rename_i inner isPtr
    split at found
    · obtain rfl := Option.some.inj found
      exact wellFormed.part_present isPtr (by simp [Ty.components])
    · cases found
  · obtain rfl := Option.some.inj found
    exact present
  · cases found

theorem grows_construct (built : arena.Built) (call : TypeArena.Construction)
    (arguments : ∀ id ∈ call.arguments, arena.Present id)
    (interns : ∃ ty, arena.construct call = arena.intern ty) :
    arena.Grows (arena.construct call) := by
  obtain ⟨ty, same⟩ := interns
  have grown : (arena.construct call).1.Built := built.construct call arguments
  rw [same] at grown ⊢
  exact ⟨grown, TypeArena.extends_intern arena ty, built.wellFormed.present_intern ty⟩

theorem grows_ptr (built : arena.Built) {elemTy : TypeId} (present : arena.Present elemTy) :
    arena.Grows (arena.ptr elemTy) :=
  grows_construct built (.ptr elemTy)
    (fun _ argument => mem_singleton.mp argument ▸ present) ⟨_, rfl⟩

private theorem grows_structWithField (built : arena.Built) {fieldTy : TypeId}
    (present : arena.Present fieldTy) (structTy : TypeId) (offset : Nat)
    (fieldName : Option String) :
    arena.Grows (arena.structWithField structTy offset fieldName fieldTy) :=
  grows_construct built (.structWithField structTy offset fieldName fieldTy)
    (by simpa [TypeArena.Construction.arguments] using present) ⟨_, rfl⟩

section Touching

open Option

variable {state next : SolverState} {ty fieldTy : TypeId} {priority : Nat}
  {constraint compacted : CompactConstraint}

/-! ## One assignment -/

section Assign

variable {state : SolverState} {var : VarId} {ty : TypeId} {priority : Nat} {existing : Assignment}

theorem assign_fresh (unassigned : state.assignment var = none) :
    state.assign var ty priority = (state.setAssignment var ⟨ty, priority⟩, true) := by
  rw [assign, unassigned]

section

variable (assigned : state.assignment var = some existing)
include assigned

theorem assign_over
    (lower : existing.priority < priority) : ∃ diagnostics, state.assign var ty priority =
      ({ state with diagnostics }.setAssignment var ⟨ty, priority⟩, true) := by
  rw [assign, assigned]
  dsimp only
  rw [if_pos lower]
  split
  · exact ⟨_, rfl⟩
  · exact ⟨state.diagnostics, rfl⟩

theorem assign_under
    (higher : priority < existing.priority) : state.assign var ty priority = (state, false) := by
  rw [assign, assigned]
  dsimp only
  rw [if_neg (Nat.lt_asymm higher), if_pos higher]

theorem assign_same
    (equal : existing.priority = priority) (same : existing.ty = ty) :
    state.assign var ty priority = (state, false) := by
  rw [assign, assigned]
  dsimp only
  rw [equal, if_neg (Nat.lt_irrefl _), if_neg (Nat.lt_irrefl _), if_pos same]

theorem assign_joined
    (equal : existing.priority = priority) (apart : existing.ty ≠ ty) :
    state.assign var ty priority =
      if (state.joinCached existing.ty ty).2 ≠ existing.ty then
        ((state.joinCached existing.ty ty).1.setAssignment var
          ⟨(state.joinCached existing.ty ty).2, priority⟩, true)
      else ((state.joinCached existing.ty ty).1, false) := by
  rw [assign, assigned]
  dsimp only
  rw [equal, if_neg (Nat.lt_irrefl _), if_neg (Nat.lt_irrefl _), if_neg apart]

end

end Assign

/-! ## What an operation touches -/

/-- A step that advances the state, keeps the caches' answers and marks the
variables it assigns, which are among the given ones. -/
structure Touches (state next : SolverState) (vars : List VarId) : Prop extends
    state.Advances next where
  joins : ∀ key ty, state.joinCache.lookup key = some ty → next.joinCache.lookup key = some ty
  meets : ∀ key ty, state.meetCache.lookup key = some ty → next.meetCache.lookup key = some ty
  names : next.vars = state.vars
  length : next.assignments.length = state.assignments.length
  marks : ∀ var ∈ state.changedVars, var ∈ next.changedVars
  within : ∀ var ∈ next.changedVars, var ∈ state.changedVars ∨ var ∈ vars
  others : ∀ var, var ∉ next.changedVars → next.assignment var = state.assignment var
  outside : ∀ var ∉ vars, next.assignment var = state.assignment var

theorem Touches.trans {last : SolverState} {vars more all : List VarId}
    (first : state.Touches next vars) (second : next.Touches last more)
    (inFirst : ∀ var ∈ vars, var ∈ all) (inSecond : ∀ var ∈ more, var ∈ all) :
    state.Touches last all where
  toAdvances := first.toAdvances.trans second.toAdvances
  joins key ty found := second.joins key ty (first.joins key ty found)
  meets key ty found := second.meets key ty (first.meets key ty found)
  names := second.names.trans first.names
  length := second.length.trans first.length
  marks var marked := second.marks var (first.marks var marked)
  within var marked := by
    rcases second.within var marked with earlier | later
    · exact (first.within var earlier).imp_right (inFirst var)
    · exact .inr (inSecond var later)
  others var unmarked := by
    rw [second.others var unmarked]
    exact first.others var fun marked => unmarked (second.marks var marked)
  outside var apart := by
    rw [second.outside var (apart <| inSecond var ·), first.outside var (apart <| inFirst var ·)]

theorem Advances.touches (advances : state.Advances next)
    (joins : ∀ key ty, state.joinCache.lookup key = some ty → next.joinCache.lookup key = some ty)
    (meets : ∀ key ty, state.meetCache.lookup key = some ty → next.meetCache.lookup key = some ty)
    (names : next.vars = state.vars) (assignments : next.assignments = state.assignments)
    (marks : next.changedVars = state.changedVars) (vars : List VarId) : state.Touches next vars where
  toAdvances := advances
  joins := joins
  meets := meets
  names := names
  length := congrArg List.length assignments
  marks var marked := marks ▸ marked
  within var marked := .inl (marks ▸ marked)
  others var _ := by rw [assignment, assignment, assignments]
  outside var _ := by rw [assignment, assignment, assignments]

theorem Sound.touches_self (sound : state.Sound) (vars : List VarId) : state.Touches state vars :=
  sound.advances_self.touches (fun _ _ found => found) (fun _ _ found => found) rfl rfl rfl vars

theorem Sound.withArena_touches {result : TypeArena × TypeId}
    (sound : state.Sound) (grows : state.arena.Grows result) (vars : List VarId) :
    state.Touches (state.withArena result).1 vars :=
  (sound.withArena grows).touches (fun _ _ found => found) (fun _ _ found => found) rfl rfl rfl vars

theorem lookup_insert_of_miss {K V : Type} [DecidableEq K] {cache : HashMap K V} {key : K} {value : V}
    (miss : cache.lookup key = none) {other : K} {answer : V} (found : cache.lookup other = some answer) :
    (cache.insert key value).lookup other = some answer := by
  have differs : other ≠ key := by
    rintro rfl
    rw [miss] at found
    cases found
  exact (AList.lookup_insert_ne differs).trans found

section

variable {a b : TypeId} (sound : state.Sound) (aPresent : state.arena.Present a)
  (bPresent : state.arena.Present b) (vars : List VarId)
include sound aPresent bPresent vars

theorem joinCached_touches :
    state.Touches (state.joinCached a b).1 vars ∧
      (state.joinCached a b).1.joinCache.lookup (normalizePair a b) = some (state.joinCached a b).2 := by
  have advances := (joinCached_advances sound aPresent bPresent).1
  cases hit : state.joinCache.lookup (normalizePair a b) with
  | some ty =>
    rw [joinCached_hit hit]
    exact ⟨sound.touches_self vars, hit⟩
  | none =>
    rw [joinCached_miss hit] at advances ⊢
    exact ⟨advances.touches (fun _ _ found => lookup_insert_of_miss hit found)
      (fun _ _ found => found) rfl rfl rfl vars, AList.lookup_insert _⟩

theorem meetCached_touches :
    state.Touches (state.meetCached a b).1 vars ∧
      (state.meetCached a b).1.meetCache.lookup (normalizePair a b) = some (state.meetCached a b).2 := by
  have advances := (meetCached_advances sound aPresent bPresent).1
  cases hit : state.meetCache.lookup (normalizePair a b) with
  | some ty =>
    rw [meetCached_hit hit]
    exact ⟨sound.touches_self vars, hit⟩
  | none =>
    rw [meetCached_miss hit] at advances ⊢
    exact ⟨advances.touches (fun _ _ found => found)
      (fun _ _ found => lookup_insert_of_miss hit found) rfl rfl rfl vars, AList.lookup_insert _⟩

end

theorem mem_markChanged {changedVars : List VarId} {var other : VarId} :
    other ∈ markChanged changedVars var ↔ other ∈ changedVars ∨ other = var := by
  unfold markChanged
  split
  · rename_i marked
    exact ⟨.inl, fun either => either.elim id fun same => same ▸ marked⟩
  · simp

theorem assignment_set_ne {assignments : List (Option Assignment)} {var other : VarId}
    {assigned : Option Assignment} (apart : other ≠ var) :
    (assignments.set var assigned).getD other none = assignments.getD other none := by
  simp only [List.getD, List.getElem?_set_ne apart.symm]

theorem Sound.setAssignment_touches (sound : state.Sound) (var : VarId)
    {assignment : Assignment} (present : state.arena.Present assignment.ty) :
    state.Touches (state.setAssignment var assignment) [var] where
  toAdvances := sound.setAssignment var present
  joins _ _ found := found
  meets _ _ found := found
  names := rfl
  length := length_set
  marks other marked := mem_markChanged.mpr (.inl marked)
  within other marked := (mem_markChanged.mp marked).imp_right (by simp)
  others other unmarked := assignment_set_ne fun same => unmarked (mem_markChanged.mpr (.inr same))
  outside other apart := assignment_set_ne (by simpa using apart)

/-! ## Settled constraints -/

/-- Assigning a type to a variable would leave it. -/
def AssignSettled (state : SolverState) (var : VarId) (ty : TypeId) (priority : Nat) : Prop :=
  ∃ existing, state.assignment var = some existing ∧
    (priority < existing.priority ∨ (existing.priority = priority ∧
      (existing.ty = ty ∨
        state.joinCache.lookup (normalizePair existing.ty ty) = some existing.ty)))

/-- Applying a constraint would leave the variables it assigns. -/
def Settled (state : SolverState) (constraint : CompactConstraint) : Prop :=
  let sourcePriority := constraint.source.priority
  match constraint with
  | .setType var ty _ => state.AssignSettled var ty sourcePriority
  | .subtype var ty _ => ∃ existing met, state.assignment var = some existing ∧
      state.meetCache.lookup (normalizePair existing.ty ty) = some met ∧
      state.AssignSettled var met (max sourcePriority existing.priority)
  | .hasCapability ptr elemTy _ => ∃ ptrTy,
      state.arena.internIndex.lookup (.ptr elemTy) = some ptrTy ∧
      state.AssignSettled ptr ptrTy sourcePriority
  | .fieldAccess basePtr offset fieldTy fieldName _ =>
    state.accessIsNoop basePtr offset fieldTy fieldName = true ∨
    ∃ existing, state.assignment basePtr = some existing ∧ sourcePriority < existing.priority
  | .callSig _ args params ret _ => ∀ pair ∈ args.zip params ++ ret.toList,
      state.AssignSettled pair.1 pair.2 sourcePriority

theorem assign_touches (sound : state.Sound) (var : VarId)
    (priority : Nat) (present : state.arena.Present ty) :
    state.Touches (state.assign var ty priority).1 [var] ∧
      (var ∉ (state.assign var ty priority).1.changedVars →
        (state.assign var ty priority).1.AssignSettled var ty priority) := by
  have marked : ∀ {next : SolverState} {assignment : Assignment},
      var ∈ (next.setAssignment var assignment).changedVars :=
    mem_markChanged.mpr (.inr rfl)
  cases assigned : state.assignment var with
  | none =>
    rw [assign_fresh assigned]
    exact ⟨sound.setAssignment_touches var present, fun unmarked => absurd marked unmarked⟩
  | some existing =>
    rcases lt_trichotomy existing.priority priority with lower | equal | higher
    · obtain ⟨diagnostics, same⟩ := @assign_over _ _ ty _ _ assigned lower
      rw [same]
      have noted : ({ state with diagnostics } : SolverState).Sound :=
        ⟨sound.built, sound.assigned, sound.joins, sound.meets⟩
      refine ⟨?_, fun unmarked => absurd marked unmarked⟩
      have set := @Sound.setAssignment_touches _ noted var ⟨ty, priority⟩ present
      exact ⟨⟨set.sound, set.keeps⟩, set.joins, set.meets, set.names, set.length, set.marks,
        set.within, set.others, set.outside⟩
    · by_cases same : existing.ty = ty
      · rw [assign_same assigned equal same]
        exact ⟨sound.touches_self _, fun _ => ⟨existing, assigned, .inr ⟨equal, .inl same⟩⟩⟩
      · rw [assign_joined assigned equal same]
        have ePresent := sound.assigned var existing assigned
        obtain ⟨touches, inCache⟩ := joinCached_touches sound ePresent present [var]
        have joinedPresent := (joinCached_advances sound ePresent present).2.answer
        split
        · refine ⟨?_, fun unmarked => absurd marked unmarked⟩
          exact touches.trans (@Sound.setAssignment_touches _ touches.sound var ⟨_, priority⟩
            joinedPresent) (fun _ listed => listed) fun _ listed => listed
        · rename_i kept
          rw [not_ne_iff.mp kept] at inCache
          refine ⟨touches, fun unmarked => ⟨existing, ?_, .inr ⟨equal, .inr inCache⟩⟩⟩
          exact (touches.others var unmarked).trans assigned
    · rw [assign_under assigned higher]
      exact ⟨sound.touches_self _, fun _ => ⟨existing, assigned, .inl higher⟩⟩

theorem AssignSettled.touched {vars : List VarId} {var : VarId}
    (settled : state.AssignSettled var ty priority)
    (touches : state.Touches next vars) (kept : next.assignment var = state.assignment var) :
    next.AssignSettled var ty priority := by
  obtain ⟨existing, assigned, why⟩ := settled
  refine ⟨existing, kept.trans assigned, why.imp_right (And.imp_right (Or.imp_right ?_))⟩
  exact touches.joins _ _

theorem assign_settled {var : VarId} (settled : state.AssignSettled var ty priority) :
    state.assign var ty priority = (state, false) := by
  obtain ⟨existing, assigned, higher | ⟨equal, same | inCache⟩⟩ := settled
  · exact assign_under assigned higher
  · exact assign_same assigned equal same
  · by_cases same : existing.ty = ty
    · exact assign_same assigned equal same
    · rw [assign_joined assigned equal same, joinCached_hit inCache, if_neg (by simp)]

theorem assignAll_touches {pairs : List (VarId × TypeId)} {vars : List VarId} :
    ∀ {state : SolverState}, state.Sound → (∀ pair ∈ pairs, state.arena.Present pair.2) →
      (∀ pair ∈ pairs, pair.1 ∈ vars) →
      state.Touches (state.assignAll priority pairs).1 vars ∧
        ∀ pair ∈ pairs, pair.1 ∉ (state.assignAll priority pairs).1.changedVars →
          (state.assignAll priority pairs).1.AssignSettled pair.1 pair.2 priority := by
  induction pairs with
  | nil => exact fun sound _ _ => ⟨sound.touches_self vars, nofun⟩
  | cons pair rest ih =>
    intro state sound present inside
    obtain ⟨pairPresent, restPresent⟩ := forall_mem_cons.mp present
    obtain ⟨pairInside, restInside⟩ := forall_mem_cons.mp inside
    obtain ⟨first, firstSettled⟩ := assign_touches sound pair.1 priority pairPresent
    obtain ⟨others, othersSettled⟩ := ih first.sound
      (fun other mem => first.keeps.present (restPresent other mem)) restInside
    refine ⟨first.trans others (by simpa using pairInside) fun _ listed => listed, ?_⟩
    refine forall_mem_cons.mpr ⟨fun unmarked => ?_, othersSettled⟩
    have unmarkedFirst : pair.1 ∉ (state.assign pair.1 pair.2 priority).1.changedVars :=
      fun marked => unmarked (others.marks _ marked)
    exact (firstSettled unmarkedFirst).touched others (others.others _ unmarked)

theorem assignAll_settled {pairs : List (VarId × TypeId)}
    (settled : ∀ pair ∈ pairs, state.AssignSettled pair.1 pair.2 priority) :
    state.assignAll priority pairs = (state, false) := by
  induction pairs with
  | nil => rfl
  | cons pair rest ih =>
    obtain ⟨first, others⟩ := forall_mem_cons.mp settled
    rw [assignAll, assign_settled first]
    dsimp only
    rw [ih others]
    rfl

/-! ## Field accesses -/

private theorem accessedStruct_touches (sound : state.Sound) (basePtr : VarId)
    (vars : List VarId) : state.Touches (state.accessedStruct basePtr).1 vars := by
  unfold accessedStruct
  cases (state.assignment basePtr).bind fun assignment => structOf state.arena assignment.ty with
  | some structTy => exact sound.touches_self vars
  | none =>
    exact sound.withArena_touches (grows_construct sound.built .structAnon
      (by simp [TypeArena.Construction.arguments]) ⟨_, rfl⟩) vars

theorem get_structWithField {arena : TypeArena} (wellFormed : arena.WellFormed) (base : TypeId)
    (offset : Nat) (fieldName : Option String) (fieldTy : TypeId) : ∃ shape field,
      (arena.structWithField base offset fieldName fieldTy).1.get
        (arena.structWithField base offset fieldName fieldTy).2 = .struct shape ∧
      shape.fields.get? offset = some field ∧ field.ty = fieldTy ∧
      (field.name.isSome || fieldName.isNone) = true := by
  refine ⟨_, ⟨_, fieldTy⟩, get_intern wellFormed _,
    (BTreeMap.get?_insert _ _ _ _).trans (if_pos rfl), rfl, ?_⟩
  have named : ∀ entry : StructField,
      ((if entry.name = none then fieldName else entry.name).isSome || fieldName.isNone) = true := by
    intro entry
    split
    · cases fieldName <;> rfl
    · rename_i isNamed
      rw [isSome_iff_ne_none.mpr isNamed, Bool.true_or]
  exact named _

theorem fieldPointer_touches (sound : state.Sound) (basePtr : VarId)
    (offset : Nat) (fieldName : Option String)
    (present : state.arena.Present fieldTy) (vars : List VarId) :
    state.Touches (state.fieldPointer basePtr offset fieldTy fieldName).1 vars ∧
      (state.fieldPointer basePtr offset fieldTy fieldName).1.arena.Present
        (state.fieldPointer basePtr offset fieldTy fieldName).2 ∧
      fieldAccessIsNoop (state.fieldPointer basePtr offset fieldTy fieldName).1.arena
        (state.fieldPointer basePtr offset fieldTy fieldName).2 offset fieldTy fieldName = true := by
  have based := accessedStruct_touches sound basePtr vars
  have structGrows := grows_structWithField based.sound.built (based.keeps.present present)
    (state.accessedStruct basePtr).2 offset fieldName
  have extended := based.sound.withArena_touches structGrows vars
  have ptrGrows := grows_ptr extended.sound.built structGrows.present
  have pointed := extended.sound.withArena_touches ptrGrows vars
  refine ⟨(based.trans extended (fun _ listed => listed) fun _ listed => listed).trans pointed
    (fun _ listed => listed) fun _ listed => listed, ptrGrows.present, ?_⟩
  obtain ⟨shape, field, isStruct, hasField, isTy, named⟩ := get_structWithField
    based.sound.built.wellFormed (state.accessedStruct basePtr).2 offset fieldName fieldTy
  have isStruct' := (ptrGrows.keeps.get structGrows.present).trans isStruct
  have isPtr := get_intern extended.sound.built.wellFormed (.ptr
    ((state.accessedStruct basePtr).1.arena.structWithField (state.accessedStruct basePtr).2 offset
      fieldName fieldTy).2)
  have points : structOf (state.fieldPointer basePtr offset fieldTy fieldName).1.arena
      (state.fieldPointer basePtr offset fieldTy fieldName).2 =
      some ((state.accessedStruct basePtr).1.arena.structWithField
        (state.accessedStruct basePtr).2 offset fieldName fieldTy).2 := by
    unfold structOf
    erw [isPtr]
    dsimp only
    erw [isStruct']
  unfold fieldAccessIsNoop
  rw [points]
  dsimp only
  erw [isStruct']
  dsimp only
  rw [hasField]
  dsimp only
  rw [if_neg (not_not.mpr isTy), named]

theorem fieldAccessIsNoop_extends {arena arena' : TypeArena} (wellFormed : arena.WellFormed)
    (keeps : arena.Extends arena') (present : arena.Present ty) (offset : Nat)
    (fieldTy : TypeId) (fieldName : Option String) :
    fieldAccessIsNoop arena' ty offset fieldTy fieldName =
      fieldAccessIsNoop arena ty offset fieldTy fieldName := by
  have sameStruct : structOf arena' ty = structOf arena ty := by
    unfold structOf
    rw [keeps.get present]
    cases isTy : arena.get ty with
    | ptr inner =>
      dsimp only
      rw [keeps.get (wellFormed.part_present isTy (by simp [Ty.components]))]
    | _ => rfl
  unfold fieldAccessIsNoop
  rw [sameStruct]
  cases found : structOf arena ty with
  | none => rfl
  | some structTy =>
    dsimp only
    rw [keeps.get (structOf_present wellFormed present found)]

theorem accessIsNoop_of_assigned {basePtr : VarId} {existing : Assignment}
    (assigned : state.assignment basePtr = some existing) (offset : Nat) (fieldTy : TypeId)
    (fieldName : Option String) : state.accessIsNoop basePtr offset fieldTy fieldName =
      fieldAccessIsNoop state.arena existing.ty offset fieldTy fieldName := by
  rw [accessIsNoop, assigned]

private theorem assignPointer_touches (sound : state.Sound) (basePtr : VarId)
    {ptrTy : TypeId} (priority : Nat) (present : state.arena.Present ptrTy) {offset : Nat}
    {fieldName : Option String}
    (hasField : fieldAccessIsNoop state.arena ptrTy offset fieldTy fieldName = true) :
    state.Touches (state.assignPointer basePtr ptrTy priority).1 [basePtr] ∧
      (basePtr ∉ (state.assignPointer basePtr ptrTy priority).1.changedVars →
        (state.assignPointer basePtr ptrTy priority).1.accessIsNoop basePtr offset fieldTy fieldName
            = true ∨
          ∃ existing, (state.assignPointer basePtr ptrTy priority).1.assignment basePtr = some existing ∧
            priority < existing.priority) := by
  cases assigned : state.assignment basePtr with
  | none =>
    rw [assignPointer, assigned]
    obtain ⟨touches, settles⟩ := assign_touches sound basePtr priority present
    refine ⟨touches, fun unmarked => ?_⟩
    obtain ⟨existing, isSome, _⟩ := settles unmarked
    rw [touches.others _ unmarked, assigned] at isSome
    cases isSome
  | some existing =>
    rw [assignPointer, assigned]
    dsimp only
    by_cases equal : existing.priority = priority
    · rw [if_pos equal]
      by_cases same : existing.ty = ptrTy
      · rw [if_neg (not_not.mpr same)]
        exact ⟨sound.touches_self _, fun _ => .inl (by
          rw [accessIsNoop_of_assigned assigned, same, hasField])⟩
      · rw [if_pos same]
        exact ⟨@Sound.setAssignment_touches _ sound basePtr ⟨ptrTy, existing.priority⟩ present,
          fun unmarked => absurd (mem_markChanged.mpr (.inr rfl)) unmarked⟩
    · rw [if_neg equal]
      obtain ⟨touches, settles⟩ := assign_touches sound basePtr priority present
      refine ⟨touches, fun unmarked => .inr ?_⟩
      obtain ⟨kept, isSome, higher | ⟨isEqual, _⟩⟩ := settles unmarked
      · exact ⟨kept, isSome, higher⟩
      · rw [touches.others _ unmarked, assigned] at isSome
        cases isSome
        exact absurd isEqual equal

/-! ## Constraints -/

private theorem applySubtype_touches (sound : state.Sound) (var : VarId)
    (priority : Nat) (present : state.arena.Present ty) :
    state.Touches (state.applySubtype var ty priority).1 [var] ∧
      (var ∉ (state.applySubtype var ty priority).1.changedVars → ∃ existing met,
        (state.applySubtype var ty priority).1.assignment var = some existing ∧
        (state.applySubtype var ty priority).1.meetCache.lookup (normalizePair existing.ty ty) =
          some met ∧
        (state.applySubtype var ty priority).1.AssignSettled var met
          (max priority existing.priority)) := by
  unfold applySubtype
  cases assigned : state.assignment var with
  | none =>
    obtain ⟨touches, settles⟩ := assign_touches sound var priority present
    refine ⟨touches, fun unmarked => ?_⟩
    obtain ⟨existing, isSome, _⟩ := settles unmarked
    rw [touches.others _ unmarked, assigned] at isSome
    cases isSome
  | some existing =>
    have ePresent := sound.assigned var existing assigned
    obtain ⟨met, inCache⟩ := meetCached_touches sound ePresent present [var]
    obtain ⟨touches, settles⟩ := assign_touches met.sound var (max priority existing.priority)
      (meetCached_advances sound ePresent present).2.answer
    have both := met.trans touches (fun _ listed => listed) fun _ listed => listed
    refine ⟨both, fun unmarked => ⟨existing, _, ?_, touches.meets _ _ inCache, settles unmarked⟩⟩
    exact (both.others _ unmarked).trans assigned

private theorem applyFieldAccess_touches (sound : state.Sound) (basePtr : VarId)
    (offset : Nat) (fieldName : Option String) (priority : Nat)
    (present : state.arena.Present fieldTy) :
    state.Touches (state.applyFieldAccess basePtr offset fieldTy fieldName priority).1 [basePtr] ∧
      (basePtr ∉ (state.applyFieldAccess basePtr offset fieldTy fieldName priority).1.changedVars →
        (state.applyFieldAccess basePtr offset fieldTy fieldName priority).1.accessIsNoop basePtr
            offset fieldTy fieldName = true ∨
          ∃ existing, (state.applyFieldAccess basePtr offset fieldTy fieldName priority).1.assignment
              basePtr = some existing ∧ priority < existing.priority) := by
  unfold applyFieldAccess
  split
  · rename_i isNoop
    exact ⟨sound.touches_self _, fun _ => .inl isNoop⟩
  · obtain ⟨pointed, ptrPresent, hasField⟩ :=
      fieldPointer_touches sound basePtr offset fieldName present [basePtr]
    obtain ⟨touches, settles⟩ :=
      assignPointer_touches pointed.sound basePtr priority ptrPresent hasField
    exact ⟨pointed.trans touches (fun _ listed => listed) fun _ listed => listed, settles⟩

section

variable {target : VarId} {args : List VarId} {params : List TypeId} {ret : Option (VarId × TypeId)}
  {source : ConstraintSource}

theorem mem_referencedVars
    (isCall : constraint = .callSig target args params ret source) :
    ∀ pair ∈ args.zip params ++ ret.toList, pair.1 ∈ constraint.referencedVars := by
  subst isCall
  intro pair mem
  have listed : pair.1 ∈ target :: args ++ (ret.map Prod.fst).toList := by
    rcases mem_append.mp mem with inArgs | isRet
    · exact mem_append_left _ (mem_cons_of_mem _ (of_mem_zip inArgs).1)
    · refine mem_append_right _ ?_
      simp only [mem_toList] at isRet ⊢
      rw [isRet]
      rfl
  exact mem_dedup.mpr (mem_mergeSort.mpr listed)

theorem mem_types
    (pair : VarId × TypeId)
    (mem : pair ∈ args.zip params ++ ret.toList) :
    pair.2 ∈ (CompactConstraint.callSig target args params ret source).types := by
  rcases mem_append.mp mem with inArgs | isRet
  · exact mem_append_left _ (of_mem_zip inArgs).2
  · exact mem_append_right _ (by simp_all [mem_toList])

end

/-- Applying a constraint touches its variables, and settles it when it marks none. -/
theorem applyConstraint_touches (sound : state.Sound)
    (constraint : CompactConstraint) (present : ∀ id ∈ constraint.types, state.arena.Present id) :
    state.Touches (state.applyConstraint constraint).1 constraint.referencedVars ∧
      ((∀ var ∈ constraint.referencedVars,
          var ∉ (state.applyConstraint constraint).1.changedVars) →
        (state.applyConstraint constraint).1.Settled constraint) := by
  cases constraint with
  | setType var ty source =>
    obtain ⟨touches, settles⟩ :=
      assign_touches sound var source.priority (present ty (by simp [CompactConstraint.types]))
    exact ⟨touches, fun unmarked => settles (unmarked var (by simp [CompactConstraint.referencedVars]))⟩
  | subtype var ty source =>
    obtain ⟨touches, settles⟩ :=
      applySubtype_touches sound var source.priority (present ty (by simp [CompactConstraint.types]))
    exact ⟨touches, fun unmarked => settles (unmarked var (by simp [CompactConstraint.referencedVars]))⟩
  | hasCapability ptr elemTy source =>
    have grows := grows_ptr sound.built (present elemTy (by simp [CompactConstraint.types]))
    have pointed := sound.withArena_touches grows [ptr]
    obtain ⟨touches, settles⟩ := assign_touches pointed.sound ptr source.priority grows.present
    refine ⟨pointed.trans touches (fun _ listed => listed) fun _ listed => listed, fun unmarked => ?_⟩
    refine ⟨_, ?_, settles (unmarked ptr (by simp [CompactConstraint.referencedVars]))⟩
    have stored := grows.present.getElem?
    erw [get_intern sound.built.wellFormed (.ptr elemTy)] at stored
    obtain ⟨more, grown⟩ := touches.keeps
    refine indexed_of_built touches.sound.built _ _ ?_
    rw [← grown]
    exact (List.getElem?_append_left grows.present).trans stored
  | callSig target args params ret source =>
    have inside := @mem_referencedVars _ target args params ret source rfl
    have typesPresent : ∀ pair ∈ args.zip params ++ ret.toList, state.arena.Present pair.2 :=
      fun pair mem => present pair.2 (mem_types pair mem)
    obtain ⟨touches, settles⟩ := assignAll_touches sound typesPresent inside
    exact ⟨touches, fun unmarked pair mem => settles pair mem (unmarked _ (inside pair mem))⟩
  | fieldAccess basePtr offset fieldTy fieldName source =>
    obtain ⟨touches, settles⟩ := applyFieldAccess_touches sound basePtr offset fieldName
      source.priority (present fieldTy (by simp [CompactConstraint.types]))
    exact ⟨touches, fun unmarked =>
      settles (unmarked basePtr (by simp [CompactConstraint.referencedVars]))⟩

end Touching

/-- The states reached by applying constraints over existing ids, in any order. -/
inductive Reached (arena : TypeArena) : SolverState → Prop
  | new (vars : List SSAVar) : Reached arena (SolverState.new arena vars)
  | apply {state : SolverState} (reached : Reached arena state) (constraint : CompactConstraint)
      (present : ∀ id ∈ constraint.types, state.arena.Present id) :
      Reached arena (state.applyConstraint constraint).1
  | bookkeeping {state : SolverState} (reached : Reached arena state)
      (diagnostics : SolverDiagnostics) (changedVars : List VarId) :
      Reached arena { state with diagnostics, changedVars }

/-- Every state that is reached has sound caches. -/
theorem Reached.sound (built : arena.Built) (reached : Reached arena state) : state.Sound := by
  induction reached with
  | new vars =>
    refine ⟨built, fun var assigned found => ?_, fun a b ty found => ?_, fun a b ty found => ?_⟩
    · have unassigned : (List.replicate vars.length (none : Option Assignment)).getD var none =
          some assigned := found
      rw [List.getD, List.getElem?_replicate] at unassigned
      split at unassigned <;> cases unassigned
    · cases found
    · cases found
  | apply _ constraint present ih =>
    exact (applyConstraint_touches ih constraint present).1.sound
  | bookkeeping _ diagnostics changedVars ih =>
    exact ⟨ih.built, ih.assigned, ih.joins, ih.meets⟩

end SolverState

/-! ## Cached answers -/

/-- An answer for a pair agrees with a fresh one, when answers in the two orders
agree. -/
theorem CachedAs.agrees {head : TypeArena → (TypeId → TypeId → TypeId → Prop) → Ty → Ty → Ty → Prop}
    {pick : TypeId → TypeId → TypeId} {later : TypeArena} {fresh back : TypeId}
    {fuel fuel' : Nat} (looksInside : LooksInside head) (wellFormed : arena.WellFormed)
    (keeps : arena.Extends later)
    (twoOrders : ∀ {fuel fuel' c d}, Merged head pick later fuel a b c →
      Merged head pick later fuel' b a d → Mutual later c d)
    (cached : CachedAs head pick arena a b ty) (freshPresent : arena.Present fresh)
    (freshMerged : Merged head pick later fuel a b fresh)
    (backMerged : Merged head pick later fuel' b a back) : Mutual arena ty fresh := by
  have agree : Mutual later ty fresh := by
    obtain ⟨_, _, _, _, merged⟩ := cached.extends looksInside wellFormed keeps
    rcases merged with sameOrder | otherOrder
    · have freshAgrees := twoOrders freshMerged backMerged
      exact (twoOrders sameOrder backMerged).trans ⟨freshAgrees.2, freshAgrees.1⟩
    · have freshAgrees := twoOrders freshMerged otherOrder
      exact ⟨freshAgrees.2, freshAgrees.1⟩
  exact ⟨(Below.extends wellFormed keeps cached.answer freshPresent).mp agree.1,
    (Below.extends wellFormed keeps freshPresent cached.answer).mp agree.2⟩

/-- A cached meet is, up to mutual subtyping, the one made now. -/
theorem cached_meet_agrees (built : arena.Built)
    (cached : CachedAs MeetHead (fun a _ => a) arena a b ty) :
    ∃ fresh, Returns (meet · arena a b) fresh ∧ Mutual fresh.1 ty fresh.2 := by
  obtain ⟨returns, grows, merged⟩ := meetTypes_spec built cached.first cached.second
  obtain ⟨_, growsBack, mergedBack⟩ := meetTypes_spec grows.built
    (grows.keeps.present cached.second) (grows.keeps.present cached.first)
  refine ⟨_, returns, ?_⟩
  exact (cached.extends meetHead_looksInside built.wellFormed grows.keeps).agrees meetHead_looksInside
    grows.built.wellFormed growsBack.keeps (meet_mutual growsBack.built.wellFormed _) grows.present
    (merged.extends meetHead_looksInside grows.built.wellFormed growsBack.keeps _
      (grows.keeps.present cached.first) (grows.keeps.present cached.second) grows.present)
    mergedBack

/-- A cached join is, up to mutual subtyping, the one made now. -/
theorem cached_join_agrees (built : arena.Built) (noFunctions : ¬ MergesFunctions arena a b)
    (cached : CachedAs JoinHead (fun _ b => b) arena a b ty) :
    ∃ fresh, Returns (join · arena a b) fresh ∧ Mutual fresh.1 ty fresh.2 := by
  obtain ⟨returns, grows, merged⟩ := joinTypes_spec built cached.first cached.second
  obtain ⟨_, growsBack, mergedBack⟩ := joinTypes_spec grows.built
    (grows.keeps.present cached.second) (grows.keeps.present cached.first)
  refine ⟨_, returns, ?_⟩
  exact (cached.extends joinHead_looksInside built.wellFormed grows.keeps).agrees joinHead_looksInside
    grows.built.wellFormed growsBack.keeps
    (join_mutual built.wellFormed growsBack.built.wellFormed (grows.keeps.trans growsBack.keeps) _
      cached.first cached.second noFunctions) grows.present
    (merged.extends joinHead_looksInside grows.built.wellFormed growsBack.keeps _
      (grows.keeps.present cached.first) (grows.keeps.present cached.second) grows.present)
    mergedBack

/-- Meets in the two orders are mutual subtypes, and a meet is below both types
exactly when they are meetable. So it is with joins and joinable types, as long as
no two functions are joined. In every state a solver reaches, the caches answer up
to mutual subtypes as a fresh call does. -/
theorem merges_bound {arena : TypeArena} (built : arena.Built) (a b : TypeId) :
    (∃ met back, Returns (meet · arena a b) met ∧ Returns (meet · met.1 b a) back ∧
      Mutual back.1 met.2 back.2 ∧
      (Below met.1 met.2 a ∧ Below met.1 met.2 b ↔ Meetable arena a b)) ∧
    (∃ joined back, Returns (join · arena a b) joined ∧ Returns (join · joined.1 b a) back ∧
      (¬ MergesFunctions arena a b → Mutual back.1 joined.2 back.2 ∧
        (Below joined.1 a joined.2 ∧ Below joined.1 b joined.2 ↔ Joinable arena a b))) ∧
    ∀ state, SolverState.Reached arena state → ∀ x y, state.arena.Present x → state.arena.Present y →
      (∃ fresh, Returns (meet · (state.meetCached x y).1.arena x y) fresh ∧
        Mutual fresh.1 (state.meetCached x y).2 fresh.2) ∧
      (¬ MergesFunctions (state.joinCached x y).1.arena x y →
        ∃ fresh, Returns (join · (state.joinCached x y).1.arena x y) fresh ∧
          Mutual fresh.1 (state.joinCached x y).2 fresh.2) := by
  refine ⟨meets_of_any built a b, joins_of_any built a b, fun state reached x y xPresent yPresent => ?_⟩
  have sound := reached.sound built
  obtain ⟨meetAdvances, metCached⟩ := SolverState.meetCached_advances sound xPresent yPresent
  obtain ⟨joinAdvances, joinCached⟩ := SolverState.joinCached_advances sound xPresent yPresent
  exact ⟨cached_meet_agrees meetAdvances.sound.built metCached,
    fun noFunctions => cached_join_agrees joinAdvances.sound.built noFunctions joinCached⟩

/-- The structures of one field each that a join merges. -/
def twoStructs : TypeArena :=
  [.int 32 .signed, .int 64 .unsigned, .structAnon, .structWithField 5 0 (some "a") 3,
    .structWithField 5 8 (some "b") 4].foldl (fun arena call => (arena.construct call).1)
    TypeArena.default

theorem twoStructs_built : twoStructs.Built := by
  refine .construct (.structWithField 5 8 (some "b") 4) (.construct (.structWithField 5 0 (some "a") 3)
    (.construct .structAnon (.construct (.int 64 .unsigned) (.construct (.int 32 .signed) .default ?_)
      ?_) ?_) ?_) ?_ <;> decide +kernel

/-- The join of the two structures has both fields, so that it is a subtype of each
and not the other way around; the meet of the two integers has no sign, so that it
is a subtype of neither. -/
theorem merges_unbounded : twoStructs.Built ∧
    (∃ joined, Returns (join · twoStructs 6 7) joined ∧ ¬ Below joined.1 6 joined.2 ∧
      ¬ Below joined.1 7 joined.2) ∧
    ∃ met, Returns (meet · twoStructs 3 4) met ∧ ¬ Below met.1 met.2 3 ∧ ¬ Below met.1 met.2 4 := by
  have built := twoStructs_built
  have structs := (joinTypes_spec built (a := 6) (b := 7) (by decide +kernel) (by decide +kernel)).1
  have ints := (meetTypes_spec built (a := 3) (b := 4) (by decide +kernel) (by decide +kernel)).1
  refine ⟨built, ⟨_, structs, ?_, ?_⟩, ⟨_, ints, ?_, ?_⟩⟩
  · exact not_below_of_isSubtype (by decide +kernel : isSubtype 20 _ _ _ = some false)
  · exact not_below_of_isSubtype (by decide +kernel : isSubtype 20 _ _ _ = some false)
  · exact not_below_of_isSubtype (by decide +kernel : isSubtype 20 _ _ _ = some false)
  · exact not_below_of_isSubtype (by decide +kernel : isSubtype 20 _ _ _ = some false)

/-- Two structures without a field at one offset. -/
def apartFields : Ty → Ty → Bool
  | .struct s, .struct t => s.fields.entries.all fun entry => (t.fields.get? entry.1).isNone
  | _, _ => false

private theorem twoStructs_no_functions : ¬ MergesFunctions twoStructs 6 7 := by
  have apart : apartFields (twoStructs.get 6) (twoStructs.get 7) = true := by decide +kernel
  have noParts : ∀ x y, ¬ JoinsParts (twoStructs.get 6) (twoStructs.get 7) x y := by
    intro x y parts
    revert apart
    cases parts with
    | struct inFirst inSecond =>
      intro all
      have none := all_eq_true.mp all _ (BTreeMap.mem_of_get? inFirst)
      rw [inSecond] at none
      cases none
  intro merges
  cases merges with
  | function aFunction _ _ _ =>
    rw [aFunction] at apart
    cases apart
  | inside _ parts _ => exact noParts _ _ parts

theorem merges_bound_twoStructs :
    ∃ joined back, Returns (join · twoStructs 6 7) joined ∧ Returns (join · joined.1 7 6) back ∧
      Mutual back.1 joined.2 back.2 ∧
      (Below joined.1 6 joined.2 ∧ Below joined.1 7 joined.2 ↔ Joinable twoStructs 6 7) := by
  obtain ⟨joined, back, returns, returnsBack, bound⟩ := (merges_bound twoStructs_built 6 7).2.1
  exact ⟨joined, back, returns, returnsBack, bound twoStructs_no_functions⟩

end R2Sleigh.Types
