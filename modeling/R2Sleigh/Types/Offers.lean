import R2Sleigh.Types.Worklist

/-!
Contract: what applying a constraint does to the assignment of one variable.

Owns `Handed` and `Offered`.
-/

namespace R2Sleigh.Types

open Lib Ssa TypeLattice List

variable {ty : TypeId} {priority : Nat} {state : SolverState} {var : VarId}
  {constraint : CompactConstraint}

def CompactConstraint.assigned : CompactConstraint → List VarId
  | .setType var _ _ => [var]
  | .subtype var _ _ => [var]
  | .hasCapability ptr _ _ => [ptr]
  | .callSig _ args params ret _ => (args.zip params ++ ret.toList).map Prod.fst
  | .fieldAccess basePtr _ _ _ _ => [basePtr]

namespace Constraint

def source : Constraint → ConstraintSource
  | .setType _ _ source => source
  | .equal _ _ source => source
  | .subtype _ _ source => source
  | .hasCapability _ _ _ source => source
  | .callSig _ _ _ _ source => source
  | .fieldAccess _ _ _ _ source => source

def assigned : Constraint → List SSAVar
  | .setType var _ _ => [var]
  | .equal _ _ _ => []
  | .subtype var _ _ => [var]
  | .hasCapability ptr _ _ _ => [ptr]
  | .callSig _ args params ret _ => (args.zip params ++ ret.toList).map Prod.fst
  | .fieldAccess basePtr _ _ _ _ => [basePtr]

theorem assigned_subset {constraint : Constraint} : ∀ var ∈ constraint.assigned, var ∈ constraint.vars := by
  intro var listed
  cases constraint with
  | equal a b source => cases listed
  | callSig target args params ret source =>
    obtain ⟨pair, mem, rfl⟩ := mem_map.mp listed
    rcases mem_append.mp mem with inArgs | isRet
    · exact mem_append_left _ (mem_cons_of_mem _ (of_mem_zip inArgs).1)
    · refine mem_append_right _ ?_
      simp only [Option.mem_toList] at isRet ⊢
      rw [isRet]
      rfl
  | _ => exact listed

theorem compactBy_assigned {constraint : Constraint} {rep : SSAVar → VarId}
    {compacted : CompactConstraint} (isCompact : constraint.compactBy rep = some compacted) :
    compacted.source = constraint.source ∧ compacted.assigned = constraint.assigned.map rep := by
  cases constraint with
  | equal a b source => cases isCompact
  | callSig target args params ret source =>
    cases isCompact
    refine ⟨rfl, ?_⟩
    have zipped : ((args.map rep).zip params).map Prod.fst = ((args.zip params).map Prod.fst).map rep := by
      rw [zip_map_left, map_map, map_map]
      rfl
    rw [CompactConstraint.assigned, assigned, map_append, map_append, map_append, zipped]
    cases ret <;> rfl
  | _ =>
    cases isCompact
    exact ⟨rfl, rfl⟩

end Constraint

theorem ConstraintSource.priority_cases (source : ConstraintSource) :
    source.priority < 3 ∨ source = .external := by
  cases source with
  | inferred | signatureRegistry => exact .inl (by decide)
  | external => exact .inr rfl

/-- A cached join of two types. -/
abbrev JoinedAs := CachedAs JoinHead fun _ b => b

/-- A cached meet of two types. -/
abbrev MetAs := CachedAs MeetHead fun a _ => a

inductive Offered (arena : TypeArena) (ty : TypeId) (priority : Nat) :
    Option Assignment → Assignment → Prop
  | kept {existing : Assignment} (higher : priority < existing.priority) :
      Offered arena ty priority (some existing) existing
  | taken {old : Option Assignment}
      (lower : ∀ existing, old = some existing → existing.priority < priority) :
      Offered arena ty priority old ⟨ty, priority⟩
  | joined {existing : Assignment} {ty' : TypeId} (equal : existing.priority = priority)
      (joins : JoinedAs arena existing.ty ty ty') :
      Offered arena ty priority (some existing) ⟨ty', priority⟩

theorem Offered.extends {arena arena' : TypeArena}
    {old : Option Assignment} {new : Assignment} (wellFormed : arena.WellFormed)
    (keeps : arena.Extends arena') (offered : Offered arena ty priority old new) :
    Offered arena' ty priority old new := by
  cases offered with
  | kept higher => exact .kept higher
  | taken lower => exact .taken lower
  | joined equal joins => exact .joined equal (joins.extends joinHead_looksInside wellFormed keeps)

theorem joinedAs_self {arena : TypeArena} (present : arena.Present ty) : JoinedAs arena ty ty ty :=
  ⟨present, present, present, 1, .inl (.inl ⟨Below.refl arena ty, rfl⟩)⟩

namespace SolverState

theorem setAssignment_self (assignment : Assignment) (inside : var < state.assignments.length) :
    (state.setAssignment var assignment).assignment var = some assignment := by
  have written : (state.assignments.set var (some assignment)).getD var none = some assignment := by
    simp [List.getD, inside]
  exact written

theorem assign_offered (sound : state.Sound)
    (inside : var < state.assignments.length) (priority : Nat)
    (present : state.arena.Present ty) : ∃ new,
      (state.assign var ty priority).1.assignment var = some new ∧
        Offered (state.assign var ty priority).1.arena ty priority (state.assignment var) new := by
  cases assigned : state.assignment var with
  | none =>
    rw [assign_fresh assigned]
    exact ⟨_, setAssignment_self _ inside, .taken nofun⟩
  | some existing =>
    rcases lt_trichotomy existing.priority priority with lower | equal | higher
    · obtain ⟨diagnostics, same⟩ := @assign_over _ _ ty _ _ assigned lower
      rw [same]
      exact ⟨_, @setAssignment_self { state with diagnostics } _ _ inside,
        .taken fun _ isExisting => Option.some.inj isExisting ▸ lower⟩
    · by_cases same : existing.ty = ty
      · rw [assign_same assigned equal same]
        refine ⟨existing, assigned, ?_⟩
        subst same equal
        exact .joined rfl (joinedAs_self present)
      · rw [assign_joined assigned equal same]
        obtain ⟨touches, _⟩ := joinCached_touches sound (sound.assigned var existing assigned)
          present []
        have joins := (joinCached_advances sound (sound.assigned var existing assigned) present).2
        split
        · exact ⟨_, setAssignment_self _ (touches.length ▸ inside), .joined equal joins⟩
        · rename_i kept
          have same := not_ne_iff.mp kept
          refine ⟨existing, (touches.outside var not_mem_nil).trans assigned, ?_⟩
          rw [same] at joins
          subst equal
          exact .joined rfl joins
    · rw [assign_under assigned higher]
      exact ⟨existing, assigned, .kept higher⟩

/-- The types that a constraint hands to an assignment of a variable, with their
priorities. -/
inductive Handed (state : SolverState) (var : VarId) : CompactConstraint → TypeId → Nat → Prop
  | setType (ty : TypeId) (source : ConstraintSource) :
      Handed state var (.setType var ty source) ty source.priority
  | unassigned (ty : TypeId) (source : ConstraintSource) (none : state.assignment var = none) :
      Handed state var (.subtype var ty source) ty source.priority
  | met {existing : Assignment} (ty : TypeId) (source : ConstraintSource)
      (assigned : state.assignment var = some existing) :
      Handed state var (.subtype var ty source) (state.meetCached existing.ty ty).2
        (max source.priority existing.priority)
  | pointer (elemTy : TypeId) (source : ConstraintSource) :
      Handed state var (.hasCapability var elemTy source) (state.arena.ptr elemTy).2 source.priority
  | argument {target : VarId} {args : List VarId} {params : List TypeId}
      {ret : Option (VarId × TypeId)} {ty : TypeId} (source : ConstraintSource)
      (listed : (var, ty) ∈ args.zip params ++ ret.toList) :
      Handed state var (.callSig target args params ret source) ty source.priority
  | field {offset : Nat} {fieldTy : TypeId} {fieldName : Option String} (source : ConstraintSource)
      (missing : state.accessIsNoop var offset fieldTy fieldName = false) :
      Handed state var (.fieldAccess var offset fieldTy fieldName source)
        (state.fieldPointer var offset fieldTy fieldName).2 source.priority

/-- The field accesses that write a variable's type in place. -/
inductive Rewrites (state : SolverState) (var : VarId) : CompactConstraint → TypeId → Nat → Prop
  | field {existing : Assignment} {offset : Nat} {fieldTy : TypeId} {fieldName : Option String}
      (source : ConstraintSource)
      (missing : state.accessIsNoop var offset fieldTy fieldName = false)
      (assigned : state.assignment var = some existing)
      (equal : existing.priority = source.priority) :
      Rewrites state var (.fieldAccess var offset fieldTy fieldName source)
        (state.fieldPointer var offset fieldTy fieldName).2 source.priority

theorem Handed.assigned (handed : state.Handed var constraint ty priority) :
    var ∈ constraint.assigned := by
  cases handed with
  | argument source listed => exact mem_map.mpr ⟨_, listed, rfl⟩
  | _ => exact mem_singleton.mpr rfl

theorem Rewrites.assigned (rewrites : state.Rewrites var constraint ty priority) :
    var ∈ constraint.assigned := by
  cases rewrites
  exact mem_singleton.mpr rfl

private theorem assignAll_moves {property : Option Assignment → Prop}
    {last : TypeArena} {pairs : List (VarId × TypeId)} : ∀ {state : SolverState}, state.Sound →
    var < state.assignments.length → (∀ pair ∈ pairs, state.arena.Present pair.2) →
    (state.assignAll priority pairs).1.arena.Extends last →
    (∀ ty, (var, ty) ∈ pairs → ∀ old new, property old → Offered last ty priority old new →
      property (some new)) →
    property (state.assignment var) →
    property ((state.assignAll priority pairs).1.assignment var) := by
  induction pairs with
  | nil => exact fun _ _ _ _ _ holds => holds
  | cons pair rest ih =>
    intro state sound inside present keeps offered holds
    obtain ⟨pairPresent, restPresent⟩ := forall_mem_cons.mp present
    obtain ⟨first, _⟩ := assign_touches sound pair.1 priority pairPresent
    have laterPresent : ∀ other ∈ rest,
        (state.assign pair.1 pair.2 priority).1.arena.Present other.2 :=
      fun other mem => first.keeps.present (restPresent other mem)
    have others := (@assignAll_touches priority rest _ _ first.sound laterPresent
      fun pair mem => mem_map_of_mem mem).1
    refine @ih (state.assign pair.1 pair.2 priority).1 first.sound
      (first.length ▸ inside) laterPresent keeps
      (fun ty mem => offered ty (mem_cons_of_mem _ mem)) ?_
    by_cases same : var = pair.1
    · subst same
      obtain ⟨new, assigned, moved⟩ := assign_offered sound inside priority pairPresent
      rw [assigned]
      refine offered pair.2 mem_cons_self _ new holds ?_
      exact moved.extends first.sound.built.wellFormed (others.keeps.trans keeps)
    · rwa [first.outside var (by simpa using same)]

/-- A property of a variable's assignment survives an application when it survives
every type offered and every pointer written in place. -/
theorem applyConstraint_moves (sound : state.Sound)
    (present : ∀ id ∈ constraint.types, state.arena.Present id)
    (inside : var < state.assignments.length) {property : Option Assignment → Prop}
    (holds : property (state.assignment var))
    (offered : ∀ ty priority, state.Handed var constraint ty priority → ∀ old new, property old →
      Offered (state.applyConstraint constraint).1.arena ty priority old new → property (some new))
    (rewritten : ∀ ty priority, state.Rewrites var constraint ty priority →
      property (some ⟨ty, priority⟩)) :
    property ((state.applyConstraint constraint).1.assignment var) := by
  by_cases outside : var ∉ constraint.referencedVars
  · rwa [(applyConstraint_touches sound constraint present).1.outside var outside]
  cases constraint with
  | setType target ty source =>
    obtain rfl : var = target := by simpa [CompactConstraint.referencedVars] using outside
    rw [applyConstraint] at offered ⊢
    obtain ⟨new, assigned, moved⟩ := assign_offered sound inside source.priority
      (present ty (by simp [CompactConstraint.types]))
    rw [CompactConstraint.source, assigned]
    exact offered ty _ (.setType ty source) _ new holds moved
  | subtype target ty source =>
    obtain rfl : var = target := by simpa [CompactConstraint.referencedVars] using outside
    rw [applyConstraint] at offered ⊢
    have tyPresent := present ty (by simp [CompactConstraint.types])
    rw [CompactConstraint.source, applySubtype] at offered ⊢
    cases assigned : state.assignment var with
    | none =>
      rw [assigned] at offered holds
      obtain ⟨new, written, moved⟩ := assign_offered sound inside source.priority tyPresent
      rw [assigned] at moved
      rw [written]
      exact offered ty _ (.unassigned ty source assigned) _ new holds moved
    | some existing =>
      rw [assigned] at offered holds
      have ePresent := sound.assigned var existing assigned
      obtain ⟨touches, _⟩ := meetCached_touches sound ePresent tyPresent []
      obtain ⟨new, written, moved⟩ := assign_offered touches.sound (touches.length ▸ inside)
        (max source.priority existing.priority)
        (meetCached_advances sound ePresent tyPresent).2.answer
      rw [touches.outside var not_mem_nil, assigned] at moved
      rw [written]
      exact offered _ _ (.met ty source assigned) _ new holds moved
  | hasCapability target elemTy source =>
    obtain rfl : var = target := by simpa [CompactConstraint.referencedVars] using outside
    have grows := grows_ptr sound.built (present elemTy (by simp [CompactConstraint.types]))
    have pointed := sound.withArena_touches grows [var]
    rw [applyConstraint] at offered ⊢
    obtain ⟨new, written, moved⟩ := assign_offered pointed.sound (pointed.length ▸ inside)
      source.priority grows.present
    exact written ▸ offered _ _ (.pointer elemTy source) _ new holds moved
  | callSig target args params ret source =>
    have typesPresent : ∀ pair ∈ args.zip params ++ ret.toList, state.arena.Present pair.2 :=
      fun pair mem => present pair.2 (mem_types pair mem)
    exact assignAll_moves sound inside typesPresent (.refl _)
      (fun ty listed => offered ty _ (.argument source listed)) holds
  | fieldAccess target offset fieldTy fieldName source =>
    obtain rfl : var = target := by simpa [CompactConstraint.referencedVars] using outside
    have unfolded : state.applyConstraint (.fieldAccess var offset fieldTy fieldName source) =
        state.applyFieldAccess var offset fieldTy fieldName source.priority := rfl
    rw [unfolded] at offered ⊢
    rw [applyFieldAccess] at offered ⊢
    split
    · exact holds
    · rename_i noField
      rw [if_neg noField] at offered
      dsimp only at offered ⊢
      have tyPresent := present fieldTy (by simp [CompactConstraint.types])
      obtain ⟨pointed, ptrPresent, _⟩ := fieldPointer_touches sound var offset fieldName tyPresent []
      have kept := pointed.outside var not_mem_nil
      have missing : state.accessIsNoop var offset fieldTy fieldName = false :=
        Bool.eq_false_iff.mpr noField
      obtain ⟨new, written, moved⟩ := assign_offered pointed.sound (pointed.length ▸ inside)
        source.priority ptrPresent
      rw [kept] at moved
      unfold assignPointer at offered ⊢
      rw [kept] at offered ⊢
      cases assigned : state.assignment var with
      | none =>
        rw [assigned] at offered holds moved
        rw [written]
        exact offered _ _ (.field source missing) _ new holds moved
      | some existing =>
        rw [assigned] at offered holds moved
        dsimp only at offered ⊢
        split
        · rename_i equal
          have inPlace := rewritten _ _ (.field source missing assigned equal)
          split
          · rw [setAssignment_self _ (pointed.length ▸ inside), equal]
            exact inPlace
          · rename_i sameTy
            rw [kept, assigned]
            rw [← not_ne_iff.mp sameTy, ← equal] at inPlace
            exact inPlace
        · rename_i differs
          rw [if_neg differs] at offered
          rw [written]
          exact offered _ _ (.field source missing) _ new holds moved

end SolverState

end R2Sleigh.Types
