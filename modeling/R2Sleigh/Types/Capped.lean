import R2Sleigh.Types.Pinned

/-!
Contract: upper bounds that subtype constraints put on solved types.

Owns `Tight`.
-/

namespace R2Sleigh.Types

open Lib Ssa TypeLattice List Option

/-! ## Joins below a type -/

private theorem mergeSign_below {a b upper : Signedness} (first : signBelow a upper = true)
    (second : signBelow b upper = true) : signBelow (mergeSign a b) upper = true := by
  cases a <;> cases b <;> cases upper <;> simp [signBelow, mergeSign] at first second ⊢

private theorem merged_len_below {a b upper : Option Nat} (first : lenBelow a upper = true)
    (second : lenBelow b upper = true) : lenBelow (if a = b then a else none) upper = true := by
  split
  · exact first
  · cases upper with
    | none => rfl
    | some length =>
      cases a <;> cases b <;> simp_all [lenBelow]

theorem merged_join_below {arena : TypeArena} (built : arena.Built) (fuel : Nat) :
    ∀ {a b joined upper : TypeId}, arena.Present a → arena.Present b →
      Merged JoinHead (fun _ b => b) arena fuel a b joined → Below arena a upper →
      Below arena b upper → Below arena joined upper := by
  have wellFormed := built.wellFormed
  induction fuel with
  | zero => exact fun _ _ none => none.elim
  | succ fuel ih =>
    intro a b joined upper aPresent bPresent merged aBelow bBelow
    rcases merged with ⟨_, rfl⟩ | ⟨_, _, rfl⟩ | ⟨notBelow, notAbove, head⟩
    · exact bBelow
    · exact aBelow
    have aHead : HeadBelow (Below arena) (arena.get a) (arena.get upper) := by
      refine ((below_iff wellFormed).mp aBelow).resolve_left ?_
      rintro rfl
      exact notAbove bBelow
    have bHead : HeadBelow (Below arena) (arena.get b) (arena.get upper) := by
      refine ((below_iff wellFormed).mp bBelow).resolve_left ?_
      rintro rfl
      exact notBelow aBelow
    generalize ofA : arena.get a = x at head aHead
    generalize ofB : arena.get b = y at head bHead
    generalize ofUpper : arena.get upper = u at aHead bHead
    generalize ofJoined : arena.get joined = z at head
    -- Neither side is `Bottom`, which is comparable to everything.
    have aNotBottom : x ≠ .bottom := by
      rintro rfl
      exact notBelow (below_bottom wellFormed ofA)
    have bNotBottom : y ≠ .bottom := by
      rintro rfl
      exact notAbove (below_bottom wellFormed ofB)
    have toInt : ∀ {bits upperBits : Nat} {sign upperSign : Signedness},
        z = .int bits sign → u = .int upperBits upperSign → bits ≤ upperBits →
        signBelow sign upperSign = true → Below arena joined upper := by
      rintro bits upperBits sign upperSign rfl rfl narrower signs
      exact (below_int_iff wellFormed ofJoined ofUpper).mpr ⟨narrower, signs⟩
    cases aHead with
    | top _ => exact below_top ofUpper
    | bottom _ => exact absurd rfl aNotBottom
    | bool sign positive =>
      cases bHead with
      | bottom _ => exact absurd rfl bNotBottom
      | bool _ _ =>
        exact absurd (eq_of_get_eq built aPresent bPresent (ofA.trans ofB.symm) ▸
          Below.refl arena a) notBelow
      | int narrower signs =>
        cases head with
        | boolInt _ _ => exact toInt rfl rfl (max_le narrower positive) signs
        | top apart => cases apart
    | int narrower signs =>
      cases bHead with
      | bottom _ => exact absurd rfl bNotBottom
      | bool sign positive =>
        cases head with
        | intBool _ _ => exact toInt rfl rfl (max_le narrower positive) signs
        | top apart => cases apart
      | int narrower' signs' =>
        cases head with
        | int _ _ _ _ =>
          exact toInt rfl rfl (max_le narrower narrower') (mergeSign_below signs signs')
        | top apart => cases apart
    | float _ =>
      cases bHead with
      | bottom _ => exact absurd rfl bNotBottom
      | float _ => exact ((floats_comparable wellFormed ofA ofB).elim notBelow notAbove).elim
    | ptr inner =>
      cases bHead with
      | bottom _ => exact absurd rfl bNotBottom
      | ptr inner' =>
        cases head with
        | ptr joinedInner =>
          exact (below_ptr_iff wellFormed ofJoined ofUpper).mpr (ih
            (wellFormed.part_present ofA (by simp [Ty.components]))
            (wellFormed.part_present ofB (by simp [Ty.components])) joinedInner inner inner')
        | top apart => cases apart
    | array aStride bStride len elem =>
      cases bHead with
      | bottom _ => exact absurd rfl bNotBottom
      | array aStride' _ len' elem' =>
        cases head with
        | array _ _ _ _ joinedElem =>
          exact (below_array_iff wellFormed ofJoined ofUpper).mpr ⟨merged_len_below len len',
            ih (wellFormed.part_present ofA (by simp [Ty.components]))
              (wellFormed.part_present ofB (by simp [Ty.components])) joinedElem elem elem'⟩
        | top apart => cases apart
    | struct fields =>
      cases bHead with
      | bottom _ => exact absurd rfl bNotBottom
      | struct fields' =>
        cases head with
        | struct both _ _ =>
          refine (below_struct_iff wellFormed ofJoined ofUpper).mpr fun off field found => ?_
          obtain ⟨f, inA, fBelow⟩ := fields off field found
          obtain ⟨g, inB, gBelow⟩ := fields' off field found
          obtain ⟨h, inJoined, joinedField⟩ := both off f g inA inB
          exact ⟨h, inJoined, ih
            (wellFormed.part_present ofA (field_mem_components (BTreeMap.mem_of_get? inA)))
            (wellFormed.part_present ofB (field_mem_components (BTreeMap.mem_of_get? inB)))
            joinedField fBelow gBelow⟩
        | top apart => cases apart

private theorem joinedAs_below {arena : TypeArena} (built : arena.Built) {a b joined upper : TypeId}
    (joins : JoinedAs arena a b joined) (aBelow : Below arena a upper) (bBelow : Below arena b upper) :
    Below arena joined upper := by
  obtain ⟨aPresent, bPresent, _, fuel, merged | merged⟩ := joins
  · exact merged_join_below built fuel aPresent bPresent merged aBelow bBelow
  · exact merged_join_below built fuel bPresent aPresent merged bBelow aBelow

/-! ## One application -/

namespace SolverState

section Capped

variable {state : SolverState} {constraint : CompactConstraint} {rep : VarId} {priority : Nat}

theorem Rewrites.handed {ty : TypeId} {priority : Nat}
    (rewrites : state.Rewrites rep constraint ty priority) :
    state.Handed rep constraint ty priority := by
  cases rewrites with
  | field source missing _ _ => exact .field source missing

/-- What is handed to a variable has at most the priority of its constraints and of its
assignment. -/
theorem Handed.priority_le {ty : TypeId} {handedPriority : Nat}
    (handed : state.Handed rep constraint ty handedPriority)
    (low : rep ∈ constraint.assigned → constraint.source.priority ≤ priority)
    (bounded : ∀ existing, state.assignment rep = some existing → existing.priority ≤ priority) :
    handedPriority ≤ priority := by
  have source := low handed.assigned
  cases handed with
  | met ty source' assigned => exact max_le source (bounded _ assigned)
  | _ => exact source

/-- An application keeps a bound on the priority of a variable, and the bound on its
types of that priority when all that is handed is below it. -/
theorem applyConstraint_capped (sound : state.Sound)
    (present : ∀ id ∈ constraint.types, state.arena.Present id)
    (inside : rep < state.assignments.length)
    (low : rep ∈ constraint.assigned → constraint.source.priority ≤ priority)
    (bounded : ∀ existing, state.assignment rep = some existing → existing.priority ≤ priority) :
    (∀ existing, (state.applyConstraint constraint).1.assignment rep = some existing →
      existing.priority ≤ priority) ∧
    ∀ bound, (∀ ty, state.Handed rep constraint ty priority →
        Below (state.applyConstraint constraint).1.arena ty bound) →
      (∀ existing, state.assignment rep = some existing → existing.priority = priority →
        Below (state.applyConstraint constraint).1.arena existing.ty bound) →
      ∀ existing, (state.applyConstraint constraint).1.assignment rep = some existing →
        existing.priority = priority →
          Below (state.applyConstraint constraint).1.arena existing.ty bound := by
  have built := (applyConstraint_touches sound constraint present).1.sound.built
  constructor
  · refine @applyConstraint_moves _ _ _ sound present inside
      (fun assigned => ∀ existing, assigned = some existing → existing.priority ≤ priority) bounded ?_ ?_
    · intro ty handedPriority handed old new holds offered existing isNew
      cases isNew
      have most := handed.priority_le low bounded
      cases offered with
      | kept _ => exact holds _ rfl
      | taken | joined => exact most
    · intro ty handedPriority rewrites existing isNew
      cases isNew
      exact rewrites.handed.priority_le low bounded
  · intro bound handsBelow below
    refine @applyConstraint_moves _ _ _ sound present inside
      (fun assigned => ∀ existing, assigned = some existing → existing.priority = priority →
        Below (state.applyConstraint constraint).1.arena existing.ty bound) below ?_ ?_
    · intro ty handedPriority handed old new holds offered existing isNew isPriority
      cases isNew
      cases offered with
      | kept _ => exact holds _ rfl isPriority
      | taken _ =>
        obtain rfl : handedPriority = priority := isPriority
        exact handsBelow ty handed
      | joined equal joins =>
        obtain rfl : handedPriority = priority := isPriority
        exact joinedAs_below built joins (holds _ rfl equal) (handsBelow ty handed)
    · intro ty handedPriority rewrites existing isNew isPriority
      cases isNew
      obtain rfl : handedPriority = priority := isPriority
      exact handsBelow ty rewrites.handed

end Capped

end SolverState

/-! ## Runs -/

namespace Worklist

/-- Before a subtype constraint is applied to a variable that has its priority already,
the variable's type is below its bound. -/
def Tight (constraints : List CompactConstraint) (rep : VarId) (bound : TypeId)
    (source : ConstraintSource) (work : Worklist) : Prop :=
  ∀ (index : ConstraintIdx) (queue : List ConstraintIdx) (existing : Assignment),
    work.queue = index :: queue → constraints[index]? = some (.subtype rep bound source) →
    work.state.assignment rep = some existing → existing.priority = source.priority →
    Below work.state.arena existing.ty bound

/-- Every type that the next constraint hands to a variable at a priority is below a
bound. -/
def HandsBelow (constraints : List CompactConstraint) (rep : VarId) (bound : TypeId)
    (priority : Nat) (work : Worklist) : Prop :=
  ∀ (index : ConstraintIdx) (queue : List ConstraintIdx) (constraint : CompactConstraint)
    (ty : TypeId), work.queue = index :: queue → constraints[index]? = some constraint →
    work.popping.Handed rep constraint ty priority →
    Below (work.popping.applyConstraint constraint).1.arena ty bound

/-- The next application does not lower the type that a variable has at a priority. -/
def Rises (constraints : List CompactConstraint) (adjacency : List (List ConstraintIdx))
    (rep : VarId) (priority : Nat) (work : Worklist) : Prop :=
  ∀ existing next, work.state.assignment rep = some existing → existing.priority = priority →
    (work.pop constraints adjacency).state.assignment rep = some next →
    Below (work.pop constraints adjacency).state.arena existing.ty next.ty

/-- No constraint on a variable has a greater priority. -/
structure Highest (constraints : List CompactConstraint) (vars : List SSAVar) (rep : VarId)
    (priority : Nat) : Prop where
  inside : rep < vars.length
  low : ∀ constraint ∈ constraints, rep ∈ constraint.assigned → constraint.source.priority ≤ priority

section Runs

variable {arena : TypeArena} {constraints : List CompactConstraint}
variable {adjacency : List (List ConstraintIdx)} {vars : List SSAVar} {rep : VarId}
variable {bound : TypeId} {priority : Nat} {source : ConstraintSource} {work : Worklist}

section

variable (highest : Highest constraints vars rep priority)
  (regular : Regular arena constraints vars work.state)
include highest regular

theorem pop_bounded
    (bounded : ∀ existing, work.state.assignment rep = some existing → existing.priority ≤ priority) :
    ∀ existing, (work.pop constraints adjacency).state.assignment rep = some existing →
      existing.priority ≤ priority := by
  refine pop_keeps (fun state => ∀ existing, state.assignment rep = some existing →
    existing.priority ≤ priority) (fun _ _ _ holds => holds) bounded
    fun index queue constraint listed _ _ => ?_
  have start := regular.popping
  exact (SolverState.applyConstraint_capped start.sound (start.present constraint listed)
    (start.length.symm ▸ highest.inside) (highest.low constraint listed) bounded).1

/-- One constraint keeps the assignment below the bound. -/
theorem pop_capped
    (boundPresent : work.state.arena.Present bound)
    (bounded : ∀ existing, work.state.assignment rep = some existing → existing.priority ≤ priority)
    (handsBelow : work.HandsBelow constraints rep bound priority)
    (below : ∀ existing, work.state.assignment rep = some existing → existing.priority = priority →
      Below work.state.arena existing.ty bound) :
    ∀ existing, (work.pop constraints adjacency).state.assignment rep = some existing →
      existing.priority = priority →
        Below (work.pop constraints adjacency).state.arena existing.ty bound := by
  refine pop_keeps (fun state => ∀ existing, state.assignment rep = some existing →
    existing.priority = priority → Below state.arena existing.ty bound) (fun _ _ _ holds => holds)
    below fun index queue constraint listed isQueue found => ?_
  have start := regular.popping
  have present := start.present constraint listed
  obtain ⟨touches, _⟩ := SolverState.applyConstraint_touches start.sound constraint present
  refine (SolverState.applyConstraint_capped start.sound present
    (start.length.symm ▸ highest.inside) (highest.low constraint listed) bounded).2 bound
    (fun ty handed => handsBelow index queue constraint ty isQueue found handed) ?_
  intro existing assigned isPriority
  exact (Below.extends start.sound.built.wellFormed touches.keeps
    (start.sound.assigned _ _ assigned) boundPresent).mpr (below existing assigned isPriority)

end

/-- A subtype constraint out of the queue bounds its variable. -/
structure Bounds (constraints : List CompactConstraint) (rep : VarId) (bound : TypeId)
    (source : ConstraintSource) (work : Worklist) : Prop where
  bounded : ∀ existing, work.state.assignment rep = some existing → existing.priority ≤ source.priority
  below : ∀ index : ConstraintIdx, constraints[index]? = some (.subtype rep bound source) →
    work.inQueue[index]? = some false → ∃ existing, work.state.assignment rep = some existing ∧
      existing.priority = source.priority ∧ Below work.state.arena existing.ty bound

private theorem priority_of_settled {state : SolverState}
    (settled : state.Settled (.subtype rep bound source))
    (bounded : ∀ existing, state.assignment rep = some existing → existing.priority ≤ source.priority) :
    ∃ existing, state.assignment rep = some existing ∧ existing.priority = source.priority := by
  obtain ⟨existing, met, assigned, _, other, assigned', reason⟩ := settled
  obtain rfl := some.inj (assigned.symm.trans assigned')
  have most := bounded existing assigned
  refine ⟨existing, assigned, ?_⟩
  have reason : max source.priority existing.priority < existing.priority ∨
      existing.priority = max source.priority existing.priority :=
    reason.imp_right And.left
  rcases reason with less | equal
  · exact absurd (le_max_right source.priority existing.priority) (Nat.not_le_of_lt less)
  · exact Nat.le_antisymm most (equal ▸ le_max_left source.priority existing.priority)

theorem Bounds.pop (covers : Covers adjacency constraints)
    (highest : Highest constraints vars rep source.priority) (tight : work.Tight constraints rep bound source)
    (inv : Inv arena constraints vars work) (boundPresent : work.state.arena.Present bound)
    (bounds : work.Bounds constraints rep bound source) :
    (work.pop constraints adjacency).Bounds constraints rep bound source := by
  have popInv := inv.pop covers
  have bounded := @pop_bounded arena constraints adjacency vars rep source.priority work highest
    inv.regular bounds.bounded
  refine ⟨bounded, fun index found unqueued => ?_⟩
  obtain ⟨existing, assigned, isPriority⟩ :=
    priority_of_settled (popInv.settled index _ found unqueued) bounded
  refine ⟨existing, assigned, isPriority, ?_⟩
  cases isQueue : work.queue with
  | nil =>
    rw [pop_empty isQueue] at unqueued assigned ⊢
    obtain ⟨known, assigned', _, below⟩ := bounds.below index found unqueued
    rwa [← some.inj (assigned'.symm.trans assigned)]
  | cons popped queue =>
    rw [pop_cons isQueue] at unqueued
    obtain ⟨pushed, queued⟩ := @requeue_spec adjacency (applied constraints work popped).changedVars
      ⟨applied constraints work popped, queue, work.inQueue.set popped false⟩
    -- Had the application changed the variable, the constraint would be in the queue.
    have unmarked : rep ∉ (applied constraints work popped).changedVars := fun marked =>
      queued rep marked index (covers index _ found rep (mem_singleton.mpr rfl)) unqueued
    have before := pushed.unqueued index unqueued
    obtain ⟨diagnostics, same⟩ := @pop_cons_state constraints adjacency _ _ _ isQueue
    rw [same] at assigned ⊢
    have start := inv.regular.popping
    have kept : work.state.assignment rep = some existing ∧
        work.state.arena.Extends (applied constraints work popped).arena := by
      unfold applied at assigned unmarked ⊢
      cases isPopped : constraints[popped]? with
      | none =>
        rw [isPopped] at assigned
        exact ⟨assigned, .refl _⟩
      | some constraint =>
        rw [isPopped] at assigned unmarked
        obtain ⟨touches, _⟩ := SolverState.applyConstraint_touches start.sound constraint
          (start.present constraint (mem_of_getElem? isPopped))
        exact ⟨(touches.others rep unmarked).symm.trans assigned, touches.keeps⟩
    have below : Below work.state.arena existing.ty bound := by
      by_cases isIndex : popped = index
      · subst isIndex
        exact tight popped queue existing isQueue found kept.1 isPriority
      · have flag : (work.inQueue.set popped false)[index]? = some false := before
        rw [List.getElem?_set_ne isIndex] at flag
        obtain ⟨known, assigned', _, below⟩ := bounds.below index found flag
        rwa [← some.inj (assigned'.symm.trans kept.1)]
    exact (Below.extends inv.regular.sound.built.wellFormed kept.2
      (inv.regular.sound.assigned _ _ kept.1) boundPresent).mpr below

private theorem pop_keeps_priority (highest : Highest constraints vars rep priority)
    (regular : Regular arena constraints vars work.state)
    (assigned : ∃ existing, work.state.assignment rep = some existing ∧ priority ≤ existing.priority) :
    ∃ existing, (work.pop constraints adjacency).state.assignment rep = some existing ∧
      priority ≤ existing.priority := by
  refine pop_keeps (fun state => ∃ existing, state.assignment rep = some existing ∧
    priority ≤ existing.priority) (fun _ _ _ holds => holds) assigned
    fun index queue constraint listed _ _ => ?_
  have start := regular.popping
  refine @SolverState.applyConstraint_moves _ _ _ start.sound
    (start.present constraint listed)
    (start.length.symm ▸ highest.inside) (fun assigned => ∃ existing,
      assigned = some existing ∧ priority ≤ existing.priority) assigned ?_ ?_
  · rintro ty handedPriority _ _ new ⟨old, rfl, most⟩ offered
    refine ⟨new, rfl, ?_⟩
    cases offered with
    | kept _ => exact most
    | taken lower => exact Nat.le_of_lt (Nat.lt_of_le_of_lt most (lower old rfl))
    | joined equal _ => exact equal ▸ most
  · intro ty handedPriority rewrites
    obtain ⟨old, isOld, most⟩ := assigned
    cases rewrites with
    | field source _ assigned' equal =>
      obtain rfl := some.inj (isOld.symm.trans assigned')
      exact ⟨_, rfl, equal ▸ most⟩

private theorem pop_extends (regular : Regular arena constraints vars work.state) :
    work.state.arena.Extends (work.pop constraints adjacency).state.arena := by
  have fromHere : Regular work.state.arena constraints vars work.state :=
    { regular with grown := .refl _ }
  exact (@Kept.pop constraints adjacency _ (regular_kept vars) _ fromHere).grown

/-- The type that a variable has at its highest priority, followed along a run. -/
structure Grown (arena : TypeArena) (constraints : List CompactConstraint) (vars : List SSAVar)
    (rep : VarId) (priority : Nat) (earlier : SolverState) (ty : TypeId) (work : Worklist) : Prop where
  inv : Inv arena constraints vars work
  bounded : ∀ existing, work.state.assignment rep = some existing → existing.priority ≤ priority
  keeps : earlier.arena.Extends work.state.arena
  above : ∃ existing, work.state.assignment rep = some existing ∧ existing.priority = priority ∧
    Below work.state.arena ty existing.ty

theorem Grown.pop (covers : Covers adjacency constraints)
    (highest : Highest constraints vars rep priority) {earlier : SolverState} {ty : TypeId}
    (tyPresent : earlier.arena.Present ty) (rises : work.Rises constraints adjacency rep priority)
    (grown : Grown arena constraints vars rep priority earlier ty work) :
    Grown arena constraints vars rep priority earlier ty (work.pop constraints adjacency) := by
  obtain ⟨existing, assigned, isPriority, below⟩ := grown.above
  have bounded := @pop_bounded arena constraints adjacency vars rep priority work highest
    grown.inv.regular grown.bounded
  have keeps := @pop_extends arena constraints adjacency vars work grown.inv.regular
  obtain ⟨next, assigned', most⟩ := @pop_keeps_priority arena constraints adjacency vars rep priority
    work highest grown.inv.regular ⟨existing, assigned, isPriority.ge⟩
  refine ⟨grown.inv.pop covers, bounded, grown.keeps.trans keeps, next, assigned',
    Nat.le_antisymm (bounded next assigned') most, ?_⟩
  have before := (Below.extends grown.inv.regular.sound.built.wellFormed keeps
    (grown.keeps.present tyPresent) (grown.inv.regular.sound.assigned _ _ assigned)).mpr below
  exact before.trans (rises existing next assigned isPriority assigned')

end Runs

end Worklist

/-! ## Solutions -/

section Solutions

variable {arena : TypeArena} {constraints : List Constraint} {var : SSAVar} {bound : TypeId}
variable {source : ConstraintSource}

/-- A subtype constraint that no constraint on the class exceeds in priority. -/
structure HighestBound (constraints : List Constraint) (var : SSAVar) (bound : TypeId)
    (source : ConstraintSource) : Prop where
  listed : Constraint.subtype var bound source ∈ constraints
  low : ∀ constraint ∈ constraints, ∀ mem ∈ constraint.assigned,
    Connected constraints mem var → constraint.source.priority ≤ source.priority

theorem HighestBound.mentioned (highest : HighestBound constraints var bound source) :
    var ∈ mentioned constraints :=
  mem_flatMap.mpr ⟨_, highest.listed, mem_singleton.mpr rfl⟩

theorem HighestBound.compact (highest : HighestBound constraints var bound source) :
    .subtype (representative constraints var) bound source ∈
      (rewriteEqualConstraints constraints).constraints :=
  mem_rewritten.mpr ⟨_, highest.listed, rfl⟩

theorem HighestBound.highest (highest : HighestBound constraints var bound source) :
    Worklist.Highest (rewriteEqualConstraints constraints).constraints (interned constraints).vars
      (representative constraints var) source.priority := by
  refine ⟨representative_lt highest.mentioned, fun compacted listed isAssigned => ?_⟩
  obtain ⟨constraint, mem, isCompact⟩ := mem_rewritten.mp listed
  obtain ⟨sameSource, assigns⟩ := Constraint.compactBy_assigned isCompact
  rw [assigns] at isAssigned
  obtain ⟨other, inConstraint, sameRep⟩ := mem_map.mp isAssigned
  have otherMentioned : other ∈ R2Sleigh.Types.mentioned constraints :=
    mem_flatMap.mpr ⟨constraint, mem, Constraint.assigned_subset other inConstraint⟩
  rw [sameSource]
  exact highest.low constraint mem other inConstraint
    ((representative_eq_iff otherMentioned highest.mentioned).mp sameRep)

/-- In a converged solution a subtype constraint of the highest priority bounds its
class, when its applications to a class that has this priority already find a type
below the bound. So it is when every type handed to the class at that priority is
below the bound; and where no application lowers the class's type at that priority,
the solution is bounded in no other case. -/
theorem solveWorklist_bound (built : arena.Built)
    (present : ∀ constraint ∈ constraints, ∀ id ∈ constraint.types, arena.Present id)
    (highest : HighestBound constraints var bound source) {maxIterations : Nat}
    (converged : (solveWorklist arena constraints maxIterations).diagnostics.converged = true) :
    ((∀ visited ∈ solverHistory arena constraints maxIterations,
        visited.Tight (rewriteEqualConstraints constraints).constraints
          (representative constraints var) bound source) →
      ∃ ty, (solveWorklist arena constraints maxIterations).varTypes.lookup var = some ty ∧
        Below (solveWorklist arena constraints maxIterations).arena ty bound) ∧
    ((∀ visited ∈ solverHistory arena constraints maxIterations,
        visited.HandsBelow (rewriteEqualConstraints constraints).constraints
          (representative constraints var) bound source.priority) →
      ∀ visited ∈ solverHistory arena constraints maxIterations,
        visited.Tight (rewriteEqualConstraints constraints).constraints
          (representative constraints var) bound source) ∧
    ((∀ visited ∈ solverHistory arena constraints maxIterations,
        visited.Rises (rewriteEqualConstraints constraints).constraints
          (buildAdjacency (rewriteEqualConstraints constraints).vars.length
            (rewriteEqualConstraints constraints).constraints)
          (representative constraints var) source.priority) →
      (∃ ty, (solveWorklist arena constraints maxIterations).varTypes.lookup var = some ty ∧
        Below (solveWorklist arena constraints maxIterations).arena ty bound) →
      ∀ visited ∈ solverHistory arena constraints maxIterations,
        visited.Tight (rewriteEqualConstraints constraints).constraints
          (representative constraints var) bound source) := by
  have isMentioned := highest.mentioned
  have isHighest := highest.highest
  have start := startWorklist_inv built present
  have boundPresent : arena.Present bound := present _ highest.listed bound (mem_singleton.mpr rfl)
  have empty := converged_iff.mp converged
  have unassigned : ∀ {property : Assignment → Prop} existing,
      (startWorklist arena constraints).state.assignment (representative constraints var) =
        some existing → property existing := by
    intro property existing assigned
    rw [startWorklist_unassigned] at assigned
    cases assigned
  have solved : (solveWorklist arena constraints maxIterations).varTypes.lookup var =
      ((finalWorklist arena constraints maxIterations).state.assignment
        (representative constraints var)).map Assignment.ty := by
    rw [solveWorklist_lookup built present, if_pos isMentioned]
  refine ⟨fun tight => ?_, fun handsBelow visited listed => ?_, fun rises bounded visited listed => ?_⟩
  · have along := @Worklist.waves_along _ _
      (fun work => Worklist.Inv arena (rewriteEqualConstraints constraints).constraints
          (interned constraints).vars work ∧
        work.Bounds (rewriteEqualConstraints constraints).constraints
          (representative constraints var) bound source)
      (fun _ holds => ⟨holds.1.counted, holds.2.bounded, holds.2.below⟩) maxIterations
      (startWorklist arena constraints)
      (fun visited listed holds => ⟨holds.1.pop rewritten_covers, holds.2.pop rewritten_covers isHighest
        (tight visited listed) holds.1 (holds.1.regular.grown.present boundPresent)⟩)
      ⟨start, ⟨unassigned, fun index _ unqueued => by
        have flag : (List.replicate (rewriteEqualConstraints constraints).constraints.length
            true)[index]? = some false := unqueued
        cases eq_of_mem_replicate (mem_of_getElem? flag)⟩⟩
    obtain ⟨inv, bounds⟩ := along
    obtain ⟨index, found⟩ := mem_iff_getElem?.mp highest.compact
    have inside : index < (finalWorklist arena constraints maxIterations).inQueue.length :=
      inv.length ▸ (List.getElem?_eq_some_iff.mp found).1
    have unqueued : (finalWorklist arena constraints maxIterations).inQueue[index]? = some false := by
      rw [List.getElem?_eq_getElem inside]
      cases flag : (finalWorklist arena constraints maxIterations).inQueue[index] with
      | false => rfl
      | true =>
        have mem := inv.flags index (by
          exact (List.getElem?_eq_getElem inside).trans (congrArg some flag))
        have queueEmpty : (Worklist.waves (rewriteEqualConstraints constraints).constraints
            (buildAdjacency (rewriteEqualConstraints constraints).vars.length
              (rewriteEqualConstraints constraints).constraints) maxIterations
            (startWorklist arena constraints)).queue = [] := empty
        rw [queueEmpty] at mem
        cases mem
    obtain ⟨existing, assigned, _, below⟩ := bounds.below index found unqueued
    refine ⟨existing.ty, ?_, below⟩
    rw [solved]
    exact congrArg (Option.map Assignment.ty) assigned
  · have before := @Worklist.history_along _ _
      (fun work => Worklist.Inv arena (rewriteEqualConstraints constraints).constraints
          (interned constraints).vars work ∧
        (∀ existing, work.state.assignment (representative constraints var) = some existing →
          existing.priority ≤ source.priority) ∧
        ∀ existing, work.state.assignment (representative constraints var) = some existing →
          existing.priority = source.priority → Below work.state.arena existing.ty bound)
      (fun _ holds => ⟨holds.1.counted, holds.2⟩) maxIterations (startWorklist arena constraints)
      (fun visited listed holds => ⟨holds.1.pop rewritten_covers,
        Worklist.pop_bounded isHighest holds.1.regular holds.2.1,
        Worklist.pop_capped isHighest holds.1.regular (holds.1.regular.grown.present boundPresent)
          holds.2.1 (handsBelow visited listed) holds.2.2⟩)
      ⟨start, unassigned, unassigned⟩ visited listed
    exact fun _ _ existing _ _ assigned isPriority => before.2.2 existing assigned isPriority
  · intro index queue existing isQueue found assigned isPriority
    have before := @Worklist.history_along _ _
      (fun work => Worklist.Inv arena (rewriteEqualConstraints constraints).constraints
          (interned constraints).vars work ∧
        (∀ existing, work.state.assignment (representative constraints var) = some existing →
          existing.priority ≤ source.priority))
      (fun _ holds => ⟨holds.1.counted, holds.2⟩) maxIterations (startWorklist arena constraints)
      (fun _ _ holds => ⟨holds.1.pop rewritten_covers,
        Worklist.pop_bounded isHighest holds.1.regular holds.2⟩)
      ⟨start, unassigned⟩ visited listed
    have tyPresent := before.1.regular.sound.assigned _ _ assigned
    have here : Worklist.Grown arena (rewriteEqualConstraints constraints).constraints
        (interned constraints).vars (representative constraints var) source.priority visited.state
        existing.ty visited :=
      ⟨before.1, before.2, .refl _, existing, assigned, isPriority, Below.refl _ _⟩
    have final := @Worklist.waves_after _ _ (Worklist.Grown arena
        (rewriteEqualConstraints constraints).constraints (interned constraints).vars
        (representative constraints var) source.priority visited.state existing.ty)
      (fun _ grown => ⟨grown.inv.counted, grown.bounded, grown.keeps, grown.above⟩) maxIterations
      (startWorklist arena constraints)
      (fun later isLater grown => grown.pop rewritten_covers isHighest tyPresent (rises later isLater))
      ⟨visited, listed, here.pop rewritten_covers isHighest tyPresent (rises visited listed)⟩
    obtain ⟨last, lastAssigned, _, above⟩ := final.above
    obtain ⟨ty, isTy, below⟩ := bounded
    rw [solved] at isTy
    have sameTy : last.ty = ty := by
      have mapped := congrArg (Option.map Assignment.ty) lastAssigned
      exact some.inj (mapped.symm.trans isTy)
    rw [sameTy] at above
    have boundHere : visited.state.arena.Present bound := before.1.regular.grown.present boundPresent
    exact (Below.extends before.1.regular.sound.built.wellFormed final.keeps tyPresent
      boundHere).mp (above.trans below)

/-- Signed integers of 32 and 64 bits. -/
def twoInts : TypeArena :=
  [.int 32 .signed, .int 64 .signed].foldl (fun arena call => (arena.construct call).1)
    TypeArena.default

theorem twoInts_built : twoInts.Built := by
  refine .construct (.int 64 .signed) (.construct (.int 32 .signed) .default ?_) ?_ <;>
    decide +kernel

/-- A 64-bit integer with an upper bound of 32 bits, both inferred. -/
def untightened : List Constraint :=
  [.setType ⟨"rax", 1, 8⟩ 4 .inferred, .subtype ⟨"rax", 1, 8⟩ 3 .inferred]

theorem untightened_present :
    ∀ constraint ∈ untightened, ∀ id ∈ constraint.types, twoInts.Present id := by
  decide +kernel

theorem untightened_highest : HighestBound untightened ⟨"rax", 1, 8⟩ 3 .inferred := by
  refine ⟨by decide, fun constraint listed _ _ _ => ?_⟩
  rcases mem_cons.mp listed with rfl | listed
  · exact le_rfl
  · obtain rfl := mem_singleton.mp listed
    exact le_rfl

/-- The join takes the tightened type back. -/
theorem untightened_exceeds : twoInts.Built ∧
    (∀ constraint ∈ untightened, ∀ id ∈ constraint.types, twoInts.Present id) ∧
    HighestBound untightened ⟨"rax", 1, 8⟩ 3 .inferred ∧
    (solveWorklist twoInts untightened 64).diagnostics.converged = true ∧
    (solveWorklist twoInts untightened 64).varTypes.lookup ⟨"rax", 1, 8⟩ = some 4 ∧
    ¬ Below (solveWorklist twoInts untightened 64).arena 4 3 := by
  refine ⟨twoInts_built, untightened_present, untightened_highest, by decide +kernel,
    by decide +kernel, ?_⟩
  exact not_below_of_isSubtype (by decide +kernel : isSubtype 20 _ _ _ = some false)

theorem solveWorklist_bound_untightened :
    ¬ ∀ visited ∈ solverHistory twoInts untightened 64,
      visited.Tight (rewriteEqualConstraints untightened).constraints
        (representative untightened ⟨"rax", 1, 8⟩) 3 .inferred := by
  intro tight
  have converged : (solveWorklist twoInts untightened 64).diagnostics.converged = true := by
    decide +kernel
  obtain ⟨ty, solved, below⟩ :=
    (solveWorklist_bound twoInts_built untightened_present untightened_highest converged).1 tight
  have isWide : (solveWorklist twoInts untightened 64).varTypes.lookup ⟨"rax", 1, 8⟩ = some 4 := by
    decide +kernel
  obtain rfl := some.inj (isWide.symm.trans solved)
  exact not_below_of_isSubtype (by decide +kernel : isSubtype 20 _ _ _ = some false) below

end Solutions

end R2Sleigh.Types
