import R2Sleigh.Types.Classes
import R2Sleigh.Types.SolverRun

/-!
Contract: the fixpoint of the worklist solver.
-/

namespace R2Sleigh.Types

open Lib Ssa TypeLattice List Option

namespace SolverState

variable {state next : SolverState} {ty fieldTy : TypeId} {priority : Nat}
  {constraint compacted : CompactConstraint}

/-- A settled constraint stays settled while its variables keep their assignments. -/
theorem Settled.touched {vars : List VarId}
    (settled : state.Settled constraint) (sound : state.Sound) (touches : state.Touches next vars)
    (kept : ∀ var ∈ constraint.referencedVars, next.assignment var = state.assignment var) :
    next.Settled constraint := by
  cases constraint with
  | setType var ty source =>
    exact AssignSettled.touched settled touches (kept var (by simp [CompactConstraint.referencedVars]))
  | subtype var ty source =>
    have same := kept var (by simp [CompactConstraint.referencedVars])
    obtain ⟨existing, met, assigned, inCache, tightened⟩ := settled
    exact ⟨existing, met, same.trans assigned, touches.meets _ _ inCache,
      tightened.touched touches same⟩
  | hasCapability ptr elemTy source =>
    have same := kept ptr (by simp [CompactConstraint.referencedVars])
    obtain ⟨ptrTy, indexed, pointed⟩ := settled
    refine ⟨ptrTy, ?_, pointed.touched touches same⟩
    have stored := sound.built.wellFormed.indexed _ _ indexed
    obtain ⟨more, grown⟩ := touches.keeps
    refine indexed_of_built touches.sound.built _ _ ?_
    rw [← grown]
    exact (List.getElem?_append_left (TypeArena.present_of_getElem? stored)).trans stored
  | callSig target args params ret source =>
    exact fun pair mem => (settled pair mem).touched touches
      (kept _ (mem_referencedVars rfl pair mem))
  | fieldAccess basePtr offset fieldTy fieldName source =>
    have same := kept basePtr (by simp [CompactConstraint.referencedVars])
    rcases settled with isNoop | ⟨existing, assigned, higher⟩
    · left
      cases assigned : state.assignment basePtr with
      | none =>
        rw [accessIsNoop, assigned] at isNoop
        cases isNoop
      | some existing =>
        rw [accessIsNoop_of_assigned assigned] at isNoop
        rw [accessIsNoop_of_assigned (same.trans assigned),
          fieldAccessIsNoop_extends sound.built.wellFormed touches.keeps
            (sound.assigned _ _ assigned), isNoop]
    · exact .inr ⟨existing, same.trans assigned, higher⟩

theorem fieldPointer_assignments (state : SolverState) (basePtr : VarId) (offset : Nat)
    (fieldTy : TypeId) (fieldName : Option String) :
    (state.fieldPointer basePtr offset fieldTy fieldName).1.assignments = state.assignments := by
  unfold fieldPointer accessedStruct
  cases (state.assignment basePtr).bind fun assignment => structOf state.arena assignment.ty <;> rfl

private theorem applyConstraint_settled (settled : state.Settled constraint) :
    (state.applyConstraint constraint).1.assignments = state.assignments := by
  cases constraint with
  | setType var ty source =>
    exact congrArg (fun result => result.1.assignments) (assign_settled settled)
  | subtype var ty source =>
    obtain ⟨existing, met, assigned, inCache, tightened⟩ := settled
    have same : state.applySubtype var ty source.priority = (state, false) := by
      rw [applySubtype, assigned]
      dsimp only
      rw [meetCached_hit inCache]
      exact assign_settled tightened
    exact congrArg (fun result => result.1.assignments) same
  | hasCapability ptr elemTy source =>
    obtain ⟨ptrTy, indexed, pointed⟩ := settled
    have same : state.arena.ptr elemTy = (state.arena, ptrTy) := by
      rw [TypeArena.ptr, TypeArena.intern, indexed]
    have unchanged : (state.applyConstraint (.hasCapability ptr elemTy source)).1 = state := by
      rw [applyConstraint]
      rw [same]
      exact congrArg Prod.fst (assign_settled pointed)
    rw [unchanged]
  | callSig target args params ret source =>
    exact congrArg (fun result => result.1.assignments) (assignAll_settled settled)
  | fieldAccess basePtr offset fieldTy fieldName source =>
    have unfolded : state.applyConstraint (.fieldAccess basePtr offset fieldTy fieldName source) =
        state.applyFieldAccess basePtr offset fieldTy fieldName source.priority := rfl
    rw [unfolded, applyFieldAccess]
    rcases settled with isNoop | ⟨existing, assigned, higher⟩
    · rw [if_pos isNoop]
    · split
      · rfl
      · have kept : (state.fieldPointer basePtr offset fieldTy fieldName).1.assignment basePtr =
            some existing := by
          rw [assignment, fieldPointer_assignments]
          exact assigned
        have higher : source.priority < existing.priority := higher
        dsimp only
        rw [assignPointer, kept]
        dsimp only
        rw [if_neg (Nat.ne_of_gt higher), assign_under kept higher]
        exact fieldPointer_assignments _ _ _ _ _

theorem Sound.bookkeeping (sound : state.Sound)
    (diagnostics : SolverDiagnostics) (changedVars : List VarId) :
    ({ state with diagnostics, changedVars } : SolverState).Sound :=
  ⟨sound.built, sound.assigned, sound.joins, sound.meets⟩

theorem Settled.bookkeeping (settled : state.Settled constraint) (diagnostics : SolverDiagnostics)
    (changedVars : List VarId) :
    ({ state with diagnostics, changedVars } : SolverState).Settled constraint := by
  cases constraint <;> exact settled

end SolverState

/-! ## The worklist -/

/-- The constraints of each variable are listed under it. -/
def Covers (adjacency : List (List ConstraintIdx)) (constraints : List CompactConstraint) : Prop :=
  ∀ (index : ConstraintIdx) (constraint : CompactConstraint), constraints[index]? = some constraint →
    ∀ var ∈ constraint.referencedVars, index ∈ adjacency.getD var []

private theorem mem_modify_append {adjacency : List (List ConstraintIdx)} {var other : VarId}
    {index added : ConstraintIdx} (listed : index ∈ adjacency.getD other []) :
    index ∈ (adjacency.modify var (· ++ [added])).getD other [] := by
  rw [List.getD] at listed
  rw [List.getD, List.getElem?_modify]
  cases row : adjacency[other]? with
  | none =>
    rw [row] at listed
    cases listed
  | some indices =>
    rw [row] at listed
    split
    · exact mem_append_left _ listed
    · exact listed

theorem mem_foldl_modify {index added : ConstraintIdx} {vars : List VarId} :
    ∀ (adjacency : List (List ConstraintIdx)) (var : VarId),
      (index = added ∧ var ∈ vars ∧ var < adjacency.length) ∨ index ∈ adjacency.getD var [] →
      index ∈ (vars.foldl (fun adjacency var => adjacency.modify var (· ++ [added])) adjacency).getD
        var [] := by
  induction vars with
  | nil =>
    intro adjacency var mem
    exact mem.elim (fun isVar => nomatch isVar.2.1) id
  | cons first rest ih =>
    intro adjacency var mem
    refine ih _ _ ?_
    rw [length_modify]
    rcases mem with ⟨rfl, isVar, inside⟩ | listed
    · rcases mem_cons.mp isVar with rfl | later
      · simp [List.getD, inside]
      · exact .inl ⟨rfl, later, inside⟩
    · exact .inr (mem_modify_append listed)

private theorem length_foldl_modify {index : ConstraintIdx} {vars : List VarId} :
    ∀ adjacency : List (List ConstraintIdx),
      (vars.foldl (fun adjacency var => adjacency.modify var (· ++ [index])) adjacency).length =
        adjacency.length :=
  foldl_kept length fun _ _ _ => length_modify ..

private theorem buildAdjacency_covers {varCount : Nat} {constraints : List CompactConstraint}
    (inside : ∀ constraint ∈ constraints, ∀ var ∈ constraint.referencedVars, var < varCount) :
    Covers (buildAdjacency varCount constraints) constraints := by
  have listed : ∀ (entries : List (CompactConstraint × ConstraintIdx))
      (adjacency : List (List ConstraintIdx)) (index : ConstraintIdx) (var : VarId),
      var < adjacency.length → ((∃ constraint, (constraint, index) ∈ entries ∧
        var ∈ constraint.referencedVars) ∨ index ∈ adjacency.getD var []) →
      index ∈ (entries.foldl (fun adjacency entry =>
        entry.1.referencedVars.foldl (fun adjacency var => adjacency.modify var (· ++ [entry.2]))
          adjacency) adjacency).getD var [] := by
    intro entries
    induction entries with
    | nil =>
      intro adjacency index var _ mem
      exact mem.elim (fun ⟨_, isEntry, _⟩ => nomatch isEntry) id
    | cons entry rest ih =>
      intro adjacency index var bounded mem
      refine ih _ _ _ (by rwa [length_foldl_modify]) ?_
      rcases mem with ⟨constraint, isEntry, isVar⟩ | listed
      · rcases mem_cons.mp isEntry with rfl | later
        · exact .inr (mem_foldl_modify _ _ (.inl ⟨rfl, isVar, bounded⟩))
        · exact .inl ⟨constraint, later, isVar⟩
      · exact .inr (mem_foldl_modify _ _ (.inr listed))
  intro index constraint found var isVar
  refine listed _ _ _ _ ?_ (.inl ⟨constraint, ?_, isVar⟩)
  · rw [length_replicate]
    exact inside constraint (mem_of_getElem? found) var isVar
  · exact mem_zipIdx_iff_getElem?.mpr found

namespace Worklist

structure Pushes (work work' : Worklist) : Prop where
  state : ∃ diagnostics, work'.state = { work.state with diagnostics }
  queue : work.queue <+: work'.queue
  length : work'.inQueue.length = work.inQueue.length
  flags : (∀ index : ConstraintIdx, work.inQueue[index]? = some true → index ∈ work.queue) →
    ∀ index : ConstraintIdx, work'.inQueue[index]? = some true → index ∈ work'.queue
  unqueued : ∀ index : ConstraintIdx, work'.inQueue[index]? = some false →
    work.inQueue[index]? = some false

theorem Pushes.refl (work : Worklist) : work.Pushes work :=
  ⟨⟨_, rfl⟩, prefix_rfl, rfl, fun flags => flags, fun _ found => found⟩

theorem Pushes.trans {work work' work'' : Worklist} (first : work.Pushes work')
    (second : work'.Pushes work'') : work.Pushes work'' := by
  obtain ⟨_, same⟩ := first.state
  obtain ⟨diagnostics, same'⟩ := second.state
  refine ⟨⟨diagnostics, ?_⟩, first.queue.trans second.queue, second.length.trans first.length,
    fun flags => second.flags (first.flags flags),
    fun index found => first.unqueued index (second.unqueued index found)⟩
  rw [same', same]

private theorem push_spec (work : Worklist) (dep : ConstraintIdx) :
    work.Pushes (work.push dep) ∧ (work.push dep).inQueue[dep]? ≠ some false := by
  unfold push
  split
  · rename_i queued
    refine ⟨.refl work, fun unqueued => ?_⟩
    rw [List.getD, unqueued] at queued
    cases queued
  · refine ⟨⟨⟨_, rfl⟩, prefix_append _ _, length_set, fun flags index found => ?_,
      fun index found => ?_⟩, ?_⟩
    · by_cases same : dep = index
      · simp [same]
      · rw [List.getElem?_set_ne same] at found
        exact mem_append_left _ (flags index found)
    · by_cases same : dep = index
      · subst same
        rw [List.getElem?_set_self'] at found
        cases row : work.inQueue[dep]? <;> simp [row] at found
      · rwa [List.getElem?_set_ne same] at found
    · rw [List.getElem?_set_self']
      cases work.inQueue[dep]? <;> simp

private theorem foldl_push_spec {deps : List ConstraintIdx} : ∀ work : Worklist,
    work.Pushes (deps.foldl push work) ∧
      ∀ dep ∈ deps, (deps.foldl push work).inQueue[dep]? ≠ some false := by
  induction deps with
  | nil => exact fun work => ⟨.refl work, nofun⟩
  | cons dep rest ih =>
    intro work
    obtain ⟨pushed, queued⟩ := work.push_spec dep
    obtain ⟨others, allQueued⟩ := ih (work.push dep)
    exact ⟨pushed.trans others, forall_mem_cons.mpr
      ⟨fun unqueued => queued (others.unqueued dep unqueued), allQueued⟩⟩

theorem requeue_spec (adjacency : List (List ConstraintIdx)) {vars : List VarId} : ∀ work : Worklist,
    work.Pushes (vars.foldl (fun work var => (adjacency.getD var []).foldl push work) work) ∧
      ∀ var ∈ vars, ∀ dep ∈ adjacency.getD var [],
        (vars.foldl (fun work var => (adjacency.getD var []).foldl push work) work).inQueue[dep]? ≠
          some false := by
  induction vars with
  | nil => exact fun work => ⟨.refl work, nofun⟩
  | cons var rest ih =>
    intro work
    obtain ⟨pushed, queued⟩ := @foldl_push_spec (adjacency.getD var []) work
    obtain ⟨others, allQueued⟩ := ih ((adjacency.getD var []).foldl push work)
    exact ⟨pushed.trans others, forall_mem_cons.mpr
      ⟨fun dep listed unqueued => queued dep listed (others.unqueued dep unqueued), allQueued⟩⟩

/-- The state that a constraint is applied to. -/
def popping (work : Worklist) : SolverState :=
  { work.state with
    diagnostics := { work.state.diagnostics with
      queuePops := work.state.diagnostics.queuePops + 1
      constraintsProcessed := work.state.diagnostics.constraintsProcessed + 1 }
    changedVars := [] }

/-- The state after one application, before its constraints are queued again. -/
def applied (constraints : List CompactConstraint) (work : Worklist) (index : ConstraintIdx) :
    SolverState :=
  match constraints[index]? with
  | some constraint => (work.popping.applyConstraint constraint).1
  | none => work.popping

section

variable {constraints : List CompactConstraint} {adjacency : List (List ConstraintIdx)}
  {work : Worklist}

section

variable {index : ConstraintIdx} {queue : List ConstraintIdx}
  (isQueue : work.queue = index :: queue)
include isQueue

theorem pop_cons : work.pop constraints adjacency =
      (applied constraints work index).changedVars.foldl
        (fun work var => (adjacency.getD var []).foldl push work)
        ⟨applied constraints work index, queue, work.inQueue.set index false⟩ := by
  rw [pop, isQueue]
  rfl

theorem pop_cons_state : ∃ diagnostics,
      (work.pop constraints adjacency).state = { applied constraints work index with diagnostics } := by
  rw [pop_cons isQueue]
  exact (requeue_spec adjacency _).1.state

end

theorem pop_empty
    (empty : work.queue = []) : work.pop constraints adjacency = work := by
  rw [pop, empty]

end

section Runs

variable {arena : TypeArena} {constraints : List CompactConstraint}
variable {adjacency : List (List ConstraintIdx)}

/-- What every application and every change of the bookkeeping keeps. -/
structure Kept (constraints : List CompactConstraint) (property : SolverState → Prop) : Prop where
  bookkeeping : ∀ state diagnostics changedVars, property state →
    property { state with diagnostics, changedVars }
  apply : ∀ state, ∀ constraint ∈ constraints, property state → state.changedVars = [] →
    property (state.applyConstraint constraint).1

/-- What holds of a state, and of it after the next application, holds after a pop. -/
theorem pop_keeps (property : SolverState → Prop) {work : Worklist}
    (bookkeeping : ∀ state diagnostics changedVars, property state →
      property { state with diagnostics, changedVars })
    (holds : property work.state)
    (applies : ∀ index queue, ∀ constraint ∈ constraints, work.queue = index :: queue →
      constraints[index]? = some constraint →
        property (work.popping.applyConstraint constraint).1) :
    property (work.pop constraints adjacency).state := by
  cases isQueue : work.queue with
  | nil =>
    rw [pop_empty isQueue]
    exact holds
  | cons index queue =>
    obtain ⟨diagnostics, same⟩ := @pop_cons_state constraints adjacency _ _ _ isQueue
    rw [same]
    refine bookkeeping _ _ _ ?_
    unfold applied
    split
    · rename_i constraint found
      exact applies index queue constraint (mem_of_getElem? found) isQueue found
    · exact bookkeeping _ _ _ holds

theorem Kept.pop {property : SolverState → Prop} (kept : Kept constraints property)
    {work : Worklist} (holds : property work.state) : property (work.pop constraints adjacency).state :=
  pop_keeps property kept.bookkeeping holds fun _ _ constraint listed _ _ =>
    kept.apply _ constraint listed (kept.bookkeeping _ _ _ holds) rfl

/-- The count of one more wave. -/
def counted (work : Worklist) : Worklist :=
  { work with state := { work.state with diagnostics := { work.state.diagnostics with
    iterations := work.state.diagnostics.iterations + 1 } } }

/-- The worklists of a run, as they are before each application. -/
def history (constraints : List CompactConstraint) (adjacency : List (List ConstraintIdx)) :
    Nat → Worklist → List Worklist
  | 0, _ => []
  | remaining + 1, work =>
    if work.queue = [] then []
    else (List.range work.queue.length).map
        (fun count => (pop constraints adjacency)^[count] work.counted) ++
      history constraints adjacency remaining (work.wave constraints adjacency)

theorem iterate_keeps {invariant : Worklist → Prop} (work : Worklist) (holds : invariant work) :
    ∀ count, (∀ earlier < count, invariant ((pop constraints adjacency)^[earlier] work) →
        invariant (((pop constraints adjacency)^[earlier] work).pop constraints adjacency)) →
      invariant ((pop constraints adjacency)^[count] work) := by
  intro count
  induction count with
  | zero => exact fun _ => holds
  | succ count ih =>
    intro keeps
    rw [Function.iterate_succ_apply']
    exact keeps count (Nat.lt_succ_self count)
      (ih fun earlier before => keeps earlier (Nat.lt_succ_of_lt before))

section

variable {invariant : Worklist → Prop}
  (countKeeps : ∀ work, invariant work → invariant work.counted)
include countKeeps

theorem waves_along :
    ∀ (maxIterations : Nat) (work : Worklist),
      (∀ visited ∈ history constraints adjacency maxIterations work, invariant visited →
        invariant (visited.pop constraints adjacency)) →
      invariant work → invariant (waves constraints adjacency maxIterations work) := by
  intro maxIterations
  induction maxIterations with
  | zero => exact fun _ _ holds => holds
  | succ remaining ih =>
    intro work keeps holds
    rw [waves]
    rw [history] at keeps
    split
    · exact holds
    · rename_i nonempty
      rw [if_neg nonempty] at keeps
      refine ih _ (fun visited listed =>
        keeps visited (mem_append_right _ listed)) ?_
      refine iterate_keeps work.counted (countKeeps work holds) _ fun earlier before => ?_
      exact keeps _ (mem_append_left _ (mem_map_of_mem (mem_range.mpr before)))

/-- An invariant that the applications of a run keep holds before each of them. -/
theorem history_along :
    ∀ (maxIterations : Nat) (work : Worklist),
      (∀ visited ∈ history constraints adjacency maxIterations work, invariant visited →
        invariant (visited.pop constraints adjacency)) →
      invariant work →
      ∀ visited ∈ history constraints adjacency maxIterations work, invariant visited := by
  intro maxIterations
  induction maxIterations with
  | zero => exact fun _ _ _ => nofun
  | succ remaining ih =>
    intro work keeps holds visited listed
    rw [history] at keeps listed
    split at listed
    · cases listed
    · rename_i nonempty
      rw [if_neg nonempty] at keeps
      have reached : ∀ count ≤ work.queue.length,
          invariant ((pop constraints adjacency)^[count] work.counted) := fun count bounded =>
        iterate_keeps work.counted (countKeeps work holds) count fun earlier before =>
          keeps _ (mem_append_left _ (mem_map_of_mem
            (mem_range.mpr (Nat.lt_of_lt_of_le before bounded))))
      rcases mem_append.mp listed with inWave | later
      · obtain ⟨count, bounded, rfl⟩ := mem_map.mp inWave
        exact reached count (Nat.le_of_lt (mem_range.mp bounded))
      · exact ih _ (fun visited listed =>
          keeps visited (mem_append_right _ listed)) (reached _ le_rfl) visited later

/-- What holds after one application of a run and is kept from then on holds at its
end. -/
theorem waves_after :
    ∀ (maxIterations : Nat) (work : Worklist),
      (∀ visited ∈ history constraints adjacency maxIterations work, invariant visited →
        invariant (visited.pop constraints adjacency)) →
      (∃ visited ∈ history constraints adjacency maxIterations work,
        invariant (visited.pop constraints adjacency)) →
      invariant (waves constraints adjacency maxIterations work) := by
  intro maxIterations
  induction maxIterations with
  | zero => exact fun _ _ ⟨_, listed, _⟩ => nomatch listed
  | succ remaining ih =>
    intro work keeps ⟨visited, listed, holds⟩
    rw [waves]
    rw [history] at listed keeps
    split at listed
    · cases listed
    · rename_i nonempty
      rw [if_neg nonempty] at keeps ⊢
      rcases mem_append.mp listed with inWave | later
      · obtain ⟨count, bounded, rfl⟩ := mem_map.mp inWave
        refine waves_along countKeeps _ _ (fun visited listed =>
          keeps visited (mem_append_right _ listed)) ?_
        have reached : ∀ more, count + 1 + more ≤ work.queue.length →
            invariant ((pop constraints adjacency)^[count + 1 + more] work.counted) := by
          intro more
          induction more with
          | zero =>
            intro _
            rw [Nat.add_zero, Function.iterate_succ_apply']
            exact holds
          | succ more ih =>
            intro inside
            rw [← Nat.add_assoc, Function.iterate_succ_apply']
            exact keeps _ (mem_append_left _ (mem_map_of_mem (mem_range.mpr inside)))
              (ih (Nat.le_of_succ_le inside))
        have all := mem_range.mp bounded
        have done := reached (work.queue.length - (count + 1)) (by omega)
        rw [show count + 1 + (work.queue.length - (count + 1)) = work.queue.length by omega] at done
        exact done
      · exact ih _ (fun visited listed =>
          keeps visited (mem_append_right _ listed)) ⟨visited, later, holds⟩

theorem waves_keeps (popKeeps : ∀ work, invariant work → invariant (work.pop constraints adjacency))
    (maxIterations : Nat) (work : Worklist) (holds : invariant work) :
    invariant (waves constraints adjacency maxIterations work) :=
  waves_along countKeeps maxIterations work (fun _ _ => popKeeps _) holds

end

theorem first_wave {total : Nat} {work : Worklist} (ordered : work.queue = List.range total) :
    ∀ count ≤ total, List.range' count (total - count) <+:
      ((pop constraints adjacency)^[count] work.counted).queue := by
  intro count
  induction count with
  | zero =>
    intro _
    have same : work.counted.queue = List.range' 0 total := ordered.trans (range_eq_range' ..)
    exact ⟨[], (append_nil _).trans same.symm⟩
  | succ count ih =>
    intro bounded
    obtain ⟨rest, isQueue⟩ := ih (Nat.le_of_succ_le bounded)
    have split : List.range' count (total - count) =
        count :: List.range' (count + 1) (total - (count + 1)) := by
      rw [← range'_succ]
      congr 1
      omega
    rw [split] at isQueue
    rw [Function.iterate_succ_apply', pop_cons isQueue.symm]
    refine List.IsPrefix.trans ?_ (requeue_spec adjacency _).1.queue
    exact prefix_append _ rest

/-- What one constraint establishes and the applications of a run keep holds where the
run ends. -/
theorem established {invariant : Worklist → Prop} {remaining : Nat} {work : Worklist}
    {index total : Nat} (ordered : work.queue = List.range total)
    (inside : index < total) (countKeeps : ∀ work, invariant work → invariant work.counted)
    (establishes : ∀ visited ∈ history constraints adjacency (remaining + 1) work,
      ∀ queue, visited.queue = index :: queue → invariant (visited.pop constraints adjacency))
    (keeps : ∀ visited ∈ history constraints adjacency (remaining + 1) work,
      invariant visited → invariant (visited.pop constraints adjacency)) :
    invariant (waves constraints adjacency (remaining + 1) work) := by
  have length : work.queue.length = total := by rw [ordered, length_range]
  have nonempty : work.queue ≠ [] := fun empty => by
    rw [empty] at length
    exact absurd inside (by simp [← length])
  rw [history, if_neg nonempty] at establishes keeps
  have inWave : ∀ count < total, (pop constraints adjacency)^[count] work.counted ∈
      (List.range work.queue.length).map fun count => (pop constraints adjacency)^[count] work.counted :=
    fun count bounded => mem_map_of_mem (mem_range.mpr (length ▸ bounded))
  have after : ∀ count, index + 1 + count ≤ total →
      invariant ((pop constraints adjacency)^[index + 1 + count] work.counted) := by
    intro count
    induction count with
    | zero =>
      intro _
      obtain ⟨rest, isQueue⟩ := @first_wave constraints adjacency _ _ ordered index inside.le
      rw [show total - index = total - index - 1 + 1 by omega, range'_succ] at isQueue
      rw [Nat.add_zero, Function.iterate_succ_apply']
      exact establishes _ (mem_append_left _ (inWave index inside)) _ isQueue.symm
    | succ count ih =>
      intro bounded
      rw [← Nat.add_assoc, Function.iterate_succ_apply']
      exact keeps _ (mem_append_left _ (inWave _ bounded)) (ih (Nat.le_of_succ_le bounded))
  rw [waves, if_neg nonempty]
  refine waves_along countKeeps _ _ (fun visited listed =>
    keeps visited (mem_append_right _ listed)) ?_
  have done := after (total - (index + 1)) (by omega)
  rw [show index + 1 + (total - (index + 1)) = work.queue.length by omega] at done
  exact done

/-- The states of a solver over given constraints and variables. -/
structure Regular (arena : TypeArena) (constraints : List CompactConstraint) (vars : List SSAVar)
    (state : SolverState) : Prop where
  sound : state.Sound
  grown : arena.Extends state.arena
  present : ∀ constraint ∈ constraints, ∀ id ∈ constraint.types, state.arena.Present id
  names : state.vars = vars
  length : state.assignments.length = vars.length
  owned : ∀ var assignment, state.assignment var = some assignment →
    ∃ constraint ∈ constraints, var ∈ constraint.referencedVars

theorem regular_kept (vars : List SSAVar) : Kept constraints (Regular arena constraints vars) where
  bookkeeping state diagnostics changedVars regular :=
    ⟨regular.sound.bookkeeping _ _, regular.grown, regular.present, regular.names, regular.length, regular.owned⟩
  apply state constraint listed regular unmarked := by
    obtain ⟨touches, _⟩ :=
      SolverState.applyConstraint_touches regular.sound constraint (regular.present constraint listed)
    refine ⟨touches.sound, regular.grown.trans touches.keeps, fun other mem id named =>
      touches.keeps.present (regular.present other mem id named),
      touches.names.trans regular.names, touches.length.trans regular.length,
      fun var assignment assigned => ?_⟩
    by_cases marked : var ∈ (state.applyConstraint constraint).1.changedVars
    · rcases touches.within var marked with old | isVar
      · rw [unmarked] at old
        cases old
      · exact ⟨constraint, listed, isVar⟩
    · exact regular.owned var assignment ((touches.others var marked).symm.trans assigned)

theorem Regular.popping {vars : List SSAVar} {work : Worklist}
    (regular : Regular arena constraints vars work.state) :
    Regular arena constraints vars work.popping :=
  (regular_kept vars).bookkeeping _ _ _ regular

/-- Constraints out of the queue are settled. -/
structure Inv (arena : TypeArena) (constraints : List CompactConstraint) (vars : List SSAVar)
    (work : Worklist) : Prop where
  regular : Regular arena constraints vars work.state
  length : work.inQueue.length = constraints.length
  flags : ∀ index : ConstraintIdx, work.inQueue[index]? = some true → index ∈ work.queue
  settled : ∀ (index : ConstraintIdx) (constraint : CompactConstraint),
    constraints[index]? = some constraint → work.inQueue[index]? = some false →
    work.state.Settled constraint

section

variable {vars : List SSAVar} {work : Worklist}

theorem Inv.pop (covers : Covers adjacency constraints)
    (inv : Inv arena constraints vars work) : Inv arena constraints vars (work.pop constraints adjacency) := by
  have regular : Regular arena constraints vars (work.pop constraints adjacency).state :=
    (regular_kept vars).pop inv.regular
  cases isQueue : work.queue with
  | nil => rwa [pop_empty isQueue]
  | cons popped queue =>
    rw [pop_cons isQueue] at regular ⊢
    obtain ⟨pushed, queued⟩ := @requeue_spec adjacency (applied constraints work popped).changedVars
      ⟨applied constraints work popped, queue, work.inQueue.set popped false⟩
    refine ⟨regular, pushed.length.trans (length_set.trans inv.length), pushed.flags ?_, ?_⟩
    · intro index found
      by_cases same : popped = index
      · subst same
        rw [List.getElem?_set_self'] at found
        cases row : work.inQueue[popped]? <;> simp [row] at found
      · rw [List.getElem?_set_ne same] at found
        have mem := inv.flags index found
        rw [isQueue] at mem
        exact (mem_cons.mp mem).resolve_left (Ne.symm same)
    · intro index constraint found unqueued
      obtain ⟨diagnostics, state⟩ := pushed.state
      rw [state]
      refine SolverState.Settled.bookkeeping ?_ diagnostics
        (applied constraints work popped).changedVars
      -- A marked variable would have queued the constraint again.
      have unmarked : ∀ var ∈ constraint.referencedVars,
          var ∉ (applied constraints work popped).changedVars := fun var isVar marked =>
        queued var marked index (covers index constraint found var isVar) unqueued
      have before := pushed.unqueued index unqueued
      cases isPopped : constraints[popped]? with
      | none =>
        have differs : popped ≠ index := by
          rintro rfl
          rw [isPopped] at found
          cases found
        rw [List.getElem?_set_ne differs] at before
        have settled := inv.settled index constraint found before
        unfold applied
        rw [isPopped]
        exact settled.bookkeeping _ _
      | some applying =>
        unfold applied at unmarked ⊢
        rw [isPopped] at unmarked ⊢
        have start := inv.regular.popping
        obtain ⟨touches, settles⟩ := SolverState.applyConstraint_touches start.sound applying
          (start.present applying (mem_of_getElem? isPopped))
        by_cases same : popped = index
        · subst same
          rw [found] at isPopped
          cases isPopped
          exact settles unmarked
        · rw [List.getElem?_set_ne same] at before
          have settled : work.popping.Settled constraint :=
            (inv.settled index constraint found before).bookkeeping _ _
          exact settled.touched start.sound touches fun var isVar =>
            touches.others var (unmarked var isVar)

theorem Inv.counted (inv : Inv arena constraints vars work) :
    Inv arena constraints vars work.counted :=
  ⟨(regular_kept vars).bookkeeping work.state _ work.state.changedVars inv.regular, inv.length,
    inv.flags, fun index constraint found unqueued =>
      (inv.settled index constraint found unqueued).bookkeeping _ work.state.changedVars⟩

/-- Every number of iterations keeps the invariant. -/
theorem Inv.waves (covers : Covers adjacency constraints)
    (inv : Inv arena constraints vars work) (maxIterations : Nat) :
    Inv arena constraints vars (work.waves constraints adjacency maxIterations) :=
  @waves_keeps constraints adjacency (Inv arena constraints vars) (fun _ inv => inv.counted)
    (fun _ inv => inv.pop covers) maxIterations work inv

/-- With an empty queue every constraint is settled. -/
theorem Inv.settled_of_empty (inv : Inv arena constraints vars work)
    (empty : work.queue = []) : ∀ constraint ∈ constraints, work.state.Settled constraint := by
  intro constraint listed
  obtain ⟨index, found⟩ := mem_iff_getElem?.mp listed
  refine inv.settled index constraint found ?_
  have inside : index < work.inQueue.length := inv.length ▸ (List.getElem?_eq_some_iff.mp found).1
  cases flag : work.inQueue[index] with
  | false => rw [List.getElem?_eq_getElem inside, flag]
  | true =>
    have mem := inv.flags index (by rw [List.getElem?_eq_getElem inside, flag])
    rw [empty] at mem
    cases mem

end

end Runs

end Worklist

/-! ## Solutions -/

def Constraint.types : Constraint → List TypeId
  | .setType _ ty _ => [ty]
  | .equal _ _ _ => []
  | .subtype _ ty _ => [ty]
  | .hasCapability _ _ elemTy _ => [elemTy]
  | .callSig _ _ params ret _ => params ++ (ret.map Prod.snd).toList
  | .fieldAccess _ _ fieldTy _ _ => [fieldTy]

def startWorklist (arena : TypeArena) (constraints : List Constraint) : Worklist :=
  let rewritten := rewriteEqualConstraints constraints
  let state := startState arena rewritten
  ⟨{ state with diagnostics := { state.diagnostics with
      queuePushes := rewritten.constraints.length } },
    List.range rewritten.constraints.length, List.replicate rewritten.constraints.length true⟩

/-- The worklist that the solver ends with. -/
def finalWorklist (arena : TypeArena) (constraints : List Constraint) (maxIterations : Nat) : Worklist :=
  let rewritten := rewriteEqualConstraints constraints
  (startWorklist arena constraints).waves rewritten.constraints
    (buildAdjacency rewritten.vars.length rewritten.constraints) maxIterations

/-- The worklists of a solver, as they are before each application. -/
def solverHistory (arena : TypeArena) (constraints : List Constraint) (maxIterations : Nat) :
    List Worklist :=
  let rewritten := rewriteEqualConstraints constraints
  Worklist.history rewritten.constraints
    (buildAdjacency rewritten.vars.length rewritten.constraints) maxIterations
    (startWorklist arena constraints)

theorem solveWorklist_eq (arena : TypeArena) (constraints : List Constraint) (maxIterations : Nat) :
    solveWorklist arena constraints maxIterations =
      materializeSolution { (finalWorklist arena constraints maxIterations).state with
        diagnostics := (finalWorklist arena constraints maxIterations).state.diagnostics.conclude
          ((finalWorklist arena constraints maxIterations).queue = []) maxIterations }
        (rewriteEqualConstraints constraints).classMembers := rfl

section Solutions

variable {arena : TypeArena} {constraints : List Constraint}

theorem converged_iff {maxIterations : Nat} :
    (solveWorklist arena constraints maxIterations).diagnostics.converged = true ↔
      (finalWorklist arena constraints maxIterations).queue = [] := by
  exact decide_eq_true_iff

theorem mem_rewritten :
    compacted ∈ (rewriteEqualConstraints constraints).constraints ↔
      ∃ constraint ∈ constraints, constraint.compactBy (representative constraints) = some compacted := by
  rw [rewriteEqualConstraints_spec.1, mem_filterMap]

section

variable {constraint : Constraint} {rep : SSAVar → VarId}
  (isCompact : constraint.compactBy rep = some compacted)
include isCompact

theorem compactBy_types :
    compacted.types = constraint.types := by
  cases constraint with
  | equal _ _ _ => cases isCompact
  | callSig target args params ret source =>
    cases isCompact
    cases ret <;> rfl
  | _ =>
    cases isCompact
    rfl

private theorem compactBy_vars :
    ∀ id ∈ compacted.referencedVars, ∃ var ∈ constraint.vars, rep var = id := by
  cases constraint with
  | equal _ _ _ => cases isCompact
  | callSig target args params ret source =>
    cases isCompact
    intro id isVar
    have listed := mem_mergeSort.mp (mem_dedup.mp isVar)
    rcases mem_append.mp listed with inArgs | isRet
    · rcases mem_cons.mp inArgs with rfl | inArgs
      · exact ⟨target, by simp [Constraint.vars], rfl⟩
      · obtain ⟨arg, isArg, rfl⟩ := mem_map.mp inArgs
        exact ⟨arg, by simp [Constraint.vars, isArg], rfl⟩
    · cases ret with
      | none => cases isRet
      | some ret =>
        obtain rfl := mem_singleton.mp isRet
        exact ⟨ret.1, by simp [Constraint.vars], rfl⟩
  | _ =>
    cases isCompact
    intro id isVar
    obtain rfl := mem_singleton.mp isVar
    exact ⟨_, by simp [Constraint.vars], rfl⟩

end

theorem rewritten_vars (listed : compacted ∈ (rewriteEqualConstraints constraints).constraints) :
    ∀ id ∈ compacted.referencedVars, ∃ var ∈ mentioned constraints,
      representative constraints var = id := by
  intro id isVar
  obtain ⟨constraint, mem, isCompact⟩ := mem_rewritten.mp listed
  obtain ⟨var, inConstraint, same⟩ := compactBy_vars isCompact id isVar
  exact ⟨var, mem_flatMap.mpr ⟨constraint, mem, inConstraint⟩, same⟩

theorem rewritten_covers : Covers (buildAdjacency (rewriteEqualConstraints constraints).vars.length
    (rewriteEqualConstraints constraints).constraints)
    (rewriteEqualConstraints constraints).constraints := by
  refine buildAdjacency_covers fun compacted listed id isVar => ?_
  obtain ⟨var, isMentioned, rfl⟩ := rewritten_vars listed id isVar
  exact representative_lt isMentioned

theorem startWorklist_inv (built : arena.Built)
    (present : ∀ constraint ∈ constraints, ∀ id ∈ constraint.types, arena.Present id) :
    Worklist.Inv arena (rewriteEqualConstraints constraints).constraints (interned constraints).vars
      (startWorklist arena constraints) := by
  have reached : SolverState.Reached arena (SolverState.new arena (interned constraints).vars) := .new _
  have sound := reached.sound built
  have vars := (@rewriteEqualConstraints_spec constraints).2.1
  refine ⟨⟨?_, .refl arena, fun compacted listed id named => ?_, vars, ?_,
      fun var assignment assigned => ?_⟩,
    length_replicate, fun index found => ?_, fun index compacted _ unqueued => ?_⟩
  · have same : SolverState.new arena (rewriteEqualConstraints constraints).vars =
        SolverState.new arena (interned constraints).vars := by rw [vars]
    exact sound.bookkeeping _ []
  · obtain ⟨constraint, mem, isCompact⟩ := mem_rewritten.mp listed
    exact present constraint mem id (compactBy_types isCompact ▸ named)
  · exact length_replicate
  · have unassigned : (List.replicate (rewriteEqualConstraints constraints).vars.length
        (none : Option Assignment)).getD var none = some assignment := assigned
    rw [List.getD, List.getElem?_replicate] at unassigned
    split at unassigned <;> cases unassigned
  · have inside : index < (List.replicate (rewriteEqualConstraints constraints).constraints.length
        true).length := (List.getElem?_eq_some_iff.mp found).1
    rw [length_replicate] at inside
    exact mem_range.mpr inside
  · have flag : (List.replicate (rewriteEqualConstraints constraints).constraints.length true)[index]? =
        some false := unqueued
    have isTrue := eq_of_mem_replicate (mem_of_getElem? flag)
    cases isTrue

theorem startWorklist_unassigned (arena : TypeArena) (constraints : List Constraint) (var : VarId) :
    (startWorklist arena constraints).state.assignment var = none := by
  have unassigned : (List.replicate (rewriteEqualConstraints constraints).vars.length
      (none : Option Assignment)).getD var none = none := by
    rw [List.getD, List.getElem?_replicate]
    split <;> rfl
  exact unassigned

section

variable (built : arena.Built)
  (present : ∀ constraint ∈ constraints, ∀ id ∈ constraint.types, arena.Present id)
  (maxIterations : Nat)
include built present maxIterations

theorem finalWorklist_inv :
    Worklist.Inv arena (rewriteEqualConstraints constraints).constraints (interned constraints).vars
      (finalWorklist arena constraints maxIterations) :=
  (startWorklist_inv built present).waves rewritten_covers maxIterations

/-- The result for a variable is the assignment of its representative. -/
theorem solveWorklist_lookup
    (var : SSAVar) :
    (solveWorklist arena constraints maxIterations).varTypes.lookup var =
      if var ∈ mentioned constraints then
        ((finalWorklist arena constraints maxIterations).state.assignment
          (representative constraints var)).map Assignment.ty
      else none := by
  have regular := (finalWorklist_inv built present maxIterations).regular
  refine materializeSolution_lookup regular.length regular.names (fun id assignment assigned => ?_) var
  obtain ⟨compacted, listed, isVar⟩ := regular.owned id assignment assigned
  obtain ⟨other, _, rfl⟩ := rewritten_vars listed id isVar
  exact united_spec.1.root_root _

end

/-- When the solver converges, applying any constraint again changes no assignment.
In every solution connected variables have one type or none, each the type of a
representative's assignment, and variables that are not connected have different
representatives, so that what is assigned to one leaves the other's assignment. -/
theorem solveWorklist_fixpoint (built : arena.Built)
    (present : ∀ constraint ∈ constraints, ∀ id ∈ constraint.types, arena.Present id)
    (maxIterations : Nat) :
    ((solveWorklist arena constraints maxIterations).diagnostics.converged = true →
      ∀ compacted ∈ (rewriteEqualConstraints constraints).constraints,
        ((finalWorklist arena constraints maxIterations).state.applyConstraint compacted).1.assignments =
          (finalWorklist arena constraints maxIterations).state.assignments) ∧
    (∀ a b, Connected constraints a b →
      (solveWorklist arena constraints maxIterations).varTypes.lookup a =
        (solveWorklist arena constraints maxIterations).varTypes.lookup b) ∧
    (∀ var ∈ mentioned constraints,
      (solveWorklist arena constraints maxIterations).varTypes.lookup var =
        ((finalWorklist arena constraints maxIterations).state.assignment
          (representative constraints var)).map Assignment.ty) ∧
    ∀ a ∈ mentioned constraints, ∀ b ∈ mentioned constraints, ¬ Connected constraints a b →
      representative constraints a ≠ representative constraints b ∧
      ∀ (state : SolverState) (assignment : Assignment),
        (state.setAssignment (representative constraints a) assignment).assignment
            (representative constraints b) =
          state.assignment (representative constraints b) := by
  refine ⟨fun converged compacted listed => ?_, fun a b connected => ?_, fun var isMentioned => ?_,
    fun a aMentioned b bMentioned apart => ?_⟩
  · have inv := finalWorklist_inv built present maxIterations
    exact SolverState.applyConstraint_settled
      (inv.settled_of_empty (converged_iff.mp converged) compacted listed)
  · rcases connected_mentioned connected with rfl | ⟨aMentioned, bMentioned⟩
    · rfl
    · rw [solveWorklist_lookup built present, solveWorklist_lookup built present, if_pos aMentioned,
        if_pos bMentioned, (representative_eq_iff aMentioned bMentioned).mpr connected]
  · rw [solveWorklist_lookup built present, if_pos isMentioned]
  · have differ : representative constraints a ≠ representative constraints b := fun same =>
      apart ((representative_eq_iff aMentioned bMentioned).mp same)
    exact ⟨differ, fun state assignment => SolverState.assignment_set_ne differ.symm⟩

/-- A Boolean and a variable equal to it. -/
def equalBools : List Constraint :=
  [.setType ⟨"rax", 1, 8⟩ 2 .external, .equal ⟨"rbx", 1, 8⟩ ⟨"rax", 1, 8⟩ .inferred]

private theorem equalBools_present :
    ∀ constraint ∈ equalBools, ∀ id ∈ constraint.types, TypeArena.default.Present id := by
  decide

theorem solveWorklist_fixpoint_equalBools :
    (solveWorklist .default equalBools 64).diagnostics.converged = true ∧
    (∀ compacted ∈ (rewriteEqualConstraints equalBools).constraints,
      ((finalWorklist .default equalBools 64).state.applyConstraint compacted).1.assignments =
        (finalWorklist .default equalBools 64).state.assignments) ∧
    (solveWorklist .default equalBools 64).varTypes.lookup ⟨"rbx", 1, 8⟩ =
      (solveWorklist .default equalBools 64).varTypes.lookup ⟨"rax", 1, 8⟩ := by
  have converged : (solveWorklist .default equalBools 64).diagnostics.converged = true := by
    decide +kernel
  obtain ⟨fixpoint, connected, _⟩ := solveWorklist_fixpoint .default equalBools_present 64
  exact ⟨converged, fixpoint converged, connected _ _ (.rel _ _ ⟨.inferred, by decide⟩)⟩

end Solutions

end R2Sleigh.Types
