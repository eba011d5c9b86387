import Mathlib.Algebra.Order.BigOperators.Group.Finset
import R2Sleigh.Flow.PostDom
import R2Sleigh.Ssa.SccpApplied

/-!
Contract: the post-dominator sets of the region analysis.

Owns `computePostDominators`.
-/

namespace R2Sleigh.Dec

open Flow Lib Ssa Option

abbrev PostDominators := HashMap Nat (Finset Nat)

variable (func : SSAFunction)

def exitBlocks : Finset Nat :=
  (func.blockOrder.filter fun addr => (func.successors addr).isEmpty).toFinset

def initialPostDominators : PostDominators :=
  func.blockOrder.foldl (fun postdoms addr => postdoms.insert addr
    (if addr ∈ exitBlocks func then {addr} else func.blockOrder.toFinset)) ∅

/-- The set of a successor; a successor that is no block stands alone. -/
def setOf (postdoms : PostDominators) (succ : Nat) : Finset Nat :=
  (postdoms.lookup succ).getD {succ}

def intersectStep (postdoms : PostDominators) (current : Option (Finset Nat)) (succ : Nat) :
    Option (Finset Nat) :=
  match current with
  | some current => some (current ∩ setOf postdoms succ)
  | none => some (setOf postdoms succ)

/-- The block and what the sets of all its successors have in common. -/
def newSet (postdoms : PostDominators) (addr : Nat) : Finset Nat :=
  insert addr (((func.successors addr).foldl (intersectStep postdoms) none).getD ∅)

def visitBlock (state : PostDominators × Bool) (addr : Nat) : PostDominators × Bool :=
  if addr ∈ exitBlocks func then state
  else if (func.successors addr).isEmpty then state
  else if state.1.lookup addr ≠ some (newSet func state.1 addr) then
    (state.1.insert addr (newSet func state.1 addr), true)
  else state

def sweep (postdoms : PostDominators) : PostDominators × Bool :=
  func.blockOrder.reverse.foldl (visitBlock func) (postdoms, false)

/-- Sweeps until one changes nothing; `none` when they were too few. -/
def sweeps : Nat → PostDominators → Option PostDominators
  | 0, _ => none
  | fuel + 1, postdoms =>
    let (next, changed) := sweep func postdoms
    if changed then sweeps fuel next else some next

def computePostDominators (fuel : Nat) : Option PostDominators :=
  sweeps func fuel (initialPostDominators func)

def postDominates (postdoms : PostDominators) (start candidate : Nat) : Bool :=
  match postdoms.lookup start with
  | some set => candidate ∈ set
  | none => false

variable {func}

theorem mem_exitBlocks {addr : Nat} :
    addr ∈ exitBlocks func ↔ addr ∈ func.blockOrder ∧ func.successors addr = [] := by
  rw [exitBlocks, List.mem_toFinset, List.mem_filter, List.isEmpty_iff]

theorem foldl_intersectStep (postdoms : PostDominators) (p : Nat) : ∀ (succs : List Nat)
    (current : Finset Nat), ∃ set, succs.foldl (intersectStep postdoms) (some current) = some set ∧
      (p ∈ set ↔ p ∈ current ∧ ∀ succ ∈ succs, p ∈ setOf postdoms succ)
  | [], current => ⟨current, rfl, by simp⟩
  | succ :: rest, current => by
    obtain ⟨set, isSet, mem⟩ := foldl_intersectStep postdoms p rest (current ∩ setOf postdoms succ)
    exact ⟨set, isSet, by rw [mem, Finset.mem_inter, List.forall_mem_cons, and_assoc]⟩

theorem mem_newSet {postdoms : PostDominators} {addr p : Nat}
    (goesOn : func.successors addr ≠ []) : p ∈ newSet func postdoms addr ↔
      p = addr ∨ ∀ succ ∈ func.successors addr, p ∈ setOf postdoms succ := by
  rw [newSet, Finset.mem_insert]
  cases isSuccs : func.successors addr with
  | nil => exact absurd isSuccs goesOn
  | cons succ rest =>
    obtain ⟨set, isSet, mem⟩ := foldl_intersectStep postdoms p rest (setOf postdoms succ)
    rw [show (succ :: rest).foldl (intersectStep postdoms) none = some set from isSet,
      getD_some, mem, List.forall_mem_cons]

/-! ## One visit -/

theorem setOf_insert (postdoms : PostDominators) (addr : Nat) (set : Finset Nat) :
    setOf (postdoms.insert addr set) = Function.update (setOf postdoms) addr set := by
  funext b
  by_cases same : b = addr
  · rw [same, Function.update_self, setOf, AList.lookup_insert, getD_some]
  · rw [Function.update_of_ne same, setOf, AList.lookup_insert_ne same, setOf]

/-- What holds of the sets between two visits. -/
structure Descending (func : SSAFunction) (postdoms : PostDominators) : Prop where
  stored : ∀ b ∈ func.blockOrder, ∃ set, postdoms.lookup b = some set
  exits : ∀ b ∈ func.blockOrder, func.successors b = [] → setOf postdoms b = {b}
  shrinks : ∀ b ∈ func.blockOrder, func.successors b ≠ [] →
    newSet func postdoms b ⊆ setOf postdoms b
  keeps : ∀ b ∈ func.blockOrder, ∀ p ∈ func.blockOrder, PostDom func.successors p b →
    p ∈ setOf postdoms b

/-- The size of all sets together. -/
def totalSize (func : SSAFunction) (postdoms : PostDominators) : Nat :=
  ∑ b ∈ func.blockOrder.toFinset, (setOf postdoms b).card

/-- The sets of a block that no visit changes. -/
def Settled (func : SSAFunction) (postdoms : PostDominators) (addr : Nat) : Prop :=
  func.successors addr ≠ [] → setOf postdoms addr = newSet func postdoms addr

def Closed (func : SSAFunction) : Prop :=
  ∀ b ∈ func.blockOrder, ∀ succ ∈ func.successors b, succ ∈ func.blockOrder

variable {postdoms : PostDominators}

/-- A visit of a block whose set changes makes that set smaller. -/
theorem Descending.insert (closed : Closed func) (descending : Descending func postdoms)
    {addr : Nat} (listed : addr ∈ func.blockOrder) (goesOn : func.successors addr ≠ [])
    (differs : postdoms.lookup addr ≠ some (newSet func postdoms addr)) :
    Descending func (postdoms.insert addr (newSet func postdoms addr)) ∧
      totalSize func (postdoms.insert addr (newSet func postdoms addr)) <
        totalSize func postdoms := by
  have smaller (b : Nat) :
      setOf (postdoms.insert addr (newSet func postdoms addr)) b ⊆ setOf postdoms b := by
    rw [setOf_insert]
    by_cases same : b = addr
    · rw [same, Function.update_self]
      exact descending.shrinks addr listed goesOn
    · rw [Function.update_of_ne same]
  refine ⟨⟨fun b inOrder => ?_, fun b inOrder exit => ?_, fun b inOrder goesOn' => ?_,
    fun b inOrder p isBlock postDom => ?_⟩, ?_⟩
  · by_cases same : b = addr
    · exact ⟨_, by rw [same, AList.lookup_insert]⟩
    · rw [AList.lookup_insert_ne same]
      exact descending.stored b inOrder
  · have other : b ≠ addr := fun same => goesOn (same ▸ exit)
    rw [setOf_insert, Function.update_of_ne other]
    exact descending.exits b inOrder exit
  · -- What the successors have in common after the visit they had in common before.
    have fewer : newSet func (postdoms.insert addr (newSet func postdoms addr)) b ⊆
        newSet func postdoms b := by
      intro p mem
      rw [mem_newSet goesOn'] at mem ⊢
      exact mem.imp_right fun all succ edge => smaller succ (all succ edge)
    rw [setOf_insert]
    by_cases same : b = addr
    · subst same
      rw [Function.update_self]
      exact fewer
    · rw [Function.update_of_ne same]
      exact fewer.trans (descending.shrinks b inOrder goesOn')
  · rw [setOf_insert]
    by_cases same : b = addr
    · subst same
      rw [Function.update_self, mem_newSet goesOn]
      by_cases self : p = b
      · exact .inl self
      · exact .inr fun succ edge => descending.keeps succ (closed b inOrder succ edge) p isBlock
          (postDom.of_edge self edge)
    · rw [Function.update_of_ne same]
      exact descending.keeps b inOrder p isBlock postDom
  · obtain ⟨old, isOld⟩ := descending.stored addr listed
    have isSet : setOf postdoms addr = old := by rw [setOf, isOld, getD_some]
    have strict : newSet func postdoms addr ⊂ setOf postdoms addr := by
      refine (descending.shrinks addr listed goesOn).ssubset_of_ne fun same => differs ?_
      rw [isOld, same, isSet]
    refine Finset.sum_lt_sum (fun b _ => Finset.card_le_card (smaller b))
      ⟨addr, List.mem_toFinset.mpr listed, ?_⟩
    rw [setOf_insert, Function.update_self]
    exact Finset.card_lt_card strict

/-- A visit leaves a settled block as it is, and makes the set of another one smaller. -/
theorem visitBlock_spec (closed : Closed func) {state : PostDominators × Bool}
    (descending : Descending func state.1) {addr : Nat} (listed : addr ∈ func.blockOrder) :
    visitBlock func state addr = state ∧ Settled func state.1 addr ∨
      Descending func (visitBlock func state addr).1 ∧
        totalSize func (visitBlock func state addr).1 < totalSize func state.1 ∧
        (visitBlock func state addr).2 = true := by
  unfold visitBlock
  by_cases exit : func.successors addr = []
  · rw [if_pos (mem_exitBlocks.mpr ⟨listed, exit⟩)]
    exact .inl ⟨rfl, fun goesOn => absurd exit goesOn⟩
  rw [if_neg fun mem => exit (mem_exitBlocks.mp mem).2,
    if_neg fun empty => exit (List.isEmpty_iff.mp empty)]
  by_cases same : state.1.lookup addr = some (newSet func state.1 addr)
  · rw [if_neg (not_not.mpr same)]
    exact .inl ⟨rfl, fun _ => by rw [setOf, same, getD_some]⟩
  · rw [if_pos same]
    obtain ⟨kept, smaller⟩ := descending.insert closed listed exit same
    exact .inr ⟨kept, smaller, rfl⟩

/-! ## Sweeps -/

/-- Visits that change nothing have met settled blocks only; others make the sets smaller. -/
theorem foldl_visitBlock (closed : Closed func) : ∀ (addrs : List Nat)
    (state : PostDominators × Bool), (∀ addr ∈ addrs, addr ∈ func.blockOrder) →
    Descending func state.1 →
    addrs.foldl (visitBlock func) state = state ∧ (∀ addr ∈ addrs, Settled func state.1 addr) ∨
      Descending func (addrs.foldl (visitBlock func) state).1 ∧
        totalSize func (addrs.foldl (visitBlock func) state).1 < totalSize func state.1 ∧
        (addrs.foldl (visitBlock func) state).2 = true
  | [], state, _, descending => .inl ⟨rfl, fun _ mem => absurd mem List.not_mem_nil⟩
  | addr :: rest, state, listed, descending => by
    obtain ⟨here, listed⟩ := List.forall_mem_cons.mp listed
    rw [List.foldl_cons]
    rcases visitBlock_spec closed descending here with ⟨same, settled⟩ | ⟨kept, smaller, changed⟩
    · rw [same]
      refine (foldl_visitBlock closed rest state listed descending).imp_left ?_
      exact fun ⟨same, others⟩ => ⟨same, List.forall_mem_cons.mpr ⟨settled, others⟩⟩
    · rcases foldl_visitBlock closed rest _ listed kept with
        ⟨same, -⟩ | ⟨kept', smaller', changed'⟩
      · rw [same]
        exact .inr ⟨kept, smaller, changed⟩
      · exact .inr ⟨kept', smaller'.trans smaller, changed'⟩

/-- The sweeps end, since each that changes a set makes one smaller. -/
theorem sweeps_end (closed : Closed func) {n : Nat} (descending : Descending func postdoms)
    (size : totalSize func postdoms = n) : ∃ final,
      (∀ fuel, n < fuel → sweeps func fuel postdoms = some final) ∧ Descending func final ∧
      ∀ addr ∈ func.blockOrder, Settled func final addr := by
  induction n using Nat.strong_induction_on generalizing postdoms with
  | _ n ih =>
    have visited : ∀ addr ∈ func.blockOrder.reverse, addr ∈ func.blockOrder :=
      fun addr => List.mem_reverse.mp
    rcases foldl_visitBlock closed _ (postdoms, false) visited descending with
      ⟨same, settled⟩ | ⟨kept, smaller, changed⟩
    · refine ⟨postdoms, fun fuel enough => ?_, descending,
        fun addr listed => settled addr (List.mem_reverse.mpr listed)⟩
      obtain ⟨less, rfl⟩ := Nat.exists_eq_succ_of_ne_zero (Nat.ne_zero_of_lt enough)
      rw [sweeps, show sweep func postdoms = (postdoms, false) from same]
      rfl
    · obtain ⟨final, ends, rest⟩ := ih _ (size ▸ smaller) kept rfl
      refine ⟨final, fun fuel enough => ?_, rest⟩
      obtain ⟨less, rfl⟩ := Nat.exists_eq_succ_of_ne_zero (Nat.ne_zero_of_lt enough)
      rw [sweeps]
      dsimp only
      rw [if_pos (show (sweep func postdoms).2 = true from changed)]
      exact ends less (smaller.trans_le (size.trans_le (Nat.le_of_lt_succ enough)))

/-! ## The initial sets -/

theorem setOf_initial {addr : Nat} (listed : addr ∈ func.blockOrder) :
    ∃ set, (initialPostDominators func).lookup addr = some set ∧
      set = if func.successors addr = [] then {addr} else func.blockOrder.toFinset := by
  unfold initialPostDominators
  rw [HashMap.lookup_foldl_insert_last (fun addr => addr)]
  have present : (func.blockOrder.reverse.find? fun item => item = addr) = some addr := by
    cases found : func.blockOrder.reverse.find? fun item => item = addr with
    | none => simpa using List.find?_eq_none.mp found addr (List.mem_reverse.mpr listed)
    | some item =>
      have same : item = addr := by simpa using List.find?_some found
      rw [same]
  rw [present]
  refine ⟨_, rfl, ?_⟩
  dsimp only
  by_cases exit : func.successors addr = []
  · rw [if_pos exit, if_pos (mem_exitBlocks.mpr ⟨listed, exit⟩)]
  · rw [if_neg exit, if_neg fun mem => exit (mem_exitBlocks.mp mem).2]

private theorem descending_initial (closed : Closed func) :
    Descending func (initialPostDominators func) := by
  have initial {b : Nat} (listed : b ∈ func.blockOrder) : setOf (initialPostDominators func) b =
      if func.successors b = [] then {b} else func.blockOrder.toFinset := by
    obtain ⟨set, found, isSet⟩ := setOf_initial listed
    rw [setOf, found, getD_some, isSet]
  have within {b : Nat} (listed : b ∈ func.blockOrder) :
      setOf (initialPostDominators func) b ⊆ func.blockOrder.toFinset := by
    rw [initial listed]
    split
    · exact Finset.singleton_subset_iff.mpr (List.mem_toFinset.mpr listed)
    · exact Finset.Subset.refl _
  refine ⟨fun b listed => (setOf_initial listed).imp fun _ both => both.1,
    fun b listed exit => by rw [initial listed, if_pos exit], fun b listed goesOn p mem => ?_,
    fun b listed p isBlock postDom => ?_⟩
  · rw [initial listed, if_neg goesOn]
    rcases (mem_newSet goesOn).mp mem with rfl | all
    · exact List.mem_toFinset.mpr listed
    · obtain ⟨succ, edge⟩ := List.exists_mem_of_ne_nil _ goesOn
      exact within (closed b listed succ edge) (all succ edge)
  · rw [initial listed]
    split
    · rename_i exit
      exact Finset.mem_singleton.mpr (postDom.eq_of_exit exit)
    · exact List.mem_toFinset.mpr isBlock

theorem closed_of_coherent (coherent : func.Coherent) : Closed func := by
  intro b listed succ edge
  rw [coherent.isReversePostorder.mem_iff] at listed ⊢
  exact listed.step (coherent.bijective.consistent.mem_successors.mp edge)

/-- The sweeps end, and then the set of every block from which an exit is reachable holds
exactly the blocks on all of its paths to exits. -/
theorem computePostDominators_correct (closed : Closed func) : ∃ bound postdoms,
    (∀ fuel, bound < fuel → computePostDominators func fuel = some postdoms) ∧
      ∀ b ∈ func.blockOrder, (∃ l, ExitPath func.successors b l) → ∀ p ∈ func.blockOrder,
        (postDominates postdoms b p = true ↔ PostDom func.successors p b) := by
  obtain ⟨postdoms, ends, descending, settled⟩ := sweeps_end closed (descending_initial closed) rfl
  refine ⟨_, postdoms, ends, fun b listed _ p isBlock => ?_⟩
  obtain ⟨set, found⟩ := descending.stored b listed
  have isSet : setOf postdoms b = set := by rw [setOf, found, getD_some]
  have isMember : postDominates postdoms b p = true ↔ p ∈ setOf postdoms b := by
    rw [postDominates, found, isSet]
    exact decide_eq_true_iff
  rw [isMember]
  refine ⟨fun mem l path => ?_, descending.keeps b listed p isBlock⟩
  refine path.mem_of_sets (· ∈ func.blockOrder) (fun b p => p ∈ setOf postdoms b) closed ?_ ?_
    listed mem
  · intro b listed exit p mem
    rw [descending.exits b listed exit] at mem
    exact Finset.mem_singleton.mp mem
  · intro b listed p mem other succ edge
    have goesOn := List.ne_nil_of_mem edge
    rw [settled b listed goesOn, mem_newSet goesOn] at mem
    exact mem.resolve_left other succ edge

section Examples

open Il

def loopOrReturn : CFG :=
  (CFG.fromBlocks [⟨0, 4, [.CBranch ⟨.Const, 8, 8⟩ ⟨.Register, 0, 1⟩], none⟩,
    ⟨4, 4, [.Return ⟨.Register, 8, 8⟩], none⟩,
    ⟨8, 4, [.Branch ⟨.Const, 8, 8⟩], none⟩]).getD (CFG.new 0)

def loopOrReturnFunction : SSAFunction where
  entry := 0
  cfg := loopOrReturn
  domtree := DomTree.compute loopOrReturn
  blocks := ((AList.insert 0 ⟨0, 4, [.CBranch ⟨"const:8", 0, 8⟩ ⟨"zf", 0, 1⟩], []⟩ ∅).insert 4
    ⟨4, 4, [.Return ⟨"pc", 0, 8⟩], []⟩).insert 8 ⟨8, 4, [.Branch ⟨"const:8", 0, 8⟩], []⟩
  blockOrder := loopOrReturn.reversePostorder

/-- The block that returns post-dominates the entry, the one that loops does not. -/
theorem computePostDominators_correct_loopOrReturn : ∃ bound postdoms,
    (∀ fuel, bound < fuel → computePostDominators loopOrReturnFunction fuel = some postdoms) ∧
      ∀ p ∈ loopOrReturnFunction.blockOrder, (postDominates postdoms 0 p = true ↔
        PostDom loopOrReturnFunction.successors p 0) := by
  have closed : Closed loopOrReturnFunction := by unfold Closed; decide +kernel
  have listed : 0 ∈ loopOrReturnFunction.blockOrder := by decide +kernel
  have returns : ExitPath loopOrReturnFunction.successors 0 [0, 4] :=
    .step (s := 4) (by decide +kernel) (.exit (by decide +kernel))
  obtain ⟨bound, postdoms, ends, exact⟩ := computePostDominators_correct closed
  exact ⟨bound, postdoms, ends, exact 0 listed ⟨_, returns⟩⟩

end Examples

end R2Sleigh.Dec
