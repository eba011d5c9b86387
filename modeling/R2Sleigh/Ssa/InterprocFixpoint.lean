import R2Sleigh.Lib.HashMap
import R2Sleigh.Ssa.Interproc

/-!
Contract: converged summaries are a fixpoint of every function at once.

Does not own: whether the iteration converges. A return relation is not
monotone, and a component that is still changing at the limit is reported.
-/

namespace R2Sleigh.Ssa.Interproc

open Lib Flow List

variable {id v w : Nat} {state : Summaries × Bool} {scc : List Nat} {sccs : List (List Nat)}

section Dependence

variable {current current' : Summaries}

private theorem observedRelation_congr {observation : SummaryValueObservation}
    (same : ∀ call, observation = .call call →
      current.get? call.target = current'.get? call.target) :
    observedRelation current observation = observedRelation current' observation := by
  cases observation with
  | call call => simp only [observedRelation, same call rfl]
  | arg | const | global | unknown => rfl

private theorem returnRelationFrom_congr {observations : List SummaryValueObservation}
    (same : ∀ call, .call call ∈ observations →
      current.get? call.target = current'.get? call.target)
    (relation : Option SummaryReturnRelation) :
    returnRelationFrom current relation observations =
      returnRelationFrom current' relation observations := by
  induction observations generalizing relation with
  | nil => rfl
  | cons observation rest ih =>
    have head : observedRelation current observation = observedRelation current' observation :=
      observedRelation_congr fun call isCall => same call (isCall ▸ mem_cons_self)
    have tail := ih fun call mem => same call (mem_cons_of_mem _ mem)
    simp only [returnRelationFrom, head, tail]

private theorem resolveSummary_congr {name : Option String} {facts : LocalSummaryFacts}
    (same : ∀ target ∈ facts.directCallees.keys, current.get? target = current'.get? target) :
    resolveSummary id name facts current = resolveSummary id name facts current' := by
  have effects : facts.callObservations.entries.foldl (mergeCall current)
        (facts.argEffects, facts.memoryEffects) =
      facts.callObservations.entries.foldl (mergeCall current')
        (facts.argEffects, facts.memoryEffects) := by
    refine foldl_ext _ _ _ fun effects entry mem => ?_
    simp only [mergeCall, same _ (facts.calls_direct entry mem)]
  have relation : resolveReturnRelation facts.returnObservations current =
      resolveReturnRelation facts.returnObservations current' :=
    returnRelationFrom_congr (fun call mem => same _ (facts.returns_direct call mem)) none
  simp only [resolveSummary, effects, relation]

end Dependence

section CallGraph

variable {locals : Locals}

/-- `v` calls `w` directly and both have local facts. -/
def Calls (locals : Locals) (v w : Nat) : Prop :=
  ∃ name facts, locals.get? v = some (name, facts) ∧ w ∈ facts.directCallees.keys ∧ w ∈ locals.keys

theorem mem_sortIds {ids : List Nat} : v ∈ sortIds ids ↔ v ∈ ids :=
  (perm_insertionSort _ ids).mem_iff

private theorem mem_calleesIn {facts : LocalSummaryFacts} :
    w ∈ calleesIn locals facts ↔ w ∈ facts.directCallees.keys ∧ w ∈ locals.keys := by
  rw [calleesIn, mem_dedup, mem_sortIds, mem_filter, decide_eq_true_eq]

private theorem listAt_orInsert_nil {edges : BTreeMap Nat (List Nat)}
    (empty : edges.listAt v = []) (node : Nat) : (edges.orInsert node []).listAt v = [] := by
  unfold BTreeMap.orInsert
  split
  · exact empty
  · rw [BTreeMap.listAt, BTreeMap.get?_insert]
    split
    · rfl
    · exact empty

theorem listAt_emptyEdges (v : Nat) : (emptyEdges locals).listAt v = [] := by
  have loop : ∀ (nodes : List Nat) (edges : BTreeMap Nat (List Nat)), edges.listAt v = [] →
      (nodes.foldl (fun edges node => edges.orInsert node []) edges).listAt v = [] := by
    intro nodes
    induction nodes with
    | nil => exact fun _ empty => empty
    | cons node nodes ih =>
      exact fun edges empty => ih _ (listAt_orInsert_nil empty node)
  exact loop locals.keys .empty rfl

theorem callEdges_eq : callEdges locals =
    (locals.entries.foldl (fun succs entry => succs.insert entry.1 (calleesIn locals entry.2.2))
        (emptyEdges locals),
      locals.entries.foldl (fun rev entry => (calleesIn locals entry.2.2).foldl
        (fun rev succ => rev.pushAt succ entry.1) rev) (emptyEdges locals)) := by
  have apart : ∀ (entries : List (Nat × Option String × LocalSummaryFacts))
      (succs rev : BTreeMap Nat (List Nat)),
      entries.foldl (fun acc entry =>
          let out := calleesIn locals entry.2.2
          (acc.1.insert entry.1 out, out.foldl (fun rev succ => rev.pushAt succ entry.1) acc.2))
        (succs, rev) =
      (entries.foldl (fun succs entry => succs.insert entry.1 (calleesIn locals entry.2.2)) succs,
        entries.foldl (fun rev entry => (calleesIn locals entry.2.2).foldl
          (fun rev succ => rev.pushAt succ entry.1) rev) rev) := by
    intro entries
    induction entries with
    | nil => exact fun _ _ => rfl
    | cons entry entries ih => exact fun _ _ => ih _ _
  exact apart locals.entries _ _

theorem exists_callee :
    (∃ entry ∈ locals.entries, v = entry.1 ∧ w ∈ calleesIn locals entry.2.2) ↔ Calls locals v w := by
  simp only [mem_calleesIn, Calls, BTreeMap.get?_eq_some_iff]
  constructor
  · rintro ⟨⟨v, name, facts⟩, mem, rfl, callee⟩
    exact ⟨name, facts, mem, callee⟩
  · rintro ⟨name, facts, mem, callee⟩
    exact ⟨(v, name, facts), mem, rfl, callee⟩

theorem mem_callees : w ∈ (callEdges locals).1.listAt v ↔ Calls locals v w := by
  -- after any part of the loop, the lists are those of the functions passed
  have loop : ∀ (entries : List (Nat × Option String × LocalSummaryFacts))
      (succs : BTreeMap Nat (List Nat)), (entries.map Prod.fst).Nodup →
      (∀ entry ∈ entries, succs.listAt entry.1 = []) →
      (w ∈ (entries.foldl (fun succs entry => succs.insert entry.1
          (calleesIn locals entry.2.2)) succs).listAt v ↔
        w ∈ succs.listAt v ∨ ∃ entry ∈ entries, v = entry.1 ∧ w ∈ calleesIn locals entry.2.2) := by
    intro entries
    induction entries with
    | nil => exact fun succs _ _ => by simp
    | cons entry entries ih =>
      intro succs nodup empty
      obtain ⟨notLater, nodupLater⟩ := nodup_cons.mp nodup
      have emptyLater : ∀ later ∈ entries,
          (succs.insert entry.1 (calleesIn locals entry.2.2)).listAt later.1 = [] := by
        intro later mem
        have differ : later.1 ≠ entry.1 := fun same =>
          notLater (same ▸ mem_map_of_mem mem)
        rw [BTreeMap.listAt, BTreeMap.get?_insert, if_neg differ]
        exact empty later (mem_cons_of_mem _ mem)
      rw [foldl_cons, ih _ nodupLater emptyLater, BTreeMap.listAt, BTreeMap.get?_insert]
      by_cases same : v = entry.1
      · subst same
        have before := empty entry mem_cons_self
        simp [before]
      · simp [same, BTreeMap.listAt]
  have nodup : (locals.entries.map Prod.fst).Nodup := (pairwise_map.mpr locals.sorted).imp ne_of_lt
  rw [callEdges_eq, loop locals.entries _ nodup fun entry _ => listAt_emptyEdges entry.1,
    listAt_emptyEdges, exists_callee]
  simp

private theorem mem_callers : v ∈ (callEdges locals).2.listAt w ↔ Calls locals v w := by
  have pushes : ∀ (caller : Nat) (out : List Nat) (rev : BTreeMap Nat (List Nat)),
      (v ∈ (out.foldl (fun rev succ => rev.pushAt succ caller) rev).listAt w ↔
        v ∈ rev.listAt w ∨ (v = caller ∧ w ∈ out)) := by
    intro caller out
    induction out with
    | nil => exact fun rev => by simp
    | cons succ out ih =>
      intro rev
      rw [foldl_cons, ih, BTreeMap.mem_listAt_pushAt, mem_cons]
      tauto
  have loop : ∀ (entries : List (Nat × Option String × LocalSummaryFacts))
      (rev : BTreeMap Nat (List Nat)),
      (v ∈ (entries.foldl (fun rev entry => (calleesIn locals entry.2.2).foldl
          (fun rev succ => rev.pushAt succ entry.1) rev) rev).listAt w ↔
        v ∈ rev.listAt w ∨ ∃ entry ∈ entries, v = entry.1 ∧ w ∈ calleesIn locals entry.2.2) := by
    intro entries
    induction entries with
    | nil => exact fun rev => by simp
    | cons entry entries ih =>
      intro rev
      rw [foldl_cons, ih, pushes]
      simp only [exists_mem_cons_iff, or_assoc]
  rw [callEdges_eq, loop, listAt_emptyEdges, exists_callee]
  simp

/-- The components are listed callees first. -/
theorem computeSummarySccs_isCondensation (locals : Locals) :
    IsCondensation (callEdges locals).1.listAt locals.keys (computeSummarySccs locals) := by
  have mirror : ∀ a b, a ∈ ((callEdges locals).2.mapValues fun preds =>
      (sortIds preds).dedup).listAt b ↔ b ∈ (callEdges locals).1.listAt a := by
    intro a b
    rw [mem_callees, ← mem_callers, BTreeMap.listAt, BTreeMap.get?_mapValues, BTreeMap.listAt]
    cases (callEdges locals).2.get? b with
    | none => simp
    | some preds => simp [mem_sortIds]
  have closed : ∀ a ∈ locals.keys, ∀ b ∈ (callEdges locals).1.listAt a, b ∈ locals.keys := by
    intro a _ b edge
    obtain ⟨-, -, -, -, inside⟩ := mem_callees.mp edge
    exact inside
  have closedBack : ∀ a ∈ locals.keys, ∀ b ∈ ((callEdges locals).2.mapValues fun preds =>
      (sortIds preds).dedup).listAt a, b ∈ locals.keys := by
    intro a _ b edge
    obtain ⟨name, facts, found, -⟩ := mem_callees.mp ((mirror b a).mp edge)
    exact BTreeMap.mem_keys.mpr ⟨_, found⟩
  have condensation := stronglyConnected_isCondensation closed mirror closedBack
  have sorted := condensation.of_perm (fun _ _ => Iff.rfl) (fun _ => Iff.rfl)
    fun c => (perm_insertionSort (· ≤ ·) c : (sortIds c).Perm c)
  rw [stronglyConnected, map_reverse] at sorted
  exact sorted

end CallGraph

section Fixpoint

variable {locals : Locals}

/-- The summary at `id` is the one resolved from the current summaries. -/
def FixedAt (locals : Locals) (current : Summaries) (id : Nat) : Prop :=
  ∀ name facts, locals.get? id = some (name, facts) →
    current.get? id = some (resolveSummary id name facts current)

private theorem FixedAt.of_same {current current' : Summaries}
    (fixed : FixedAt locals current id) (sameSelf : current'.get? id = current.get? id)
    (sameCallees : ∀ name facts, locals.get? id = some (name, facts) →
      ∀ target ∈ facts.directCallees.keys, current'.get? target = current.get? target) :
    FixedAt locals current' id := by
  intro name facts found
  rw [sameSelf, fixed name facts found,
    resolveSummary_congr fun target callee => sameCallees name facts found target callee]

private theorem passStep_get?_of_ne {id' : Nat} (differ : id' ≠ id) :
    (passStep locals state id).1.get? id' = state.1.get? id' := by
  unfold passStep
  split
  · rfl
  · simp only
    split
    · rfl
    · rw [BTreeMap.get?_insert, if_neg differ]

/-- A step that reports no change has made none, and its function is at its
fixpoint. -/
theorem passStep_unchanged (unchanged : (passStep locals state id).2 = false) :
    passStep locals state id = state ∧ FixedAt locals state.1 id := by
  unfold passStep at unchanged ⊢
  split
  · rename_i absent
    refine ⟨rfl, fun name facts found => ?_⟩
    rw [absent] at found
    cases found
  · rename_i name facts found
    simp only [found] at unchanged ⊢
    split
    · rename_i same
      refine ⟨rfl, fun name' facts' found' => ?_⟩
      rw [found] at found'
      cases found'
      exact same
    · rename_i differ
      rw [if_neg differ] at unchanged
      cases unchanged

private theorem foldl_passStep_get?_of_notMem
    (outside : id ∉ scc) : (scc.foldl (passStep locals) state).1.get? id = state.1.get? id := by
  exact foldl_kept (·.1.get? id) (fun _ _ mem =>
    passStep_get?_of_ne (ne_of_mem_of_not_mem mem outside).symm) state

theorem foldl_passStep_unchanged (unchanged : (scc.foldl (passStep locals) state).2 = false) :
    scc.foldl (passStep locals) state = state ∧ ∀ id ∈ scc, FixedAt locals state.1 id := by
  induction scc generalizing state with
  | nil => exact ⟨rfl, by simp⟩
  | cons head scc ih =>
    rw [foldl_cons] at unchanged
    obtain ⟨restSame, restFixed⟩ := ih unchanged
    rw [restSame] at unchanged
    obtain ⟨headSame, headFixed⟩ := passStep_unchanged unchanged
    rw [headSame] at restSame restFixed
    refine ⟨by rw [foldl_cons, headSame, restSame], fun id mem => ?_⟩
    rcases mem_cons.mp mem with rfl | inRest
    · exact headFixed
    · exact restFixed id inRest

theorem solveScc_get?_of_notMem (outside : id ∉ scc) (remaining : Nat) (current : Summaries) :
    (solveScc locals scc remaining current).1.get? id = current.get? id := by
  induction remaining generalizing current with
  | zero => rfl
  | succ remaining ih =>
    have passed : (pass locals scc current).1.get? id = current.get? id :=
      foldl_passStep_get?_of_notMem outside
    rw [solveScc]
    split
    · rename_i next found
      rw [found] at passed
      simp only [ih, passed]
    · rename_i next found
      rw [found] at passed
      exact passed

private theorem solveScc_fixed {remaining : Nat} {current : Summaries}
    (converged : (solveScc locals scc remaining current).2.2 = true) :
    ∀ id ∈ scc, FixedAt locals (solveScc locals scc remaining current).1 id := by
  induction remaining generalizing current with
  | zero => cases converged
  | succ remaining ih =>
    rw [solveScc] at converged ⊢
    split
    · rename_i next found
      rw [found] at converged
      exact ih converged
    · rename_i next found
      have unchanged : (scc.foldl (passStep locals) (current, false)).2 = false :=
        congrArg Prod.snd found
      obtain ⟨same, fixed⟩ := foldl_passStep_unchanged unchanged
      have isCurrent : next = current := by
        have twice : (next, false) = (current, false) := found.symm.trans same
        exact congrArg Prod.fst twice
      rw [isCurrent]
      exact fixed

/-- One component of the loop over the components. -/
def solveStep (locals : Locals) (maxIterations : Nat) (state : Summaries × Nat × Bool)
    (scc : List Nat) : Summaries × Nat × Bool :=
  let solved := solveScc locals scc maxIterations state.1
  (solved.1, state.2.1 + solved.2.1, state.2.2 && solved.2.2)

variable {maxIterations : Nat}

theorem foldl_solveStep_get?_of_notMem {state : Summaries × Nat × Bool}
    (outside : ∀ scc ∈ sccs, id ∉ scc) :
    (sccs.foldl (solveStep locals maxIterations) state).1.get? id = state.1.get? id := by
  exact foldl_kept (g := solveStep locals maxIterations) (·.1.get? id) (fun state scc mem =>
    solveScc_get?_of_notMem (outside scc mem) maxIterations state.1) state

private theorem foldl_solveStep_converged {state : Summaries × Nat × Bool}
    (converged : (sccs.foldl (solveStep locals maxIterations) state).2.2 = true) :
    state.2.2 = true := by
  induction sccs generalizing state with
  | nil => exact converged
  | cons scc sccs ih =>
    have afterFirst := ih converged
    exact (Bool.and_eq_true_iff.mp afterFirst).1

/-- Neither `id` nor a direct callee of it is in a component. -/
def Untouched (locals : Locals) (id : Nat) (scc : List Nat) : Prop :=
  id ∉ scc ∧ ∀ name facts, locals.get? id = some (name, facts) →
    ∀ target ∈ facts.directCallees.keys, target ∉ scc

/-- Components solved one after the other, none touching an earlier one: when
all converge, every function is at its fixpoint at the end. -/
theorem foldl_solveStep_fixed {state : Summaries × Nat × Bool}
    (ordered : sccs.Pairwise fun c d => ∀ id ∈ c, Untouched locals id d)
    (converged : (sccs.foldl (solveStep locals maxIterations) state).2.2 = true) :
    ∀ scc ∈ sccs, ∀ id ∈ scc,
      FixedAt locals (sccs.foldl (solveStep locals maxIterations) state).1 id := by
  induction sccs generalizing state with
  | nil => simp
  | cons scc sccs ih =>
    obtain ⟨later, orderedLater⟩ := pairwise_cons.mp ordered
    rw [foldl_cons] at converged ⊢
    intro scc' mem id inScc
    rcases mem_cons.mp mem with rfl | inLater
    · have sccConverged := (Bool.and_eq_true_iff.mp (foldl_solveStep_converged converged)).2
      refine (solveScc_fixed sccConverged id inScc).of_same ?_ fun name facts found target callee =>
        ?_
      · exact foldl_solveStep_get?_of_notMem fun d inSccs => (later d inSccs id inScc).1
      · exact foldl_solveStep_get?_of_notMem fun d inSccs =>
          (later d inSccs id inScc).2 name facts found target callee
    · exact ih orderedLater converged scc' inLater id inScc

private theorem computeSummarySccs_untouched (locals : Locals) :
    (computeSummarySccs locals).Pairwise fun c d => ∀ id ∈ c, Untouched locals id d := by
  have condensation := computeSummarySccs_isCondensation locals
  refine condensation.ordered.imp_of_mem fun {c d} _ inD apart id inC => ⟨fun inside => ?_, ?_⟩
  · exact apart id inC id inside .refl
  · intro name facts found target callee inside
    have known : target ∈ locals.keys :=
      (condensation.mem_iff target).mp (mem_flatten.mpr ⟨d, inD, inside⟩)
    exact apart id inC target inside (.single (mem_callees.mpr ⟨name, facts, found, callee, known⟩))

end Fixpoint

section Solution

variable {argLen : Nat} {functions : List InterprocFunctionInput}

theorem collectLocals_get? (distinct : (functions.map (·.id)).Nodup)
    {entry : Option String × LocalSummaryFacts} :
    (collectLocals argLen functions).get? id = some entry ↔ ∃ function ∈ functions,
      function.id = id ∧
        (function.name, collectLocalSummaryFacts argLen function.prepared) = entry := by
  have loop : ∀ (functions : List InterprocFunctionInput) (locals : Locals),
      (functions.map (·.id)).Nodup → (∀ function ∈ functions, locals.get? function.id = none) →
      ((functions.foldl (fun locals function => locals.insert function.id
          (function.name, collectLocalSummaryFacts argLen function.prepared)) locals).get? id =
          some entry ↔
        locals.get? id = some entry ∨ ∃ function ∈ functions, function.id = id ∧
          (function.name, collectLocalSummaryFacts argLen function.prepared) = entry) := by
    intro functions
    induction functions with
    | nil => exact fun locals _ _ => by simp
    | cons function functions ih =>
      intro locals distinct absent
      obtain ⟨notLater, distinctLater⟩ := nodup_cons.mp distinct
      have absentLater : ∀ later ∈ functions, (locals.insert function.id
          (function.name, collectLocalSummaryFacts argLen function.prepared)).get? later.id =
            none := by
        intro later mem
        have differ : later.id ≠ function.id := fun same =>
          notLater (mem_map.mpr ⟨later, mem, same⟩)
        rw [BTreeMap.get?_insert, if_neg differ]
        exact absent later (mem_cons_of_mem _ mem)
      rw [foldl_cons, ih _ distinctLater absentLater, BTreeMap.get?_insert]
      by_cases same : id = function.id
      · subst same
        simp [absent function mem_cons_self]
      · have differ : ¬ function.id = id := fun equal => same equal.symm
        simp [same, differ]
  have none : (BTreeMap.empty : Locals).get? id = none := rfl
  rw [collectLocals, loop functions .empty distinct fun _ _ => rfl, none]
  simp

theorem mem_keys_collectLocals (distinct : (functions.map (·.id)).Nodup) :
    id ∈ (collectLocals argLen functions).keys ↔ id ∈ functions.map (·.id) := by
  simp only [BTreeMap.mem_keys, collectLocals_get? distinct, mem_map]
  constructor
  · rintro ⟨_, function, mem, same, -⟩
    exact ⟨function, mem, same⟩
  · rintro ⟨function, mem, same⟩
    exact ⟨_, function, mem, same, rfl⟩

/-- The direct-call graph of a set of functions: the direct callees of each that
are functions of the set. -/
def directCalls (argLen : Nat) (functions : List InterprocFunctionInput) (id : Nat) : List Nat :=
  functions.flatMap fun function =>
    if function.id = id then
      (collectLocalSummaryFacts argLen function.prepared).directCallees.keys.filter
        (· ∈ functions.map (·.id))
    else []

private theorem mem_directCalls (distinct : (functions.map (·.id)).Nodup) :
    w ∈ directCalls argLen functions v ↔
      w ∈ (callEdges (collectLocals argLen functions)).1.listAt v := by
  rw [mem_callees]
  simp only [directCalls, mem_flatMap, Calls, mem_keys_collectLocals distinct,
    collectLocals_get? distinct]
  constructor
  · rintro ⟨function, mem, inside⟩
    split at inside
    · rename_i same
      obtain ⟨callee, known⟩ := mem_filter.mp inside
      exact ⟨_, _, ⟨function, mem, same, rfl⟩, callee, of_decide_eq_true known⟩
    · simp at inside
  · rintro ⟨name, facts, ⟨function, mem, same, entry⟩, callee, known⟩
    cases entry
    refine ⟨function, mem, ?_⟩
    rw [if_pos same]
    exact mem_filter.mpr ⟨callee, decide_eq_true known⟩

/-- The components are those of the direct-call graph, callees first, and
converged summaries satisfy the equation of every function at once. -/
theorem interproc_summaries_fixpoint (functions : List InterprocFunctionInput) (argLen : Nat)
    (root : Option Nat) (seedSummaries : Summaries) (maxIterations : Nat)
    (distinct : (functions.map (·.id)).Nodup) :
    IsCondensation (directCalls argLen functions) (functions.map (·.id))
        (computeSummarySccs (collectLocals argLen functions)) ∧
      let solution := solveInterprocSummarySet functions argLen root seedSummaries maxIterations
      solution.diagnostics.converged = true → ∀ function ∈ functions,
        solution.summaries.get? function.id = some (resolveSummary function.id function.name
          (collectLocalSummaryFacts argLen function.prepared) solution.summaries) := by
  have condensation := computeSummarySccs_isCondensation (collectLocals argLen functions)
  constructor
  · have sameNodes : ∀ v, v ∈ functions.map (·.id) ↔ v ∈ (collectLocals argLen functions).keys :=
      fun v => (mem_keys_collectLocals distinct).symm
    have arranged := condensation.of_perm (fun _ _ => mem_directCalls distinct) sameNodes
      fun c => List.Perm.refl c
    simpa using arranged
  · intro solution converged function mem
    have found : (collectLocals argLen functions).get? function.id =
        some (function.name, collectLocalSummaryFacts argLen function.prepared) :=
      (collectLocals_get? distinct).mpr ⟨function, mem, rfl, rfl⟩
    have known : function.id ∈ (computeSummarySccs (collectLocals argLen functions)).flatten :=
      (condensation.mem_iff _).mpr (BTreeMap.mem_keys.mpr ⟨_, found⟩)
    obtain ⟨scc, inSccs, inScc⟩ := mem_flatten.mp known
    exact foldl_solveStep_fixed (computeSummarySccs_untouched _) converged scc inSccs function.id
      inScc function.name _ found

/-- Two functions that call each other and return what the other returns; the
first also calls one outside the set. -/
def pingPong : List InterprocFunctionInput :=
  let ret : PreparedOp := ⟨[], none, none, none, some (false, ⟨.unknown, some 0, none⟩)⟩
  let load : PreparedOp :=
    ⟨[.arg 0], some ⟨[.read], .arg 0, ⟨.arg 0, some ⟨0, 7, some 8⟩⟩⟩, none, none, none⟩
  [⟨1, some "ping", ⟨.insert (.insert .empty 0 ⟨some 2, some [.arg 0]⟩) 1 ⟨some 9, none⟩,
      [⟨[], [load, ret]⟩]⟩⟩,
    ⟨2, some "pong", ⟨.insert .empty 0 ⟨some 1, some [.const 4096]⟩, [⟨[], [ret]⟩]⟩⟩]

theorem interproc_summaries_fixpoint_pingPong :
    let solution := solveInterprocSummarySet pingPong 2 (some 1) .empty 8
    solution.diagnostics.converged = true ∧
      computeSummarySccs (collectLocals 2 pingPong) = [[1, 2]] ∧ ∀ function ∈ pingPong,
        solution.summaries.get? function.id = some (resolveSummary function.id function.name
          (collectLocalSummaryFacts 2 function.prepared) solution.summaries) := by
  have distinct : (pingPong.map (·.id)).Nodup := by decide
  have converged :
      (solveInterprocSummarySet pingPong 2 (some 1) .empty 8).diagnostics.converged = true := by
    decide +kernel
  exact ⟨converged, by decide +kernel,
    (interproc_summaries_fixpoint pingPong 2 (some 1) .empty 8 distinct).2 converged⟩

end Solution

end R2Sleigh.Ssa.Interproc
