import R2Sleigh.Lib.Text
import R2Sleigh.Ssa.Taint

/-!
Contract: what the taint analysis finds.

Owns `Labelled`.
-/

namespace R2Sleigh.Ssa.TaintAnalysis

open Il Lib Relation Option

/-! ## Chains -/

variable (analysis : TaintAnalysis)
variable {v var : SSAVar} {block : SSABlock} {state state' : State}

/-- Some use of `u` is a source with the label `l`. -/
def IsSource (u : SSAVar) (l : TaintLabel) : Prop :=
  ∃ block ∈ analysis.func.blockList, u ∈ block.uses ∧
    ∃ labels, analysis.policy.isSource u block.addr = some labels ∧ l ∈ labels

/-- A phi, or an operation that is no sanitizer, reads `u` and writes `v`. -/
def Flows (u v : SSAVar) : Prop :=
  ∃ block ∈ analysis.func.blockList,
    (∃ phi ∈ block.phis, (∃ source ∈ phi.sources, source.2 = u) ∧ phi.dst = v) ∨
    ∃ op ∈ block.ops, analysis.policy.isSanitizer op = false ∧ u ∈ op.sources ∧ op.dst = some v

/-- A chain leads from a use of a source with the label `l` to `v`. -/
def Labelled (v : SSAVar) (l : TaintLabel) : Prop :=
  ∃ u, analysis.IsSource u l ∧ ReflTransGen analysis.Flows u v

def Occurs (v : SSAVar) : Prop := ∃ block ∈ analysis.func.blockList, v ∈ block.uses ∨ v ∈ block.dsts

variable {analysis}

theorem Flows.occurs {u : SSAVar} (flows : analysis.Flows u v) : analysis.Occurs v := by
  obtain ⟨block, listed, ⟨phi, mem, -, rfl⟩ | ⟨op, mem, -, -, isDst⟩⟩ := flows
  · exact ⟨block, listed, .inr (List.mem_append_left _ (List.mem_map_of_mem mem))⟩
  · refine ⟨block, listed, .inr (List.mem_append_right _ ?_)⟩
    exact List.mem_filterMap.mpr ⟨op, mem, isDst⟩

/-! ## Uses -/

theorem mem_useSites {location : UseLocation} :
    (var, location) ∈ block.useSites ↔
      (∃ index phi, block.phis[index]? = some phi ∧ location = .Phi block.addr index ∧
        ∃ source ∈ phi.sources, source.2 = var) ∨
      ∃ index op, block.ops[index]? = some op ∧ location = .Op block.addr index ∧
        var ∈ op.sources := by
  rw [SSABlock.useSites, List.mem_append, List.mem_flatMap, List.mem_flatMap]
  constructor
  · rintro (⟨⟨phi, index⟩, position, inside⟩ | ⟨⟨op, index⟩, position, inside⟩)
    · obtain ⟨source, isSource, same⟩ := List.mem_map.mp inside
      cases same
      exact .inl ⟨index, phi, List.mk_mem_zipIdx_iff_getElem?.mp position, rfl, source, isSource, rfl⟩
    · obtain ⟨source, isSource, same⟩ := List.mem_map.mp inside
      cases same
      exact .inr ⟨index, op, List.mk_mem_zipIdx_iff_getElem?.mp position, rfl, isSource⟩
  · rintro (⟨index, phi, position, rfl, source, isSource, rfl⟩ |
      ⟨index, op, position, rfl, isSource⟩)
    · exact .inl ⟨(phi, index), List.mk_mem_zipIdx_iff_getElem?.mpr position,
        List.mem_map_of_mem isSource⟩
    · exact .inr ⟨(op, index), List.mk_mem_zipIdx_iff_getElem?.mpr position,
        List.mem_map.mpr ⟨var, isSource, rfl⟩⟩

theorem exists_useSite :
    (∃ site ∈ block.useSites, site.1 = var) ↔ var ∈ block.uses := by
  rw [SSABlock.mem_uses]
  constructor
  · rintro ⟨⟨_, location⟩, mem, rfl⟩
    rcases mem_useSites.mp mem with ⟨index, phi, position, -, isSource⟩ |
      ⟨index, op, position, -, isSource⟩
    · exact .inl ⟨phi, List.mem_of_getElem? position, isSource⟩
    · exact .inr ⟨op, List.mem_of_getElem? position, isSource⟩
  · rintro (⟨phi, mem, isSource⟩ | ⟨op, mem, isSource⟩)
    · obtain ⟨index, position⟩ := List.mem_iff_getElem?.mp mem
      exact ⟨(var, _), mem_useSites.mpr (.inl ⟨index, phi, position, rfl, isSource⟩), rfl⟩
    · obtain ⟨index, position⟩ := List.mem_iff_getElem?.mp mem
      exact ⟨(var, _), mem_useSites.mpr (.inr ⟨index, op, position, rfl, isSource⟩), rfl⟩

theorem mem_useMap {location : UseLocation} :
    location ∈ analysis.buildUseMap.listAt var ↔
      ∃ block ∈ analysis.func.blockList, (var, location) ∈ block.useSites := by
  unfold buildUseMap
  rw [← List.foldl_flatMap, HashMap.mem_listAt_foldl_pushAt]
  constructor
  · rintro (stored | ⟨⟨_, _⟩, listed, rfl, rfl⟩)
    · exact absurd stored List.not_mem_nil
    · exact List.mem_flatMap.mp listed
  · intro listed
    exact .inr ⟨_, List.mem_flatMap.mpr listed, rfl, rfl⟩

/-- The variable a use writes to, unless it sanitizes. -/
def useTarget (analysis : TaintAnalysis) : UseLocation → Option SSAVar
  | .Phi blockAddr phiIdx =>
    ((analysis.func.getBlock blockAddr).bind fun block => block.phis[phiIdx]?).map PhiNode.dst
  | .Op blockAddr opIdx =>
    ((analysis.func.getBlock blockAddr).bind fun block => block.ops[opIdx]?).bind fun op =>
      if analysis.policy.isSanitizer op then none else op.dst

theorem getBlock_addr (indexed : analysis.func.Indexed)
    (listed : block ∈ analysis.func.blockList) : analysis.func.getBlock block.addr = some block := by
  obtain ⟨addr, -, found⟩ := List.mem_filterMap.mp listed
  rw [indexed.addr found]
  exact found

theorem exists_useTarget_iff (indexed : analysis.func.Indexed) {u : SSAVar} :
    (∃ location ∈ analysis.buildUseMap.listAt u, analysis.useTarget location = some v) ↔
      analysis.Flows u v := by
  constructor
  · rintro ⟨location, listed, isTarget⟩
    obtain ⟨block, inFunction, isUse⟩ := mem_useMap.mp listed
    have found := getBlock_addr indexed inFunction
    refine ⟨block, inFunction, ?_⟩
    rcases mem_useSites.mp isUse with ⟨index, phi, position, rfl, isSource⟩ |
      ⟨index, op, position, rfl, isSource⟩
    · rw [useTarget, found, bind_some, position, map_some, Option.some.injEq] at isTarget
      exact .inl ⟨phi, List.mem_of_getElem? position, isSource, isTarget⟩
    · rw [useTarget, found, bind_some, position, bind_some] at isTarget
      cases sanitizes : analysis.policy.isSanitizer op with
      | true =>
        rw [sanitizes, if_pos rfl] at isTarget
        cases isTarget
      | false =>
        rw [sanitizes, if_neg Bool.false_ne_true] at isTarget
        exact .inr ⟨op, List.mem_of_getElem? position, sanitizes, isSource, isTarget⟩
  · rintro ⟨block, inFunction, ⟨phi, mem, isSource, isDst⟩ | ⟨op, mem, sanitizes, isSource, isDst⟩⟩
    · obtain ⟨index, position⟩ := List.mem_iff_getElem?.mp mem
      refine ⟨.Phi block.addr index, mem_useMap.mpr ⟨block, inFunction,
        mem_useSites.mpr (.inl ⟨index, phi, position, rfl, isSource⟩)⟩, ?_⟩
      rw [useTarget, getBlock_addr indexed inFunction, bind_some, position, map_some, isDst]
    · obtain ⟨index, position⟩ := List.mem_iff_getElem?.mp mem
      refine ⟨.Op block.addr index, mem_useMap.mpr ⟨block, inFunction,
        mem_useSites.mpr (.inr ⟨index, op, position, rfl, isSource⟩)⟩, ?_⟩
      rw [useTarget, getBlock_addr indexed inFunction, bind_some, position, bind_some,
        sanitizes, if_neg Bool.false_ne_true, isDst]

/-! ## Steps -/

variable (analysis) in
theorem maybeAddSource_adds (blockAddr : Nat) (var : SSAVar) (state : Spread SSAVar TaintLabel) :
    Adds (· = var) (fun v l => v = var ∧ ∃ labels,
      analysis.policy.isSource var blockAddr = some labels ∧ l ∈ labels) state
      (analysis.maybeAddSource blockAddr state var) := by
  unfold maybeAddSource
  cases analysis.policy.isSource var blockAddr with
  | none => exact (Adds.refl state).congr (fun _ => False.elim) (by simp)
  | some labels => exact (Adds.extend state var labels.toFinset).congr (fun _ same => same) (by simp)

variable (analysis) in
private theorem initializeSources_adds : Adds analysis.Occurs analysis.IsSource ⟨∅, []⟩
    analysis.initializeSources := by
  have pass := Adds.foldl analysis.func.blockList (fun state block _ =>
    Adds.foldl block.useSites (fun s site _ =>
      maybeAddSource_adds analysis block.addr site.1 s) state) ⟨∅, []⟩
  refine pass.congr ?_ ?_
  · rintro v ⟨block, listed, site, mem, rfl⟩
    exact ⟨block, listed, .inl (exists_useSite.mp ⟨site, mem, rfl⟩)⟩
  · intro v l
    constructor
    · rintro ⟨block, listed, site, mem, rfl, isSource⟩
      exact ⟨block, listed, exists_useSite.mp ⟨site, mem, rfl⟩, isSource⟩
    · rintro ⟨block, listed, used, isSource⟩
      obtain ⟨site, mem, rfl⟩ := exists_useSite.mpr used
      exact ⟨block, listed, site, mem, rfl, isSource⟩

private theorem propagateToUse_adds (noCustom : analysis.policy.NoCustom) (taint : TaintSet)
    (location : UseLocation) (state : Spread SSAVar TaintLabel) :
    Adds (fun v => analysis.useTarget location = some v)
      (fun v l => l ∈ taint ∧ analysis.useTarget location = some v) state
      (analysis.propagateToUse taint state location) := by
  have result : analysis.propagateToUse taint state location =
      (analysis.useTarget location).elim state fun v => state.extend v taint := by
    cases location with
    | Phi blockAddr phiIdx =>
      rw [propagateToUse, propagateToPhi, useTarget]
      cases (analysis.func.getBlock blockAddr).bind fun block => block.phis[phiIdx]? <;> rfl
    | Op blockAddr opIdx =>
      rw [propagateToUse, propagateToOp, useTarget]
      cases (analysis.func.getBlock blockAddr).bind fun block => block.ops[opIdx]? with
      | none => rfl
      | some op =>
        rw [bind_some]
        dsimp only
        cases analysis.policy.isSanitizer op with
        | true => rfl
        | false =>
          cases op.dst <;>
            simp only [Bool.false_eq_true, if_false, noCustom op, getD_none, elim_none, elim_some]
  rw [result]
  cases analysis.useTarget location with
  | none => exact (Adds.refl state).congr (fun _ => False.elim) (by simp)
  | some v =>
    refine (Adds.extend state v taint).congr (fun u same => by rw [same]) fun u l => ?_
    rw [Option.some.injEq, and_comm, eq_comm]

theorem propagateVar_adds (indexed : analysis.func.Indexed) (noCustom : analysis.policy.NoCustom)
    (state : State) (var : SSAVar) :
    Adds (analysis.Flows var) (fun v l => l ∈ labelsAt state.spread.sets var \
        labelsAt state.propagated var ∧ analysis.Flows var v) state.spread
      (analysis.propagateVar analysis.buildUseMap state var).spread := by
  unfold propagateVar
  dsimp only
  split_ifs with none nothingNew
  · exact (Adds.refl state.spread).congr (fun _ => False.elim) (by simp [none])
  · exact (Adds.refl state.spread).congr (fun _ => False.elim) (by simp [nothingNew])
  · have pass := Adds.foldl (analysis.buildUseMap.listAt var) (fun s location _ =>
      propagateToUse_adds noCustom (labelsAt state.spread.sets var \
        labelsAt state.propagated var) location s) state.spread
    refine pass.congr (fun v => (exists_useTarget_iff indexed).mp) fun v l => ?_
    rw [← exists_useTarget_iff indexed]
    constructor
    · rintro ⟨location, listed, isNew, isTarget⟩
      exact ⟨isNew, location, listed, isTarget⟩
    · rintro ⟨isNew, location, listed, isTarget⟩
      exact ⟨location, listed, isNew, isTarget⟩

private theorem propagateVar_propagated (state : State) (var u : SSAVar) (l : TaintLabel) :
    l ∈ labelsAt (analysis.propagateVar analysis.buildUseMap state var).propagated u ↔
      l ∈ labelsAt state.propagated u ∨ u = var ∧ l ∈ labelsAt state.spread.sets var := by
  unfold propagateVar
  dsimp only
  split_ifs with none nothingNew
  · simp [none]
  · rw [labelsAt_insert]
    split_ifs with same
    · subst same
      have all : ∀ l ∈ labelsAt state.spread.sets u, l ∈ labelsAt state.propagated u :=
        Finset.sdiff_eq_empty_iff_subset.mp nothingNew
      exact ⟨.inl, fun either => either.elim id fun here => all l here.2⟩
    · simp [same]
  · rw [labelsAt_insert]
    split_ifs with same
    · subst same
      simp only [Finset.union_sdiff_self_eq_union, Finset.mem_union, true_and]
    · simp [same]

/-! ## Runs -/

/-- What every iteration keeps. -/
structure Keeps (analysis : TaintAnalysis) (state : State) : Prop where
  spreading : Spreading analysis.IsSource analysis.Flows state.propagated state.spread
  occurs : ∀ v, v ∈ state.spread.sets → analysis.Occurs v

theorem keeps_initial : Keeps analysis analysis.initial := by
  have added := initializeSources_adds analysis
  refine ⟨Spreading.start added, fun v known => ?_⟩
  exact (added.keys v known).resolve_left (AList.notMem_empty v)

section Runs

variable (indexed : analysis.func.Indexed) (noCustom : analysis.policy.NoCustom)
include indexed noCustom

theorem Step.adds (step : analysis.Step state state') :
    ∃ var rest, (var :: rest).Perm state.spread.worklist ∧
      Adds (analysis.Flows var) (fun v l => l ∈ labelsAt state.spread.sets var \
        labelsAt state.propagated var ∧ analysis.Flows var v) ⟨state.spread.sets, rest⟩
        state'.spread ∧
      ∀ u l, l ∈ labelsAt state'.propagated u ↔
        l ∈ labelsAt state.propagated u ∨ u = var ∧ l ∈ labelsAt state.spread.sets var := by
  obtain ⟨var, rest, taken, rfl⟩ := step
  exact ⟨var, rest, taken, propagateVar_adds indexed noCustom (state.waiting rest) var,
    propagateVar_propagated (state.waiting rest) var⟩

theorem Keeps.step (keeps : Keeps analysis state)
    (step : analysis.Step state state') : Keeps analysis state' := by
  obtain ⟨var, rest, taken, added, propagated⟩ := step.adds indexed noCustom
  refine ⟨keeps.spreading.take taken added propagated, fun v known => ?_⟩
  rcases added.keys v known with known | flows
  · exact keeps.occurs v known
  · exact flows.occurs

theorem Keeps.steps (keeps : Keeps analysis state)
    (steps : ReflTransGen analysis.Step state state') : Keeps analysis state' := by
  induction steps with
  | refl => exact keeps
  | tail _ step ih => exact ih.step indexed noCustom step

def sourceLabels (analysis : TaintAnalysis) : List TaintLabel :=
  analysis.func.blockList.flatMap fun block =>
    block.uses.flatMap fun u => (analysis.policy.isSource u block.addr).getD []

omit indexed noCustom in
theorem Keeps.within (keeps : Keeps analysis state) :
    Within (analysis.func.blockList.flatMap fun block => block.uses ++ block.dsts).toFinset
      analysis.sourceLabels.toFinset state.spread := by
  intro v l mem
  constructor
  · obtain ⟨block, listed, occurs⟩ := keeps.occurs v (mem_of_mem_labelsAt mem)
    refine List.mem_toFinset.mpr (List.mem_flatMap.mpr ⟨block, listed, ?_⟩)
    exact List.mem_append.mpr occurs
  · obtain ⟨u, ⟨block, listed, used, labels, isSource, inLabels⟩, -⟩ :=
      keeps.spreading.sound v l mem
    refine List.mem_toFinset.mpr (List.mem_flatMap.mpr ⟨block, listed, ?_⟩)
    refine List.mem_flatMap.mpr ⟨u, used, ?_⟩
    rw [isSource]
    exact inLabels

/-- No order of the worklist goes on for ever. -/
theorem no_endless_run (run : Nat → State) (start : run 0 = analysis.initial)
    (steps : ∀ n, analysis.Step (run n) (run (n + 1))) : False := by
  have keeps : ∀ n, Keeps analysis (run n) := by
    intro n
    induction n with
    | zero =>
      rw [start]
      exact keeps_initial
    | succ n ih => exact ih.step indexed noCustom (steps n)
  refine no_endless_spread (fun n => (run n).spread) (fun n => (keeps n).within) fun n => ?_
  obtain ⟨var, rest, taken, added, -⟩ := (steps n).adds indexed noCustom
  exact ⟨var, rest, _, _, taken, added⟩

/-- The iteration that takes the first variable. -/
def next (analysis : TaintAnalysis) (state : State) : State :=
  match state.spread.worklist with
  | [] => state
  | var :: rest => analysis.propagateVar analysis.buildUseMap (state.waiting rest) var

omit indexed noCustom in
theorem step_next (waiting : state.spread.worklist ≠ []) :
    analysis.Step state (analysis.next state) := by
  unfold next
  cases found : state.spread.worklist with
  | nil => exact absurd found waiting
  | cons var rest => exact ⟨var, rest, by rw [found], rfl⟩

omit indexed noCustom in
private theorem propagate_reaches {fuel : Nat} : ∀ {state final : State},
    analysis.propagate fuel state = some final →
      ReflTransGen analysis.Step state final ∧ final.spread.worklist = [] := by
  induction fuel with
  | zero => exact nofun
  | succ fuel ih =>
    intro state final returns
    rw [propagate] at returns
    cases found : state.spread.worklist with
    | nil =>
      rw [found] at returns
      obtain rfl := some.inj returns
      exact ⟨.refl, found⟩
    | cons var rest =>
      rw [found] at returns
      obtain ⟨steps, finished⟩ := ih returns
      exact ⟨.head ⟨var, rest, by rw [found], rfl⟩ steps, finished⟩

omit indexed noCustom in
private theorem propagate_of_finished {n : Nat} : ∀ {state : State},
    (analysis.next^[n] state).spread.worklist = [] →
      ∃ final, analysis.propagate (n + 1) state = some final := by
  induction n with
  | zero =>
    intro state finished
    refine ⟨state, ?_⟩
    rw [propagate, show state.spread.worklist = [] from finished]
  | succ n ih =>
    intro state finished
    rw [propagate]
    cases found : state.spread.worklist with
    | nil => exact ⟨state, rfl⟩
    | cons var rest =>
      refine ih ?_
      rw [Function.iterate_succ_apply, next, found] at finished
      exact finished

private theorem propagate_returns :
    ∃ fuel final, analysis.propagate fuel analysis.initial = some final := by
  by_contra never
  push Not at never
  refine no_endless_run indexed noCustom (fun n => analysis.next^[n] analysis.initial) rfl fun n => ?_
  rw [Function.iterate_succ_apply']
  refine step_next fun finished => ?_
  obtain ⟨final, returns⟩ := propagate_of_finished finished
  exact never (n + 1) final returns

/-- At the end of every run the labels are those that flow. -/
theorem final_exact {final : State} (steps : ReflTransGen analysis.Step analysis.initial final)
    (finished : final.spread.worklist = []) (v : SSAVar) (l : TaintLabel) :
    l ∈ labelsAt final.spread.sets v ↔ analysis.Labelled v l :=
  (keeps_initial.steps indexed noCustom steps).spreading.exact finished v l

end Runs

/-! ## Results -/

/-- An entry under a display name is that of some variable with the name, if there
is one. -/
theorem lookup_byDisplayName (toUppercase : String → String)
    (entries : List ((_ : SSAVar) × TaintSet)) (name : String) :
    match (byDisplayName toUppercase entries).lookup name with
    | some set => ∃ entry ∈ entries, displayName toUppercase entry.1 = name ∧ entry.2 = set
    | none => ∀ entry ∈ entries, displayName toUppercase entry.1 ≠ name := by
  rw [byDisplayName, HashMap.lookup_foldl_insert_last]
  cases found : entries.reverse.find? fun entry => displayName toUppercase entry.1 = name with
  | some entry =>
    have same := List.find?_some found
    rw [decide_eq_true_eq] at same
    exact ⟨entry, List.mem_reverse.mp (List.mem_of_find?_eq_some found), same, rfl⟩
  | none =>
    intro entry mem same
    exact List.find?_eq_none.mp found entry (List.mem_reverse.mpr mem) (decide_eq_true same)

/-- What a result says of a variable is what some variable with its display name
has. -/
theorem exists_getTaint_iff {toUppercase : String → String} {sets : HashMap SSAVar TaintSet}
    {entries : List ((_ : SSAVar) × TaintSet)} (order : entries.Perm sets.entries)
    {l : TaintLabel} (agree : ∀ w, w ∈ sets → displayName toUppercase w = displayName toUppercase v →
      (l ∈ labelsAt sets w ↔ l ∈ labelsAt sets v)) :
    (∃ set, (byDisplayName toUppercase entries).lookup (displayName toUppercase v) = some set ∧
      l ∈ set) ↔ l ∈ labelsAt sets v := by
  have stored : ∀ {entry}, entry ∈ entries ↔ sets.lookup entry.1 = some entry.2 := fun {entry} =>
    order.mem_iff.trans AList.mem_lookup_iff.symm
  have named := lookup_byDisplayName toUppercase entries (displayName toUppercase v)
  cases found : (byDisplayName toUppercase entries).lookup (displayName toUppercase v) with
  | none =>
    rw [found] at named
    refine iff_of_false nofun fun mem => ?_
    obtain ⟨set, has⟩ := HashMap.mem_iff_exists_lookup.mp (mem_of_mem_labelsAt mem)
    exact named ⟨v, set⟩ (stored.mpr has) rfl
  | some set =>
    rw [found] at named
    obtain ⟨⟨w, set⟩, mem, same, rfl⟩ := named
    have has := stored.mp mem
    rw [← agree w (HashMap.mem_iff_exists_lookup.mpr ⟨set, has⟩) same, labelsAt, has]
    simp

/-- An operation is reported exactly if it is a sink with a tainted operand. -/
theorem exists_hit_iff (indexed : analysis.func.Indexed) (sets : HashMap SSAVar TaintSet)
    (listed : block ∈ analysis.func.blockList) {opIdx : Nat} {op : SSAOp}
    (position : block.ops[opIdx]? = some op) :
    (∃ hit ∈ analysis.findSinkHits sets, hit.blockAddr = block.addr ∧ hit.opIdx = opIdx) ↔
      analysis.policy.isSink op block.addr = true ∧
        ∃ var ∈ analysis.sinkSourcesForOp block opIdx op, ∃ l, l ∈ labelsAt sets var := by
  have tainted : ∀ var, (∃ entry, (match sets.lookup var with
      | some taint => if taint = ∅ then none else some (var, taint)
      | none => none) = some entry) ↔ ∃ l, l ∈ labelsAt sets var := by
    intro var
    unfold labelsAt
    cases sets.lookup var with
    | none => simp
    | some taint =>
      rw [getD_some, ← Finset.Nonempty, Finset.nonempty_iff_ne_empty]
      by_cases empty : taint = ∅ <;> simp [empty]
  have hits : (∃ hit, analysis.sinkHit sets block opIdx op = some hit) ↔
      analysis.policy.isSink op block.addr = true ∧
        ∃ var ∈ analysis.sinkSourcesForOp block opIdx op, ∃ l, l ∈ labelsAt sets var := by
    unfold sinkHit
    cases isSink : analysis.policy.isSink op block.addr with
    | false => simp
    | true =>
      simp only [if_true, true_and, ← tainted]
      split_ifs with none
      · refine iff_of_false nofun ?_
        rintro ⟨var, mem, entry, isEntry⟩
        exact List.ne_nil_of_mem (List.mem_filterMap.mpr ⟨var, mem, isEntry⟩) none
      · refine iff_of_true ⟨_, rfl⟩ ?_
        obtain ⟨entry, mem⟩ := List.exists_mem_of_ne_nil _ none
        obtain ⟨var, inSources, isEntry⟩ := List.mem_filterMap.mp mem
        exact ⟨var, inSources, entry, isEntry⟩
  have located : ∀ {block' opIdx' op' hit}, analysis.sinkHit sets block' opIdx' op' = some hit →
      hit.blockAddr = block'.addr ∧ hit.opIdx = opIdx' := by
    intro block' opIdx' op' hit isHit
    unfold sinkHit at isHit
    dsimp only at isHit
    split_ifs at isHit
    cases isHit
    exact ⟨rfl, rfl⟩
  rw [← hits]
  constructor
  · rintro ⟨hit, mem, sameAddr, sameIdx⟩
    obtain ⟨block', listed', inBlock⟩ := List.mem_flatMap.mp mem
    obtain ⟨⟨op', opIdx'⟩, position', isHit⟩ := List.mem_filterMap.mp inBlock
    obtain ⟨here, index⟩ := located isHit
    have sameBlock : block' = block := by
      refine some.inj ((getBlock_addr indexed listed').symm.trans ?_)
      rw [← here, sameAddr, getBlock_addr indexed listed]
    obtain rfl : opIdx' = opIdx := index.symm.trans sameIdx
    subst sameBlock
    obtain rfl : op' = op := some.inj
      ((List.mk_mem_zipIdx_iff_getElem?.mp position').symm.trans position)
    exact ⟨hit, isHit⟩
  · rintro ⟨hit, isHit⟩
    refine ⟨hit, List.mem_flatMap.mpr ⟨block, listed, ?_⟩, located isHit⟩
    exact List.mem_filterMap.mpr ⟨(op, opIdx), List.mk_mem_zipIdx_iff_getElem?.mpr position, isHit⟩

/-- The analysis ends, the result gives every variable of the function the labels
of its chains, and the sinks with a labelled operand are reported. -/
structure FindsLabels (analysis : TaintAnalysis) (toUppercase : String → String) : Prop where
  ends : ∀ run : Nat → State, run 0 = analysis.initial → ¬ ∀ n, analysis.Step (run n) (run (n + 1))
  returns : ∃ fuel result, analysis.analyze toUppercase fuel = some result ∧
    analysis.Analyzed toUppercase result
  labels : ∀ result, analysis.Analyzed toUppercase result → ∀ v, analysis.Occurs v → ∀ l,
    (∃ set, result.getTaint toUppercase v = some set ∧ l ∈ set) ↔ analysis.Labelled v l
  sinks : ∀ result, analysis.Analyzed toUppercase result → ∀ block ∈ analysis.func.blockList,
    ∀ opIdx op, block.ops[opIdx]? = some op →
      ((∃ hit ∈ result.sinkHits, hit.blockAddr = block.addr ∧ hit.opIdx = opIdx) ↔
        analysis.policy.isSink op block.addr = true ∧
          ∃ var ∈ analysis.sinkSourcesForOp block opIdx op, ∃ l, analysis.Labelled var l)

theorem analyze_returns (indexed : analysis.func.Indexed) (noCustom : analysis.policy.NoCustom)
    (toUppercase : String → String) : ∃ fuel result,
      analysis.analyze toUppercase fuel = some result ∧ analysis.Analyzed toUppercase result := by
  obtain ⟨fuel, final, returns⟩ := propagate_returns indexed noCustom
  obtain ⟨steps, finished⟩ := propagate_reaches returns
  refine ⟨fuel, _, ?_, final, final.spread.sets.entries, steps, finished, .refl _, rfl⟩
  rw [analyze, returns]
  rfl

theorem FindsLabels.agree {toUppercase : String → String} (finds : FindsLabels analysis toUppercase)
    {w : SSAVar} (occursV : analysis.Occurs v) (occursW : analysis.Occurs w)
    (same : displayName toUppercase v = displayName toUppercase w) (l : TaintLabel) :
    analysis.Labelled v l ↔ analysis.Labelled w l := by
  obtain ⟨-, result, -, analyzed⟩ := finds.returns
  rw [← finds.labels result analyzed v occursV, ← finds.labels result analyzed w occursW,
    TaintResult.getTaint, same, TaintResult.getTaint]

/-- The analysis finds exactly the labels of the chains, in every order, if and
only if no two variables with one display name have different ones. -/
theorem findsLabels_iff (analysis : TaintAnalysis) (toUppercase : String → String)
    (indexed : analysis.func.Indexed) (noCustom : analysis.policy.NoCustom) :
    FindsLabels analysis toUppercase ↔
      ∀ v w, analysis.Occurs v → analysis.Occurs w →
        displayName toUppercase v = displayName toUppercase w →
        ∀ l, analysis.Labelled v l ↔ analysis.Labelled w l := by
  constructor
  · intro finds v w occursV occursW same l
    exact finds.agree occursV occursW same l
  · intro agree
    refine ⟨fun run start steps => no_endless_run indexed noCustom run start steps,
      analyze_returns indexed noCustom toUppercase, ?_, ?_⟩
    · rintro _ ⟨final, entries, steps, finished, order, rfl⟩ v occurs l
      have exact := final_exact indexed noCustom steps finished
      rw [TaintResult.getTaint, ← exact]
      refine exists_getTaint_iff order fun w known same => ?_
      rw [exact, exact]
      exact agree w v ((keeps_initial.steps indexed noCustom steps).occurs w known) occurs same l
    · rintro _ ⟨final, entries, steps, finished, order, rfl⟩ block listed opIdx op position
      rw [exists_hit_iff indexed final.spread.sets listed position]
      simp only [final_exact indexed noCustom steps finished]

/-! ## A register and two constants -/

/-- All variables of the function, with repetitions. -/
def allVars (analysis : TaintAnalysis) : List SSAVar :=
  analysis.func.blockList.flatMap fun block => block.uses ++ block.dsts

theorem Occurs.mem_allVars (occurs : analysis.Occurs v) : v ∈ analysis.allVars := by
  obtain ⟨block, listed, inside⟩ := occurs
  exact List.mem_flatMap.mpr ⟨block, listed, List.mem_append.mpr inside⟩

def copiedAndStored : List R2ILBlock :=
  [⟨4096, 4, [.Copy ⟨.Register, 0, 8⟩ ⟨.Register, 8, 8⟩,
    .Store .Ram ⟨.Register, 16, 8⟩ ⟨.Register, 0, 8⟩], none⟩]

theorem findsLabels_copiedAndStored : ∃ func, fromBlocksRaw copiedAndStored none = some func ∧
    FindsLabels ⟨func, DefaultTaintPolicy.allInputs.policy, []⟩ asciiUppercase := by
  obtain ⟨func, renamed, final, entered, build, built⟩ :=
    fromBlocksRawWithPolicy_built _ _ none none
  refine ⟨func, build, (findsLabels_iff ⟨func, DefaultTaintPolicy.allInputs.policy, []⟩
    asciiUppercase built.indexed fun _ _ => rfl).mpr ?_⟩
  have distinct : (fromBlocksRaw copiedAndStored none).all (fun func =>
      let vars := allVars ⟨func, DefaultTaintPolicy.allInputs.policy, []⟩
      vars.all fun v => vars.all fun w =>
        displayName asciiUppercase v = displayName asciiUppercase w → v = w) = true := by
    decide +kernel
  rw [show fromBlocksRaw copiedAndStored none = some func from build, all_some] at distinct
  intro v w occursV occursW same l
  have equal := List.all_eq_true.mp (List.all_eq_true.mp distinct v occursV.mem_allVars) w
    occursW.mem_allVars
  rw [of_decide_eq_true equal same]

/-- The same literal at two sizes. -/
def twoFives : List R2ILBlock :=
  [⟨4096, 4, [.Copy ⟨.Unique, 0, 8⟩ ⟨.Const, 5, 8⟩, .Copy ⟨.Unique, 8, 4⟩ ⟨.Const, 5, 4⟩], none⟩]

def wideFive : TaintPolicy where
  isSource var _ := if var = ⟨"const:5", 0, 8⟩ then some [⟨"wide", none⟩] else none
  isSink _ _ := false
  isSanitizer _ := false
  propagate _ _ := none

/-- Both literals have one display name, and with it the label of the wide one. -/
theorem twoFives_not_found : ∃ func, fromBlocksRaw twoFives none = some func ∧
    wideFive.NoCustom ∧ ¬ FindsLabels ⟨func, wideFive, []⟩ asciiUppercase := by
  obtain ⟨func, renamed, final, entered, build, built⟩ :=
    fromBlocksRawWithPolicy_built _ _ none none
  refine ⟨func, build, fun _ _ => rfl, fun finds => ?_⟩
  have blocks : (fromBlocksRaw twoFives none).all (fun func =>
      (func.blockList.any fun block => ⟨"const:5", 0, 8⟩ ∈ block.uses ∧
        ⟨"const:5", 0, 4⟩ ∈ block.uses) ∧
      func.blockList.all fun block => (⟨"const:5", 0, 4⟩ : SSAVar) ∉ block.dsts) = true := by
    decide +kernel
  rw [show fromBlocksRaw twoFives none = some func from build, all_some,
    decide_eq_true_iff] at blocks
  obtain ⟨used, notDefined⟩ := blocks
  obtain ⟨block, listed, both⟩ := List.any_eq_true.mp used
  obtain ⟨usesWide, usesNarrow⟩ := of_decide_eq_true both
  have agree := finds.agree (v := ⟨"const:5", 0, 8⟩) (w := ⟨"const:5", 0, 4⟩)
    ⟨block, listed, .inl usesWide⟩ ⟨block, listed, .inl usesNarrow⟩ (by decide +kernel)
    ⟨"wide", none⟩
  obtain ⟨u, ⟨_, _, _, labels, isSource, _⟩, path⟩ := agree.mp
    ⟨⟨"const:5", 0, 8⟩, ⟨block, listed, usesWide, [⟨"wide", none⟩], rfl,
      List.mem_singleton.mpr rfl⟩, .refl⟩
  rcases ReflTransGen.cases_tail path with isNarrow | ⟨_, _, flows⟩
  · rw [← isNarrow] at isSource
    cases isSource
  · obtain ⟨block', listed', inside⟩ := flows
    refine of_decide_eq_true (List.all_eq_true.mp notDefined block' listed') ?_
    rcases inside with ⟨phi, mem, _, isDst⟩ | ⟨op, mem, _, _, isDst⟩
    · exact List.mem_append_left _ (isDst ▸ List.mem_map_of_mem mem)
    · exact List.mem_append_right _ (List.mem_filterMap.mpr ⟨op, mem, isDst⟩)

end R2Sleigh.Ssa.TaintAnalysis
