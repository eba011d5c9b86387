import R2Sleigh.Ssa.MemorySsa

/-!
Contract: the versions of the memory objects in one block of a round.

Owns `Numbered`.
-/

namespace R2Sleigh.Ssa.Semantic

open Il Lib List Option

variable {next : NextVersions} {v : MemoryVersion} {state : ObjectVersions} {Key : PhiKey → Prop}
  {flow' after : FlowState} {addr opIdx : Nat} {inst : InstId}

/-! ## Numbers -/

def nextOf (next : NextVersions) (object : ObjectId) : Nat := (next.get? object).getD 1

private theorem takeVersion_fst (next : NextVersions) (object : ObjectId) :
    (takeVersion next object).1 = ⟨object, nextOf next object⟩ := rfl

theorem nextOf_takeVersion (next : NextVersions) (object object' : ObjectId) :
    nextOf (takeVersion next object).2 object' =
      if object' = object then nextOf next object + 1 else nextOf next object' := by
  unfold nextOf takeVersion
  rw [BTreeMap.get?_insert]
  split
  · rfl
  · rfl

theorem nextOf_le_takeVersion (next : NextVersions) (object object' : ObjectId) :
    nextOf next object' ≤ nextOf (takeVersion next object).2 object' := by
  rw [nextOf_takeVersion]
  split
  · rename_i same
    rw [same]
    omega
  · exact le_rfl

/-- A version given already: not zero, and below the next one. -/
def Given (next : NextVersions) (v : MemoryVersion) : Prop :=
  1 ≤ v.version ∧ v.version < nextOf next v.object

theorem Given.mono {next' : NextVersions} (given : Given next v)
    (grows : ∀ object, nextOf next object ≤ nextOf next' object) : Given next' v :=
  ⟨given.1, given.2.trans_le (grows v.object)⟩

theorem given_takeVersion (positive : ∀ object, 1 ≤ nextOf next object)
    (object : ObjectId) : Given (takeVersion next object).2 (takeVersion next object).1 := by
  refine ⟨positive object, ?_⟩
  rw [takeVersion_fst, nextOf_takeVersion, if_pos rfl]
  exact Nat.lt_succ_self _

theorem ne_takeVersion (given : Given next v)
    (object : ObjectId) : v ≠ (takeVersion next object).1 := by
  rintro rfl
  exact absurd given.2 (lt_irrefl _)

/-! ## Versions of definitions -/

private theorem takeVersions_spec (locations : List MemoryLocation) : ∀ next : NextVersions,
    (∀ object, 1 ≤ nextOf next object) →
      (takeVersions next locations).1.map MemoryVersion.object =
          locations.map MemoryLocation.object ∧
        (∀ object, nextOf next object ≤ nextOf (takeVersions next locations).2 object) ∧
        ∀ v ∈ (takeVersions next locations).1, Given (takeVersions next locations).2 v := by
  induction locations with
  | nil => exact fun _ _ => ⟨rfl, fun _ => le_rfl, nofun⟩
  | cons location rest ih =>
    intro next positive
    have grows := nextOf_le_takeVersion next location.object
    obtain ⟨objects, growsRest, given⟩ := ih
      (takeVersion next location.object).2 fun object => (positive object).trans (grows object)
    refine ⟨?_, fun object => (grows object).trans (growsRest object), ?_⟩
    · rw [takeVersions, map_cons, map_cons, ← objects]
      rfl
    · exact forall_mem_cons.mpr ⟨(given_takeVersion positive location.object).mono growsRest, given⟩

/-- The versions of the definitions: one for each, all given. -/
structure Numbers (summaries : BTreeMap InstId AccessSummary)
    (numbered : BTreeMap InstId (List MemoryVersion) × NextVersions) : Prop where
  given : ∀ inst versions, numbered.1.get? inst = some versions → ∀ v ∈ versions, Given numbered.2 v
  positive : ∀ object, 1 ≤ nextOf numbered.2 object
  objects : ∀ inst access, summaries.get? inst = some access →
    ((numbered.1.get? inst).getD []).map MemoryVersion.object =
      access.defs.map MemoryLocation.object

theorem numbers_numberDefs (summaries : BTreeMap InstId AccessSummary)
    (positive : ∀ object, 1 ≤ nextOf next object) :
    Numbers summaries (numberDefs summaries next) := by
  -- The keys of the map are distinct, so each instruction is numbered once.
  have pass : ∀ (entries : List (InstId × AccessSummary))
      (acc : BTreeMap InstId (List MemoryVersion) × NextVersions),
      (entries.map Prod.fst).Nodup → (∀ entry ∈ entries, acc.1.get? entry.1 = none) →
      (∀ inst versions, acc.1.get? inst = some versions → ∀ v ∈ versions, Given acc.2 v) →
      (∀ object, 1 ≤ nextOf acc.2 object) →
      let result := entries.foldl (fun acc entry =>
        if entry.2.defs.isEmpty then acc
        else (acc.1.insert entry.1 (takeVersions acc.2 entry.2.defs).1,
          (takeVersions acc.2 entry.2.defs).2)) acc
      (∀ inst versions, result.1.get? inst = some versions → ∀ v ∈ versions, Given result.2 v) ∧
        (∀ object, 1 ≤ nextOf result.2 object) ∧
        (∀ entry ∈ entries, ((result.1.get? entry.1).getD []).map MemoryVersion.object =
          entry.2.defs.map MemoryLocation.object) ∧
        ∀ inst, inst ∉ entries.map Prod.fst → result.1.get? inst = acc.1.get? inst := by
    intro entries
    induction entries with
    | nil => exact fun acc _ _ given positive => ⟨given, positive, nofun, fun _ _ => rfl⟩
    | cons entry rest ih =>
      intro acc nodup absent given positive
      obtain ⟨notLater, nodupRest⟩ := nodup_cons.mp nodup
      obtain ⟨absentHere, absentRest⟩ := forall_mem_cons.mp absent
      rw [foldl_cons]
      by_cases silent : entry.2.defs.isEmpty
      · rw [if_pos silent]
        obtain ⟨givenAfter, positiveAfter, objects, others⟩ :=
          ih acc nodupRest absentRest given positive
        refine ⟨givenAfter, positiveAfter, forall_mem_cons.mpr ⟨?_, objects⟩,
          fun inst outside => others inst fun mem => outside (mem_cons_of_mem _ mem)⟩
        rw [others entry.1 notLater, absentHere, isEmpty_iff.mp silent]
        rfl
      · rw [if_neg silent]
        obtain ⟨versions, grows, givenNew⟩ := takeVersions_spec entry.2.defs acc.2 positive
        obtain ⟨givenAfter, positiveAfter, objects, others⟩ := ih
          (acc.1.insert entry.1 (takeVersions acc.2 entry.2.defs).1,
            (takeVersions acc.2 entry.2.defs).2) nodupRest
          (fun later mem => by
            have other : later.1 ≠ entry.1 := fun same =>
              notLater (same ▸ List.mem_map_of_mem mem)
            rw [BTreeMap.get?_insert, if_neg other]
            exact absentRest later mem)
          (fun inst versions found v mem => by
            rw [BTreeMap.get?_insert] at found
            split at found
            · obtain rfl := some.inj found
              exact givenNew v mem
            · exact (given inst versions found v mem).mono grows)
          fun object => (positive object).trans (grows object)
        refine ⟨givenAfter, positiveAfter, forall_mem_cons.mpr ⟨?_, objects⟩,
          fun inst outside => ?_⟩
        · rw [others entry.1 notLater, BTreeMap.get?_insert, if_pos rfl]
          exact versions
        · rw [map_cons, mem_cons, not_or] at outside
          rw [others inst outside.2, BTreeMap.get?_insert, if_neg outside.1]
  obtain ⟨given, positiveAfter, objects, -⟩ := pass summaries.entries (.empty, next)
    summaries.nodup_keys (fun _ _ => rfl) nofun positive
  exact ⟨given, positiveAfter, fun inst access found => objects _ (BTreeMap.mem_of_get? found)⟩

theorem nextOf_initialNext (objectIds : List ObjectId) (object : ObjectId) :
    nextOf (initialNext objectIds) object = 1 := by
  have pass : ∀ (objects : List ObjectId) (next : NextVersions), nextOf next object = 1 →
      nextOf (objects.foldl (fun next object => next.insert object 1) next) object = 1 := by
    intro objects
    induction objects with
    | nil => exact fun _ one => one
    | cons first rest ih =>
      intro next one
      refine ih _ ?_
      rw [nextOf, BTreeMap.get?_insert]
      split
      · rfl
      · exact one
  exact pass objectIds .empty rfl

/-! ## States -/

/-- A state lists versions under their object, and zero not at all. -/
def Proper (state : ObjectVersions) : Prop :=
  ∀ object v, state.get? object = some v → v.object = object ∧ v.version ≠ 0

theorem proper_empty : Proper .empty := nofun

theorem Proper.insert (proper : Proper state)
    (nonzero : v.version ≠ 0) : Proper (state.insert v.object v) := by
  intro object v' found
  rw [BTreeMap.get?_insert] at found
  split at found
  · rename_i same
    cases found
    exact ⟨same.symm, nonzero⟩
  · exact proper object v' found

theorem object_versionOf (proper : Proper state) (object : ObjectId) :
    (versionOf state object).object = object := by
  unfold versionOf
  cases found : state.get? object with
  | none => rfl
  | some v => exact (proper object v found).1

theorem versionOf_insert (state : ObjectVersions) (object object' : ObjectId) (v : MemoryVersion) :
    versionOf (state.insert object v) object' =
      if object' = object then v else versionOf state object' := by
  unfold versionOf
  rw [BTreeMap.get?_insert]
  split
  · rfl
  · rfl

theorem get?_eq_of_proper (proper : Proper state) (object : ObjectId) :
    state.get? object =
      if (versionOf state object).version = 0 then none else some (versionOf state object) := by
  unfold versionOf
  cases found : state.get? object with
  | none => rfl
  | some v => rw [getD_some, if_neg (proper object v found).2]

theorem eq_of_versionOf {state' : ObjectVersions} (proper : Proper state)
    (proper' : Proper state') (same : ∀ object, versionOf state object = versionOf state' object) :
    state = state' :=
  BTreeMap.ext_get? fun object => by
    rw [get?_eq_of_proper proper, get?_eq_of_proper proper', same]

namespace FlowState

def outOf (flow : FlowState) (p : Nat) : ObjectVersions := (flow.outStates.get? p).getD .empty

def inOf (flow : FlowState) (p : Nat) : ObjectVersions := (flow.inStates.get? p).getD .empty

end FlowState

/-- The version is made by a definition. -/
def FlowContext.IsDef (context : FlowContext) (v : MemoryVersion) : Prop :=
  ∃ inst versions, context.defVersions.get? inst = some versions ∧ v ∈ versions

/-- Versions of phis and definitions are given, and all are told apart. -/
structure Numbered (context : FlowContext) (flow : FlowState) : Prop where
  positive : ∀ object, 1 ≤ nextOf flow.next object
  defs : ∀ v, context.IsDef v → Given flow.next v
  phis : ∀ addr object v, flow.phiVersions.get? (phiKey addr object) = some v →
    v.object = object ∧ Given flow.next v ∧ ¬ context.IsDef v
  apart : ∀ a b object v, flow.phiVersions.get? (phiKey a object) = some v →
    flow.phiVersions.get? (phiKey b object) = some v → a = b
  outs : ∀ p, Proper (flow.outOf p)

/-! ## Merging -/

/-- What one object takes at the start of a block. -/
inductive Takes (flow : FlowState) (addr : Nat) (preds : List Nat) (object : ObjectId)
    (after : FlowState) : MemoryVersion → Prop
  | none : preds = [] → Takes flow addr preds object after ⟨object, 0⟩
  | common {v : MemoryVersion} : preds ≠ [] →
      (∀ p ∈ preds, versionOf (flow.outOf p) object = v) → Takes flow addr preds object after v
  | phi {v : MemoryVersion} : (¬ ∃ v, ∀ p ∈ preds, versionOf (flow.outOf p) object = v) →
      after.phiVersions.get? (phiKey addr object) = some v →
      after.phiInputs.get? (phiKey addr object) = some (flow.inputs preds object) →
      Takes flow addr preds object after v

/-- Phis are only added, and only under some keys. -/
structure Extends (Key : PhiKey → Prop) (flow flow' : FlowState) : Prop where
  inStates : flow'.inStates = flow.inStates
  outStates : flow'.outStates = flow.outStates
  kept : ∀ key v, flow.phiVersions.get? key = some v → flow'.phiVersions.get? key = some v
  frame : ∀ key, ¬ Key key → flow'.phiVersions.get? key = flow.phiVersions.get? key ∧
    flow'.phiInputs.get? key = flow.phiInputs.get? key

theorem Extends.refl (Key : PhiKey → Prop) (flow : FlowState) : Extends Key flow flow :=
  ⟨rfl, rfl, fun _ _ found => found, fun _ _ => ⟨rfl, rfl⟩⟩

theorem Extends.trans {Key' : PhiKey → Prop} {flow flow'' : FlowState}
    (first : Extends Key flow flow') (second : Extends Key' flow' flow'') :
    Extends (fun key => Key key ∨ Key' key) flow flow'' where
  inStates := second.inStates.trans first.inStates
  outStates := second.outStates.trans first.outStates
  kept key v found := second.kept key v (first.kept key v found)
  frame key outside := by
    obtain ⟨notFirst, notSecond⟩ := not_or.mp outside
    obtain ⟨versions, inputs⟩ := first.frame key notFirst
    obtain ⟨versions', inputs'⟩ := second.frame key notSecond
    exact ⟨versions'.trans versions, inputs'.trans inputs⟩

theorem Takes.extend {flow after' : FlowState} {preds : List Nat}
    {object : ObjectId} (extend : Extends Key after after') (other : ¬ Key (phiKey addr object))
    (takes : Takes flow addr preds object after v) : Takes flow addr preds object after' v := by
  cases takes with
  | none empty => exact .none empty
  | common nonempty same => exact .common nonempty same
  | phi differ found inputs =>
    exact .phi differ (extend.kept _ _ found) ((extend.frame _ other).2.trans inputs)

theorem phiKey_inj {a b : Nat} {object object' : ObjectId} :
    phiKey a object = phiKey b object' ↔ a = b ∧ object = object' := by
  unfold phiKey
  rw [toLex_inj, Prod.mk.injEq]

section Merge

variable {context : FlowContext} {flow : FlowState} {inState : ObjectVersions} {addr : Nat}
variable {preds : List Nat} {object : ObjectId}

theorem Numbered.addPhi (numbered : Numbered context flow) (addr : Nat) (object : ObjectId)
    (inputs : BTreeMap PhiKey (List (Nat × MemoryVersion))) :
    Numbered context
      { flow with
        next := (takeVersion flow.next object).2
        phiVersions := flow.phiVersions.insert (phiKey addr object) (takeVersion flow.next object).1
        phiInputs := inputs } := by
  have grows := nextOf_le_takeVersion flow.next object
  refine ⟨fun o => (numbered.positive o).trans (grows o),
    fun v isDef => (numbered.defs v isDef).mono grows, fun a o v found => ?_,
    fun a b o v found found' => ?_, numbered.outs⟩
  · rw [BTreeMap.get?_insert] at found
    split at found
    · rename_i same
      cases found
      refine ⟨(phiKey_inj.mp same).2.symm, given_takeVersion numbered.positive object, fun isDef => ?_⟩
      exact ne_takeVersion (numbered.defs _ isDef) object rfl
    · obtain ⟨isObject, given, notDef⟩ := numbered.phis a o v found
      exact ⟨isObject, given.mono grows, notDef⟩
  · rw [BTreeMap.get?_insert] at found found'
    split at found
    · rename_i same
      split at found'
      · rename_i same'
        exact (phiKey_inj.mp same).1.trans (phiKey_inj.mp same').1.symm
      · obtain rfl := some.inj found
        exact absurd rfl (ne_takeVersion (numbered.phis b o _ found').2.1 object)
    · split at found'
      · obtain rfl := some.inj found'
        exact absurd rfl (ne_takeVersion (numbered.phis a o _ found).2.1 object)
      · exact numbered.apart a b o v found found'

structure MergeStep (context : FlowContext) (flow : FlowState) (addr : Nat) (preds : List Nat)
    (inState : ObjectVersions) (object : ObjectId) (result : FlowState × ObjectVersions) : Prop where
  numbered : Numbered context result.1
  proper : Proper result.2
  extend : Extends (fun key => key = phiKey addr object) flow result.1
  others : ∀ other, other ≠ object → result.2.get? other = inState.get? other
  takes : Takes flow addr preds object result.1 (versionOf result.2 object)

theorem versionOf_record (absent : inState.get? object = none) {merged : MemoryVersion}
    (isObject : merged.object = object) : versionOf
      (if merged.version = 0 then inState else inState.insert object merged) object = merged := by
  split
  · rename_i zero
    rw [versionOf, absent, getD_none, ← zero, ← isObject]
  · rw [versionOf_insert, if_pos rfl]

theorem proper_record (proper : Proper inState) {merged : MemoryVersion}
    (isObject : merged.object = object) :
    Proper (if merged.version = 0 then inState else inState.insert object merged) := by
  split
  · exact proper
  · rename_i nonzero
    rw [← isObject]
    exact proper.insert nonzero

theorem get?_record (merged : MemoryVersion) {other : ObjectId} (differs : other ≠ object) :
    (if merged.version = 0 then inState else inState.insert object merged).get? other =
      inState.get? other := by
  split
  · rfl
  · rw [BTreeMap.get?_insert, if_neg differs]

private theorem mergeObject_step (numbered : Numbered context flow) (proper : Proper inState)
    (absent : inState.get? object = none) :
    MergeStep context flow addr preds inState object
      (mergeObject addr preds (flow, inState) object) := by
  have isObject : ∀ p, (versionOf (flow.outOf p) object).object = object := fun p =>
    object_versionOf (numbered.outs p) object
  cases preds with
  | nil =>
    refine ⟨numbered, proper, .refl _ _, fun _ _ => rfl, ?_⟩
    change Takes flow addr [] object flow (versionOf inState object)
    rw [versionOf, absent]
    exact .none rfl
  | cons p rest =>
    have all : ((flow.inputs (p :: rest) object).all fun input =>
        input.2 = versionOf (flow.outOf p) object) = true ↔
          ∀ q ∈ p :: rest, versionOf (flow.outOf q) object = versionOf (flow.outOf p) object := by
      rw [List.all_eq_true, FlowState.inputs]
      simp only [List.forall_mem_map, decide_eq_true_eq]
      rfl
    have unfolded : mergeObject addr (p :: rest) (flow, inState) object =
        if (flow.inputs (p :: rest) object).all fun input =>
            input.2 = versionOf (flow.outOf p) object then
          (flow, if (versionOf (flow.outOf p) object).version = 0 then inState
            else inState.insert object (versionOf (flow.outOf p) object))
        else
          (flow.phiVersions.get? (phiKey addr object)).elim
            ({ flow with
                phiInputs := flow.phiInputs.insert (phiKey addr object)
                  (flow.inputs (p :: rest) object)
                next := (takeVersion flow.next object).2
                phiVersions := flow.phiVersions.insert (phiKey addr object)
                  (takeVersion flow.next object).1 },
              if (takeVersion flow.next object).1.version = 0 then inState
              else inState.insert object (takeVersion flow.next object).1)
            fun phi =>
              ({ flow with
                  phiInputs := flow.phiInputs.insert (phiKey addr object)
                    (flow.inputs (p :: rest) object) },
                if phi.version = 0 then inState else inState.insert object phi) := by
      have isCons : flow.inputs (p :: rest) object =
          (p, versionOf (flow.outOf p) object) :: flow.inputs rest object := rfl
      unfold mergeObject
      dsimp only
      rw [isCons]
      dsimp only
      generalize List.all _ _ = common
      cases common with
      | true => rfl
      | false => cases flow.phiVersions.get? (phiKey addr object) <;> rfl
    rw [unfolded]
    split
    · rename_i common
      refine ⟨numbered, proper_record proper (isObject p), .refl _ _,
        fun other differs => get?_record _ differs, ?_⟩
      rw [versionOf_record absent (isObject p)]
      exact .common (cons_ne_nil _ _) (all.mp common)
    · rename_i differ
      have apart : ¬ ∃ v, ∀ q ∈ p :: rest, versionOf (flow.outOf q) object = v := by
        rintro ⟨v, same⟩
        exact differ (all.mpr fun q mem => (same q mem).trans (same p mem_cons_self).symm)
      cases known : flow.phiVersions.get? (phiKey addr object) with
      | some phi =>
        rw [Option.elim_some]
        have isPhi := numbered.phis addr object phi known
        refine ⟨⟨numbered.positive, numbered.defs, numbered.phis, numbered.apart, numbered.outs⟩,
          proper_record proper isPhi.1, ⟨rfl, rfl, fun _ _ found => found, fun key other => ⟨rfl, ?_⟩⟩,
          fun other differs => get?_record _ differs, ?_⟩
        · rw [BTreeMap.get?_insert, if_neg other]
        · rw [versionOf_record absent isPhi.1]
          refine .phi apart known ?_
          rw [BTreeMap.get?_insert, if_pos rfl]
      | none =>
        rw [Option.elim_none]
        refine ⟨numbered.addPhi addr object _, proper_record proper rfl, ⟨rfl, rfl, ?_, ?_⟩,
          fun other differs => get?_record _ differs, ?_⟩
        · intro key v found
          have other : key ≠ phiKey addr object := by
            rintro rfl
            rw [known] at found
            cases found
          rw [BTreeMap.get?_insert, if_neg other]
          exact found
        · intro key other
          rw [BTreeMap.get?_insert, if_neg other, BTreeMap.get?_insert, if_neg other]
          exact ⟨rfl, rfl⟩
        · rw [versionOf_record absent rfl]
          refine .phi apart ?_ ?_
          · rw [BTreeMap.get?_insert, if_pos rfl]
          · rw [BTreeMap.get?_insert, if_pos rfl]

private theorem FlowState.outOf_congr (same : flow'.outStates = flow.outStates) :
    flow'.outOf = flow.outOf := by
  funext p
  rw [FlowState.outOf, FlowState.outOf, same]

theorem Takes.congr (same : flow'.outStates = flow.outStates)
    (takes : Takes flow' addr preds object after v) :
    Takes flow addr preds object after v := by
  have outs := FlowState.outOf_congr same
  cases takes with
  | none empty => exact .none empty
  | common nonempty common => exact .common nonempty (outs ▸ common)
  | phi differ found inputs =>
    refine .phi (outs ▸ differ) found ?_
    rw [inputs, FlowState.inputs, FlowState.inputs, same]

theorem Takes.withPhi {after' : FlowState} (version : after'.phiVersions.get? (phiKey addr object) =
      after.phiVersions.get? (phiKey addr object))
    (inputs : after'.phiInputs.get? (phiKey addr object) =
      after.phiInputs.get? (phiKey addr object))
    (takes : Takes flow addr preds object after v) : Takes flow addr preds object after' v := by
  cases takes with
  | none empty => exact .none empty
  | common nonempty common => exact .common nonempty common
  | phi differ isPhi isInputs =>
    exact .phi differ (version.trans isPhi) (inputs.trans isInputs)

/-- What the merge of several objects leaves. -/
structure MergePass (context : FlowContext) (flow : FlowState) (addr : Nat) (preds : List Nat)
    (inState : ObjectVersions) (objects : List ObjectId) (result : FlowState × ObjectVersions) :
    Prop where
  numbered : Numbered context result.1
  proper : Proper result.2
  extend : Extends (fun key => ∃ object ∈ objects, key = phiKey addr object) flow result.1
  others : ∀ other, other ∉ objects → result.2.get? other = inState.get? other
  takes : ∀ object ∈ objects, Takes flow addr preds object result.1 (versionOf result.2 object)

private theorem Extends.weaken {Key' : PhiKey → Prop}
    (extend : Extends Key flow flow') (weaker : ∀ key, Key key → Key' key) :
    Extends Key' flow flow' :=
  ⟨extend.inStates, extend.outStates, extend.kept, fun key outside =>
    extend.frame key fun inside => outside (weaker key inside)⟩

private theorem mergeObjects_pass (addr : Nat) (preds : List Nat) {objects : List ObjectId} :
    ∀ {flow : FlowState} {inState : ObjectVersions}, objects.Nodup → Numbered context flow →
      Proper inState → (∀ object ∈ objects, inState.get? object = none) →
      MergePass context flow addr preds inState objects
        (objects.foldl (mergeObject addr preds) (flow, inState)) := by
  induction objects with
  | nil => exact fun _ numbered proper _ => ⟨numbered, proper, .refl _ _, fun _ _ => rfl, nofun⟩
  | cons object rest ih =>
    intro flow inState nodup numbered proper absent
    obtain ⟨notLater, nodupRest⟩ := nodup_cons.mp nodup
    obtain ⟨absentHere, absentRest⟩ := forall_mem_cons.mp absent
    have step : MergeStep context flow addr preds inState object _ :=
      mergeObject_step numbered proper absentHere
    rw [foldl_cons]
    generalize mergeObject addr preds (flow, inState) object = next at step
    have pass := ih nodupRest step.numbered step.proper fun other mem => by
      rw [step.others other fun same => notLater (same ▸ mem)]
      exact absentRest other mem
    have unlisted : ¬ ∃ other ∈ rest, phiKey addr object = phiKey addr other := by
      rintro ⟨other, mem, same⟩
      exact notLater ((phiKey_inj.mp same).2 ▸ mem)
    refine ⟨pass.numbered, pass.proper, (step.extend.trans pass.extend).weaken ?_, ?_, ?_⟩
    · rintro key (rfl | ⟨other, mem, rfl⟩)
      · exact ⟨object, mem_cons_self, rfl⟩
      · exact ⟨other, mem_cons_of_mem _ mem, rfl⟩
    · intro other outside
      obtain ⟨differs, notRest⟩ := not_or.mp (mt mem_cons.mpr outside)
      exact (pass.others other notRest).trans (step.others other differs)
    · refine forall_mem_cons.mpr ⟨?_, fun other mem => ?_⟩
      · rw [versionOf, pass.others object notLater]
        exact step.takes.extend pass.extend unlisted
      · exact (pass.takes other mem).congr step.extend.outStates

end Merge

/-! ## Operations -/

namespace FlowContext

variable (context : FlowContext)

def access (addr opIdx : Nat) : Option (InstId × AccessSummary) := do
  let inst ← context.graph.opInstBySite.lookup (addr, opIdx)
  let access ← context.summaries.get? inst
  some (inst, access)

/-- The definitions of an operation with their versions. -/
def defsAt (addr opIdx : Nat) : List (MemoryLocation × MemoryVersion) :=
  match context.access addr opIdx with
  | none => []
  | some (inst, access) => access.defs.zip ((context.defVersions.get? inst).getD [])

/-- The definitions of several operations of a block. -/
def defsIn (addr : Nat) (entries : List (SSAOp × Nat)) : List (MemoryLocation × MemoryVersion) :=
  entries.flatMap fun entry => context.defsAt addr entry.2

end FlowContext

def lastDef (defs : List (MemoryLocation × MemoryVersion)) (object : ObjectId) :
    Option MemoryVersion :=
  (defs.reverse.find? fun entry => entry.1.object = object).map Prod.snd

private theorem lastDef_cons (entry : MemoryLocation × MemoryVersion)
    (defs : List (MemoryLocation × MemoryVersion)) (object : ObjectId) :
    lastDef (entry :: defs) object =
      (lastDef defs object).or (if entry.1.object = object then some entry.2 else none) := by
  unfold lastDef
  by_cases same : entry.1.object = object
  · simp [same]
  · simp [same]

theorem lastDef_append (defs defs' : List (MemoryLocation × MemoryVersion)) (object : ObjectId) :
    lastDef (defs ++ defs') object = (lastDef defs' object).or (lastDef defs object) := by
  unfold lastDef
  rw [reverse_append, List.find?_append, map_or]

theorem versionOf_foldl_insert (defs : List (MemoryLocation × MemoryVersion)) (object : ObjectId) :
    ∀ state : ObjectVersions, versionOf (defs.foldl (fun state entry =>
      state.insert entry.1.object entry.2) state) object =
        (lastDef defs object).getD (versionOf state object) := by
  induction defs with
  | nil => exact fun _ => rfl
  | cons entry rest ih =>
    intro state
    rw [foldl_cons, ih, versionOf_insert, lastDef_cons]
    cases lastDef rest object with
    | some v => rfl
    | none =>
      by_cases same : entry.1.object = object
      · rw [if_pos same, if_pos same.symm]
        rfl
      · rw [if_neg same, if_neg fun same' => same same'.symm]
        rfl

/-- The uses of an instruction, and its definitions with their versions. -/
def RoundFacts.at (facts : RoundFacts) (inst : InstId) :
    List MemoryUseFact × List (MemoryLocation × MemoryVersion) :=
  (facts.usesByInst.listAt inst,
    (facts.defsByInst.listAt inst).map fun fact => (fact.location, fact.nextVersion))

private theorem foldl_defineAll (inst : InstId) (defs : List (MemoryLocation × MemoryVersion)) :
    ∀ acc : ObjectVersions × RoundFacts,
      (defs.foldl (defineAll inst) acc).1 =
          defs.foldl (fun state entry => state.insert entry.1.object entry.2) acc.1 ∧
        ∀ inst', (defs.foldl (defineAll inst) acc).2.at inst' =
          if inst' = inst then ((acc.2.at inst).1, (acc.2.at inst).2 ++ defs) else acc.2.at inst' := by
  induction defs with
  | nil =>
    refine fun acc => ⟨rfl, fun inst' => ?_⟩
    split
    · rename_i same
      rw [foldl_nil, append_nil, same]
    · rfl
  | cons entry rest ih =>
    intro acc
    obtain ⟨state, facts⟩ := ih (defineAll inst acc entry)
    refine ⟨state, fun inst' => ?_⟩
    rw [foldl_cons, facts]
    have here : ∀ inst', (defineAll inst acc entry).2.at inst' =
        if inst' = inst then ((acc.2.at inst).1, (acc.2.at inst).2 ++ [entry])
        else acc.2.at inst' := fun inst' => by
      unfold defineAll RoundFacts.at
      dsimp only
      rw [BTreeMap.listAt_pushAt]
      split
      · rename_i same
        rw [same, map_append]
        rfl
      · rfl
    rw [here, if_pos rfl, here]
    split
    · rw [append_assoc]
      rfl
    · rfl

section Operations

variable {context : FlowContext}

theorem flowOp_spec (addr : Nat) (acc : ObjectVersions × RoundFacts) (entry : SSAOp × Nat) :
    (flowOp context addr acc entry).1 = (context.defsAt addr entry.2).foldl (fun state entry =>
        state.insert entry.1.object entry.2) acc.1 ∧
      ∀ inst', (flowOp context addr acc entry).2.at inst' =
        match context.access addr entry.2 with
        | none => acc.2.at inst'
        | some (inst, access) =>
          if inst' = inst then
            ((acc.2.at inst).1 ++ access.uses.map fun location =>
              ⟨location, versionOf acc.1 location.object⟩,
              (acc.2.at inst).2 ++ context.defsAt addr entry.2)
          else acc.2.at inst' := by
  have unfolded : flowOp context addr acc entry =
      match context.access addr entry.2 with
      | none => acc
      | some (inst, access) =>
        (access.defs.zip ((context.defVersions.get? inst).getD [])).foldl (defineAll inst)
          (acc.1, { acc.2 with
            usesByInst := access.uses.foldl (fun uses location =>
              uses.pushAt inst ⟨location, versionOf acc.1 location.object⟩) acc.2.usesByInst }) := by
    unfold flowOp
    rw [← FlowContext.access]
    cases context.access addr entry.2 with
    | none => rfl
    | some found =>
      dsimp only
      cases context.defVersions.get? found.1 with
      | none => rw [getD_none, zip_nil_right]; rfl
      | some versions => rfl
  rw [unfolded, FlowContext.defsAt]
  cases context.access addr entry.2 with
  | none => exact ⟨rfl, fun _ => rfl⟩
  | some found =>
    obtain ⟨inst, access⟩ := found
    obtain ⟨state, facts⟩ := foldl_defineAll inst
      (access.defs.zip ((context.defVersions.get? inst).getD []))
      (acc.1, { acc.2 with
        usesByInst := access.uses.foldl (fun uses location =>
          uses.pushAt inst ⟨location, versionOf acc.1 location.object⟩) acc.2.usesByInst })
    refine ⟨state, fun inst' => ?_⟩
    rw [facts]
    unfold RoundFacts.at
    dsimp only
    rw [BTreeMap.listAt_foldl_pushAt, BTreeMap.listAt_foldl_pushAt, if_pos rfl]
    split
    · rfl
    · rfl

/-- Different operations are different instructions. -/
def DistinctSites (graph : SsaGraph) : Prop :=
  ∀ site site' inst, graph.opInstBySite.lookup site = some inst →
    graph.opInstBySite.lookup site' = some inst → site = site'

theorem lookup_of_access {access : AccessSummary}
    (found : context.access addr opIdx = some (inst, access)) :
    context.graph.opInstBySite.lookup (addr, opIdx) = some inst ∧
      context.summaries.get? inst = some access := by
  obtain ⟨inst', isInst, rest⟩ := bind_eq_some_iff.mp found
  obtain ⟨access', isAccess, same⟩ := bind_eq_some_iff.mp rest
  cases same
  exact ⟨isInst, isAccess⟩

theorem versionOf_flowOps (addr : Nat) (entries : List (SSAOp × Nat)) (object : ObjectId) :
    ∀ acc : ObjectVersions × RoundFacts,
      versionOf (entries.foldl (flowOp context addr) acc).1 object =
        (lastDef (context.defsIn addr entries) object).getD (versionOf acc.1 object) := by
  induction entries with
  | nil => exact fun _ => rfl
  | cons entry rest ih =>
    intro acc
    rw [foldl_cons, ih, (flowOp_spec addr acc entry).1,
      versionOf_foldl_insert, FlowContext.defsIn, FlowContext.defsIn, flatMap_cons,
      lastDef_append]
    cases lastDef (rest.flatMap fun entry => context.defsAt addr entry.2) object <;> rfl

section Numbered

variable {next : NextVersions} (numbers : Numbers context.summaries (context.defVersions, next))
include numbers

theorem mem_defsAt {entry : MemoryLocation × MemoryVersion}
    (mem : entry ∈ context.defsAt addr opIdx) :
    entry.2.object = entry.1.object ∧ context.IsDef entry.2 ∧ entry.2.version ≠ 0 := by
  unfold FlowContext.defsAt at mem
  cases found : context.access addr opIdx with
  | none =>
    rw [found] at mem
    cases mem
  | some access =>
    obtain ⟨inst, access⟩ := access
    rw [found] at mem
    dsimp only at mem
    have objects := numbers.objects inst access (lookup_of_access found).2
    cases isVersions : context.defVersions.get? inst with
    | none =>
      rw [isVersions, getD_none, zip_nil_right] at mem
      cases mem
    | some versions =>
      rw [isVersions, getD_some] at mem objects
      obtain ⟨k, isEntry⟩ := mem_iff_getElem?.mp mem
      obtain ⟨isLocation, isVersion⟩ := List.getElem?_zip_eq_some.mp isEntry
      have same : (versions.map MemoryVersion.object)[k]? =
        (access.defs.map MemoryLocation.object)[k]? := by rw [objects]
      rw [List.getElem?_map, List.getElem?_map, isLocation, isVersion] at same
      have isMember := mem_of_getElem? isVersion
      exact ⟨some.inj same, ⟨inst, versions, isVersions, isMember⟩,
        Nat.one_le_iff_ne_zero.mp (numbers.given inst versions isVersions _ isMember).1⟩

theorem map_defsAt {access : AccessSummary}
    (found : context.access addr opIdx = some (inst, access)) :
    (context.defsAt addr opIdx).map Prod.fst = access.defs := by
  have objects := numbers.objects inst access (lookup_of_access found).2
  rw [FlowContext.defsAt, found]
  have lengths := congrArg List.length objects
  rw [length_map, length_map] at lengths
  exact map_fst_zip (by dsimp only at lengths; omega)

private theorem proper_flowOps (addr : Nat) (entries : List (SSAOp × Nat)) :
    ∀ acc : ObjectVersions × RoundFacts, Proper acc.1 →
      Proper (entries.foldl (flowOp context addr) acc).1 := by
  have defines : ∀ (defs : List (MemoryLocation × MemoryVersion)) (state : ObjectVersions),
      (∀ entry ∈ defs, entry.2.object = entry.1.object ∧ entry.2.version ≠ 0) → Proper state →
      Proper (defs.foldl (fun state entry => state.insert entry.1.object entry.2) state) := by
    intro defs
    induction defs with
    | nil => exact fun _ _ proper => proper
    | cons entry rest ih =>
      intro state members proper
      obtain ⟨⟨isObject, nonzero⟩, later⟩ := forall_mem_cons.mp members
      refine ih _ later ?_
      change Proper (state.insert entry.1.object entry.2)
      rw [← isObject]
      exact proper.insert nonzero
  induction entries with
  | nil => exact fun _ proper => proper
  | cons entry rest ih =>
    intro acc proper
    refine ih _ ?_
    rw [(flowOp_spec addr acc entry).1]
    exact defines _ _ (fun d mem =>
      ⟨(mem_defsAt numbers mem).1, (mem_defsAt numbers mem).2.2⟩) proper

end Numbered

/-- The instruction of an operation, where it accesses memory. -/
def FlowContext.instAt (context : FlowContext) (addr opIdx : Nat) : Option InstId :=
  (context.access addr opIdx).map Prod.fst

theorem instAt_inj (distinct : DistinctSites context.graph) {addr' opIdx' : Nat}
    (isInst : context.instAt addr opIdx = some inst)
    (isInst' : context.instAt addr' opIdx' = some inst) : addr = addr' ∧ opIdx = opIdx' := by
  obtain ⟨⟨_, access⟩, found, rfl⟩ := map_eq_some_iff.mp isInst
  obtain ⟨⟨_, access'⟩, found', rfl⟩ := map_eq_some_iff.mp isInst'
  exact Prod.mk.inj (distinct _ _ _ (lookup_of_access found).1 (lookup_of_access found').1)

theorem at_flowOp_of_ne (addr : Nat) (acc : ObjectVersions × RoundFacts) (entry : SSAOp × Nat)
    (other : context.instAt addr entry.2 ≠ some inst) :
    (flowOp context addr acc entry).2.at inst = acc.2.at inst := by
  rw [(flowOp_spec addr acc entry).2]
  cases found : context.access addr entry.2 with
  | none => rfl
  | some access =>
    refine if_neg fun same => other ?_
    rw [FlowContext.instAt, found, same]
    rfl

theorem nodup_instAt (distinct : DistinctSites context.graph) (addr : Nat) (ops : List SSAOp) :
    (ops.zipIdx.filterMap fun entry => context.instAt addr entry.2).Nodup := by
  have byIndex : ops.zipIdx.filterMap (fun entry => context.instAt addr entry.2) =
      (List.range ops.length).filterMap (context.instAt addr) := by
    rw [range_eq_range', ← zipIdx_map_snd, filterMap_map]
    rfl
  rw [byIndex]
  exact List.Nodup.filterMap (fun _ _ _ isInst isInst' => (instAt_inj distinct isInst isInst').2)
    nodup_range

theorem flowOps_facts (distinct : DistinctSites context.graph) (addr : Nat) (ops : List SSAOp)
    (acc : ObjectVersions × RoundFacts) :
    (∀ inst, (∀ opIdx, context.instAt addr opIdx ≠ some inst) →
      (ops.zipIdx.foldl (flowOp context addr) acc).2.at inst = acc.2.at inst) ∧
    ∀ opIdx inst access, opIdx < ops.length → context.access addr opIdx = some (inst, access) →
      (ops.zipIdx.foldl (flowOp context addr) acc).2.at inst =
        ((acc.2.at inst).1 ++ access.uses.map fun location =>
          ⟨location, (lastDef (context.defsIn addr (ops.zipIdx.take opIdx)) location.object).getD
            (versionOf acc.1 location.object)⟩,
          (acc.2.at inst).2 ++ context.defsAt addr opIdx) := by
  have frame : ∀ (acc : ObjectVersions × RoundFacts), True → ∀ entry ∈ ops.zipIdx, ∀ inst,
      context.instAt addr entry.2 ≠ some inst →
        (flowOp context addr acc entry).2.at inst = acc.2.at inst := fun acc _ entry _ inst other =>
    at_flowOp_of_ne addr acc entry other
  constructor
  · intro inst never
    refine (foldl_frame (flowOp context addr) (fun entry => context.instAt addr entry.2)
      (fun acc => acc.2.at) (fun _ => True) ops.zipIdx (fun _ _ _ _ => trivial) frame acc trivial).2
      inst fun mem => ?_
    obtain ⟨entry, -, isInst⟩ := mem_filterMap.mp mem
    exact never entry.2 isInst
  · intro opIdx inst access inside found
    have inside' : opIdx < ops.zipIdx.length := by rwa [length_zipIdx]
    have split : ops.zipIdx = ops.zipIdx.take opIdx ++
        ops.zipIdx[opIdx] :: ops.zipIdx.drop (opIdx + 1) := by
      rw [← drop_eq_getElem_cons inside', take_append_drop]
    have isEntry : (ops.zipIdx[opIdx]).2 = opIdx := by
      rw [getElem_zipIdx, Nat.zero_add]
    have nodup := nodup_instAt distinct addr ops
    have isInst : context.instAt addr (ops.zipIdx[opIdx]).2 = some inst := by
      rw [isEntry, FlowContext.instAt, found]
      rfl
    rw [split] at frame nodup
    obtain ⟨-, -, others, last⟩ := foldl_mixed (flowOp context addr)
      (fun entry => context.instAt addr entry.2) (fun acc => acc.2.at) (fun _ => True)
      (fun _ _ _ _ => trivial) frame nodup trivial
    obtain ⟨notBefore, written⟩ := last inst isInst
    rw [← split] at written
    rw [written, (flowOp_spec addr _ _).2, isEntry, found]
    dsimp only
    rw [if_pos rfl, others inst notBefore]
    simp only [versionOf_flowOps]

/-! ## Blocks -/

/-- What a round writes for a block. -/
@[ext] structure BlockEntry where
  inState : Option ObjectVersions
  outState : Option ObjectVersions
  phis : ObjectId → Option MemoryVersion
  inputs : ObjectId → Option (List (Nat × MemoryVersion))
  facts : Nat → Option (List MemoryUseFact × List (MemoryLocation × MemoryVersion))

def RoundState.entry (context : FlowContext) (state : RoundState) (addr : Nat) : BlockEntry where
  inState := state.flow.inStates.get? addr
  outState := state.flow.outStates.get? addr
  phis object := state.flow.phiVersions.get? (phiKey addr object)
  inputs object := state.flow.phiInputs.get? (phiKey addr object)
  facts opIdx := (context.instAt addr opIdx).map state.facts.at

/-- What a block leaves, with its states. -/
structure BlockStep (context : FlowContext) (addr : Nat) (ops : List SSAOp)
    (state after : RoundState) (inState outState : ObjectVersions) : Prop where
  numbered : Numbered context after.flow
  frame : ∀ b, b ≠ addr → after.entry context b = state.entry context b
  kept : ∀ key v, state.flow.phiVersions.get? key = some v →
    after.flow.phiVersions.get? key = some v
  isIn : after.flow.inStates.get? addr = some inState
  isOut : after.flow.outStates.get? addr = some outState
  proper : Proper inState
  takes : ∀ object ∈ context.objectIds, Takes state.flow addr
    (context.func.cfg.predecessors addr) object after.flow (versionOf inState object)
  unlisted : ∀ object, object ∉ context.objectIds → inState.get? object = none
  out : ∀ object, versionOf outState object =
    (lastDef (context.defsIn addr ops.zipIdx) object).getD (versionOf inState object)
  facts : ∀ opIdx inst access, opIdx < ops.length →
    context.access addr opIdx = some (inst, access) → after.facts.at inst =
      ((state.facts.at inst).1 ++ access.uses.map fun location =>
        ⟨location, (lastDef (context.defsIn addr (ops.zipIdx.take opIdx)) location.object).getD
          (versionOf inState location.object)⟩,
        (state.facts.at inst).2 ++ context.defsAt addr opIdx)
  low : after.changed = false ↔ state.changed = false ∧
    state.flow.inStates.get? addr = some inState ∧ state.flow.outStates.get? addr = some outState

theorem get?_store (states : BTreeMap Nat ObjectVersions) (addr b : Nat) (state : ObjectVersions) :
    (if states.get? addr ≠ some state then states.insert addr state else states).get? b =
      if b = addr then some state else states.get? b := by
  split
  · rw [BTreeMap.get?_insert]
  · rename_i same
    split
    · rename_i here
      rw [here]
      exact not_not.mp same
    · rfl

theorem flowBlock_spec (distinct : DistinctSites context.graph)
    (numbers : Numbers context.summaries (context.defVersions, next))
    (nodup : context.objectIds.Nodup) {block : SSABlock}
    (found : context.func.getBlock addr = some block) {state : RoundState}
    (numbered : Numbered context state.flow) : ∃ inState outState,
      BlockStep context addr block.ops state (flowBlock context state addr) inState outState := by
  have pass := mergeObjects_pass addr (context.func.cfg.predecessors addr) nodup numbered
    proper_empty fun _ _ => rfl
  generalize merge : context.objectIds.foldl (mergeObject addr (context.func.cfg.predecessors addr))
    (state.flow, .empty) = merged at pass
  obtain ⟨flow, inState⟩ := merged
  obtain ⟨elsewhere, inBlock⟩ := flowOps_facts distinct addr block.ops (inState, state.facts)
  have properOut := proper_flowOps numbers addr block.ops.zipIdx (inState, state.facts) pass.proper
  have outVersions : ∀ object,
      versionOf (block.ops.zipIdx.foldl (flowOp context addr) (inState, state.facts)).1 object =
        (lastDef (context.defsIn addr block.ops.zipIdx) object).getD (versionOf inState object) :=
    fun object => versionOf_flowOps addr block.ops.zipIdx object (inState, state.facts)
  generalize run : block.ops.zipIdx.foldl (flowOp context addr) (inState, state.facts) = result
    at elsewhere inBlock properOut outVersions
  obtain ⟨outState, facts⟩ := result
  refine ⟨inState, outState, ?_⟩
  have unfolded : flowBlock context state addr =
      ⟨{ flow with
          inStates := if flow.inStates.get? addr ≠ some inState then
            flow.inStates.insert addr inState else flow.inStates
          outStates := if flow.outStates.get? addr ≠ some outState then
            flow.outStates.insert addr outState else flow.outStates },
        facts, state.changed || decide (flow.inStates.get? addr ≠ some inState) ||
          decide (flow.outStates.get? addr ≠ some outState)⟩ := by
    unfold flowBlock
    dsimp only
    rw [merge]
    rw [found]
    dsimp only
    rw [run]
    by_cases inChanged : flow.inStates.get? addr ≠ some inState <;>
      by_cases outChanged : flow.outStates.get? addr ≠ some outState <;>
      simp [inChanged, outChanged]
  rw [unfolded]
  have outs : ∀ p, FlowState.outOf { flow with
      inStates := if flow.inStates.get? addr ≠ some inState then
        flow.inStates.insert addr inState else flow.inStates
      outStates := if flow.outStates.get? addr ≠ some outState then
        flow.outStates.insert addr outState else flow.outStates } p =
      if p = addr then outState else flow.outOf p := fun p => by
    unfold FlowState.outOf
    rw [get?_store]
    split
    · rfl
    · rfl
  refine
    { numbered := ⟨pass.numbered.positive, pass.numbered.defs, pass.numbered.phis,
        pass.numbered.apart, fun p => ?_⟩
      frame := fun b other => ?_
      kept := pass.extend.kept
      isIn := (get?_store _ _ _ _).trans (if_pos rfl)
      isOut := (get?_store _ _ _ _).trans (if_pos rfl)
      proper := pass.proper
      takes := fun object mem => ?_
      unlisted := fun object outside => pass.others object outside
      out := outVersions
      facts := inBlock
      low := ?_ }
  · rw [outs]
    split
    · exact properOut
    · exact pass.numbered.outs p
  · have notKey : ∀ object, ¬ ∃ object' ∈ context.objectIds, phiKey b object = phiKey addr object' := by
      rintro object ⟨object', -, same⟩
      exact other (phiKey_inj.mp same).1
    refine BlockEntry.ext ?_ ?_ (funext fun object => ?_) (funext fun object => ?_)
      (funext fun opIdx => ?_)
    · exact (get?_store _ _ _ _).trans ((if_neg other).trans (by rw [pass.extend.inStates]; rfl))
    · exact (get?_store _ _ _ _).trans ((if_neg other).trans (by rw [pass.extend.outStates]; rfl))
    · exact (pass.extend.frame _ (notKey object)).1
    · exact (pass.extend.frame _ (notKey object)).2
    · unfold RoundState.entry
      dsimp only
      cases isInst : context.instAt b opIdx with
      | none => rfl
      | some inst =>
        refine congrArg some (elsewhere inst fun opIdx' isInst' => ?_)
        exact other (instAt_inj distinct isInst isInst').1
  · have takes : Takes state.flow addr (context.func.cfg.predecessors addr) object flow
        (versionOf inState object) := pass.takes object mem
    refine takes.withPhi ?_ ?_
    · rfl
    · rfl
  · rw [pass.extend.inStates, pass.extend.outStates]
    simp only [Bool.or_eq_false_iff, decide_eq_false_iff_not, not_not, ne_eq, and_assoc]

end Operations

end R2Sleigh.Ssa.Semantic
