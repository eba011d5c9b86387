import R2Sleigh.Ssa.RenameLocal

/-!
Contract: the contents of the blocks while they are renamed.

Owns `phiRow` and `blockOps`.

The contents depend on the visits only through the context in which a block was
entered and those with which its predecessors were left. No assumption is made
on the placement: a phi may list anything as its predecessors.
-/

namespace R2Sleigh.Ssa

open Il Lib List

variable {fill done : Nat → Option RenameContext} {nodes : Nat → Prop} {p : Nat}

/-! ## Rows of phis -/

/-- The phis of a block with the given destinations. -/
def phiRow (dsts : List SSAVar) (phis : List PhiInfo) (sources : PhiInfo → List SSAVar) :
    List SSAOp :=
  List.zipWith (fun dst phi => .Phi dst (sources phi)) dsts phis

/-- The destinations that `renamePhis` writes. -/
def phiDsts : List PhiInfo → RenameState → List SSAVar
  | [], _ => []
  | phi :: rest, state => (state.define phi.varName).1 :: phiDsts rest (state.define phi.varName).2

def phiState (phis : List PhiInfo) (state : RenameState) : RenameState :=
  phis.foldl (fun state phi => (state.define phi.varName).2) state

theorem phiDsts_length (phis : List PhiInfo) :
    ∀ state : RenameState, (phiDsts phis state).length = phis.length := by
  induction phis with
  | nil => exact fun _ => rfl
  | cons phi rest ih =>
    intro state
    rw [phiDsts, length_cons, length_cons, ih]

private theorem renamePhis_phiRow (sources : PhiInfo → List SSAVar)
    (lengths : ∀ phi, (sources phi).length = phi.predecessors.length) (phis : List PhiInfo) :
    ∀ (before : List SSAOp) (dsts : List SSAVar) (body : List SSAOp) (state : RenameState),
      dsts.length = phis.length →
      renamePhis phis before.length (before ++ (phiRow dsts phis sources ++ body)) state =
        (before ++ (phiRow (phiDsts phis state) phis sources ++ body), phiState phis state) := by
  induction phis with
  | nil =>
    intro before dsts body state length
    rw [length_nil, length_eq_zero_iff] at length
    subst length
    rfl
  | cons phi rest ih =>
    intro before dsts body state length
    cases dsts with
    | nil => simp at length
    | cons dst dsts =>
      rw [length_cons, length_cons, Nat.succ_inj] at length
      have row : phiRow (dst :: dsts) (phi :: rest) sources =
          .Phi dst (sources phi) :: phiRow dsts rest sources := rfl
      have set : setPhiDst (before ++ (.Phi dst (sources phi) ::
          (phiRow dsts rest sources ++ body))) before.length phi (state.define phi.varName).1 =
          (before ++ [.Phi (state.define phi.varName).1 (sources phi)]) ++
            (phiRow dsts rest sources ++ body) := by
        simp [setPhiDst, lengths]
      have next := ih
        (before ++ [.Phi (state.define phi.varName).1 (sources phi)]) dsts body
        (state.define phi.varName).2 length
      rw [length_append, length_singleton] at next
      rw [row, renamePhis, cons_append]
      dsimp only
      rw [set, next]
      simp [phiDsts, phiRow, phiState]

private theorem fillSources_phiRow (ctx : RenameContext) (predIdx : Nat)
    (sources : PhiInfo → List SSAVar) (body : List SSAOp) (phis : List PhiInfo) :
    ∀ dsts : List SSAVar, dsts.length = phis.length →
      fillSources ctx predIdx (phiRow dsts phis sources ++ body) phis =
        phiRow dsts phis (fun phi =>
          if predIdx < (sources phi).length then
            (sources phi).set predIdx (ctx.readVar phi.varName)
          else sources phi) ++ body := by
  induction phis with
  | nil =>
    intro dsts length
    rw [length_nil, length_eq_zero_iff] at length
    subst length
    cases body <;> rfl
  | cons phi rest ih =>
    intro dsts length
    cases dsts with
    | nil => simp at length
    | cons dst dsts =>
      rw [length_cons, length_cons, Nat.succ_inj] at length
      have tail := ih dsts length
      simp only [phiRow, zipWith_cons_cons, cons_append, fillSources] at tail ⊢
      rw [tail]

/-! ## Sources by position -/

/-- The source at a position, given what was filled in from each predecessor:
only the first position of a predecessor is ever filled. -/
def sourceAt (fill : Nat → Option RenameContext) (firstPreds : List Nat) (phi : PhiInfo)
    (j : Nat) : SSAVar :=
  let filled := (firstPreds[j]?.filter fun p => firstPreds.idxOf? p = some j).bind fill
  match filled with
  | some ctx => ctx.readVar phi.varName
  | none => ⟨phi.varName, 0, phi.varSize⟩

def sourcesOf (fill : Nat → Option RenameContext) (firstPreds : List Nat) (phi : PhiInfo) :
    List SSAVar :=
  (List.range phi.predecessors.length).map (sourceAt fill firstPreds phi)

theorem sourcesOf_length (fill : Nat → Option RenameContext) (firstPreds : List Nat)
    (phi : PhiInfo) : (sourcesOf fill firstPreds phi).length = phi.predecessors.length := by
  simp [sourcesOf]

theorem sourcesOf_none (firstPreds : List Nat) (phi : PhiInfo) :
    sourcesOf (fun _ => none) firstPreds phi = placeholderSources phi := by
  have each : ∀ j, sourceAt (fun _ => none) firstPreds phi j = ⟨phi.varName, 0, phi.varSize⟩ := by
    simp [sourceAt]
  rw [sourcesOf, placeholderSources, map_congr_left fun j _ => each j, map_const',
    map_const', length_range]

section

variable {firstPreds : List Nat} {j : Nat} (position : firstPreds.idxOf? p = some j)
include position

theorem sourceAt_of_position
    (phi : PhiInfo) :
    sourceAt fill firstPreds phi j =
      match fill p with
      | some ctx => ctx.readVar phi.varName
      | none => ⟨phi.varName, 0, phi.varSize⟩ := by
  obtain ⟨bound, found, _⟩ := List.idxOf?_eq_some_iff.mp position
  have found' : firstPreds[j]? = some p := by rw [List.getElem?_eq_getElem bound, found]
  have first : (Option.filter (fun p => decide (firstPreds.idxOf? p = some j)) (some p)) =
      some p := by simp [Option.filter, position]
  rw [sourceAt, found', first]
  rfl

private theorem sourcesOf_update
    (ctx : RenameContext) (phi : PhiInfo) :
    (if j < (sourcesOf fill firstPreds phi).length then
      (sourcesOf fill firstPreds phi).set j (ctx.readVar phi.varName)
    else sourcesOf fill firstPreds phi) =
      sourcesOf (Function.update fill p (some ctx)) firstPreds phi := by
  have here : sourceAt (Function.update fill p (some ctx)) firstPreds phi j =
      ctx.readVar phi.varName := by
    rw [sourceAt_of_position position, Function.update_self]
  have elsewhere : ∀ i, i ≠ j → sourceAt (Function.update fill p (some ctx)) firstPreds phi i =
      sourceAt fill firstPreds phi i := by
    intro i different
    unfold sourceAt
    cases filtered : (firstPreds[i]?.filter fun p => firstPreds.idxOf? p = some i) with
    | none => rfl
    | some q =>
      have notP : q ≠ p := by
        rintro rfl
        have first := (Option.filter_eq_some_iff.mp filtered).2
        rw [position] at first
        simp only [Option.some.injEq, decide_eq_true_eq] at first
        exact different first.symm
      simp [Function.update_of_ne notP]
  have unset : (sourcesOf fill firstPreds phi).length ≤ j →
      (sourcesOf fill firstPreds phi).set j (ctx.readVar phi.varName) =
        sourcesOf fill firstPreds phi := fun beyond => set_eq_of_length_le beyond
  have setAlways : (if j < (sourcesOf fill firstPreds phi).length then
      (sourcesOf fill firstPreds phi).set j (ctx.readVar phi.varName)
    else sourcesOf fill firstPreds phi) =
      (sourcesOf fill firstPreds phi).set j (ctx.readVar phi.varName) := by
    split
    · rfl
    · rename_i beyond
      exact (unset (Nat.le_of_not_lt beyond)).symm
  rw [setAlways]
  refine ext_getElem? fun i => ?_
  rw [List.getElem?_set]
  by_cases same : j = i
  · subst same
    by_cases bound : j < phi.predecessors.length
    · simp [sourcesOf, bound, here]
    · simp [sourcesOf, bound]
  · rw [if_neg same]
    by_cases bound : i < phi.predecessors.length
    · simp [sourcesOf, bound, elsewhere i (Ne.symm same)]
    · simp [sourcesOf, bound]

end

private theorem sourcesOf_of_not_mem {firstPreds : List Nat}
    (absent : p ∉ firstPreds) (ctx : RenameContext) :
    sourcesOf (Function.update fill p (some ctx)) firstPreds = sourcesOf fill firstPreds := by
  funext phi
  refine map_congr_left fun j _ => ?_
  unfold sourceAt
  cases filtered : (firstPreds[j]?.filter fun p => firstPreds.idxOf? p = some j) with
  | none => rfl
  | some q =>
    have notP : q ≠ p := by
      rintro rfl
      exact absent (mem_of_getElem? (Option.filter_eq_some_iff.mp filtered).1)
    simp [Function.update_of_ne notP]

/-! ## Contents of the blocks -/

section Contents

variable (args : RenameArgs)

/-- The operations of a block of the graph. -/
def bodyOps (b : Nat) : List R2ILOp := ((args.cfg.getBlock b).map BasicBlock.ops).getD []

/-- The renamed operations of a block entered in `ctx`, phis apart. -/
def bodyOf (b : Nat) (ctx : RenameContext) : List SSAOp :=
  (renameOps args.regNames args.callBoundaries (bodyOps args b)
    (phiState (args.phiPlacement.getPhis b) ⟨ctx, []⟩)).1

/-- The state at the end of a block entered in `ctx`. -/
def leave (b : Nat) (ctx : RenameContext) : RenameState :=
  (renameOps args.regNames args.callBoundaries (bodyOps args b)
    (phiState (args.phiPlacement.getPhis b) ⟨ctx, []⟩)).2

/-- The predecessor list that `fillPhiSources` searches. -/
def firstPreds (b : Nat) : List Nat :=
  ((args.phiPlacement.getPhis b).head?.map PhiInfo.predecessors).getD []

/-- Destinations of the phis: placeholders until the block is visited. -/
def dstsOf (visited : Option RenameContext) (b : Nat) : List SSAVar :=
  match visited with
  | none => (args.phiPlacement.getPhis b).map fun phi => ⟨phi.varName, 0, phi.varSize⟩
  | some ctx => phiDsts (args.phiPlacement.getPhis b) ⟨ctx, []⟩

/-- What a block holds, by the context it was entered in and by what was filled
in from each predecessor. -/
def blockOps (visited : Option RenameContext) (fill : Nat → Option RenameContext) (b : Nat) :
    List SSAOp :=
  phiRow (dstsOf args visited b) (args.phiPlacement.getPhis b) (sourcesOf fill (firstPreds args b))
    ++ ((visited.map (bodyOf args b)).getD [])

theorem dstsOf_length (visited : Option RenameContext) (b : Nat) :
    (dstsOf args visited b).length = (args.phiPlacement.getPhis b).length := by
  cases visited with
  | none => simp [dstsOf]
  | some ctx => exact phiDsts_length _ _

/-- The blocks hold what the visits and the filled edges say. -/
def Holds (nodes : Nat → Prop) (done : Nat → Option RenameContext)
    (fill : Nat → Nat → Option RenameContext) (blocks : SSABlocks) : Prop :=
  ∀ v, nodes v → blocks.lookup v = some (blockOps args (done v) (fun p => fill p v) v)

theorem enterBlock_blockOps (b : Nat) (ctx : RenameContext) (fill : Nat → Option RenameContext) :
    enterBlock args b ctx (blockOps args none fill b) =
      (blockOps args (some ctx) fill b, leave args b ctx) := by
  have phis := renamePhis_phiRow (sourcesOf fill (firstPreds args b))
    (fun phi => sourcesOf_length fill _ phi) (args.phiPlacement.getPhis b) []
    (dstsOf args none b) [] ⟨ctx, []⟩ (dstsOf_length args none b)
  rw [length_nil, nil_append, nil_append, append_nil, append_nil] at phis
  have entered : blockOps args none fill b =
      phiRow (dstsOf args none b) (args.phiPlacement.getPhis b)
        (sourcesOf fill (firstPreds args b)) := by
    simp [blockOps]
  rw [enterBlock, entered, phis]
  cases found : args.cfg.getBlock b with
  | none => simp [blockOps, bodyOf, bodyOps, leave, found, renameOps, dstsOf]
  | some block => simp [blockOps, bodyOf, bodyOps, leave, found, dstsOf]

private theorem fillPhiSources_holds
    {fill : Nat → Nat → Option RenameContext} {blocks : SSABlocks} (b : Nat) (ctx : RenameContext)
    (holds : Holds args nodes done fill blocks) {s : Nat} (node : nodes s) :
    ∃ blocks', fillPhiSources args b ctx blocks s = some blocks' ∧
      Holds args nodes done
        (fun p v => if p = b ∧ v = s then some ctx else fill p v) blocks' := by
  have unchanged : ∀ v, v ≠ s → (fun p => if p = b ∧ v = s then some ctx else fill p v) =
      fun p => fill p v := by
    intro v different
    simp [different]
  have updated : (fun p => if p = b ∧ s = s then some ctx else fill p s) =
      Function.update (fun p => fill p s) b (some ctx) := by
    funext p
    by_cases here : p = b
    · subst here
      simp
    · simp [here]
  unfold fillPhiSources
  cases phis : args.phiPlacement.getPhis s with
  | nil =>
    refine ⟨blocks, rfl, fun v nodeV => ?_⟩
    rw [holds v nodeV]
    by_cases here : v = s
    · subst here
      simp [blockOps, phiRow, phis]
    · rw [unchanged v here]
  | cons first rest =>
    have search : firstPreds args s = first.predecessors := by simp [firstPreds, phis]
    dsimp only
    cases position : first.predecessors.idxOf? b with
    | none =>
      refine ⟨blocks, rfl, fun v nodeV => ?_⟩
      rw [holds v nodeV]
      by_cases here : v = s
      · subst here
        have absent : b ∉ firstPreds args v := by
          rw [search]
          exact List.idxOf?_eq_none_iff.mp position
        rw [updated, blockOps, blockOps, sourcesOf_of_not_mem absent]
      · rw [unchanged v here]
    | some j =>
      rw [holds s node]
      refine ⟨_, rfl, fun v nodeV => ?_⟩
      by_cases here : v = s
      · subst here
        rw [AList.lookup_insert, updated, blockOps, blockOps, ← phis,
          fillSources_phiRow _ _ _ _ _ _ (dstsOf_length args (done v) v)]
        rw [← search] at position
        have each : (fun phi => if j < (sourcesOf (fun p => fill p v) (firstPreds args v)
            phi).length then
              (sourcesOf (fun p => fill p v) (firstPreds args v) phi).set j
                (ctx.readVar phi.varName)
            else sourcesOf (fun p => fill p v) (firstPreds args v) phi) =
            sourcesOf (Function.update (fun p => fill p v) b (some ctx))
              (firstPreds args v) := by
          funext phi
          exact sourcesOf_update position ctx phi
        rw [each]
      · rw [AList.lookup_insert_ne here, holds v nodeV, unchanged v here]

private theorem foldlM_fillPhiSources_holds (b : Nat) (ctx : RenameContext) (succs : List Nat) :
    ∀ {fill : Nat → Nat → Option RenameContext} {blocks : SSABlocks},
      Holds args nodes done fill blocks → (∀ s ∈ succs, nodes s) →
      ∃ blocks', succs.foldlM (fillPhiSources args b ctx) blocks = some blocks' ∧
        Holds args nodes done
          (fun p v => if p = b ∧ v ∈ succs then some ctx else fill p v) blocks' := by
  induction succs with
  | nil =>
    intro fill blocks holds _
    exact ⟨blocks, rfl, by simpa using holds⟩
  | cons s rest ih =>
    intro fill blocks holds inside
    obtain ⟨next, run, nextHolds⟩ := fillPhiSources_holds args b ctx holds (inside s mem_cons_self)
    obtain ⟨blocks', done, final⟩ := ih nextHolds fun v mem => inside v (mem_cons_of_mem _ mem)
    refine ⟨blocks', ?_, ?_⟩
    · rw [foldlM_cons, run]
      exact done
    · have merged : (fun p v => if p = b ∧ v ∈ rest then some ctx
          else if p = b ∧ v = s then some ctx else fill p v) =
          fun p v => if p = b ∧ v ∈ s :: rest then some ctx else fill p v := by
        funext p v
        by_cases here : p = b
        · by_cases first : v = s
          · simp [here, first]
          · simp [here, first]
        · simp [here]
      rw [← merged]
      exact final

theorem visitBlock_holds
    {fill : Nat → Nat → Option RenameContext} {blocks : SSABlocks} {b : Nat} (ctx : RenameContext)
    (holds : Holds args nodes done fill blocks) (node : nodes b) (unvisited : done b = none)
    (closed : ∀ s ∈ args.cfg.successors b, nodes s) :
    ∃ blocks', visitBlock args b ⟨ctx, blocks⟩ = some (blocks', leave args b ctx) ∧
      Holds args nodes (Function.update done b (some ctx))
        (fun p v => if p = b ∧ v ∈ args.cfg.successors b then some (leave args b ctx).ctx
          else fill p v) blocks' := by
  have entered : Holds args nodes (Function.update done b (some ctx)) fill
      (blocks.insert b (blockOps args (some ctx) (fun p => fill p b) b)) := by
    intro v nodeV
    by_cases here : v = b
    · subst here
      rw [AList.lookup_insert, Function.update_self]
    · rw [AList.lookup_insert_ne here, Function.update_of_ne here]
      exact holds v nodeV
  obtain ⟨blocks', run, final⟩ := foldlM_fillPhiSources_holds args b (leave args b ctx).ctx
    (args.cfg.successors b) entered closed
  refine ⟨blocks', ?_, final⟩
  rw [visitBlock]
  rw [holds b node, unvisited]
  simp only [Option.bind_eq_bind, Option.bind_some, enterBlock_blockOps]
  rw [run]
  rfl

end Contents

end R2Sleigh.Ssa
