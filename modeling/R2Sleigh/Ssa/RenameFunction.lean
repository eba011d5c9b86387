import R2Sleigh.Ssa.RenameWalk

/-!
Contract: the renamed function as a whole.

Owns `Renamed`.
-/

namespace R2Sleigh.Ssa

open Il Flow Lib List

/-! ## The initial state -/

/-- Nothing was defined yet: a stack holds version 0 or does not exist. -/
structure Initial (ctx : RenameContext) : Prop where
  counter : ∀ x, ctx.counter x = 0
  stored : ∀ x, ctx.versionStacks.lookup x = none ∨ ctx.versionStacks.lookup x = some [0]

theorem Initial.currentVersion {ctx : RenameContext} (initial : Initial ctx) (x : String) :
    ctx.currentVersion x = 0 := by
  unfold RenameContext.currentVersion RenameContext.stack HashMap.listAt
  rcases initial.stored x with absent | zero
  · rw [absent]
    rfl
  · rw [zero]
    rfl

theorem Initial.initVar {ctx : RenameContext} (initial : Initial ctx) (x : String) (size : Nat) :
    Initial (ctx.initVar x size) := by
  refine ⟨fun y => ?_, fun y => ?_⟩
  · rw [RenameContext.counter_initVar]
    exact initial.counter y
  · unfold RenameContext.initVar
    by_cases known : x ∈ ctx.versionStacks
    · simpa [known] using initial.stored y
    · by_cases here : y = x
      · subst here
        simp [known]
      · simpa [known, AList.lookup_insert_ne here] using initial.stored y

theorem Initial.foldl_initVar {A : Type} (name : A → String) (size : A → Nat) (items : List A) :
    ∀ {ctx : RenameContext}, Initial ctx →
      Initial (items.foldl (fun ctx item => ctx.initVar (name item) (size item)) ctx) := by
  induction items with
  | nil => exact fun initial => initial
  | cons item rest ih =>
    intro ctx initial
    exact ih (initial.initVar (name item) (size item))

theorem initialContext_initial (phiPlacement : PhiPlacement) (varSizes : HashMap String Nat) :
    Initial (initialContext phiPlacement varSizes) := by
  have new : Initial RenameContext.new := ⟨fun _ => rfl, fun _ => .inl rfl⟩
  have withVars := Initial.foldl_initVar (fun entry : (_ : String) × Nat => entry.1)
    (fun entry => entry.2) (varSizes.entries.insertionSort fun lhs rhs => lhs.1 ≤ rhs.1) new
  unfold initialContext
  generalize (varSizes.entries.insertionSort fun lhs rhs => lhs.1 ≤ rhs.1).foldl
    (fun ctx entry => ctx.initVar entry.1 entry.2) RenameContext.new = ctx at withVars ⊢
  induction phiPlacement.phis.keys.insertionSort (· ≤ ·) generalizing ctx with
  | nil => exact withVars
  | cons addr rest ih =>
    exact ih _ (Initial.foldl_initVar PhiInfo.varName PhiInfo.varSize
      (phiPlacement.getPhis addr) withVars)

private theorem lookup_initialBlocks (phiPlacement : PhiPlacement) (order : List Nat) :
    ∀ (blocks : SSABlocks) (v : Nat),
      (order.foldl (fun blocks addr =>
        blocks.insert addr ((phiPlacement.getPhis addr).map placeholder)) blocks).lookup v =
      if v ∈ order then some ((phiPlacement.getPhis v).map placeholder) else blocks.lookup v := by
  induction order with
  | nil => simp
  | cons addr rest ih =>
    intro blocks v
    rw [foldl_cons, ih]
    by_cases inRest : v ∈ rest
    · simp [inRest]
    · by_cases here : v = addr
      · subst here
        simp [inRest]
      · simp [inRest, here, AList.lookup_insert_ne here]

section Function

variable (args : RenameArgs)

theorem initialBlocks_holds (order : IsReversePostorder args.cfg.flow args.cfg.reversePostorder) :
    HoldsLog args [] (initialBlocks args.phiPlacement args.cfg.reversePostorder) := by
  intro v reach
  rw [initialBlocks, lookup_initialBlocks, if_pos ((order.mem_iff v).mpr reach)]
  have noFill : (fun p => fillOf args [] p v) = fun _ => none := by
    simp [fillOf, doneOf]
  have row : ∀ phis : List PhiInfo, phis.map placeholder =
      phiRow (phis.map fun phi => ⟨phi.varName, 0, phi.varSize⟩) phis
        (sourcesOf (fun _ => none) (firstPreds args v)) := by
    intro phis
    induction phis with
    | nil => rfl
    | cons phi rest ih =>
      rw [map_cons, ih]
      simp [phiRow, placeholder, sourcesOf_none]
  rw [noFill, row]
  simp [blockOps, dstsOf, doneOf]

/-- What filling leaves in the phis of `v`, once every block was visited. -/
noncomputable def filledAt (entered : Nat → RenameContext) (v p : Nat) : Option RenameContext :=
  open Classical in
  if v ∈ args.cfg.successors p ∧ args.cfg.flow.Reach p then
    some (leave args p (entered p)).ctx
  else none

/-- A renamed function: `entered` is the context each block was entered in. -/
structure Renamed (init : RenameContext) (renamed : RenamedFunction) (final : RenameContext)
    (entered : Nat → RenameContext) : Prop where
  blockOrder : renamed.blockOrder = args.cfg.reversePostorder
  entry : renamed.entry = args.cfg.entry
  block : ∀ v, args.cfg.flow.Reach v → renamed.blocks.lookup v =
    some (blockOps args (some (entered v)) (filledAt args entered v) v)
  root : SameStacks init (entered args.cfg.entry)
  parent : ∀ v d, args.domtree.idom v = some d →
    SameStacks (leave args d (entered d)).ctx (entered v)
  fresh : ∃ visits : List Nat, visits.Nodup ∧ (∀ v, v ∈ visits ↔ args.cfg.flow.Reach v) ∧
    Fresh init.counter (visits.flatMap fun v => defsAt args v (entered v)) final.counter
  same : SameStacks init final
  sizes : ∀ v, args.cfg.flow.Reach v → Grows args init.sizes (entered v).sizes

/-- The walk over the dominator tree returns, with every block renamed. -/
theorem renameFunction_spec (consistent : args.cfg.Consistent)
    (spec : DomTree.IsTree args.cfg args.domtree) (varSizes : HashMap String Nat) :
    ∃ renamed final entered,
      renameFunctionWithNamesAndCallBoundaries args varSizes = some (renamed, final) ∧
      Renamed args (initialContext args.phiPlacement varSizes) renamed final entered := by
  obtain ⟨final, visits, run, holds, visited⟩ := renameBlock_spec args spec consistent
    (args.domtree.idomMap.keys.length + 1) args.cfg.entry
    (initialContext args.phiPlacement varSizes)
    (initialBlocks args.phiPlacement args.cfg.reversePostorder) [] Graph.Reach.root
    (by rw [spec.keys_length]; omega) (initialBlocks_holds args spec.order) (by simp)
  rw [nil_append] at holds
  have members : ∀ v, v ∈ visits.map Prod.fst ↔ args.cfg.flow.Reach v := by
    intro v
    rw [visited.mem]
    refine ⟨fun inside => inside.1, fun reach => ⟨reach, _, mem_singleton.mpr rfl, ?_⟩⟩
    exact Graph.Dom.root v
  let entered : Nat → RenameContext := fun v => (doneOf visits v).getD RenameContext.new
  have enteredOf : ∀ v c, (v, c) ∈ visits → entered v = c := by
    intro v c mem
    simp only [entered, doneOf_of_mem visited.nodup mem, Option.getD_some]
  have done : ∀ v, args.cfg.flow.Reach v → doneOf visits v = some (entered v) := by
    intro v reach
    obtain ⟨⟨_, c⟩, mem, rfl⟩ := mem_map.mp ((members v).mpr reach)
    rw [doneOf_of_mem visited.nodup mem, enteredOf _ _ mem]
  refine ⟨⟨final.blocks, args.cfg.reversePostorder, args.cfg.entry⟩, final.ctx, entered, ?_,
    rfl, rfl, ?_, ?_, ?_, ?_, visited.same, ?_⟩
  · rw [renameFunctionWithNamesAndCallBoundaries, run]
    rfl
  · intro v reach
    have filled : (fun p => fillOf args visits p v) = filledAt args entered v := by
      funext p
      by_cases edge : v ∈ args.cfg.successors p
      · by_cases reachP : args.cfg.flow.Reach p
        · simp [fillOf, filledAt, edge, reachP, done p reachP]
        · have unvisited : doneOf visits p = none :=
            doneOf_eq_none fun inside => reachP ((members p).mp inside)
          simp [fillOf, filledAt, edge, reachP, unvisited]
      · simp [fillOf, filledAt, edge]
    have content := holds v reach
    rw [done v reach, filled] at content
    exact content
  · obtain ⟨⟨v, c⟩, mem, isEntry⟩ := mem_map.mp ((members _).mpr Graph.Reach.root)
    obtain rfl : v = args.cfg.entry := isEntry
    rw [enteredOf _ _ mem]
    rcases visited.parent _ c mem with ⟨_, same⟩ | ⟨d, cd, parent, _⟩
    · exact same
    · rw [spec.idom_entry] at parent
      exact absurd parent (by simp)
  · intro v d parent
    obtain ⟨⟨_, c⟩, mem, rfl⟩ := mem_map.mp ((members v).mpr (spec.reach_of_idom parent).1)
    rw [enteredOf _ _ mem]
    rcases visited.parent _ c mem with ⟨isEntry, _⟩ | ⟨d', cd, parent', memberD, same⟩
    · rw [mem_singleton] at isEntry
      rw [isEntry, spec.idom_entry] at parent
      exact absurd parent (by simp)
    · rw [parent, Option.some.injEq] at parent'
      subst parent'
      rw [enteredOf _ _ memberD]
      exact same
  · refine ⟨visits.map Prod.fst, visited.nodup, members, ?_⟩
    have defs : (visits.map Prod.fst).flatMap (fun v => defsAt args v (entered v)) =
        visits.flatMap fun visit => defsAt args visit.1 visit.2 := by
      rw [flatMap_map]
      refine flatMap_congr fun visit mem => ?_
      rw [enteredOf visit.1 visit.2 mem]
    rw [defs]
    exact visited.fresh
  · intro v reach
    obtain ⟨⟨_, c⟩, mem, rfl⟩ := mem_map.mp ((members v).mpr reach)
    rw [enteredOf _ _ mem]
    exact visited.sizes _ c mem

end Function

end R2Sleigh.Ssa
