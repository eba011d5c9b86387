import R2Sleigh.Ssa.RenameBlock

/-!
Contract: the recursion of renaming over the dominator tree.

Owns `Visited`.
-/

namespace R2Sleigh.Ssa

open Il Flow Lib List

/-- A visit: a block and the context it was entered in. -/
abbrev Visit := Nat × RenameContext

section Walk

variable (args : RenameArgs)

/-- The definitions of a block entered in `ctx`, phis first. -/
def defsAt (b : Nat) (ctx : RenameContext) : List (String × Nat) :=
  (phiDsts (args.phiPlacement.getPhis b) ⟨ctx, []⟩).map (fun var => (var.name, var.version)) ++
    defsOf (bodyOf args b ctx)

theorem phiState_defines (phis : List PhiInfo) :
    ∀ state : RenameState, Defines state
      ((phiDsts phis state).map fun var => (var.name, var.version)) (phiState phis state) := by
  induction phis with
  | nil => exact fun state => Defines.refl state
  | cons phi rest ih =>
    intro state
    exact (defines_define state phi.varName).trans (ih _)

theorem leave_defines (b : Nat) (ctx : RenameContext) :
    Defines ⟨ctx, []⟩ (defsAt args b ctx) (leave args b ctx) :=
  (phiState_defines _ _).trans (renameOps_spec _ _ _ _).1

abbrev Grows (sizes sizes' : HashMap String Nat) : Prop :=
  SizesGrow args.regNames (boundaryRegs args.callBoundaries) sizes sizes'

omit args in
theorem phiState_sizes (phis : List PhiInfo) :
    ∀ state : RenameState, (phiState phis state).ctx.sizes = state.ctx.sizes := by
  induction phis with
  | nil => exact fun _ => rfl
  | cons phi rest ih =>
    exact fun state => ih (state.define phi.varName).2

theorem leave_sizes (b : Nat) (ctx : RenameContext) :
    Grows args ctx.sizes (leave args b ctx).ctx.sizes := by
  have body := renameOps_sizes args.regNames args.callBoundaries (bodyOps args b)
    (phiState (args.phiPlacement.getPhis b) ⟨ctx, []⟩)
  rw [phiState_sizes] at body
  exact body

private theorem sizes_foldl_popVersion (names : List String) (ctx : RenameContext) :
    (names.foldl RenameContext.popVersion ctx).sizes = ctx.sizes :=
  foldl_kept (·.sizes) (fun _ _ _ => RenameContext.sizes_popVersion ..) ctx

/-- The context each block was entered in. -/
def doneOf (log : List Visit) (v : Nat) : Option RenameContext := log.lookup v

/-- The versions filled in along an edge. -/
def fillOf (log : List Visit) (p v : Nat) : Option RenameContext :=
  if v ∈ args.cfg.successors p then (doneOf log p).map fun ctx => (leave args p ctx).ctx else none

theorem doneOf_of_mem {log : List Visit} (nodup : (log.map Prod.fst).Nodup) {v : Nat}
    {ctx : RenameContext} (member : (v, ctx) ∈ log) : doneOf log v = some ctx := by
  unfold doneOf
  induction log with
  | nil => simp at member
  | cons entry rest ih =>
    rw [map_cons, nodup_cons] at nodup
    rcases mem_cons.mp member with rfl | member
    · exact lookup_cons_self
    · have different : v ≠ entry.1 := by
        rintro rfl
        exact nodup.1 (mem_map.mpr ⟨_, member, rfl⟩)
      rw [lookup_cons, beq_eq_false_iff_ne.mpr different]
      exact ih nodup.2 member

theorem doneOf_eq_none {log : List Visit} {v : Nat} (absent : v ∉ log.map Prod.fst) :
    doneOf log v = none := by
  rw [doneOf, lookup_eq_none_iff]
  intro entry member
  rw [bne_iff_ne]
  rintro rfl
  exact absent (mem_map_of_mem member)

theorem doneOf_append_singleton {log : List Visit} {b : Nat} (absent : b ∉ log.map Prod.fst)
    (ctx : RenameContext) :
    doneOf (log ++ [(b, ctx)]) = Function.update (doneOf log) b (some ctx) := by
  funext v
  rw [doneOf, lookup_append]
  by_cases here : v = b
  · subst here
    have before : log.lookup v = none := doneOf_eq_none absent
    simp [before]
  · rw [Function.update_of_ne here, lookup_cons, beq_eq_false_iff_ne.mpr here]
    simp [doneOf]

def HoldsLog (log : List Visit) (blocks : SSABlocks) : Prop :=
  Holds args args.cfg.flow.Reach (doneOf log) (fillOf args log) blocks

private theorem visitBlock_holdsLog (consistent : args.cfg.Consistent) {log : List Visit}
    {blocks : SSABlocks} {b : Nat} (ctx : RenameContext) (holds : HoldsLog args log blocks)
    (reach : args.cfg.flow.Reach b) (unvisited : b ∉ log.map Prod.fst) :
    ∃ blocks', visitBlock args b ⟨ctx, blocks⟩ = some (blocks', leave args b ctx) ∧
      HoldsLog args (log ++ [(b, ctx)]) blocks' := by
  have none := doneOf_eq_none unvisited
  obtain ⟨blocks', run, final⟩ := visitBlock_holds args ctx holds reach none
    fun s member => reach.step (consistent.mem_successors.mp member)
  refine ⟨blocks', run, ?_⟩
  have filled : fillOf args (log ++ [(b, ctx)]) = fun p v =>
      if p = b ∧ v ∈ args.cfg.successors b then some (leave args b ctx).ctx
      else fillOf args log p v := by
    funext p v
    rw [fillOf, doneOf_append_singleton unvisited]
    by_cases here : p = b
    · subst here
      by_cases edge : v ∈ args.cfg.successors p
      · simp [edge]
      · simp [edge, fillOf]
    · simp [here, fillOf]
  unfold HoldsLog
  rw [doneOf_append_singleton unvisited, filled]
  exact final

/-! ## Subtrees -/

/-- What the recursion does below a list of siblings: `new` are the visits. The
siblings are entered with the stacks of `ctx`, every other block with those its
parent was left with. -/
structure Visited (nodes : List Nat) (ctx : RenameContext) (new : List Visit)
    (ctx' : RenameContext) : Prop where
  mem : ∀ v, v ∈ new.map Prod.fst ↔ args.cfg.flow.Reach v ∧ ∃ c ∈ nodes, args.cfg.flow.Dom c v
  nodup : (new.map Prod.fst).Nodup
  parent : ∀ v c, (v, c) ∈ new → (v ∈ nodes ∧ SameStacks ctx c) ∨
    ∃ d cd, args.domtree.idom v = some d ∧ (d, cd) ∈ new ∧ SameStacks (leave args d cd).ctx c
  fresh : Fresh ctx.counter (new.flatMap fun visit => defsAt args visit.1 visit.2) ctx'.counter
  same : SameStacks ctx ctx'
  sizes : ∀ v c, (v, c) ∈ new → Grows args ctx.sizes c.sizes
  sizesEnd : Grows args ctx.sizes ctx'.sizes

theorem Visited.nil (ctx : RenameContext) : Visited args [] ctx [] ctx :=
  ⟨by simp, by simp, by simp, Fresh.refl _, SameStacks.refl _, by simp, .refl _⟩

theorem Visited.append {c : Nat} {rest : List Nat} {ctx ctx' ctx'' : RenameContext}
    {new new' : List Visit} (first : Visited args [c] ctx new ctx')
    (second : Visited args rest ctx' new' ctx'')
    (disjoint : ∀ v, args.cfg.flow.Reach v → args.cfg.flow.Dom c v →
      ∀ c' ∈ rest, ¬ args.cfg.flow.Dom c' v) :
    Visited args (c :: rest) ctx (new ++ new') ctx'' := by
  refine ⟨fun v => ?_, ?_, ?_, ?_, first.same.trans second.same, ?_,
    first.sizesEnd.trans second.sizesEnd⟩
  · rw [map_append, mem_append, first.mem, second.mem]
    simp only [mem_cons, not_mem_nil, or_false, exists_eq_left, exists_eq_or_imp]
    tauto
  · rw [map_append, nodup_append]
    refine ⟨first.nodup, second.nodup, ?_⟩
    rintro v inFirst _ inSecond rfl
    obtain ⟨reach, c', member, dom⟩ := (first.mem v).mp inFirst
    rw [mem_singleton] at member
    subst member
    obtain ⟨_, c', member, dom'⟩ := (second.mem v).mp inSecond
    exact disjoint v reach dom c' member dom'
  · intro v entered member
    rcases mem_append.mp member with inFirst | inSecond
    · rcases first.parent v entered inFirst with ⟨isChild, same⟩ | ⟨d, cd, parent, inside, same⟩
      · rw [mem_singleton] at isChild
        exact .inl ⟨by simp [isChild], same⟩
      · exact .inr ⟨d, cd, parent, mem_append_left _ inside, same⟩
    · rcases second.parent v entered inSecond with ⟨isChild, same⟩ | ⟨d, cd, parent, inside, same⟩
      · exact .inl ⟨mem_cons_of_mem _ isChild, first.same.trans same⟩
      · exact .inr ⟨d, cd, parent, mem_append_right _ inside, same⟩
  · rw [flatMap_append]
    exact first.fresh.trans second.fresh
  · intro v entered member
    rcases mem_append.mp member with inFirst | inSecond
    · exact first.sizes v entered inFirst
    · exact first.sizesEnd.trans (second.sizes v entered inSecond)

variable (spec : DomTree.IsTree args.cfg args.domtree)
include spec

/-- A block with its subtree, from the visits to its children. -/
theorem Visited.node {b : Nat} {ctx ctx' : RenameContext} {new : List Visit}
    (reach : args.cfg.flow.Reach b)
    (below : Visited args (args.domtree.children b) (leave args b ctx).ctx new ctx') :
    Visited args [b] ctx ((b, ctx) :: new)
      ((leave args b ctx).definedVars.foldl RenameContext.popVersion ctx') := by
  have defines := leave_defines args b ctx
  have names : (leave args b ctx).definedVars = (defsAt args b ctx).map Prod.fst := by
    simpa using defines.names
  have childOf : ∀ c ∈ args.domtree.children b, args.domtree.idom c = some b :=
    fun c member => spec.mem_children.mp member
  refine ⟨fun v => ?_, ?_, ?_, ?_, ?_, ?_, ?_⟩
  · rw [map_cons, mem_cons, below.mem]
    simp only [mem_singleton, exists_eq_left]
    constructor
    · rintro (rfl | ⟨reachV, c, member, dom⟩)
      · exact ⟨reach, Graph.Dom.refl v⟩
      · exact ⟨reachV, (spec.isIdom (childOf c member)).sdom.1.trans dom⟩
    · rintro ⟨reachV, dom⟩
      by_cases here : v = b
      · exact .inl here
      · obtain ⟨c, child, domC⟩ := spec.exists_child_of_sdom reachV ⟨dom, Ne.symm here⟩
        exact .inr ⟨reachV, c, spec.mem_children.mpr child, domC⟩
  · rw [map_cons, nodup_cons]
    refine ⟨fun inside => ?_, below.nodup⟩
    obtain ⟨_, c, member, dom⟩ := (below.mem b).mp inside
    exact spec.not_dom_parent (childOf c member) dom
  · intro v entered member
    rcases mem_cons.mp member with same | inside
    · obtain ⟨rfl, rfl⟩ := same
      exact .inl ⟨by simp, SameStacks.refl _⟩
    · right
      rcases below.parent v entered inside with ⟨isChild, same⟩ | ⟨d, cd, parent, inNew, same⟩
      · exact ⟨b, ctx, childOf v isChild, by simp, same⟩
      · exact ⟨d, cd, parent, mem_cons_of_mem _ inNew, same⟩
  · have counters : ((leave args b ctx).definedVars.foldl RenameContext.popVersion ctx').counter =
        ctx'.counter := by
      funext x
      exact counter_foldl_popVersion _ _ _
    rw [counters]
    exact defines.fresh.trans below.fresh
  · rw [names]
    have pushed : Pushed ctx ((defsAt args b ctx).map Prod.fst) ctx' := by
      simpa using defines.pushed.trans (Pushed.of_sameStacks below.same)
    exact pushed.pop
  · intro v entered member
    rcases mem_cons.mp member with same | inside
    · rw [Prod.mk.injEq] at same
      rw [same.2]
      exact .refl _
    · exact (leave_sizes args b ctx).trans (below.sizes v entered inside)
  · rw [sizes_foldl_popVersion]
    exact (leave_sizes args b ctx).trans below.sizesEnd

/-- The recursion returns with the visits of the subtree. -/
theorem renameBlock_spec (consistent : args.cfg.Consistent) (fuel : Nat) :
    ∀ (b : Nat) (ctx : RenameContext) (blocks : SSABlocks) (log : List Visit),
      args.cfg.flow.Reach b →
      args.cfg.reversePostorder.length < DomTree.rpoIndex args.cfg.reversePostorder b + fuel →
      HoldsLog args log blocks →
      (∀ v, args.cfg.flow.Reach v → args.cfg.flow.Dom b v → v ∉ log.map Prod.fst) →
      ∃ final new, renameBlock args fuel ⟨ctx, blocks⟩ b = some final ∧
        HoldsLog args (log ++ new) final.blocks ∧ Visited args [b] ctx new final.ctx := by
  induction fuel with
  | zero =>
    intro b _ _ _ reach enough
    have := DomTree.rank_lt_length spec.order reach
    omega
  | succ fuel ih =>
    intro b ctx blocks log reach enough holds unvisited
    obtain ⟨blocks', visit, holds'⟩ := visitBlock_holdsLog args consistent ctx holds
      reach (unvisited b reach (Graph.Dom.refl b))
    -- the children in turn, each with the stacks the block was left with
    have loop : ∀ (children : List Nat) (ctx : RenameContext) (blocks : SSABlocks)
        (log : List Visit), children.Nodup →
        (∀ c ∈ children, args.domtree.idom c = some b) → HoldsLog args log blocks →
        (∀ c ∈ children, ∀ v, args.cfg.flow.Reach v → args.cfg.flow.Dom c v →
          v ∉ log.map Prod.fst) →
        ∃ final new, children.foldlM (renameBlock args fuel) ⟨ctx, blocks⟩ = some final ∧
          HoldsLog args (log ++ new) final.blocks ∧
          Visited args children ctx new final.ctx := by
      intro children
      induction children with
      | nil =>
        intro ctx blocks log _ _ holds _
        exact ⟨⟨ctx, blocks⟩, [], rfl, by simpa using holds, Visited.nil args ctx⟩
      | cons c rest restHypothesis =>
        intro ctx blocks log nodup childOf holds unvisited
        rw [nodup_cons] at nodup
        have child := childOf c mem_cons_self
        have disjoint : ∀ v, args.cfg.flow.Reach v → args.cfg.flow.Dom c v →
            ∀ c' ∈ rest, ¬ args.cfg.flow.Dom c' v := by
          intro v reachV dom c' member dom'
          have same := spec.child_unique reachV child
            (childOf c' (mem_cons_of_mem _ member)) dom dom'
          exact nodup.1 (same ▸ member)
        obtain ⟨next, new, run, holdsNext, visited⟩ := ih c ctx blocks log
          (spec.reach_of_idom child).1 (by have := spec.rank_lt child; omega) holds
          (unvisited c mem_cons_self)
        obtain ⟨final, new', run', holdsFinal, visited'⟩ := restHypothesis next.ctx next.blocks
          (log ++ new) nodup.2 (fun c' member => childOf c' (mem_cons_of_mem _ member))
          holdsNext (by
            intro c' member v reachV dom inside
            rw [map_append, mem_append] at inside
            rcases inside with inLog | inNew
            · exact unvisited c' (mem_cons_of_mem _ member) v reachV dom inLog
            · obtain ⟨_, c'', isC, domC⟩ := (visited.mem v).mp inNew
              rw [mem_singleton] at isC
              exact disjoint v reachV (isC ▸ domC) c' member dom)
        refine ⟨final, new ++ new', ?_, ?_, visited.append args visited' disjoint⟩
        · rw [foldlM_cons, run]
          exact run'
        · rw [← append_assoc]
          exact holdsFinal
    obtain ⟨final, new, run, holdsFinal, below⟩ := loop (args.domtree.children b)
      (leave args b ctx).ctx blocks' (log ++ [(b, ctx)]) (spec.children_nodup b)
      (fun c member => spec.mem_children.mp member) holds' (by
        intro c member v reachV dom inside
        have child := spec.mem_children.mp member
        rw [map_append, mem_append] at inside
        rcases inside with inLog | here
        · exact unvisited v reachV ((spec.isIdom child).sdom.1.trans dom) inLog
        · rw [map_singleton, mem_singleton] at here
          subst here
          exact spec.not_dom_parent child dom)
    refine ⟨⟨(leave args b ctx).definedVars.foldl RenameContext.popVersion final.ctx,
      final.blocks⟩, (b, ctx) :: new, ?_, ?_, below.node args spec reach⟩
    · rw [renameBlock, visit]
      simp only [Option.bind_eq_bind, Option.bind_some, run]
    · simpa using holdsFinal

end Walk

end R2Sleigh.Ssa
