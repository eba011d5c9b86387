import R2Sleigh.Ssa.DomTreeCorrect

/-!
Contract: the dominance frontiers of a computed tree, and the end of the whole
computation.

The frontier agrees with Cytron's at every block but the entry: a walk towards
the entry stops before it, and a single back edge starts no walk at all.
-/

namespace R2Sleigh.Ssa.DomTree

open Il Flow Lib List Option CFG

variable {up : Nat → Option Nat} {stop runner x y : Nat} {cfg : CFG}

/-! ## The runner walk -/

/-- The blocks that a walk from `runner` passes before it meets `stop`. -/
inductive Passes (up : Nat → Option Nat) (stop : Nat) : Nat → Nat → Prop
  | here {runner : Nat} : runner ≠ stop → Passes up stop runner runner
  | up {runner parent x : Nat} : runner ≠ stop → up runner = some parent → parent ≠ runner →
      Passes up stop parent x → Passes up stop runner x

theorem Passes.climbs (passes : Passes up stop runner x) : Climbs up runner x := by
  induction passes with
  | here _ => exact .here _
  | up _ found _ _ ih => exact .up found ih

theorem Passes.not_stop (passes : Passes up stop runner x) : x ≠ stop ∧ runner ≠ stop := by
  induction passes with
  | here notStop => exact ⟨notStop, notStop⟩
  | up notStop _ _ _ ih => exact ⟨ih.1, notStop⟩

private theorem passes_iff_of_stop : ¬ Passes up stop stop x := fun passes => passes.not_stop.2 rfl

section Walk

variable {cfg : CFG} {tree : DomTree} (spec : IsTree cfg tree)
include spec

private theorem walkFrontier_spec (addr stop fuel : Nat) :
    ∀ runner frontier,
      (cfg.flow.Reach runner → rpoIndex cfg.reversePostorder runner < fuel) → 0 < fuel →
      ∃ frontier', walkFrontier tree.idomMap addr stop fuel runner frontier = some frontier' ∧
        HashMap.Accumulates frontier frontier' fun x y =>
          Passes (parents tree.idomMap) stop runner x ∧ y = addr := by
  induction fuel with
  | zero => exact fun _ _ _ positive => absurd positive (Nat.lt_irrefl 0)
  | succ fuel ih =>
    intro runner frontier enough _
    rw [walkFrontier]
    by_cases stopped : runner = stop
    · subst stopped
      rw [if_pos rfl]
      simpa [passes_iff_of_stop] using HashMap.Accumulates.refl frontier
    rw [if_neg stopped]
    have entered := HashMap.Accumulates.insertAt frontier runner addr
    -- where the walk ends at once, only the runner is passed
    have last : (∀ parent, tree.idomMap.lookup runner = some parent → parent = runner) →
        HashMap.Accumulates frontier (frontier.insertAt runner addr) fun x y =>
          Passes (parents tree.idomMap) stop runner x ∧ y = addr := by
      intro top
      have only : ∀ x, Passes (parents tree.idomMap) stop runner x ↔ x = runner := by
        intro x
        constructor
        · intro passes
          cases passes with
          | here _ => rfl
          | up _ found different _ => exact absurd (top _ found) different
        · rintro rfl
          exact .here stopped
      simpa [only] using entered
    cases found : tree.idomMap.lookup runner with
    | none => exact ⟨_, rfl, last fun parent found' => by rw [found] at found'; cases found'⟩
    | some parent =>
      dsimp only
      by_cases self : parent = runner
      · rw [if_pos self]
        refine ⟨_, rfl, last fun parent' found' => ?_⟩
        rw [found, Option.some.injEq] at found'
        rw [← found', self]
      rw [if_neg self]
      have parentOf : tree.idom runner = some parent := by
        simp [idom, found, self]
      have smaller := spec.rank_lt parentOf
      have bound := enough (spec.reach_of_lookup found)
      obtain ⟨frontier', run, rest⟩ := ih parent
        (frontier.insertAt runner addr) (fun _ => by omega) (by omega)
      refine ⟨frontier', run, entered.trans rest fun x y => ?_⟩
      constructor
      · rintro ⟨passes, rfl⟩
        cases passes with
        | here _ => exact .inl ⟨rfl, rfl⟩
        | up _ found' _ passes =>
          rw [show parents tree.idomMap runner = some parent from found,
            Option.some.injEq] at found'
          subst found'
          exact .inr ⟨passes, rfl⟩
      · rintro (⟨rfl, rfl⟩ | ⟨passes, rfl⟩)
        · exact ⟨.here stopped, rfl⟩
        · exact ⟨.up stopped found self passes, rfl⟩

/-- From a reachable runner below `stop`, the walk passes the dominators of the
runner strictly below `stop`. -/
theorem passes_iff (reach : cfg.flow.Reach runner) (below : cfg.flow.Dom stop runner) :
    Passes (parents tree.idomMap) stop runner x ↔
      cfg.flow.Dom x runner ∧ cfg.flow.SDom stop x := by
  constructor
  · intro passes
    have dom := (spec.exact x runner reach).mp passes.climbs
    refine ⟨dom, ?_, Ne.symm passes.not_stop.1⟩
    -- a walk that passed `x` had `stop` still ahead
    induction passes with
    | here _ => exact below
    | up notStop found different passes ih =>
      rename_i runner parent x
      have parentOf : tree.idom runner = some parent := by
        simp [idom, show tree.idomMap.lookup runner = some parent from found, different]
      have reachParent := (spec.reach_of_idom parentOf).2
      exact ih reachParent
        ((spec.isIdom parentOf).closest stop ⟨below, Ne.symm notStop⟩)
        ((spec.exact _ _ reachParent).mp passes.climbs)
  · rintro ⟨dom, sdom⟩
    have climbs := (spec.exact x runner reach).mpr dom
    induction climbs with
    | here b => exact .here (Ne.symm sdom.2)
    | up found climbs ih =>
      rename_i runner parent x
      have reachParent : cfg.flow.Reach parent := by
        obtain ⟨d, found'⟩ := isSome_iff_exists.mp (spec.approx.parent _ _ found)
        exact spec.approx.reach _ _ found'
      have domParent := (spec.exact x parent reachParent).mp climbs
      by_cases self : parent = runner
      · subst self
        exact ih reach below dom sdom
      have parentOf : tree.idom runner = some parent := by
        simp [idom, show tree.idomMap.lookup runner = some parent from found, self]
      have notStop : runner ≠ stop := by
        rintro rfl
        exact sdom.2 (Graph.Dom.antisymm reach sdom.1 dom)
      exact .up notStop found self (ih reachParent
        ((spec.isIdom parentOf).closest stop ⟨below, Ne.symm notStop⟩) domParent sdom)

/-! ## All walks -/

omit spec in
/-- Where the walks for a block stop: its parent, itself if it has none. -/
def stopOf (tree : DomTree) (y : Nat) : Nat := (tree.idomMap.lookup y).getD y

omit spec in
/-- The frontier as the walks leave it: `y` is entered at `x`. -/
def Walked (cfg : CFG) (tree : DomTree) (x y : Nat) : Prop :=
  y ∈ cfg.blockAddrs ∧ 2 ≤ (cfg.predecessors y).length ∧
    ∃ p ∈ cfg.predecessors y, Passes (parents tree.idomMap) (tree.stopOf y) p x

omit spec in
private theorem listAt_emptyFrontiers (addrs : List Nat) :
    ∀ (m : HashMap Nat (List Nat)), (∀ x, m.listAt x = []) →
      ∀ x, HashMap.listAt (addrs.foldl (fun frontier addr => frontier.insert addr []) m) x = [] := by
  induction addrs with
  | nil => exact fun _ empty => empty
  | cons addr rest ih =>
    intro m empty
    rw [foldl_cons]
    refine ih _ fun x => ?_
    by_cases here : x = addr
    · subst here
      simp [HashMap.listAt]
    · have before := empty x
      simpa [HashMap.listAt, AList.lookup_insert_ne here] using before

private theorem computeFrontiers_spec :
    ∃ frontier, computeFrontiers cfg tree.idomMap = some frontier ∧
      (∀ x y, y ∈ frontier.listAt x ↔ Walked cfg tree x y) ∧
      ∀ x, (frontier.listAt x).Nodup := by
  have block : ∀ y ∈ cfg.blockAddrs, ∀ frontier, ∃ frontier',
      blockFrontier cfg tree.idomMap frontier y = some frontier' ∧
      HashMap.Accumulates frontier frontier' fun x y' =>
        (2 ≤ (cfg.predecessors y).length ∧
          ∃ p ∈ cfg.predecessors y, Passes (parents tree.idomMap) (tree.stopOf y) p x) ∧
        y' = y := by
    intro y _ frontier
    rw [blockFrontier]
    by_cases join : 2 ≤ (cfg.predecessors y).length
    · obtain ⟨frontier', run, added⟩ := HashMap.Accumulates.foldlM
        (cfg.predecessors y) (fun p _ frontier => walkFrontier_spec spec y (tree.stopOf y)
          (tree.idomMap.keys.length + 2) p frontier (fun reach => by
            rw [spec.keys_length]
            have := rank_lt_length spec.order reach
            omega) (by omega)) frontier
      refine ⟨frontier', ?_, ?_⟩
      · rw [if_pos join]
        exact run
      · refine ⟨fun x y' => ?_, added.nodup⟩
        rw [added.mem]
        grind
    · simpa [join] using HashMap.Accumulates.refl frontier
  obtain ⟨frontier, run, added⟩ := HashMap.Accumulates.foldlM cfg.blockAddrs block
    (cfg.blockAddrs.foldl (fun frontier addr => frontier.insert addr []) ∅)
  have start := listAt_emptyFrontiers cfg.blockAddrs ∅ fun _ => rfl
  refine ⟨frontier, run, fun x y => ?_, added.nodup fun x => by rw [start]; exact nodup_nil⟩
  rw [added.mem, start]
  simp only [not_mem_nil, false_or, Walked]
  grind

end Walk

/-- A tree as `compute` leaves it. -/
structure Computed (cfg : CFG) (tree : DomTree) : Prop extends IsTree cfg tree where
  mem_listAt : ∀ x y, y ∈ tree.frontierMap.listAt x ↔ Walked cfg tree x y
  nodup_listAt : ∀ x, (tree.frontierMap.listAt x).Nodup

/-- The loops end, and what they compute is the tree with its frontiers. -/
theorem computeLoops_spec (consistent : cfg.Consistent) (present : cfg.entry ∈ cfg.addrToNode) :
    ∃ tree, computeLoops cfg = some tree ∧ Computed cfg tree := by
  have order := consistent.isReversePostorder present
  obtain ⟨final, computed, swept⟩ := computeIdom_spec consistent present
  have nonempty : cfg.reversePostorder.isEmpty = false := by
    rw [eq_root_cons order]
    rfl
  -- the tree without frontiers and depths is enough for the last two loops
  have partialTree : ∀ frontier depths, IsTree cfg
      ⟨cfg.entry, final, buildChildren final, frontier, depths⟩ := fun _ _ =>
    ⟨rfl, swept.approx, swept.total, fun a b reach => swept.exact order reach, order, rfl⟩
  obtain ⟨depths, deep⟩ := (partialTree ∅ ∅).computeDepths_isSome
    (AList.keys final).length.succ cfg.entry 0 ∅ Graph.Reach.root (by
      have keys := (partialTree ∅ ∅).keys_length
      rw [keys]
      omega)
  obtain ⟨frontier, walked, members, nodup⟩ := computeFrontiers_spec (partialTree ∅ ∅)
  refine ⟨⟨cfg.entry, final, buildChildren final, frontier, depths⟩, ?_,
    partialTree frontier depths, members, nodup⟩
  unfold computeLoops
  rw [nonempty, computed]
  simp [deep, walked]

private theorem computeLoops_of_absent (absent : cfg.entry ∉ cfg.addrToNode) :
    computeLoops cfg = some (empty cfg) := by
  rw [computeLoops, reversePostorder_eq_nil absent]
  rfl

theorem compute_computed (consistent : cfg.Consistent)
    (present : cfg.entry ∈ cfg.addrToNode) : Computed cfg (compute cfg) := by
  obtain ⟨tree, run, computed⟩ := computeLoops_spec consistent present
  rw [compute, run]
  exact computed

/-- The dominator tree is computed on every graph, irreducible loops, parallel
edges and unreachable blocks included: `dominates` decides dominance, `idom` is
the closest strict dominator and the preorder lists each block once, below its
parent. -/
theorem compute_correct (cfg : CFG) (consistent : cfg.Consistent) :
    (computeLoops cfg).isSome ∧ ∀ b, cfg.Reachable b →
      (∀ a, (compute cfg).dominates a b = true ↔ cfg.flow.Dom a b) ∧
      (b = cfg.entry → (compute cfg).idom b = none) ∧
      (b ≠ cfg.entry → ∃ d, (compute cfg).idom b = some d ∧ cfg.flow.IsIdom d b ∧
        ∀ d', cfg.flow.IsIdom d' b → d' = d) ∧
      (compute cfg).preorder.count b = 1 ∧
      ∀ p, (compute cfg).idom b = some p →
        (compute cfg).preorder.idxOf p < (compute cfg).preorder.idxOf b := by
  constructor
  · by_cases present : cfg.entry ∈ cfg.addrToNode
    · obtain ⟨tree, run, _⟩ := computeLoops_spec consistent present
      rw [run]
      rfl
    · rw [computeLoops_of_absent present]
      rfl
  rintro b ⟨present, reach⟩
  have spec := (compute_computed consistent present).toIsTree
  obtain ⟨nodup, members, parentsFirst⟩ := spec.preorder_spec
  have listed := (members b).mpr reach
  refine ⟨fun a => spec.dominates_iff reach, ?_, fun notEntry => ?_,
    count_eq_one_of_mem nodup listed, fun p parent => ?_⟩
  · rintro rfl
    exact spec.idom_entry
  · obtain ⟨d, parent⟩ := spec.exists_idom reach notEntry
    have isIdom := spec.isIdom parent
    exact ⟨d, parent, isIdom, fun d' isIdom' => Graph.IsIdom.unique reach isIdom' isIdom⟩
  · have notEntry : b ≠ cfg.entry := by
      rintro rfl
      rw [spec.idom_entry] at parent
      exact absurd parent (by simp)
    obtain ⟨earlier, later, split, fresh⟩ := eq_append_cons_of_mem listed
    obtain ⟨p', before, parent'⟩ := parentsFirst earlier b later split notEntry
    rw [parent, Option.some.injEq] at parent'
    subst parent'
    rw [split, idxOf_append_of_mem before, idxOf_append_of_notMem fresh, idxOf_cons_self]
    exact Nat.lt_of_lt_of_le (idxOf_lt_length_iff.mpr before) (Nat.le_add_right _ _)

/-- Two blocks that branch to each other, both entered from the first. -/
def irreducibleBlocks : List R2ILBlock :=
  [⟨4096, 4, [.CBranch ⟨.Const, 4104, 8⟩ ⟨.Register, 0, 1⟩], none⟩,
   ⟨4100, 4, [], none⟩,
   ⟨4104, 4, [.Branch ⟨.Const, 4100, 8⟩], none⟩]

def irreducible : CFG := (fromBlocks irreducibleBlocks).getD (new 4096)

theorem irreducible_built : fromBlocks irreducibleBlocks = some irreducible :=
  fromBlocks_cons_eq _ _ _

set_option maxRecDepth 8000 in
theorem compute_correct_irreducible :
    irreducible.Consistent ∧ irreducible.Reachable 4104 ∧
      (computeLoops irreducible).isSome ∧
      ∃ d, (compute irreducible).idom 4104 = some d ∧ irreducible.flow.IsIdom d 4104 := by
  obtain ⟨consistent, present, _⟩ := fromBlocks_spec irreducible_built
  have edge : irreducible.flow.edge irreducible.entry 4104 := by
    rw [fromBlocks_entry irreducible_built]
    exact consistent.mem_successors.mp (by decide +kernel)
  have reach : irreducible.Reachable 4104 := ⟨present, Graph.Reach.root.step edge⟩
  obtain ⟨ends, correct⟩ := compute_correct irreducible consistent
  obtain ⟨_, _, closest, _⟩ := correct 4104 reach
  obtain ⟨d, parent, isIdom, _⟩ := closest (by decide +kernel)
  exact ⟨consistent, reach, ends, d, parent, isIdom⟩

/-! ## The frontier in terms of dominance -/

namespace Computed

variable {cfg : CFG} {tree : DomTree} (spec : Computed cfg tree)
include spec

theorem mem_frontier_iff : y ∈ tree.frontier x ↔ Walked cfg tree x y := by
  rw [frontier, mem_insertionSort, spec.mem_listAt]

theorem frontier_nodup (x : Nat) : (tree.frontier x).Nodup := by
  rw [frontier, (perm_insertionSort _ _).nodup_iff]
  exact spec.nodup_listAt x

private theorem stopOf_dom_pred (y p : Nat) (reach : cfg.flow.Reach y) (edge : cfg.flow.edge p y) :
    cfg.flow.Dom (tree.stopOf y) p := by
  by_cases isRoot : y = cfg.entry
  · have root : tree.idomMap.lookup cfg.entry = some cfg.entry := spec.approx.root
    rw [isRoot, stopOf, root, getD_some]
    exact Graph.Dom.root p
  · obtain ⟨d, parent⟩ := spec.exists_idom reach isRoot
    have found := (spec.idom_eq_some_iff.mp parent).1
    rw [stopOf, found, getD_some]
    exact (spec.isIdom parent).dom_pred edge

theorem passes_iff_of_reach {p : Nat} (reachX : cfg.flow.Reach x) (reachY : cfg.flow.Reach y)
    (edge : cfg.flow.edge p y) :
    Passes (parents tree.idomMap) (tree.stopOf y) p x ↔
      cfg.flow.Reach p ∧ cfg.flow.Dom x p ∧ cfg.flow.SDom (tree.stopOf y) x := by
  by_cases reachP : cfg.flow.Reach p
  · rw [passes_iff spec.toIsTree reachP (spec.stopOf_dom_pred y p reachY edge)]
    simp [reachP]
  · simp only [reachP, false_and, iff_false]
    intro passes
    cases passes with
    | here _ => exact reachP reachX
    | up _ found _ _ => exact reachP (spec.approx.reach _ _ found)

section

variable (consistent : cfg.Consistent)
include consistent

theorem mem_frontier_iff_of_reach
    (reachX : cfg.flow.Reach x) (reachY : cfg.flow.Reach y) :
    y ∈ tree.frontier x ↔ 2 ≤ (cfg.predecessors y).length ∧
      ∃ p, cfg.flow.Reach p ∧ cfg.flow.edge p y ∧ cfg.flow.Dom x p ∧
        cfg.flow.SDom (tree.stopOf y) x := by
  rw [spec.mem_frontier_iff, Walked]
  constructor
  · rintro ⟨_, join, p, mem, passes⟩
    have edge := consistent.mem_predecessors.mp mem
    obtain ⟨reachP, dom, sdom⟩ := (spec.passes_iff_of_reach reachX reachY edge).mp passes
    exact ⟨join, p, reachP, edge, dom, sdom⟩
  · rintro ⟨join, p, reachP, edge, dom, sdom⟩
    exact ⟨mem_blockAddrs.mpr edge.target_mapped, join, p,
      consistent.mem_predecessors.mpr edge,
      (spec.passes_iff_of_reach reachX reachY edge).mpr ⟨reachP, dom, sdom⟩⟩

/-- Away from the entry the frontier is Cytron's. A block with one incoming
edge is immediately dominated by its predecessor, so that no walk is lost. -/
theorem mem_frontier_iff_inFrontier
    (reachX : cfg.flow.Reach x) (reachY : cfg.flow.Reach y) (notEntry : y ≠ cfg.entry) :
    y ∈ tree.frontier x ↔ cfg.flow.InFrontier x y := by
  obtain ⟨d, parent⟩ := spec.exists_idom reachY notEntry
  have isIdom := spec.isIdom parent
  have stop : tree.stopOf y = d := by
    rw [stopOf, (spec.idom_eq_some_iff.mp parent).1, getD_some]
  rw [spec.mem_frontier_iff_of_reach consistent reachX reachY, stop]
  constructor
  · rintro ⟨_, p, reachP, edge, dom, sdom⟩
    refine ⟨⟨p, reachP, edge, dom⟩, fun above => ?_⟩
    exact sdom.2 (Graph.Dom.antisymm (sdom.1.reach reachX) sdom.1 (isIdom.closest x above))
  · rintro ⟨⟨p, reachP, edge, dom⟩, notAbove⟩
    have sdom : cfg.flow.SDom d x := by
      rcases Graph.Dom.total reachP dom (isIdom.dom_pred edge) with above | below
      · refine absurd ⟨above.trans isIdom.sdom.1, ?_⟩ notAbove
        rintro rfl
        exact isIdom.sdom.2 (Graph.Dom.antisymm (isIdom.sdom.1.reach reachY) isIdom.sdom.1 above)
      · refine ⟨below, ?_⟩
        rintro rfl
        exact notAbove isIdom.sdom
    refine ⟨?_, p, reachP, edge, dom, sdom⟩
    by_contra few
    have memberP : p ∈ cfg.predecessors y := consistent.mem_predecessors.mpr edge
    have only : ∀ p', cfg.flow.edge p' y → p' = p := by
      intro p' edge'
      have memberP' := consistent.mem_predecessors.mpr edge'
      obtain ⟨q, single⟩ : ∃ q, cfg.predecessors y = [q] := by
        cases preds : cfg.predecessors y with
        | nil => rw [preds] at memberP; simp at memberP
        | cons q rest =>
          cases rest with
          | nil => exact ⟨q, rfl⟩
          | cons q' rest => rw [preds] at few; simp at few
      rw [single, mem_singleton] at memberP memberP'
      rw [memberP', memberP]
    have domP : cfg.flow.Dom p y := Graph.dom_of_preds notEntry fun p' _ edge' => by
      rw [only p' edge']
      exact Graph.Dom.refl p
    have notSelf : p ≠ y := by
      rintro rfl
      obtain ⟨l, path⟩ := reachY
      -- the last edge of a shortest path to `y` cannot come from `y`
      obtain ⟨l', path', nodup, _⟩ := path.exists_nodup
      obtain ⟨p', rest, rfl, shorter, edge'⟩ := path'.last_edge notEntry
      rw [only p' edge'] at shorter
      exact (nodup_cons.mp nodup).1 shorter.mem_self
    have toIdom := isIdom.closest p ⟨domP, notSelf⟩
    exact sdom.2 (Graph.Dom.antisymm (sdom.1.reach reachX) sdom.1 (dom.trans toIdom))

private theorem not_mem_frontier_entry
    (reachX : cfg.flow.Reach x) (noBack : ∀ p, cfg.flow.Reach p → ¬ cfg.flow.edge p cfg.entry) :
    cfg.entry ∉ tree.frontier x := by
  rw [spec.mem_frontier_iff_of_reach consistent (y := cfg.entry) reachX Graph.Reach.root]
  rintro ⟨_, p, reachP, edge, _⟩
  exact noBack p reachP edge

private theorem entry_not_mem_frontier :
    cfg.entry ∉ tree.frontier cfg.entry := by
  rw [spec.mem_frontier_iff_of_reach consistent (x := cfg.entry) (y := cfg.entry)
    Graph.Reach.root Graph.Reach.root]
  rintro ⟨_, p, _, _, _, sdom⟩
  have root : tree.idomMap.lookup cfg.entry = some cfg.entry := spec.approx.root
  rw [stopOf, root, getD_some] at sdom
  exact sdom.2 rfl

end

end Computed

/-- The frontier is Cytron's exactly for the graphs whose entry is not the
target of an edge from a reachable block. -/
theorem frontier_eq_cytron_iff (cfg : CFG) (consistent : cfg.Consistent) :
    (∀ x y, cfg.Reachable x → cfg.Reachable y →
      (y ∈ (compute cfg).frontier x ↔ cfg.flow.InFrontier x y)) ↔
    ∀ p, cfg.Reachable p → cfg.entry ∉ cfg.successors p := by
  constructor
  · intro agree p reachP successor
    have spec := compute_computed consistent reachP.1
    have edge := consistent.mem_successors.mp successor
    have entry := agree cfg.entry cfg.entry ⟨reachP.1, Graph.Reach.root⟩
      ⟨reachP.1, Graph.Reach.root⟩
    refine spec.entry_not_mem_frontier consistent (entry.mpr ⟨?_, fun sdom => sdom.2 rfl⟩)
    exact ⟨p, reachP.2, edge, Graph.Dom.root p⟩
  · intro noBack x y reachX reachY
    have spec := compute_computed consistent reachX.1
    by_cases isEntry : y = cfg.entry
    · subst isEntry
      have noEdge : ∀ p, cfg.flow.Reach p → ¬ cfg.flow.edge p cfg.entry := fun p reach edge =>
        noBack p ⟨reachX.1, reach⟩ (consistent.mem_successors.mpr edge)
      refine iff_of_false (spec.not_mem_frontier_entry consistent reachX.2 noEdge) ?_
      rintro ⟨⟨p, reachP, edge, _⟩, _⟩
      exact noEdge p reachP edge
    · exact spec.mem_frontier_iff_inFrontier consistent reachX.2 reachY.2 isEntry

/-- A function whose only block branches to itself. -/
def selfLoopBlocks : List R2ILBlock := [⟨4096, 4, [.Branch ⟨.Const, 4096, 8⟩], none⟩]

def selfLoop : CFG := (fromBlocks selfLoopBlocks).getD (new 4096)

theorem selfLoop_built : fromBlocks selfLoopBlocks = some selfLoop := fromBlocks_cons_eq _ _ _

/-- The back edge to the entry puts it into its own frontier, which the
computed frontier misses. -/
theorem selfLoop_frontier_not_cytron :
    ¬ ∀ x y, selfLoop.Reachable x → selfLoop.Reachable y →
      (y ∈ (compute selfLoop).frontier x ↔ selfLoop.flow.InFrontier x y) := by
  intro agree
  obtain ⟨consistent, present, _⟩ := fromBlocks_spec selfLoop_built
  have entry : selfLoop.Reachable 4096 := ⟨present, Graph.Reach.root⟩
  have edge : selfLoop.flow.edge 4096 4096 := consistent.mem_successors.mp (by decide +kernel)
  have missing : 4096 ∉ (compute selfLoop).frontier 4096 := by decide +kernel
  exact missing ((agree 4096 4096 entry entry).mpr
    ⟨⟨4096, Graph.Reach.root, edge, Graph.Dom.refl 4096⟩, fun sdom => sdom.2 rfl⟩)

theorem frontier_eq_cytron_iff_selfLoop :
    selfLoop.Consistent ∧
      ((∀ x y, selfLoop.Reachable x → selfLoop.Reachable y →
        (y ∈ (compute selfLoop).frontier x ↔ selfLoop.flow.InFrontier x y)) ↔
      ∀ p, selfLoop.Reachable p → selfLoop.entry ∉ selfLoop.successors p) :=
  have consistent := (fromBlocks_spec selfLoop_built).1
  ⟨consistent, frontier_eq_cytron_iff selfLoop consistent⟩

end R2Sleigh.Ssa.DomTree
