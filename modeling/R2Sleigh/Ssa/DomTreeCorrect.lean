import R2Sleigh.Ssa.Idom

/-!
Contract: the queries on a computed dominator tree.

Owns `IsTree`.
-/

namespace R2Sleigh.Ssa

open Flow Lib List Option

/-- A block that control flow can reach: some path leads there from the entry,
which is itself a block. -/
def CFG.Reachable (cfg : CFG) (b : Nat) : Prop := cfg.entry ∈ cfg.addrToNode ∧ cfg.flow.Reach b

namespace DomTree

/-- The tree of a graph as later passes see it, frontiers and depths apart. -/
structure IsTree (cfg : CFG) (tree : DomTree) : Prop where
  entry : tree.entry = cfg.entry
  approx : DomApprox cfg.flow (rpoIndex cfg.reversePostorder) (parents tree.idomMap)
  total : ∀ v, cfg.flow.Reach v → (parents tree.idomMap v).isSome
  exact : ∀ a b, cfg.flow.Reach b → (Climbs (parents tree.idomMap) b a ↔ cfg.flow.Dom a b)
  order : IsReversePostorder cfg.flow cfg.reversePostorder
  childrenMap : tree.childrenMap = buildChildren tree.idomMap

namespace IsTree

variable {cfg : CFG} {tree : DomTree} (spec : IsTree cfg tree)
include spec

theorem reach_of_lookup {b d : Nat} (found : tree.idomMap.lookup b = some d) :
    cfg.flow.Reach b := spec.approx.reach b d found

theorem idom_entry : tree.idom cfg.entry = none := by
  have root : tree.idomMap.lookup cfg.entry = some cfg.entry := spec.approx.root
  simp [idom, root]

theorem idom_eq_some_iff {b d : Nat} :
    tree.idom b = some d ↔ tree.idomMap.lookup b = some d ∧ b ≠ cfg.entry := by
  rw [idom, filter_eq_some_iff]
  constructor
  · rintro ⟨found, different⟩
    refine ⟨found, ?_⟩
    rintro rfl
    have root : tree.idomMap.lookup cfg.entry = some cfg.entry := spec.approx.root
    rw [root, Option.some.injEq] at found
    simp [found] at different
  · rintro ⟨found, notRoot⟩
    refine ⟨found, ?_⟩
    have smaller := spec.approx.rank_lt b d found notRoot
    rw [bne_iff_ne]
    rintro rfl
    exact Nat.lt_irrefl _ smaller

theorem exists_idom {b : Nat} (reach : cfg.flow.Reach b) (notRoot : b ≠ cfg.entry) :
    ∃ d, tree.idom b = some d := by
  obtain ⟨d, found⟩ := isSome_iff_exists.mp (spec.total b reach)
  exact ⟨d, spec.idom_eq_some_iff.mpr ⟨found, notRoot⟩⟩

section

variable {b d : Nat} (parent : tree.idom b = some d)
include parent

theorem isIdom : cfg.flow.IsIdom d b := by
  obtain ⟨found, notRoot⟩ := spec.idom_eq_some_iff.mp parent
  exact spec.approx.isIdom_of_exact (fun b reach a => spec.exact a b reach) found notRoot

theorem reach_of_idom :
    cfg.flow.Reach b ∧ cfg.flow.Reach d := by
  obtain ⟨found, _⟩ := spec.idom_eq_some_iff.mp parent
  have reach := spec.reach_of_lookup found
  exact ⟨reach, (spec.isIdom parent).sdom.1.reach reach⟩

theorem rank_lt :
    rpoIndex cfg.reversePostorder d < rpoIndex cfg.reversePostorder b := by
  obtain ⟨found, notRoot⟩ := spec.idom_eq_some_iff.mp parent
  exact spec.approx.rank_lt b d found notRoot

end

theorem mem_keys {b : Nat} : b ∈ tree.idomMap.keys ↔ cfg.flow.Reach b := by
  rw [← AList.mem_keys, HashMap.mem_iff_exists_lookup]
  constructor
  · rintro ⟨d, found⟩
    exact spec.reach_of_lookup found
  · intro reach
    exact isSome_iff_exists.mp (spec.total b reach)

theorem keys_length : tree.idomMap.keys.length = cfg.reversePostorder.length := by
  refine List.Perm.length_eq ((perm_ext_iff_of_nodup tree.idomMap.keys_nodup
    spec.order.nodup).mpr fun b => ?_)
  rw [spec.mem_keys, spec.order.mem_iff]

/-! ## `dominates` -/

/-- With enough fuel the walk ends, at `a` exactly if it is strictly above. -/
theorem dominatesWalk_spec {a : Nat} (fuel : Nat) :
    ∀ current, cfg.flow.Reach current → rpoIndex cfg.reversePostorder current < fuel →
      ∃ answer, tree.dominatesWalk a fuel current = some answer ∧
        (answer = true ↔ cfg.flow.SDom a current) := by
  induction fuel with
  | zero => exact fun _ _ enough => absurd enough (Nat.not_lt_zero _)
  | succ fuel ih =>
    intro current reach enough
    rw [dominatesWalk]
    cases parent : tree.idom current with
    | none =>
      -- only the entry has no parent
      have isRoot : current = cfg.entry := by
        by_contra notRoot
        obtain ⟨d, found⟩ := spec.exists_idom reach notRoot
        rw [parent] at found
        exact absurd found (by simp)
      subst isRoot
      have notStrict : ¬ cfg.flow.SDom a cfg.entry := fun sdom =>
        sdom.2 (Graph.dom_root_iff.mp sdom.1)
      exact ⟨false, rfl, by simp [notStrict]⟩
    | some d =>
      have idom := spec.isIdom parent
      dsimp only
      by_cases here : d = a
      · subst here
        rw [if_pos rfl]
        exact ⟨true, rfl, by simp [idom.sdom]⟩
      rw [if_neg here]
      obtain ⟨answer, walk, means⟩ := ih d (spec.reach_of_idom parent).2
        (by have := spec.rank_lt parent; omega)
      refine ⟨answer, walk, means.trans ⟨fun sdom => ?_, fun sdom => ?_⟩⟩
      · refine ⟨sdom.1.trans idom.sdom.1, ?_⟩
        rintro rfl
        exact sdom.2 (Graph.Dom.antisymm reach sdom.1 idom.sdom.1)
      · exact ⟨idom.closest a sdom, Ne.symm here⟩

/-- On reachable blocks the answer of the tree is dominance by paths. -/
theorem dominates_iff {a b : Nat} (reach : cfg.flow.Reach b) :
    tree.dominates a b = true ↔ cfg.flow.Dom a b := by
  unfold dominates
  by_cases same : a = b
  · subst same
    simp [Graph.Dom.refl]
  obtain ⟨answer, walk, means⟩ := spec.dominatesWalk_spec (a := a)
    (tree.idomMap.keys.length + 1) b reach (by
      rw [spec.keys_length]
      exact Nat.lt_succ_of_lt (rank_lt_length spec.order reach))
  rw [if_neg same, walk, getD_some, means]
  exact ⟨fun sdom => sdom.1, fun dom => ⟨dom, same⟩⟩

/-! ## Children -/

theorem children_eq (b : Nat) :
    tree.children b = ((tree.idomMap.entries.filter fun entry =>
      ¬ entry.1 = entry.2 ∧ entry.2 = b).map Sigma.fst).insertionSort (· ≤ ·) := by
  have loop := HashMap.listAt_foldl_pushAt (fun entry : (_ : Nat) × Nat => entry.1 = entry.2)
    (fun entry => entry.2) (fun entry => entry.1) tree.idomMap.entries
    (∅ : HashMap Nat (List Nat)) b
  have emptyAt : HashMap.listAt (∅ : HashMap Nat (List Nat)) b = [] := rfl
  rw [children, spec.childrenMap, buildChildren, HashMap.listAt_mapValues _ rfl]
  exact congrArg (List.insertionSort (· ≤ ·)) loop

theorem mem_children {b c : Nat} : c ∈ tree.children b ↔ tree.idom c = some b := by
  rw [spec.children_eq, mem_insertionSort, List.mem_map, idom, filter_eq_some_iff]
  constructor
  · rintro ⟨⟨c', d⟩, mem, rfl⟩
    simp only [mem_filter, decide_eq_true_eq] at mem
    obtain ⟨stored, notSelf, rfl⟩ := mem
    exact ⟨AList.mem_lookup_iff.mpr stored, by simpa using Ne.symm notSelf⟩
  · rintro ⟨found, different⟩
    rw [bne_iff_ne] at different
    refine ⟨⟨c, b⟩, ?_, rfl⟩
    simp only [mem_filter, decide_eq_true_eq]
    exact ⟨AList.mem_lookup_iff.mp found, Ne.symm different, trivial⟩

theorem children_nodup (b : Nat) : (tree.children b).Nodup := by
  rw [spec.children_eq, (perm_insertionSort _ _).nodup_iff]
  have keys : (tree.idomMap.entries.map Sigma.fst).Nodup := tree.idomMap.keys_nodup
  exact keys.sublist (filter_sublist.map _)

theorem exists_child_of_sdom {b v : Nat} (reach : cfg.flow.Reach v) (sdom : cfg.flow.SDom b v) :
    ∃ c, tree.idom c = some b ∧ cfg.flow.Dom c v := by
  induction rank : rpoIndex cfg.reversePostorder v using Nat.strongRecOn generalizing v with
  | ind n ih =>
    have notEntry : v ≠ cfg.entry := by
      rintro rfl
      exact sdom.2 (Graph.dom_root_iff.mp sdom.1)
    obtain ⟨d, parent⟩ := spec.exists_idom reach notEntry
    by_cases here : d = b
    · subst here
      exact ⟨v, parent, Graph.Dom.refl v⟩
    · have below := (spec.isIdom parent).closest b sdom
      obtain ⟨c, child, dom⟩ := ih _ (rank ▸ spec.rank_lt parent)
        (spec.reach_of_idom parent).2 ⟨below, Ne.symm here⟩ rfl
      exact ⟨c, child, dom.trans (spec.isIdom parent).sdom.1⟩

theorem not_dom_parent {b c : Nat} (child : tree.idom c = some b) : ¬ cfg.flow.Dom c b := by
  intro dom
  have sdom := (spec.isIdom child).sdom
  exact sdom.2 (Graph.Dom.antisymm (spec.reach_of_idom child).2 sdom.1 dom)

theorem child_unique {b c c' v : Nat} (reach : cfg.flow.Reach v) (child : tree.idom c = some b)
    (child' : tree.idom c' = some b) (dom : cfg.flow.Dom c v) (dom' : cfg.flow.Dom c' v) :
    c = c' := by
  by_contra different
  rcases Graph.Dom.total reach dom dom' with above | above
  · exact spec.not_dom_parent child ((spec.isIdom child').closest c ⟨above, different⟩)
  · exact spec.not_dom_parent child' ((spec.isIdom child).closest c' ⟨above, Ne.symm different⟩)

/-- The recursion over the children ends: ranks grow along a branch. -/
theorem computeDepths_isSome (fuel : Nat) :
    ∀ block depth depths, cfg.flow.Reach block →
      cfg.reversePostorder.length < rpoIndex cfg.reversePostorder block + fuel →
      ∃ depths', computeDepths tree.childrenMap fuel block depth depths = some depths' := by
  induction fuel with
  | zero =>
    intro block _ _ reach enough
    have := rank_lt_length spec.order reach
    omega
  | succ fuel ih =>
    intro block depth depths _ enough
    have loop : ∀ (children : List Nat) (depths : HashMap Nat Nat),
        (∀ c ∈ children, tree.idom c = some block) →
        ∃ depths', children.foldlM (fun depths child =>
          computeDepths tree.childrenMap fuel child (depth + 1) depths) depths =
          some depths' := by
      intro children
      induction children with
      | nil => exact fun depths _ => ⟨depths, rfl⟩
      | cons child rest restHypothesis =>
        intro depths below
        have parent := below child mem_cons_self
        obtain ⟨next, run⟩ := ih child (depth + 1) depths
          (spec.reach_of_idom parent).1 (by have := spec.rank_lt parent; omega)
        rw [foldlM_cons, run]
        exact restHypothesis next fun c mem => below c (mem_cons_of_mem _ mem)
    exact loop _ _ fun c mem => spec.mem_children.mp mem

/-! ## Preorder -/

omit spec in
structure PreorderState (cfg : CFG) (tree : DomTree) (result stack : List Nat) : Prop where
  nodup : (result ++ stack).Nodup
  reach : ∀ v ∈ result ++ stack, cfg.flow.Reach v
  entry : cfg.entry ∈ result ++ stack
  waiting : ∀ v ∈ stack, v ≠ cfg.entry → ∃ p ∈ result, tree.idom v = some p
  listed : ∀ earlier v later, result = earlier ++ v :: later → v ≠ cfg.entry →
    ∃ p ∈ earlier, tree.idom v = some p
  closed : ∀ p ∈ result, ∀ c, tree.idom c = some p → c ∈ result ++ stack

theorem PreorderState.step {result stack : List Nat} {current : Nat}
    (state : PreorderState cfg tree result (current :: stack)) :
    PreorderState cfg tree (result ++ [current]) (tree.children current ++ stack) := by
  have parentHere : ∀ c ∈ tree.children current, tree.idom c = some current :=
    fun c mem => spec.mem_children.mp mem
  have currentFresh : current ∉ result := by
    have nodup := state.nodup
    rw [nodup_append] at nodup
    exact fun inside => nodup.2.2 current inside current mem_cons_self rfl
  -- a child was not met before: its parent is the block popped now
  have childFresh : ∀ c ∈ tree.children current, c ∉ result ++ current :: stack := by
    intro c mem inside
    have parent := parentHere c mem
    have notEntry : c ≠ cfg.entry := by
      rintro rfl
      rw [spec.idom_entry] at parent
      exact absurd parent (by simp)
    have known : ∃ p ∈ result, tree.idom c = some p := by
      rcases mem_append.mp inside with inside | inside
      · obtain ⟨earlier, later, split⟩ := append_of_mem inside
        obtain ⟨p, before, isParent⟩ := state.listed earlier c later split notEntry
        exact ⟨p, by rw [split]; exact mem_append_left _ before, isParent⟩
      · exact state.waiting c inside notEntry
    obtain ⟨p, inResult, isParent⟩ := known
    rw [parent, Option.some.injEq] at isParent
    exact currentFresh (isParent ▸ inResult)
  have split : ∀ v, v ∈ (result ++ [current]) ++ (tree.children current ++ stack) ↔
      v ∈ result ++ current :: stack ∨ v ∈ tree.children current := by
    simp only [mem_append, mem_cons, not_mem_nil, or_false]
    tauto
  refine ⟨?_, ?_, ?_, ?_, ?_, ?_⟩
  · have rearranged : ((result ++ [current]) ++ (tree.children current ++ stack)).Perm
        (tree.children current ++ (result ++ current :: stack)) := by
      have front : ((result ++ [current]) ++ (tree.children current ++ stack)).Perm
          (tree.children current ++ ((result ++ [current]) ++ stack)) := by
        rw [← append_assoc, ← append_assoc (tree.children current)]
        exact perm_append_comm.append_right stack
      simpa using front
    rw [rearranged.nodup_iff, nodup_append]
    refine ⟨spec.children_nodup current, state.nodup, fun c mem v inside same => ?_⟩
    exact childFresh c mem (same ▸ inside)
  · intro v inside
    rcases (split v).mp inside with inside | inside
    · exact state.reach v inside
    · exact (spec.reach_of_idom (parentHere v inside)).1
  · exact (split _).mpr (.inl state.entry)
  · intro v inside notEntry
    rcases mem_append.mp inside with inside | inside
    · exact ⟨current, by simp, parentHere v inside⟩
    · obtain ⟨p, inResult, parent⟩ := state.waiting v (mem_cons_of_mem _ inside) notEntry
      exact ⟨p, mem_append_left _ inResult, parent⟩
  · intro earlier v later listed notEntry
    rcases append_eq_append_iff.mp listed with ⟨middle, rfl, tail⟩ | ⟨middle, inner, tail⟩
    · -- `v` is the block popped now
      cases middle with
      | nil =>
        obtain ⟨rfl, _⟩ := List.cons.inj tail
        obtain ⟨p, inResult, parent⟩ := state.waiting current mem_cons_self notEntry
        exact ⟨p, by simpa using inResult, parent⟩
      | cons first middle => simp at tail
    · cases middle with
      | nil =>
        rw [append_nil] at inner
        obtain ⟨rfl, _⟩ := List.cons.inj tail
        obtain ⟨p, inResult, parent⟩ := state.waiting v mem_cons_self notEntry
        exact ⟨p, inner ▸ inResult, parent⟩
      | cons first middle =>
        obtain ⟨rfl, _⟩ := List.cons.inj tail
        exact state.listed earlier v middle inner notEntry
  · intro p inResult c parent
    refine (split c).mpr ?_
    rcases mem_append.mp inResult with inResult | inResult
    · exact .inl (state.closed p inResult c parent)
    · rw [mem_singleton] at inResult
      exact .inr (spec.mem_children.mpr (inResult ▸ parent))

private theorem preorderLoop_spec (fuel : Nat) :
    ∀ result stack, PreorderState cfg tree result stack →
      cfg.reversePostorder.length < result.length + fuel →
      ∃ final, tree.preorderLoop fuel stack result = some final ∧
        PreorderState cfg tree final [] := by
  induction fuel with
  | zero =>
    intro result stack state enough
    have bound : result.length ≤ cfg.reversePostorder.length :=
      (subperm_of_subset ((nodup_append.mp state.nodup).1) fun v inside =>
        (spec.order.mem_iff v).mpr (state.reach v (mem_append_left _ inside))).length_le
    omega
  | succ fuel ih =>
    intro result stack state enough
    cases stack with
    | nil => exact ⟨result, rfl, state⟩
    | cons current stack =>
      refine ih _ _ (state.step spec) ?_
      rw [length_append, length_singleton]
      omega

/-- The preorder lists each reachable block once, and its parent before. -/
theorem preorder_spec : tree.preorder.Nodup ∧
    (∀ v, v ∈ tree.preorder ↔ cfg.flow.Reach v) ∧
    ∀ earlier v later, tree.preorder = earlier ++ v :: later → v ≠ cfg.entry →
      ∃ p ∈ earlier, tree.idom v = some p := by
  have initial : PreorderState cfg tree [] [cfg.entry] := by
    refine ⟨by simp, ?_, by simp, ?_, by simp, by simp⟩
    · intro v inside
      rw [nil_append, mem_singleton] at inside
      rw [inside]
      exact Graph.Reach.root
    · intro v inside notEntry
      exact absurd (mem_singleton.mp inside) notEntry
  obtain ⟨final, run, state⟩ := spec.preorderLoop_spec (tree.idomMap.keys.length + 2) [] _ initial
    (by rw [spec.keys_length, length_nil]; omega)
  have listing : tree.preorder = final := by
    rw [preorder, spec.entry, run, getD_some]
  rw [listing]
  have nodup := state.nodup
  have reach := state.reach
  have entry := state.entry
  have closed := state.closed
  simp only [append_nil] at nodup reach entry closed
  refine ⟨nodup, fun v => ⟨reach v, fun reachable => ?_⟩, state.listed⟩
  -- every reachable block hangs below the entry
  induction rank : rpoIndex cfg.reversePostorder v using Nat.strongRecOn generalizing v with
  | ind n ih =>
    by_cases isRoot : v = cfg.entry
    · rw [isRoot]
      exact entry
    obtain ⟨d, parent⟩ := spec.exists_idom reachable isRoot
    have smaller := spec.rank_lt parent
    exact closed d (ih _ (rank ▸ smaller) d (spec.reach_of_idom parent).2 rfl) v parent

end IsTree

end DomTree

end R2Sleigh.Ssa
