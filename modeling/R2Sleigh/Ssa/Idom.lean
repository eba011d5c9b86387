import R2Sleigh.Flow.Forest
import R2Sleigh.Ssa.DomTree

/-!
Contract: the `while changed` loop of the dominator computation terminates and
its result is the dominator tree.

Throughout, `rank` is the position in the reverse postorder. It decreases
along parents, which is what keeps `intersect` on course for irreducible
loops, parallel edges and an entry inside a loop alike.
-/

namespace R2Sleigh.Ssa.DomTree

open Flow Lib List Option

variable {block b a k : Nat} {idom : HashMap Nat Nat}

/-- The map as a partial function. -/
abbrev parents (idom : HashMap Nat Nat) : Nat → Option Nat := fun block => idom.lookup block

theorem parents_insert (idom : HashMap Nat Nat) (block parent : Nat) :
    parents (idom.insert block parent) = Function.update (parents idom) block (some parent) := by
  funext b
  by_cases here : b = block
  · subst here
    rw [Function.update_self]
    exact AList.lookup_insert idom
  · rw [Function.update_of_ne here]
    exact AList.lookup_insert_ne here

/-! ## Ranks -/

theorem rpoIndex_of_split {earlier later : List Nat} (fresh : block ∉ earlier) :
    rpoIndex (earlier ++ block :: later) block = earlier.length := by
  have found : (earlier ++ block :: later).idxOf? block = some earlier.length := by
    induction earlier with
    | nil => simp [List.idxOf?_cons]
    | cons head tail ih =>
      rw [mem_cons, not_or] at fresh
      simp [List.idxOf?_cons, Ne.symm fresh.1, ih fresh.2]
  rw [rpoIndex, found]
  rfl

section Order

variable {g : Graph Nat} {rpo : List Nat} (order : IsReversePostorder g rpo)
include order

theorem rank_lt_length (reach : g.Reach b) : rpoIndex rpo b < rpo.length := by
  obtain ⟨index, found⟩ := isSome_iff_exists.mp (isSome_idxOf?.mpr ((order.mem_iff b).mpr reach))
  rw [rpoIndex, found]
  exact (List.idxOf?_eq_some_iff.mp found).1

theorem rank_injective (reachA : g.Reach a) (reachB : g.Reach b)
    (equal : rpoIndex rpo a = rpoIndex rpo b) : a = b := by
  obtain ⟨i, foundA⟩ := isSome_iff_exists.mp (isSome_idxOf?.mpr ((order.mem_iff a).mpr reachA))
  obtain ⟨j, foundB⟩ := isSome_iff_exists.mp (isSome_idxOf?.mpr ((order.mem_iff b).mpr reachB))
  rw [rpoIndex, rpoIndex, foundA, foundB] at equal
  obtain rfl : i = j := equal
  obtain ⟨_, atA, _⟩ := List.idxOf?_eq_some_iff.mp foundA
  obtain ⟨_, atB, _⟩ := List.idxOf?_eq_some_iff.mp foundB
  exact atA.symm.trans atB

theorem rank_lt_of_before {earlier later : List Nat} {u : Nat}
    (split : rpo = earlier ++ b :: later) (before : u ∈ earlier) :
    rpoIndex rpo u < rpoIndex rpo b := by
  have nodup := order.nodup
  rw [split, nodup_append] at nodup
  have freshB : b ∉ earlier := fun inside =>
    nodup.2.2 b inside b mem_cons_self rfl
  obtain ⟨first, second, rfl, freshU⟩ := eq_append_cons_of_mem before
  rw [split, rpoIndex_of_split freshB, append_assoc, cons_append, rpoIndex_of_split freshU]
  simp

theorem eq_root_cons : rpo = g.root :: rpo.tail := by
  have head := order.head
  cases equal : rpo with
  | nil => rw [equal] at head; exact absurd head (by simp)
  | cons first rest =>
    rw [equal, List.head?_cons, Option.some.injEq] at head
    rw [head]
    rfl

private theorem rank_root : rpoIndex rpo g.root = 0 := by
  rw [eq_root_cons order, rpoIndex]
  simp [List.idxOf?_cons]

/-! ## `intersect` -/

variable {idom : HashMap Nat Nat} (approx : DomApprox g (rpoIndex rpo) (parents idom))
include approx

/-- Climbing stops at or below the limit, below every dominator that is. -/
theorem climb_spec (limit fuel : Nat) :
    ∀ block, (idom.lookup block).isSome → rpoIndex rpo block < fuel →
      ∃ top, climb idom rpo limit fuel block (rpoIndex rpo block) = some top ∧
        Climbs (parents idom) block top ∧ rpoIndex rpo top ≤ limit ∧
        ∀ a, g.Dom a block → rpoIndex rpo a ≤ limit → g.Dom a top := by
  induction fuel with
  | zero => exact fun _ _ enough => absurd enough (Nat.not_lt_zero _)
  | succ fuel ih =>
    intro block processed enough
    by_cases above : limit < rpoIndex rpo block
    · obtain ⟨parent, found⟩ := isSome_iff_exists.mp processed
      have notRoot : block ≠ g.root := by
        rintro rfl
        rw [rank_root order] at above
        exact Nat.not_lt_zero _ above
      have smaller : rpoIndex rpo parent < rpoIndex rpo block :=
        approx.rank_lt block parent found notRoot
      have different : parent ≠ block := by
        rintro rfl
        exact Nat.lt_irrefl _ smaller
      obtain ⟨top, reached, climbs, low, dominators⟩ := ih parent
        (approx.parent block parent found) (by omega)
      refine ⟨top, ?_, .up found climbs, low, fun a dom bounded => ?_⟩
      · -- neither early exit applies, so the walk goes on at the parent
        rw [climb, if_pos above, found]
        simp only [different, if_false, Nat.not_le.mpr smaller]
        exact reached
      · refine dominators a (approx.above block parent found a ⟨dom, ?_⟩) bounded
        rintro rfl
        omega
    · refine ⟨block, ?_, .here block, Nat.le_of_not_lt above, fun a dom _ => dom⟩
      rw [climb, if_neg above]

omit order in
theorem rank_le_of_dom (processed : (idom.lookup b).isSome) (dom : g.Dom a b) :
    rpoIndex rpo a ≤ rpoIndex rpo b :=
  approx.rank_le_of_climbs (approx.climbs_of_dom processed dom)

/-- `intersect` meets a block above both arguments that every common dominator
dominates. -/
theorem intersect_spec (fuel : Nat) :
    ∀ b1 b2, (idom.lookup b1).isSome → (idom.lookup b2).isSome →
      rpoIndex rpo b1 + rpoIndex rpo b2 < fuel →
      ∃ meet, intersect idom rpo fuel b1 b2 = some meet ∧
        Climbs (parents idom) b1 meet ∧ Climbs (parents idom) b2 meet ∧
        ∀ a, g.Dom a b1 → g.Dom a b2 → g.Dom a meet := by
  induction fuel with
  | zero => exact fun _ _ _ _ enough => absurd enough (Nat.not_lt_zero _)
  | succ fuel ih =>
    intro b1 b2 processed1 processed2 enough
    have reach : ∀ b, (idom.lookup b).isSome → g.Reach b := by
      intro b processed
      obtain ⟨parent, found⟩ := isSome_iff_exists.mp processed
      exact approx.reach b parent found
    have bound1 := Nat.lt_succ_of_lt (rank_lt_length order (reach b1 processed1))
    have bound2 := Nat.lt_succ_of_lt (rank_lt_length order (reach b2 processed2))
    rw [intersect]
    by_cases same : b1 = b2
    · subst same
      rw [if_pos rfl]
      exact ⟨b1, rfl, .here b1, .here b1, fun _ dom _ => dom⟩
    rw [if_neg same]
    obtain ⟨c1, stop1, climbs1, low1, dominators1⟩ := climb_spec order approx
      (rpoIndex rpo b2) (rpo.length + 1) b1 processed1 bound1
    obtain ⟨c2, stop2, climbs2, low2, dominators2⟩ := climb_spec order approx
      (rpoIndex rpo c1) (rpo.length + 1) b2 processed2 bound2
    have processedC1 := approx.processed_of_climbs processed1 climbs1
    have processedC2 := approx.processed_of_climbs processed2 climbs2
    have common : ∀ a, g.Dom a b1 → g.Dom a b2 → g.Dom a c1 ∧ g.Dom a c2 := by
      intro a dom1 dom2
      have domC1 := dominators1 a dom1 (rank_le_of_dom approx processed2 dom2)
      exact ⟨domC1, dominators2 a dom2 (rank_le_of_dom approx processedC1 domC1)⟩
    simp only [stop1, stop2, bind_eq_bind, bind_some]
    by_cases met : c1 = c2
    · rw [if_pos met]
      refine ⟨c1, rfl, climbs1, ?_, fun a dom1 dom2 => (common a dom1 dom2).1⟩
      rw [met]
      exact climbs2
    rw [if_neg met]
    have differentRank : rpoIndex rpo c1 ≠ rpoIndex rpo c2 := fun equal =>
      met (rank_injective order (reach c1 processedC1) (reach c2 processedC2) equal)
    rw [if_neg differentRank]
    have smaller1 := approx.rank_le_of_climbs climbs1
    obtain ⟨meet, found, rest1, rest2, restDom⟩ := ih c1 c2 processedC1 processedC2 (by omega)
    refine ⟨meet, found, climbs1.trans rest1, climbs2.trans rest2, fun a dom1 dom2 => ?_⟩
    exact restDom a (common a dom1 dom2).1 (common a dom1 dom2).2

private theorem intersectPreds_spec (preds : List Nat) :
    ∀ first, (idom.lookup first).isSome →
      ∃ meet, intersectPreds idom rpo preds first = some meet ∧
        Climbs (parents idom) first meet ∧
        (∀ p ∈ preds, (idom.lookup p).isSome → Climbs (parents idom) p meet) ∧
        ∀ a, g.Dom a first → (∀ p ∈ preds, (idom.lookup p).isSome → g.Dom a p) →
          g.Dom a meet := by
  induction preds with
  | nil => exact fun first _ => ⟨first, rfl, .here first, by simp, fun _ dom _ => dom⟩
  | cons pred rest ih =>
    intro first processedFirst
    simp only [intersectPreds, foldlM_cons]
    by_cases same : pred = first
    · subst same
      simp only [if_true, bind_eq_bind, bind_some]
      obtain ⟨meet, found, climbs, others, dominators⟩ := ih pred processedFirst
      refine ⟨meet, found, climbs, ?_, fun a dom all => dominators a dom fun p mem =>
        all p (mem_cons_of_mem _ mem)⟩
      intro p mem processed
      rcases mem_cons.mp mem with rfl | mem
      · exact climbs
      · exact others p mem processed
    by_cases processedPred : (idom.lookup pred).isSome
    · have reach : ∀ b, (idom.lookup b).isSome → rpoIndex rpo b < rpo.length := by
        intro b processed
        obtain ⟨parent, found⟩ := isSome_iff_exists.mp processed
        exact rank_lt_length order (approx.reach b parent found)
      obtain ⟨next, met, toPred, toFirst, nextDom⟩ := intersect_spec order approx
        (2 * rpo.length + 1) pred first processedPred processedFirst
        (by have := reach pred processedPred; have := reach first processedFirst; omega)
      simp only [same, if_false, processedPred, if_true, met, bind_eq_bind, bind_some]
      obtain ⟨meet, found, climbs, others, dominators⟩ := ih next
        (approx.processed_of_climbs processedFirst toFirst)
      refine ⟨meet, found, toFirst.trans climbs, ?_, fun a dom all => ?_⟩
      · intro p mem processed
        rcases mem_cons.mp mem with rfl | mem
        · exact toPred.trans climbs
        · exact others p mem processed
      · exact dominators a (nextDom a (all pred mem_cons_self processedPred) dom)
          fun p mem => all p (mem_cons_of_mem _ mem)
    · simp only [same, if_false, processedPred, Bool.false_eq_true, bind_eq_bind, bind_some]
      obtain ⟨meet, found, climbs, others, dominators⟩ := ih first processedFirst
      refine ⟨meet, found, climbs, ?_, fun a dom all => dominators a dom fun p mem =>
        all p (mem_cons_of_mem _ mem)⟩
      intro p mem processed
      rcases mem_cons.mp mem with rfl | mem
      · exact absurd processed processedPred
      · exact others p mem processed

end Order

/-! ## Sweeps -/

section Sweep

variable {cfg : CFG} {rpo : List Nat} (consistent : cfg.Consistent)
  (order : IsReversePostorder cfg.flow rpo)
include consistent order

/-- What processing a block of a reachable graph does: it installs a new
parent, and the flag stays down only if the parent was right already. -/
structure Processed (cfg : CFG) (rpo : List Nat) (state next : HashMap Nat Nat × Bool)
    (block new : Nat) : Prop where
  step : NewParent cfg.flow (rpoIndex rpo) (parents state.1) block new
  result : processBlock cfg rpo state block = some next
  after : parents next.1 = Function.update (parents state.1) block (some new)
  keeps : parents state.1 block = some new → next = state

/-- Processing a block with a processed earlier predecessor is a refinement
step. -/
theorem processBlock_step {state : HashMap Nat Nat × Bool} {u : Nat}
    (approx : DomApprox cfg.flow (rpoIndex rpo) (parents state.1))
    (notRoot : block ≠ cfg.flow.root) (reach : cfg.flow.Reach block)
    (edge : cfg.flow.edge u block) (processedU : (state.1.lookup u).isSome)
    (earlier : rpoIndex rpo u < rpoIndex rpo block) :
    ∃ new next, Processed cfg rpo state next block new := by
  have memberU : u ∈ cfg.predecessors block := consistent.mem_predecessors.mpr edge
  cases search : (cfg.predecessors block).find? fun pred => (state.1.lookup pred).isSome with
  | none =>
    have nowhere := List.find?_eq_none.mp search u memberU
    exact absurd processedU nowhere
  | some first =>
    have processedFirst : (state.1.lookup first).isSome := by simpa using List.find?_some search
    have memberFirst := mem_of_find?_eq_some search
    obtain ⟨new, met, climbs, others, dominators⟩ := intersectPreds_spec order approx
      (cfg.predecessors block) first processedFirst
    have step : NewParent cfg.flow (rpoIndex rpo) (parents state.1) block new := by
      refine ⟨notRoot, reach, ?_, approx.processed_of_climbs processedFirst climbs, ?_, ?_⟩
      · exact Nat.lt_of_le_of_lt (approx.rank_le_of_climbs (others u memberU processedU)) earlier
      · intro a sdom
        have below : ∀ p ∈ cfg.predecessors block, cfg.flow.Dom a p := fun p mem =>
          sdom.dom_pred (consistent.mem_predecessors.mp mem)
        exact dominators a (below first memberFirst) fun p mem _ => below p mem
      · exact fun p edge processed =>
          others p (consistent.mem_predecessors.mpr edge) processed
    have result : processBlock cfg rpo state block =
        if state.1.lookup block = some new then some state
        else some (state.1.insert block new, true) := by
      simp only [processBlock, search, met, bind_eq_bind, bind_some]
    by_cases same : state.1.lookup block = some new
    · rw [if_pos same] at result
      exact ⟨new, state, step, result, (Function.update_eq_self_iff.mpr same.symm).symm,
        fun _ => rfl⟩
    · rw [if_neg same] at result
      exact ⟨new, _, step, result, parents_insert state.1 block new, fun kept => absurd kept same⟩

omit consistent order in
theorem Processed.isSome {state next : HashMap Nat Nat × Bool} {new : Nat}
    (processed : Processed cfg rpo state next block new) {v : Nat}
    (before : v ≠ block → (parents state.1 v).isSome) : (parents next.1 v).isSome := by
  rw [processed.after]
  by_cases here : v = block
  · rw [here, Function.update_self]
    rfl
  · rw [Function.update_of_ne here]
    exact before here

/-- From any approximation a sweep reaches one that covers every reachable
block. -/
theorem foldlM_processBlock_total (later : List Nat) :
    ∀ (earlier : List Nat) (state : HashMap Nat Nat × Bool), rpo = earlier ++ later →
      earlier ≠ [] → (∀ v ∈ earlier, (state.1.lookup v).isSome) →
      DomApprox cfg.flow (rpoIndex rpo) (parents state.1) →
      ∃ result, later.foldlM (processBlock cfg rpo) state = some result ∧
        DomApprox cfg.flow (rpoIndex rpo) (parents result.1) ∧
        ∀ v ∈ rpo, (result.1.lookup v).isSome := by
  induction later with
  | nil =>
    intro earlier state split _ processed approx
    rw [append_nil] at split
    exact ⟨state, rfl, approx, fun v mem => processed v (split ▸ mem)⟩
  | cons block later ih =>
    intro earlier state split nonempty processed approx
    have notRoot : block ≠ cfg.flow.root := by
      rintro rfl
      have nodup := order.nodup
      obtain ⟨first, rest, rfl⟩ := exists_cons_of_ne_nil nonempty
      have head := order.head
      rw [split, cons_append, List.head?_cons, Option.some.injEq] at head
      rw [split, head] at nodup
      simp at nodup
    have reach : cfg.flow.Reach block := (order.mem_iff block).mp (by rw [split]; simp)
    obtain ⟨u, before, edge⟩ := order.pred_before earlier block later split notRoot
    obtain ⟨new, next, done⟩ := processBlock_step consistent order approx notRoot reach edge
      (processed u before) (rank_lt_of_before order split before)
    obtain ⟨result, run, final⟩ := ih (earlier ++ [block]) next
      (by simpa using split) (by simp)
      (fun v mem => done.isSome fun here => processed v (by simpa [here] using mem))
      (by rw [done.after]; exact approx.update done.step)
    refine ⟨result, ?_, final⟩
    rw [foldlM_cons, done.result]
    exact run

theorem processBlock_of_total (state : HashMap Nat Nat × Bool)
    (approx : DomApprox cfg.flow (rpoIndex rpo) (parents state.1))
    (total : ∀ v, cfg.flow.Reach v → (parents state.1 v).isSome)
    (mem : block ∈ rpo.tail) :
    ∃ new next, Processed cfg rpo state next block new := by
  obtain ⟨first, rest, split⟩ := append_of_mem mem
  have split' : rpo = (cfg.flow.root :: first) ++ block :: rest := by
    rw [cons_append, ← split]
    exact eq_root_cons order
  have nodup := order.nodup
  have notRoot : block ≠ cfg.flow.root := by
    rintro rfl
    rw [split'] at nodup
    simp at nodup
  obtain ⟨u, before, edge⟩ := order.pred_before _ block rest split' notRoot
  have inOrder : ∀ v ∈ cfg.flow.root :: first, cfg.flow.Reach v := fun v mem =>
    (order.mem_iff v).mp (by rw [split']; exact mem_append_left _ mem)
  exact processBlock_step consistent order approx notRoot
    ((order.mem_iff block).mp (by rw [split']; simp)) edge (total u (inOrder u before))
    (rank_lt_of_before order split' before)

private theorem foldlM_processBlock_separated (later : List Nat) :
    ∀ (state : HashMap Nat Nat × Bool) (level : Nat → Nat), later ⊆ rpo.tail →
      DomApprox cfg.flow (rpoIndex rpo) (parents state.1) →
      (∀ v, cfg.flow.Reach v → (parents state.1 v).isSome) →
      (∀ v, k ≤ level v) → (∀ v, level v ≤ k + 1) →
      (∀ v, cfg.flow.Reach v → SeparatedTo cfg.flow (parents state.1) (level v) v) →
      ∃ result, later.foldlM (processBlock cfg rpo) state = some result ∧
        DomApprox cfg.flow (rpoIndex rpo) (parents result.1) ∧
        (∀ v, cfg.flow.Reach v → (parents result.1 v).isSome) ∧
        ∀ v, cfg.flow.Reach v → SeparatedTo cfg.flow (parents result.1)
          (if v ∈ later then k + 1 else level v) v := by
  induction later with
  | nil =>
    intro state level _ approx total _ _ separated
    exact ⟨state, rfl, approx, total, by simpa using separated⟩
  | cons block later ih =>
    intro state level inside approx total low high separated
    obtain ⟨new, next, done⟩ := processBlock_of_total consistent order state approx total
      (inside mem_cons_self)
    have raised := SeparatedTo.update level total low high separated done.step
    obtain ⟨result, run, approxEnd, totalEnd, separatedEnd⟩ := ih
      next (Function.update level block (k + 1))
      (fun v mem => inside (mem_cons_of_mem _ mem))
      (by rw [done.after]; exact approx.update done.step)
      (fun v reach => done.isSome fun _ => total v reach)
      (fun v => by
        by_cases here : v = block
        · rw [here, Function.update_self]; omega
        · rw [Function.update_of_ne here]; exact low v)
      (fun v => by
        by_cases here : v = block
        · rw [here, Function.update_self]
        · rw [Function.update_of_ne here]; exact high v)
      (by rw [done.after]; exact raised)
    refine ⟨result, ?_, approxEnd, totalEnd, fun v reach => ?_⟩
    · rw [foldlM_cons, done.result]
      exact run
    have levelEnd := separatedEnd v reach
    by_cases here : v = block
    · subst here
      simpa using levelEnd
    · simpa [here] using levelEnd

/-- What holds of the map after the first sweep, at a given level. -/
structure Swept (cfg : CFG) (rpo : List Nat) (k : Nat) (idom : HashMap Nat Nat) : Prop where
  approx : DomApprox cfg.flow (rpoIndex rpo) (parents idom)
  total : ∀ v, cfg.flow.Reach v → (parents idom v).isSome
  separated : ∀ v, cfg.flow.Reach v → SeparatedTo cfg.flow (parents idom) k v

theorem Swept.sweep (swept : Swept cfg rpo k idom) :
    ∃ result, DomTree.sweep cfg rpo idom = some result ∧ Swept cfg rpo (k + 1) result.1 := by
  obtain ⟨result, run, approx, total, separated⟩ := foldlM_processBlock_separated (k := k)
    consistent order rpo.tail (idom, false) (fun _ => k) (List.Subset.refl _) swept.approx
    swept.total (fun _ => Nat.le_refl k) (fun _ => Nat.le_succ k) swept.separated
  refine ⟨result, run, approx, total, fun v reach => ?_⟩
  have mem := (order.mem_iff v).mpr reach
  rw [eq_root_cons order] at mem
  rcases mem_cons.mp mem with rfl | mem
  · exact approx.separatedTo_root (k + 1)
  · have raised := separated v reach
    rw [if_pos mem] at raised
    exact raised

omit consistent order in
theorem Swept.mono {j : Nat} (swept : Swept cfg rpo k idom)
    (below : j ≤ k) : Swept cfg rpo j idom :=
  ⟨swept.approx, swept.total, fun v reach a l path short =>
    swept.separated v reach a l path (Nat.le_trans short below)⟩

omit consistent in
theorem Swept.exact (swept : Swept cfg rpo rpo.length idom)
    (reach : cfg.flow.Reach b) : Climbs (parents idom) b a ↔ cfg.flow.Dom a b :=
  swept.approx.climbs_iff_dom swept.total (fun v => (order.mem_iff v).mpr) swept.separated reach

private theorem Swept.sweep_eq (swept : Swept cfg rpo rpo.length idom) :
    DomTree.sweep cfg rpo idom = some (idom, false) := by
  have stays : ∀ later : List Nat, later ⊆ rpo.tail →
      later.foldlM (processBlock cfg rpo) (idom, false) = some (idom, false) := by
    intro later
    induction later with
    | nil => exact fun _ => rfl
    | cons block later ih =>
      intro inside
      obtain ⟨new, next, done⟩ := processBlock_of_total consistent order
        (idom, false) swept.approx swept.total (inside mem_cons_self)
      obtain ⟨parent, found⟩ := isSome_iff_exists.mp (swept.total block done.step.reach)
      -- both the old and the new parent are the immediate dominator
      have oldIdom := swept.approx.isIdom_of_exact
        (fun b reach a => swept.exact order reach) found done.step.notRoot
      have raised := SeparatedTo.update (fun _ => rpo.length) swept.total
        (fun _ => Nat.le_refl _) (fun _ => Nat.le_succ _) swept.separated done.step
      have updatedTotal : ∀ v, cfg.flow.Reach v → (parents next.1 v).isSome :=
        fun v reach => done.isSome fun _ => swept.total v reach
      rw [done.after] at updatedTotal
      have newIdom := (swept.approx.update done.step).isIdom_of_exact
        (fun b reach a => (swept.approx.update done.step).climbs_iff_dom updatedTotal
          (fun v => (order.mem_iff v).mpr) (fun v reach' => by
            intro a l path short
            refine raised v reach' a l path (Nat.le_trans short ?_)
            by_cases here : v = block
            · rw [here, Function.update_self]; omega
            · rw [Function.update_of_ne here]) reach)
        (Function.update_self block (some new) (parents idom)) done.step.notRoot
      rw [Graph.IsIdom.unique done.step.reach oldIdom newIdom] at found
      rw [foldlM_cons, done.result, done.keeps found]
      exact ih fun v mem => inside (mem_cons_of_mem _ mem)
  exact stays rpo.tail (List.Subset.refl _)

omit consistent order in
theorem sweep_fst_of_unchanged {result : HashMap Nat Nat × Bool}
    (run : DomTree.sweep cfg rpo idom = some result) (unchanged : result.2 = false) :
    result.1 = idom := by
  have keeps : ∀ (later : List Nat) (state : HashMap Nat Nat × Bool),
      later.foldlM (processBlock cfg rpo) state = some result →
      state.2 = false ∧ result.1 = state.1 := by
    intro later
    induction later with
    | nil =>
      intro state done
      obtain rfl : state = result := some.inj done
      exact ⟨unchanged, rfl⟩
    | cons block later ih =>
      intro state done
      rw [foldlM_cons, bind_eq_bind, bind_eq_some_iff] at done
      obtain ⟨next, processed, done⟩ := done
      obtain ⟨down, same⟩ := ih next done
      suffices kept : next = state by rw [kept] at down same; exact ⟨down, same⟩
      unfold processBlock at processed
      dsimp only at processed
      split at processed
      · exact (some.inj processed).symm
      · rw [bind_eq_bind, bind_eq_some_iff] at processed
        obtain ⟨new, _, processed⟩ := processed
        split at processed
        · exact (some.inj processed).symm
        · rw [← some.inj processed] at down
          exact absurd down (by simp)
  exact (keeps rpo.tail (idom, false) run).2

/-- The loop ends within one sweep for each missing level, in the dominator
tree. -/
theorem whileChanged_spec (fuel : Nat) :
    ∀ (k : Nat) (idom : HashMap Nat Nat), Swept cfg rpo k idom → rpo.length < k + fuel →
      0 < fuel → ∃ final, whileChanged cfg rpo fuel idom = some final ∧
        Swept cfg rpo rpo.length final := by
  induction fuel with
  | zero => exact fun _ _ _ _ positive => absurd positive (Nat.lt_irrefl 0)
  | succ fuel ih =>
    intro k idom swept enough _
    rw [whileChanged]
    obtain ⟨⟨idom', flag⟩, run, next⟩ := swept.sweep consistent order
    rw [run]
    cases flag with
    | true =>
      have notYet : k < rpo.length := by
        by_contra high
        have unchanged := (swept.mono (Nat.le_of_not_lt high)).sweep_eq consistent order
        rw [run] at unchanged
        exact absurd unchanged (by simp)
      exact ih (k + 1) idom' next (by omega) (by omega)
    | false =>
      obtain rfl : idom' = idom := sweep_fst_of_unchanged run rfl
      refine ⟨idom', rfl, ?_⟩
      -- a fixpoint of the sweep is at every level
      have climbLevels : ∀ n, Swept cfg rpo (k + n) idom' := by
        intro n
        induction n with
        | zero => exact swept
        | succ n levelHypothesis =>
          obtain ⟨result, run', above⟩ := levelHypothesis.sweep consistent order
          obtain rfl : (idom', false) = result := some.inj (run.symm.trans run')
          exact above
      exact (climbLevels rpo.length).mono (Nat.le_add_left _ _)

end Sweep

/-- What every query on the tree uses: the final map is the dominator tree. -/
theorem computeIdom_spec {cfg : CFG} (consistent : cfg.Consistent)
    (present : cfg.entry ∈ cfg.addrToNode) :
    ∃ final, computeIdom cfg = some final ∧
      Swept cfg cfg.reversePostorder cfg.reversePostorder.length final := by
  have order := consistent.isReversePostorder present
  set rpo := cfg.reversePostorder with rpoDef
  have rootMap : ∀ v d, parents ((∅ : HashMap Nat Nat).insert cfg.entry cfg.entry) v = some d →
      v = cfg.entry ∧ d = cfg.entry := by
    intro v d found
    rw [parents_insert] at found
    by_cases here : v = cfg.entry
    · rw [here, Function.update_self] at found
      exact ⟨here, (some.inj found).symm⟩
    · rw [Function.update_of_ne here] at found
      exact absurd found (by simp)
  have rootSelf : parents ((∅ : HashMap Nat Nat).insert cfg.entry cfg.entry) cfg.entry =
      some cfg.entry := AList.lookup_insert _
  have initial : DomApprox cfg.flow (rpoIndex rpo)
      (parents ((∅ : HashMap Nat Nat).insert cfg.entry cfg.entry)) := by
    refine ⟨rootSelf, fun b d found => ?_, fun b d found notRoot => ?_, fun b d found => ?_,
      fun b d found a sdom => ?_⟩
    · rw [(rootMap b d found).1]
      exact Graph.Reach.root
    · exact absurd (rootMap b d found).1 notRoot
    · rw [(rootMap b d found).2, rootSelf]
      rfl
    · rw [(rootMap b d found).1] at sdom
      exact absurd (Graph.dom_root_iff.mp sdom.1) sdom.2
  obtain ⟨⟨idom, flag⟩, run, approx, total⟩ := foldlM_processBlock_total consistent order
    rpo.tail [cfg.entry] ((∅ : HashMap Nat Nat).insert cfg.entry cfg.entry, false)
    (eq_root_cons order) (by simp)
    (fun v mem => by
      rw [mem_singleton.mp mem]
      exact isSome_iff_exists.mpr ⟨_, rootSelf⟩) initial
  -- no path has zero vertices, so the first sweep leaves level zero
  have swept : Swept cfg rpo 0 idom :=
    ⟨approx, fun v reach => total v ((order.mem_iff v).mpr reach),
      fun v _ a l path short => absurd (length_eq_zero_iff.mp (Nat.le_zero.mp short)) path.ne_nil⟩
  have run' : DomTree.sweep cfg rpo ((∅ : HashMap Nat Nat).insert cfg.entry cfg.entry) =
      some (idom, flag) := run
  unfold computeIdom
  rw [whileChanged, ← rpoDef, run']
  have again := whileChanged_spec consistent order (rpo.length + 1) 0 _ swept (by omega) (by omega)
  cases flag with
  | true => exact again
  | false =>
    have same := sweep_fst_of_unchanged run' rfl
    rw [← same] at run'
    rw [whileChanged, run'] at again
    exact again

end R2Sleigh.Ssa.DomTree
