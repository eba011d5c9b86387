import R2Sleigh.Ssa.Frontier

/-!
Contract: the worklist that iterates the frontier.

The closure can be larger than the iterated dominance frontier: an unreachable
block that branches to a join has it in its frontier too.
-/

namespace R2Sleigh.Ssa.DomTree

open Flow Lib List

/-- The closure of `frontier` over a set of blocks. -/
inductive FrontierClosure (tree : DomTree) (blocks : List Nat) : Nat → Prop
  | base {x y : Nat} : x ∈ blocks → y ∈ tree.frontier x → FrontierClosure tree blocks y
  | step {x y : Nat} : FrontierClosure tree blocks x → y ∈ tree.frontier x →
      FrontierClosure tree blocks y

/-- The worklist loop: everything found belongs to the closure, and everything
known was processed or waits. -/
structure IteratedState (tree : DomTree) (blocks worklist processed result : List Nat) :
    Prop where
  nodup : result.Nodup
  found : ∀ y ∈ result, FrontierClosure tree blocks y
  waiting : ∀ x ∈ worklist, x ∈ blocks ∨ x ∈ result
  kept : ∀ x, x ∈ blocks ∨ x ∈ result → x ∈ processed ∨ x ∈ worklist
  closed : ∀ x ∈ processed, ∀ y ∈ tree.frontier x, y ∈ result

theorem IteratedState.skip {tree : DomTree} {blocks rest processed result : List Nat} {block : Nat}
    (state : IteratedState tree blocks (rest ++ [block]) processed result)
    (done : block ∈ processed) : IteratedState tree blocks rest processed result := by
  refine ⟨state.nodup, state.found, fun x inside => state.waiting x (mem_append_left _ inside),
    fun x known => ?_, state.closed⟩
  rcases state.kept x known with inside | inside
  · exact .inl inside
  · rcases mem_append.mp inside with inside | inside
    · exact .inr inside
    · exact .inl (mem_singleton.mp inside ▸ done)

theorem IteratedState.length_le {tree : DomTree} {blocks worklist processed result : List Nat}
    (state : IteratedState tree blocks worklist processed result) :
    result.length ≤ (tree.frontierMap.entries.flatMap fun entry => entry.2).length := by
  refine (subperm_of_subset state.nodup fun y inside => ?_).length_le
  have inMap : ∀ x, y ∈ tree.frontier x → y ∈ tree.frontierMap.entries.flatMap fun e => e.2 := by
    intro x inFrontier
    rw [frontier, mem_insertionSort, HashMap.listAt] at inFrontier
    cases stored : tree.frontierMap.lookup x with
    | none => rw [stored] at inFrontier; simp at inFrontier
    | some blocks =>
      rw [stored, Option.getD_some] at inFrontier
      exact mem_flatMap.mpr ⟨⟨x, blocks⟩, AList.mem_lookup_iff.mp stored, inFrontier⟩
  cases state.found y inside with
  | base _ inFrontier | step _ inFrontier => exact inMap _ inFrontier

namespace Computed

variable {cfg : CFG} {tree : DomTree} (spec : Computed cfg tree)
include spec

private theorem iteratedState_step {blocks rest processed result : List Nat} {block : Nat}
    (state : IteratedState tree blocks (rest ++ [block]) processed result) :
    let fresh := (tree.frontier block).reverse.filter (· ∉ result)
    IteratedState tree blocks (rest ++ fresh) (block :: processed) (result ++ fresh) := by
  have memberFresh : ∀ y, y ∈ (tree.frontier block).reverse.filter (· ∉ result) ↔
      y ∈ tree.frontier block ∧ y ∉ result := by simp
  have blockKnown := state.waiting block (by simp)
  refine ⟨?_, ?_, ?_, ?_, ?_⟩
  · rw [nodup_append]
    refine ⟨state.nodup, (nodup_reverse.mpr (spec.frontier_nodup block)).filter _, ?_⟩
    intro x inResult y inFresh same
    exact ((memberFresh y).mp inFresh).2 (same ▸ inResult)
  · intro y inside
    rcases mem_append.mp inside with inside | inside
    · exact state.found y inside
    · have inFrontier := ((memberFresh y).mp inside).1
      rcases blockKnown with isBase | isFound
      · exact .base isBase inFrontier
      · exact .step (state.found block isFound) inFrontier
  · intro x inside
    rcases mem_append.mp inside with inside | inside
    · rcases state.waiting x (mem_append_left _ inside) with isBase | isFound
      · exact .inl isBase
      · exact .inr (mem_append_left _ isFound)
    · exact .inr (mem_append_right _ inside)
  · have old : ∀ x, x ∈ processed ∨ x ∈ rest ++ [block] → x ∈ block :: processed ∨
        x ∈ rest ++ (tree.frontier block).reverse.filter (· ∉ result) := by
      rintro x (inside | inside)
      · exact .inl (mem_cons_of_mem _ inside)
      · rcases mem_append.mp inside with inside | inside
        · exact .inr (mem_append_left _ inside)
        · exact .inl (mem_singleton.mp inside ▸ mem_cons_self)
    rintro x (isBase | inside)
    · exact old x (state.kept x (.inl isBase))
    · rcases mem_append.mp inside with inside | inside
      · exact old x (state.kept x (.inr inside))
      · exact .inr (mem_append_right _ inside)
  · intro x inside y inFrontier
    rcases mem_cons.mp inside with rfl | inside
    · by_cases known : y ∈ result
      · exact mem_append_left _ known
      · exact mem_append_right _ ((memberFresh y).mpr ⟨inFrontier, known⟩)
    · exact mem_append_left _ (state.closed x inside y inFrontier)

private theorem iteratedFrontierLoop_spec {blocks : List Nat} (fuel : Nat) :
    ∀ worklist processed result, IteratedState tree blocks worklist processed result →
      worklist.length + (tree.frontierMap.entries.flatMap fun entry => entry.2).length <
        result.length + fuel →
      ∃ final done, tree.iteratedFrontierLoop fuel worklist processed result = some final ∧
        IteratedState tree blocks [] done final := by
  induction fuel with
  | zero =>
    intro worklist processed result state enough
    have := state.length_le
    omega
  | succ fuel ih =>
    intro worklist processed result state enough
    rw [iteratedFrontierLoop]
    rcases eq_nil_or_concat worklist with rfl | ⟨rest, block, rfl⟩
    · exact ⟨result, processed, rfl, state⟩
    rw [concat_eq_append] at state enough ⊢
    simp only [List.getLast?_append, List.getLast?_singleton, Option.some_or, dropLast_concat]
    rw [length_append, length_singleton] at enough
    by_cases seen : block ∈ processed
    · rw [if_pos seen]
      exact ih rest processed result (state.skip seen) (by omega)
    · rw [if_neg seen]
      refine ih _ _ _ (spec.iteratedState_step state) ?_
      rw [length_append, length_append]
      omega

theorem mem_iteratedFrontier_iff {blocks : List Nat} {y : Nat} :
    y ∈ tree.iteratedFrontier blocks ↔ FrontierClosure tree blocks y := by
  have initial : IteratedState tree blocks (blocks.insertionSort (· ≥ ·)) [] [] :=
    ⟨nodup_nil, by simp, by simp, by simp, by simp⟩
  obtain ⟨final, done, run, state⟩ := spec.iteratedFrontierLoop_spec
    (blocks.length + (tree.frontierMap.entries.flatMap fun entry => entry.2).length + 1)
    _ _ _ initial (by rw [length_insertionSort, length_nil]; omega)
  have result : tree.iteratedFrontier blocks = final := by
    rw [iteratedFrontier, run, Option.getD_some]
  rw [result]
  have processed : ∀ x, x ∈ blocks ∨ x ∈ final → x ∈ done := by
    intro x known
    simpa using state.kept x known
  refine ⟨state.found y, fun closure => ?_⟩
  induction closure with
  | base isBase inFrontier => exact state.closed _ (processed _ (.inl isBase)) _ inFrontier
  | step _ inFrontier ih =>
    exact state.closed _ (processed _ (.inr ih)) _ inFrontier

end Computed

end R2Sleigh.Ssa.DomTree
