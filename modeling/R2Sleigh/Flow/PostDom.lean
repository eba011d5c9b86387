import Mathlib.Data.List.Basic

/-!
Contract: post-dominance in a directed graph given by lists of successors.
-/

namespace R2Sleigh.Flow

variable {V : Type} (succs : V → List V)

/-- The vertices of a path to a vertex without successors. -/
inductive ExitPath : V → List V → Prop where
  | exit {b : V} : succs b = [] → ExitPath b [b]
  | step {b s : V} {l : List V} : s ∈ succs b → ExitPath s l → ExitPath b (b :: l)

/-- Every path from `b` to an exit passes through `p`. -/
def PostDom (p b : V) : Prop := ∀ l, ExitPath succs b l → p ∈ l

variable {succs} {p b s : V}

theorem PostDom.eq_of_exit (postDom : PostDom succs p b) (exit : succs b = []) : p = b :=
  List.mem_singleton.mp (postDom [b] (.exit exit))

theorem PostDom.of_edge (postDom : PostDom succs p b) (other : p ≠ b) (edge : s ∈ succs b) :
    PostDom succs p s := fun l path =>
  (List.mem_cons.mp (postDom (b :: l) (.step edge path))).resolve_left other

/-- A set that holds, besides its own vertex, only what the sets of all successors hold,
holds post-dominators only. -/
theorem ExitPath.mem_of_sets (inside : V → Prop) (sets : V → V → Prop)
    (closed : ∀ b, inside b → ∀ s ∈ succs b, inside s)
    (exits : ∀ b, inside b → succs b = [] → ∀ p, sets b p → p = b)
    (edges : ∀ b, inside b → ∀ p, sets b p → p ≠ b → ∀ s ∈ succs b, sets s p)
    {l : List V} (path : ExitPath succs b l) (isInside : inside b) (mem : sets b p) :
    p ∈ l := by
  induction path with
  | @exit b none =>
    rw [exits b isInside none p mem]
    exact List.mem_cons_self
  | @step b s l edge _ ih =>
    by_cases same : p = b
    · rw [same]
      exact List.mem_cons_self
    · exact List.mem_cons_of_mem _
        (ih (closed b isInside s edge) (edges b isInside p mem same s edge))

end R2Sleigh.Flow
