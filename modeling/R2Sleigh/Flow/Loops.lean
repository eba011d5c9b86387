import Mathlib.Logic.Relation
import R2Sleigh.Flow.Graph

/-!
Contract: back edges, natural loops and reducibility of a rooted graph.
-/

namespace R2Sleigh.Flow.Graph

open Relation

universe u

variable {V : Type u} (g : Graph V)

/-- An edge whose target dominates its source. -/
def BackEdge (s h : V) : Prop := g.edge s h ∧ g.Dom h s

/-- The edges other than back edges. -/
def forward : Graph V where
  root := g.root
  edge p b := g.edge p b ∧ ¬ g.Dom b p

def Reducible : Prop := ∀ v, ¬ TransGen g.forward.edge v v

/-- The header, and the vertices from which the source is reached without the header. -/
def NaturalLoop (h s v : V) : Prop :=
  v = h ∨ ReflTransGen (fun a b => g.edge a b ∧ a ≠ h ∧ b ≠ h) v s

variable {g}

theorem PathTo.of_forward {b : V} {l : List V} (path : g.forward.PathTo b l) : g.PathTo b l := by
  induction path with
  | root => exact .root
  | snoc _ edge ih => exact .snoc ih edge.1

theorem PathTo.reaches {a b : V} {l : List V} (path : g.PathTo b l) (mem : a ∈ l) :
    ReflTransGen g.edge a b := by
  induction path with
  | root => rw [List.mem_singleton.mp mem]
  | snoc _ edge ih =>
    rcases List.mem_cons.mp mem with rfl | mem
    · exact .refl
    · exact (ih mem).tail edge

theorem Reducible.backEdge (reducible : g.Reducible) {h s : V} {l : List V}
    (path : g.forward.PathTo s l) (mem : h ∈ l) (edge : g.edge s h) : g.BackEdge s h := by
  by_contra other
  exact reducible h (.tail' (path.reaches mem) ⟨edge, fun dom => other ⟨edge, dom⟩⟩)

end R2Sleigh.Flow.Graph
