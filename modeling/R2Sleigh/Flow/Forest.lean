import Mathlib.Data.List.Perm.Subperm
import R2Sleigh.Flow.Graph

/-!
Contract: parent maps that approximate the dominator tree of a graph.

Owns `Climbs`, `DomApprox` and `SeparatedTo`.

Does not own: how the new parent of a vertex is found. A step is any
replacement of one parent by a vertex above all the predecessors seen so far
(`NewParent`), so the results apply to every order of steps.
-/

namespace R2Sleigh.Flow

open Option

universe u

variable {V : Type u}

/-- Following the parent map `up` from `b` one meets `a`. -/
inductive Climbs (up : V → Option V) : V → V → Prop where
  | here (b : V) : Climbs up b b
  | up {b d a : V} : up b = some d → Climbs up d a → Climbs up b a

namespace Climbs

variable {up : V → Option V}

theorem trans {b c a : V} (first : Climbs up b c) (second : Climbs up c a) : Climbs up b a := by
  induction first with
  | here => exact second
  | up parent _ ih => exact .up parent (ih second)

theorem parent {b d : V} (parent : up b = some d) : Climbs up b d := .up parent (.here d)

private theorem of_ne {b d a : V} (climbs : Climbs up b a) (different : a ≠ b)
    (parent : up b = some d) : Climbs up d a := by
  cases climbs with
  | here => exact absurd rfl different
  | up parent' rest =>
    rw [parent] at parent'
    rw [some.inj parent']
    exact rest

private theorem eq_of_root {r a : V} (root : up r = some r) (climbs : Climbs up r a) : a = r := by
  induction climbs with
  | here => rfl
  | up parent _ ih =>
    rw [root] at parent
    cases parent
    exact ih root

variable [DecidableEq V]

/-- What is met after `b₀` got a new parent was met before, or lies above the
new parent. -/
theorem of_update {b₀ new b a : V} (climbs : Climbs (Function.update up b₀ (some new)) b a) :
    Climbs up b a ∨ (Climbs up b b₀ ∧ Climbs up new a) := by
  induction climbs with
  | here b => exact .inl (.here b)
  | @up b d a parent rest ih =>
    by_cases here : b = b₀
    · subst here
      rw [Function.update_self] at parent
      cases parent
      rcases ih with old | ⟨_, old⟩
      · exact .inr ⟨.here b, old⟩
      · exact .inr ⟨.here b, old⟩
    · rw [Function.update_of_ne here] at parent
      rcases ih with old | ⟨toB, old⟩
      · exact .inl (.up parent old)
      · exact .inr ⟨.up parent toB, old⟩

private theorem of_update_self {b₀ new a : V}
    (climbs : Climbs (Function.update up b₀ (some new)) b₀ a) (different : a ≠ b₀) :
    Climbs up new a := by
  have rest := climbs.of_ne different (Function.update_self b₀ (some new) up)
  rcases rest.of_update with old | ⟨_, old⟩
  · exact old
  · exact old

end Climbs

/-- A parent map over some of the reachable vertices in which every strict
dominator of a vertex dominates its parent, and parents have smaller rank. -/
structure DomApprox (g : Graph V) (rank : V → Nat) (up : V → Option V) : Prop where
  root : up g.root = some g.root
  reach : ∀ b d, up b = some d → g.Reach b
  rank_lt : ∀ b d, up b = some d → b ≠ g.root → rank d < rank b
  parent : ∀ b d, up b = some d → (up d).isSome
  above : ∀ b d, up b = some d → ∀ a, g.SDom a b → g.Dom a d

/-- `new` is a possible parent of `b` given the current map: it lies above
every processed predecessor and below every strict dominator. -/
structure NewParent (g : Graph V) (rank : V → Nat) (up : V → Option V) (b new : V) : Prop where
  notRoot : b ≠ g.root
  reach : g.Reach b
  rank_lt : rank new < rank b
  parent : (up new).isSome
  above : ∀ a, g.SDom a b → g.Dom a new
  common : ∀ p, g.edge p b → (up p).isSome → Climbs up p new

/-- Paths of at most `k` vertices are accounted for at `b`: a vertex that one
of them avoids is not above `b`. -/
def SeparatedTo (g : Graph V) (up : V → Option V) (k : Nat) (b : V) : Prop :=
  ∀ a l, g.PathTo b l → l.length ≤ k → a ∉ l → ¬ Climbs up b a

/-- One step raises the level of its vertex and lowers no other. The levels
`level` may differ by one while a sweep is under way. -/
theorem SeparatedTo.update [DecidableEq V] {g : Graph V} {rank : V → Nat} {up : V → Option V}
    (level : V → Nat) (total : ∀ b, g.Reach b → (up b).isSome) {k : Nat}
    (low : ∀ b, k ≤ level b) (high : ∀ b, level b ≤ k + 1)
    (separated : ∀ b, g.Reach b → SeparatedTo g up (level b) b) {b₀ new : V}
    (step : NewParent g rank up b₀ new) :
    ∀ b, g.Reach b → SeparatedTo g (Function.update up b₀ (some new))
      (Function.update level b₀ (k + 1) b) b := by
  -- a path to `b₀` avoiding `a` keeps `a` off everything above the new parent
  have offNew : ∀ a l, g.PathTo b₀ l → l.length ≤ k + 1 → a ∉ l → ¬ Climbs up new a := by
    intro a l path short avoids climbs
    obtain ⟨p, rest, rfl, shorter, edge⟩ := path.last_edge step.notRoot
    have reachP : g.Reach p := ⟨rest, shorter⟩
    have fits : rest.length ≤ level p := Nat.le_trans (Nat.le_of_succ_le_succ short) (low p)
    refine separated p reachP a rest shorter fits (fun inside => ?_)
      ((step.common p edge (total p reachP)).trans climbs)
    exact avoids (List.mem_cons_of_mem _ inside)
  intro b reach a l path short avoids climbs
  by_cases here : b = b₀
  · subst here
    rw [Function.update_self] at short
    have different : a ≠ b := by
      rintro rfl
      exact avoids path.mem_self
    exact offNew a l path short avoids (climbs.of_update_self different)
  · rw [Function.update_of_ne here] at short
    rcases climbs.of_update with old | ⟨toB, aboveNew⟩
    · exact separated b reach a l path short avoids old
    · by_cases through : b₀ ∈ l
      · obtain ⟨later, earlier, rfl, toB₀⟩ := path.cut through
        refine offNew a earlier toB₀ ?_ (fun inside => avoids (List.mem_append_right _ inside))
          aboveNew
        have := high b
        rw [List.length_append] at short
        omega
      · exact separated b reach b₀ l path short through toB

namespace DomApprox

variable {g : Graph V} {rank : V → Nat} {up : V → Option V}

section

variable (approx : DomApprox g rank up)
include approx

theorem climbs_of_dom {a b : V} (processed : (up b).isSome)
    (dom : g.Dom a b) : Climbs up b a := by
  induction hrank : rank b using Nat.strongRecOn generalizing b with
  | _ n ih =>
    subst hrank
    by_cases same : a = b
    · rw [same]
      exact .here b
    obtain ⟨d, parent⟩ := isSome_iff_exists.mp processed
    have notRoot : b ≠ g.root := by
      rintro rfl
      exact same (Graph.dom_root_iff.mp dom)
    exact .up parent (ih _ (approx.rank_lt b d parent notRoot)
      (approx.parent b d parent) (approx.above b d parent a ⟨dom, same⟩) rfl)

theorem rank_le_of_climbs {a b : V} (climbs : Climbs up b a) :
    rank a ≤ rank b := by
  induction climbs with
  | here => exact Nat.le_refl _
  | @up b d a parent rest ih =>
    by_cases isRoot : b = g.root
    · subst isRoot
      rw [approx.root] at parent
      rw [some.inj parent]
      exact ih
    · exact Nat.le_trans ih (Nat.le_of_lt (approx.rank_lt b d parent isRoot))

theorem processed_of_climbs {a b : V}
    (processed : (up b).isSome) (climbs : Climbs up b a) : (up a).isSome := by
  induction climbs with
  | here => exact processed
  | @up b d a parent _ ih =>
    exact ih (approx.parent b d parent)

theorem separatedTo_root (k : Nat) :
    SeparatedTo g up k g.root := by
  intro a l path _ avoids climbs
  rw [climbs.eq_of_root approx.root] at avoids
  exact avoids path.root_mem

theorem isIdom_of_exact
    (exact : ∀ b, g.Reach b → ∀ a, Climbs up b a ↔ g.Dom a b) {b d : V}
    (parent : up b = some d) (notRoot : b ≠ g.root) : g.IsIdom d b where
  sdom := by
    refine ⟨(exact b (approx.reach b d parent) d).mp (.parent parent), ?_⟩
    rintro rfl
    exact Nat.lt_irrefl _ (approx.rank_lt d d parent notRoot)
  closest := approx.above b d parent

end

variable [DecidableEq V]

theorem update (approx : DomApprox g rank up) {b new : V}
    (step : NewParent g rank up b new) :
    DomApprox g rank (Function.update up b (some new)) where
  root := by
    rw [Function.update_of_ne step.notRoot.symm]
    exact approx.root
  reach c d parent := by
    by_cases here : c = b
    · rw [here]
      exact step.reach
    · rw [Function.update_of_ne here] at parent
      exact approx.reach c d parent
  rank_lt c d parent notRoot := by
    by_cases here : c = b
    · subst here
      rw [Function.update_self] at parent
      rw [← some.inj parent]
      exact step.rank_lt
    · rw [Function.update_of_ne here] at parent
      exact approx.rank_lt c d parent notRoot
  parent c d parent := by
    by_cases target : d = b
    · rw [target, Function.update_self]
      rfl
    rw [Function.update_of_ne target]
    by_cases here : c = b
    · subst here
      rw [Function.update_self] at parent
      rw [← some.inj parent]
      exact step.parent
    · rw [Function.update_of_ne here] at parent
      exact approx.parent c d parent
  above c d parent a sdom := by
    by_cases here : c = b
    · subst here
      rw [Function.update_self] at parent
      rw [← some.inj parent]
      exact step.above a sdom
    · rw [Function.update_of_ne here] at parent
      exact approx.above c d parent a sdom

theorem climbs_iff_dom (approx : DomApprox g rank up)
    (total : ∀ b, g.Reach b → (up b).isSome) {order : List V}
    (finite : ∀ b, g.Reach b → b ∈ order)
    (separated : ∀ b, g.Reach b → SeparatedTo g up order.length b) {a b : V}
    (reach : g.Reach b) : Climbs up b a ↔ g.Dom a b := by
  refine ⟨fun climbs => ?_, approx.climbs_of_dom (total b reach)⟩
  by_contra notDom
  obtain ⟨l, path, avoids⟩ := Graph.exists_avoiding_of_not_dom notDom
  obtain ⟨l', simple, nodup, subset⟩ := path.exists_nodup
  have bounded : l'.length ≤ order.length := by
    refine (List.subperm_of_subset nodup fun x mem => ?_).length_le
    exact finite x (simple.reach_of_mem mem)
  exact separated b reach a l' simple bounded (fun inside => avoids (subset inside)) climbs

end DomApprox

end R2Sleigh.Flow
