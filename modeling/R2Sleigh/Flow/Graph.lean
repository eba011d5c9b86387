import Mathlib.Data.List.Nodup
import Mathlib.Data.Nat.Find

/-!
Contract: paths, reachability and dominance in a rooted directed graph.

Does not own: any algorithm. Vertices are an arbitrary type and edges an
arbitrary relation; finiteness enters only where a bound on the length of a
simple path is needed.
-/

namespace R2Sleigh.Flow

open List

universe u

/-- A directed graph with a distinguished root. -/
structure Graph (V : Type u) where
  root : V
  edge : V → V → Prop

namespace Graph

variable {V : Type u} (g : Graph V)

/-- `g.PathTo b l`: the vertices of `l`, read from the back, form a path from
the root to `b`. -/
inductive PathTo : V → List V → Prop where
  | root : PathTo g.root [g.root]
  | snoc {p b : V} {l : List V} : PathTo p l → g.edge p b → PathTo b (b :: l)

/-- Some path leads from the root to `b`. -/
def Reach (b : V) : Prop := ∃ l, g.PathTo b l

/-- Every path from the root to `b` passes through `a`. -/
def Dom (a b : V) : Prop := ∀ l, g.PathTo b l → a ∈ l

/-- Strict dominance. -/
def SDom (a b : V) : Prop := g.Dom a b ∧ a ≠ b

/-- `d` is the closest strict dominator of `b`. -/
structure IsIdom (d b : V) : Prop where
  sdom : g.SDom d b
  closest : ∀ a, g.SDom a b → g.Dom a d

/-- Dominance frontier: `y` joins a path that `x` controls with one it does
not. Only reachable predecessors count, dominance being a notion on them. -/
def InFrontier (x y : V) : Prop := (∃ p, g.Reach p ∧ g.edge p y ∧ g.Dom x p) ∧ ¬ g.SDom x y

inductive InIteratedFrontier (s : V → Prop) : V → Prop where
  | base {x y : V} : s x → g.InFrontier x y → InIteratedFrontier s y
  | step {x y : V} : InIteratedFrontier s x → g.InFrontier x y → InIteratedFrontier s y

variable {g}

theorem Reach.root : g.Reach g.root := ⟨_, .root⟩

theorem Reach.step {p b : V} (reach : g.Reach p) (edge : g.edge p b) : g.Reach b := by
  obtain ⟨l, path⟩ := reach
  exact ⟨_, .snoc path edge⟩

theorem Reach.induction {motive : V → Prop} (root : motive g.root)
    (step : ∀ p b, g.Reach p → motive p → g.edge p b → motive b)
    {b : V} (reach : g.Reach b) : motive b := by
  obtain ⟨l, path⟩ := reach
  induction path with
  | root => exact root
  | snoc path edge ih =>
    exact step _ _ ⟨_, path⟩ ih edge

namespace PathTo

variable {l : List V}

theorem ne_nil {b : V} (path : g.PathTo b l) : l ≠ [] := by
  cases path <;> simp

theorem mem_self {b : V} (path : g.PathTo b l) : b ∈ l := by
  cases path <;> simp

theorem tail {b p : V} {rest : List V} (path : g.PathTo b (b :: p :: rest)) :
    g.PathTo p (p :: rest) := by
  cases path with
  | snoc shorter _ =>
    cases shorter with
    | root => exact .root
    | snoc shorter' edge => exact .snoc shorter' edge

theorem root_mem {b : V} (path : g.PathTo b l) : g.root ∈ l := by
  induction path with
  | root => simp
  | snoc _ _ ih => exact mem_cons_of_mem _ ih

theorem cut {a b : V} (path : g.PathTo b l) (mem : a ∈ l) :
    ∃ later earlier, l = later ++ earlier ∧ g.PathTo a earlier := by
  induction path with
  | root =>
    rw [mem_singleton] at mem
    subst mem
    exact ⟨[], _, rfl, .root⟩
  | @snoc p b l path edge ih =>
    rcases mem_cons.mp mem with rfl | mem
    · exact ⟨[], _, rfl, .snoc path edge⟩
    · obtain ⟨later, earlier, rfl, shorter⟩ := ih mem
      exact ⟨b :: later, earlier, rfl, shorter⟩

theorem append_of_cut {a b : V} {later earlier earlier' : List V}
    (path : g.PathTo b (later ++ earlier)) (cut : g.PathTo a earlier)
    (other : g.PathTo a earlier') : g.PathTo b (later ++ earlier') := by
  induction later generalizing b with
  | nil =>
    have same : b = a := by
      cases path <;> cases cut <;> rfl
    subst same
    exact other
  | cons c later ih =>
    generalize whole : c :: later ++ earlier = l at path
    cases path with
    | root =>
      rw [cons_append, List.cons.injEq, append_eq_nil_iff] at whole
      exact absurd whole.2.2 cut.ne_nil
    | snoc shorter edge =>
      obtain ⟨rfl, rfl⟩ := whole
      exact .snoc (ih shorter) edge

theorem reach_of_mem {a b : V} (path : g.PathTo b l) (mem : a ∈ l) :
    g.Reach a := by
  obtain ⟨_, earlier, _, shorter⟩ := path.cut mem
  exact ⟨earlier, shorter⟩

theorem last_edge {b : V} (path : g.PathTo b l) (notRoot : b ≠ g.root) :
    ∃ p rest, l = b :: rest ∧ g.PathTo p rest ∧ g.edge p b := by
  cases path with
  | root => exact absurd rfl notRoot
  | snoc shorter edge => exact ⟨_, _, rfl, shorter, edge⟩

theorem exists_nodup [DecidableEq V] {b : V} (path : g.PathTo b l) :
    ∃ l', g.PathTo b l' ∧ l'.Nodup ∧ l' ⊆ l := by
  induction path with
  | root => exact ⟨_, .root, nodup_singleton _, List.Subset.refl _⟩
  | @snoc p b l path edge ih =>
    obtain ⟨l', shorter, nodup, subset⟩ := ih
    by_cases mem : b ∈ l'
    · -- the new vertex was visited already: go no further than that visit
      obtain ⟨later, earlier, rfl, again⟩ := shorter.cut mem
      refine ⟨earlier, again, nodup.of_append_right, fun x inEarlier => ?_⟩
      exact mem_cons_of_mem _ (subset (mem_append_right _ inEarlier))
    · exact ⟨b :: l', .snoc shorter edge, nodup.cons mem, cons_subset_cons _ subset⟩

/-- A path that meets a set has a part that leads to one of its members and to no
other. -/
theorem exists_first {inside : V → Prop} {b x : V} (path : g.PathTo b l)
    (mem : x ∈ l) (isInside : inside x) :
    ∃ h l', inside h ∧ g.PathTo h l' ∧ ∀ y ∈ l', inside y → y = h := by
  induction path generalizing x with
  | root =>
    obtain rfl := mem_singleton.mp mem
    exact ⟨_, _, isInside, .root, fun y mem _ => mem_singleton.mp mem⟩
  | @snoc p b l path edge ih =>
    by_cases earlier : ∃ y ∈ l, inside y
    · obtain ⟨y, mem, isInside⟩ := earlier
      exact ih mem isInside
    · rcases mem_cons.mp mem with rfl | mem
      · refine ⟨x, x :: l, isInside, .snoc path edge, fun y mem isInside => ?_⟩
        exact (mem_cons.mp mem).resolve_right fun mem => earlier ⟨y, mem, isInside⟩
      · exact absurd ⟨x, mem, isInside⟩ earlier

end PathTo

/-! ## The dominance order -/

theorem Dom.refl (b : V) : g.Dom b b := fun _ path => path.mem_self

theorem Dom.root (b : V) : g.Dom g.root b := fun _ path => path.root_mem

theorem Dom.trans {a b c : V} (first : g.Dom a b) (second : g.Dom b c) : g.Dom a c := by
  intro l path
  obtain ⟨later, earlier, rfl, shorter⟩ := path.cut (second l path)
  exact mem_append_right _ (first earlier shorter)

theorem Dom.reach {a b : V} (dom : g.Dom a b) (reach : g.Reach b) : g.Reach a := by
  obtain ⟨l, path⟩ := reach
  exact path.reach_of_mem (dom l path)

theorem dom_root_iff {a : V} : g.Dom a g.root ↔ a = g.root := by
  constructor
  · intro dom
    simpa using dom _ .root
  · rintro rfl
    exact Dom.refl _

theorem SDom.dom_pred {a p b : V} (sdom : g.SDom a b) (edge : g.edge p b) : g.Dom a p := by
  intro l path
  rcases mem_cons.mp (sdom.1 _ (.snoc path edge)) with equal | mem
  · exact absurd equal sdom.2
  · exact mem

theorem dom_of_preds {a b : V} (notRoot : b ≠ g.root)
    (preds : ∀ p, g.Reach p → g.edge p b → g.Dom a p) : g.Dom a b := by
  intro l path
  obtain ⟨p, rest, rfl, shorter, edge⟩ := path.last_edge notRoot
  exact mem_cons_of_mem _ (preds p ⟨_, shorter⟩ edge rest shorter)

theorem exists_avoiding_of_not_dom {a b : V} (notDom : ¬ g.Dom a b) :
    ∃ l, g.PathTo b l ∧ a ∉ l := by
  simpa [Dom] using notDom

/-- Dominance is antisymmetric on reachable vertices: on a path to `a` of
minimal length the other vertex cannot occur. -/
theorem Dom.antisymm {a b : V} (reach : g.Reach a) (first : g.Dom a b) (second : g.Dom b a) :
    a = b := by
  by_contra different
  obtain ⟨l, path⟩ := reach
  induction hlen : l.length using Nat.strongRecOn generalizing l with
  | _ n ih =>
    subst hlen
    obtain ⟨_, earlierB, equal, toB⟩ := path.cut (second l path)
    obtain ⟨laterA, earlierA, equal', toA⟩ := toB.cut (first _ toB)
    have shorter : earlierA.length < l.length := by
      rw [equal, equal']
      rcases laterA with _ | ⟨head, tail⟩
      · -- the two cuts coincide only if the two vertices do
        subst equal'
        have headA : earlierB.head? = some a := by cases toA <;> rfl
        have headB : earlierB.head? = some b := by cases toB <;> rfl
        rw [headA] at headB
        exact absurd (Option.some.inj headB) different
      · simp
        omega
    exact ih _ shorter earlierA toA rfl

/-- The dominators of one reachable vertex are totally ordered. -/
theorem Dom.total {a b c : V} (reach : g.Reach c) (first : g.Dom a c) (second : g.Dom b c) :
    g.Dom a b ∨ g.Dom b a := by
  by_contra neither
  rw [not_or] at neither
  obtain ⟨toB, pathB, avoidsA⟩ := exists_avoiding_of_not_dom neither.1
  obtain ⟨toA, pathA, avoidsB⟩ := exists_avoiding_of_not_dom neither.2
  -- follow any path to `c` from its last visit of `a` or `b`
  have key : ∀ x l, g.PathTo x l → a ∈ l → b ∈ l →
      (∃ l', g.PathTo x l' ∧ a ∉ l') ∨ ∃ l', g.PathTo x l' ∧ b ∉ l' := by
    intro x l path
    induction path with
    | root =>
      intro memberA memberB
      rw [mem_singleton] at memberA memberB
      subst memberA
      exact absurd pathB.root_mem avoidsA
    | @snoc p x l path edge ih =>
      intro memberA memberB
      by_cases isA : x = a
      · subst isA
        exact .inr ⟨toA, pathA, avoidsB⟩
      by_cases isB : x = b
      · subst isB
        exact .inl ⟨toB, pathB, avoidsA⟩
      have innerA := (mem_cons.mp memberA).resolve_left (Ne.symm isA)
      have innerB := (mem_cons.mp memberB).resolve_left (Ne.symm isB)
      rcases ih innerA innerB with ⟨l', shorter, avoids⟩ | ⟨l', shorter, avoids⟩
      · exact .inl ⟨x :: l', .snoc shorter edge, by simp [Ne.symm isA, avoids]⟩
      · exact .inr ⟨x :: l', .snoc shorter edge, by simp [Ne.symm isB, avoids]⟩
  obtain ⟨l, path⟩ := reach
  rcases key c l path (first l path) (second l path) with ⟨l', other, avoids⟩ | ⟨l', other, avoids⟩
  · exact avoids (first l' other)
  · exact avoids (second l' other)

theorem IsIdom.unique {d d' b : V} (reach : g.Reach b) (first : g.IsIdom d b)
    (second : g.IsIdom d' b) : d = d' :=
  Dom.antisymm (first.sdom.1.reach reach) (second.closest d first.sdom)
    (first.closest d' second.sdom)

theorem IsIdom.dom_pred {d p b : V} (idom : g.IsIdom d b) (edge : g.edge p b) : g.Dom d p :=
  idom.sdom.dom_pred edge

/-! ## Depth -/

end Graph

end R2Sleigh.Flow
