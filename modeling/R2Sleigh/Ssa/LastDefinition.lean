import R2Sleigh.Ssa.Function

/-!
Contract: the last block on a path that sets a name.

Owns `setsName`.
-/

namespace R2Sleigh.Ssa

open Il Flow Lib List Option

variable {x : String} {v p : Nat} {l : List Nat}

def setsName (args : RenameArgs) (x : String) (b : Nat) : Bool :=
  ((args.phiPlacement.getPhis b).any fun phi => phi.varName = x) ||
    (bodyOps args b).any fun op => outputName args.regNames op = some x

/-- Every path to `p` and every path to `q` have the same last block that sets
the name. The last block of a path comes first in its list. -/
def AgreeOn (args : RenameArgs) (x : String) (p q : Nat) : Prop :=
  ∀ l l', args.cfg.flow.PathTo p l → args.cfg.flow.PathTo q l' →
    l.find? (setsName args x) = l'.find? (setsName args x)

/-- No path to `p` sets the name. -/
def Untouched (args : RenameArgs) (x : String) (p : Nat) : Prop :=
  ∀ l, args.cfg.flow.PathTo p l → l.find? (setsName args x) = none

/-! ## The last definition on a path -/

/-- The version of the last definition of `x` in a block. -/
def lastVersion (renamed : RenamedFunction) (x : String) (b : Nat) : Nat :=
  advance (fun _ => 0) (renamed.getBlock b) x

namespace Renamed

variable {args : RenameArgs} {init : RenameContext} {renamed : RenamedFunction}
  {final : RenameContext} {entered : Nat → RenameContext}
  (result : Renamed args init renamed final entered)
include result

theorem defsAt_unique {k w : Nat} (reachV : args.cfg.flow.Reach v)
    (reachW : args.cfg.flow.Reach w) (inV : (x, k) ∈ defsAt args v (entered v))
    (inW : (x, k) ∈ defsAt args w (entered w)) : v = w := by
  obtain ⟨visits, _, members, fresh⟩ := result.fresh
  by_contra different
  have symmetric : Std.Symm
      (Function.onFun List.Disjoint fun v => defsAt args v (entered v)) :=
    ⟨fun _ _ disjoint _ inSecond inFirst => disjoint inFirst inSecond⟩
  exact (nodup_flatMap.mp fresh.nodup).2.forall ((members v).mpr reachV)
    ((members w).mpr reachW) different inV inW

theorem defsAt_pos {k : Nat}
    (reach : args.cfg.flow.Reach v) (mem : (x, k) ∈ defsAt args v (entered v)) : 0 < k := by
  obtain ⟨visits, _, members, fresh⟩ := result.fresh
  have range := fresh.range x k (mem_flatMap.mpr ⟨v, (members v).mpr reach, mem⟩)
  exact Nat.lt_of_le_of_lt (Nat.zero_le _) range.1

private theorem exists_definition_above (spec : DomTree.IsTree args.cfg args.domtree)
    (initial : Initial init) (w : Nat) (reach : args.cfg.flow.Reach w) :
    (leave args w (entered w)).ctx.currentVersion x = 0 ∨
      ∃ e, args.cfg.flow.Dom e w ∧
        (x, (leave args w (entered w)).ctx.currentVersion x) ∈ defsAt args e (entered e) := by
  induction rank : DomTree.rpoIndex args.cfg.reversePostorder w using Nat.strongRecOn
    generalizing w with
  | ind n ih =>
    by_cases creates : renamed.Creates x w
    · refine .inr ⟨w, Graph.Dom.refl w, ?_⟩
      rw [← (leave_defines args w (entered w)).versions]
      exact advanceDefs_mem ((result.creates_iff reach).mp creates)
    rw [result.currentVersion_leave reach creates]
    by_cases isEntry : w = args.cfg.entry
    · subst isEntry
      exact .inl ((congrFun result.root.currentVersion x).trans (initial.currentVersion x))
    · obtain ⟨parent, idom⟩ := spec.exists_idom reach isEntry
      rw [(result.parent w parent idom).currentVersion]
      rcases ih _ (rank ▸ spec.rank_lt idom) parent (spec.reach_of_idom idom).2
        rfl with zero | ⟨e, dom, mem⟩
      · exact .inl zero
      · exact .inr ⟨e, dom.trans (spec.isIdom idom).sdom.1, mem⟩

section Last

variable (noBoundary : args.callBoundaries = none)
include noBoundary

theorem creates_iff_sets (reach : args.cfg.flow.Reach v) :
    renamed.Creates x v ↔ setsName args x v = true := by
  rw [result.creates_iff reach, defsAt, map_append, mem_append, List.map_map,
    show (Prod.fst ∘ fun var : SSAVar => (var.name, var.version)) = SSAVar.name from rfl,
    phiDsts_names, bodyOf, noBoundary, defsOf_renameOps_names, setsName, Bool.or_eq_true]
  simp [mem_filterMap]

theorem mem_defsAt_of_sets (reach : args.cfg.flow.Reach v)
    (sets : setsName args x v = true) : (x, lastVersion renamed x v) ∈ defsAt args v (entered v) := by
  rw [lastVersion, advance, result.defsOf_getBlock reach]
  exact advanceDefs_mem ((result.creates_iff reach).mp
    ((result.creates_iff_sets noBoundary reach).mpr sets))

theorem versionsAfter_eq_find (reach : ∀ v ∈ l, args.cfg.flow.Reach v) : versionsAfter renamed l x =
      ((l.find? (setsName args x)).map (lastVersion renamed x)).getD 0 := by
  induction l with
  | nil => rfl
  | cons b earlier ih =>
    have reachB := reach b mem_cons_self
    have earlierEq := ih fun v mem => reach v (mem_cons_of_mem _ mem)
    have created := (result.creates_iff reachB).symm.trans
      (result.creates_iff_sets noBoundary (x := x) reachB)
    rw [← result.defsOf_getBlock reachB] at created
    cases sets : setsName args x b with
    | true =>
      rw [List.find?_cons_of_pos sets, map_some, getD_some]
      exact advanceDefs_eq_of_mem (created.mpr sets)
    | false =>
      have absent : x ∉ (defsOf (renamed.getBlock b)).map Prod.fst := by
        rw [created, sets]
        simp
      rw [List.find?_cons_of_neg (by simp [sets]), ← earlierEq]
      exact advanceDefs_of_not_mem absent

/-- Paths with the same version at the end have the same last block that sets
the name. -/
theorem find_eq_of_versions {q : Nat} {l' : List Nat}
    (path : args.cfg.flow.PathTo p l) (path' : args.cfg.flow.PathTo q l')
    (same : versionsAfter renamed l x = versionsAfter renamed l' x) :
    l.find? (setsName args x) = l'.find? (setsName args x) := by
  have site : ∀ {p : Nat} {l : List Nat} {d : Nat}, args.cfg.flow.PathTo p l →
      l.find? (setsName args x) = some d → args.cfg.flow.Reach d ∧
        (x, lastVersion renamed x d) ∈ defsAt args d (entered d) ∧ 0 < lastVersion renamed x d := by
    intro p l d path found
    have reach := path.reach_of_mem (mem_of_find?_eq_some found)
    have mem := result.mem_defsAt_of_sets noBoundary reach (List.find?_some found)
    exact ⟨reach, mem, result.defsAt_pos reach mem⟩
  rw [result.versionsAfter_eq_find noBoundary fun v => path.reach_of_mem,
    result.versionsAfter_eq_find noBoundary fun v => path'.reach_of_mem] at same
  cases found : l.find? (setsName args x) with
  | none =>
    cases found' : l'.find? (setsName args x) with
    | none => rfl
    | some d' =>
      have := (site path' found').2.2
      simp [found, found'] at same
      omega
  | some d =>
    obtain ⟨reach, mem, positive⟩ := site path found
    cases found' : l'.find? (setsName args x) with
    | none =>
      simp [found, found'] at same
      omega
    | some d' =>
      obtain ⟨reach', member', _⟩ := site path' found'
      simp only [found, found', map_some, getD_some] at same
      rw [← same] at member'
      rw [result.defsAt_unique reach reach' mem member']

/-- Where the paths agree, the renaming ends with the version of their last
block. -/
theorem currentVersion_of_agree (spec : DomTree.IsTree args.cfg args.domtree)
    (initial : Initial init) (agree : AgreeOn args x p p) (path : args.cfg.flow.PathTo p l) :
    (leave args p (entered p)).ctx.currentVersion x = versionsAfter renamed l x := by
  have reach : args.cfg.flow.Reach p := ⟨l, path⟩
  rw [result.versionsAfter_eq_find noBoundary fun v => path.reach_of_mem]
  cases found : l.find? (setsName args x) with
  | none =>
    have clear : ∀ w, args.cfg.flow.Dom w p → ¬ renamed.Creates x w := by
      intro w dom
      rw [result.creates_iff_sets noBoundary (dom.reach reach)]
      exact List.find?_eq_none.mp found w (dom l path)
    have root := Graph.Dom.root (g := args.cfg.flow) p
    rw [result.currentVersion_climb spec p reach root fun w dom _ => clear w dom,
      result.currentVersion_leave Graph.Reach.root (clear _ root)]
    exact (congrFun result.root.currentVersion x).trans (initial.currentVersion x)
  | some d =>
    have dom : args.cfg.flow.Dom d p := by
      intro l' path'
      exact mem_of_find?_eq_some ((agree l' l path' path).trans found)
    have sets : setsName args x d = true := List.find?_some found
    have reachD := dom.reach reach
    have last : (leave args d (entered d)).ctx.currentVersion x = lastVersion renamed x d := by
      rw [← (leave_defines args d (entered d)).versions, lastVersion, advance,
        result.defsOf_getBlock reachD]
      exact advanceDefs_eq_of_mem ((result.creates_iff reachD).mp
        ((result.creates_iff_sets noBoundary reachD).mpr sets))
    rw [map_some, getD_some, ← last]
    refine result.currentVersion_climb spec p reach dom fun w domW sdom creates => ?_
    rw [result.creates_iff_sets noBoundary (domW.reach reach)] at creates
    -- on a simple path the block in between comes after `d`
    obtain ⟨simple, pathS, nodup, _⟩ := path.exists_nodup
    obtain ⟨later, earlier, rfl, toW⟩ := pathS.cut (domW simple pathS)
    have inEarlier : d ∈ earlier := sdom.1 earlier toW
    obtain ⟨before, rfl⟩ : ∃ before, earlier = w :: before := by
      cases toW with
      | root | snoc _ _ => exact ⟨_, rfl⟩
    have foundS := (agree _ l pathS path).trans found
    rw [List.find?_append] at foundS
    cases foundLater : later.find? (setsName args x) with
    | none =>
      rw [foundLater, none_or, List.find?_cons_of_pos creates, Option.some.injEq] at foundS
      exact sdom.2 foundS.symm
    | some e =>
      rw [foundLater, some_or, Option.some.injEq] at foundS
      subst foundS
      exact disjoint_of_nodup_append nodup (mem_of_find?_eq_some foundLater) inEarlier

theorem versionsAfter_eq_zero_iff (path : args.cfg.flow.PathTo p l) :
    versionsAfter renamed l x = 0 ↔ l.find? (setsName args x) = none := by
  rw [result.versionsAfter_eq_find noBoundary fun v => path.reach_of_mem]
  cases found : l.find? (setsName args x) with
  | none => simp
  | some d =>
    have reach := path.reach_of_mem (mem_of_find?_eq_some found)
    have positive := result.defsAt_pos reach
      (result.mem_defsAt_of_sets noBoundary reach (List.find?_some found))
    simp only [map_some, getD_some, reduceCtorEq, iff_false]
    omega

/-- If all paths to `p` end with the version that a dominator of `p` was left
with, the paths to the dominator end with it as well. -/
theorem agreeOn_dominator (spec : DomTree.IsTree args.cfg args.domtree)
    (initial : Initial init) {d : Nat} (dom : args.cfg.flow.Dom d p)
    (versions : ∀ l, args.cfg.flow.PathTo p l →
      versionsAfter renamed l x = (leave args d (entered d)).ctx.currentVersion x) :
    AgreeOn args x p d := by
  intro l l' path path'
  obtain ⟨simple, pathS, nodup, _⟩ : ∃ simple, args.cfg.flow.PathTo p simple ∧ simple.Nodup ∧
      simple ⊆ l := path.exists_nodup
  obtain ⟨later, earlier, rfl, toD⟩ := pathS.cut (dom simple pathS)
  have joined := pathS.append_of_cut toD path'
  have clear : later.find? (setsName args x) = none := by
    by_contra sets
    obtain ⟨e, found⟩ := ne_none_iff_exists'.mp sets
    have reachE := joined.reach_of_mem (mem_append_left _ (mem_of_find?_eq_some found))
    have mem := result.mem_defsAt_of_sets noBoundary reachE (List.find?_some found)
    have version : lastVersion renamed x e =
        (leave args d (entered d)).ctx.currentVersion x := by
      rw [← versions _ joined,
        result.versionsAfter_eq_find noBoundary fun v => joined.reach_of_mem,
        List.find?_append, found]
      rfl
    rcases result.exists_definition_above spec initial d ⟨_, toD⟩
      with zero | ⟨above, domAbove, inAbove⟩
    · have positive := result.defsAt_pos reachE mem
      rw [version, zero] at positive
      exact absurd positive (Nat.lt_irrefl 0)
    · rw [version] at mem
      have same := result.defsAt_unique reachE (domAbove.reach ⟨_, toD⟩) mem inAbove
      subst same
      exact disjoint_of_nodup_append nodup (mem_of_find?_eq_some found) (domAbove _ toD)
  have ends := result.find_eq_of_versions noBoundary path joined
    ((versions l path).trans (versions _ joined).symm)
  rw [ends, List.find?_append, clear, none_or]

end Last

end Renamed

end R2Sleigh.Ssa
