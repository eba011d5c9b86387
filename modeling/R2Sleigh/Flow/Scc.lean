import Mathlib.Data.List.Perm.Basic
import R2Sleigh.Flow.Dfs

/-!
Contract: strongly connected components by two depth-first searches.

Owns `Settled`.
-/

namespace R2Sleigh.Flow

open List

universe u

variable {V : Type u}
variable {succs : V → List V} {before after : DfsState V} {v r x : V} {fuel : Nat}
  {earlier later : List V}

/-- There is a path of edges, possibly empty. -/
abbrev Reaches (succs : V → List V) : V → V → Prop := Relation.ReflTransGen fun a b => b ∈ succs a

/-- Each vertex reaches the other. -/
def Mutual (succs : V → List V) (a b : V) : Prop := Reaches succs a b ∧ Reaches succs b a

namespace Mutual

variable {succs : V → List V} {a b c : V}

theorem refl (a : V) : Mutual succs a a := ⟨.refl, .refl⟩

theorem symm (both : Mutual succs a b) : Mutual succs b a := ⟨both.2, both.1⟩

theorem trans (first : Mutual succs a b) (second : Mutual succs b c) : Mutual succs a c :=
  ⟨first.1.trans second.1, second.2.trans first.2⟩

end Mutual

theorem Reaches.mirror {preds : V → List V} (mirror : ∀ a b, a ∈ preds b ↔ b ∈ succs a)
    {a b : V} : Reaches preds b a ↔ Reaches succs a b := by
  have edges : (fun b a => a ∈ preds b) = Function.swap fun a b => b ∈ succs a := by
    funext b a
    exact propext (mirror a b)
  unfold Reaches
  rw [edges]
  exact Relation.reflTransGen_swap

theorem Reaches.mem_of_closed {P : V → Prop}
    (closed : ∀ a, P a → ∀ b ∈ succs a, P b) {a b : V} (reaches : Reaches succs a b)
    (start : P a) : P b := by
  induction reaches with
  | refl => exact start
  | tail _ edge ih => exact closed _ ih _ edge

theorem Extends.reached {sources added : List V}
    (extension : Extends succs sources before after added) :
    ∀ v ∈ added, ∃ s ∈ sources, Reaches succs s v := by
  have suffixes : ∀ later earlier, added = earlier ++ later →
      ∀ v ∈ later, ∃ s ∈ sources, Reaches succs s v := by
    intro later
    induction later with
    | nil => simp
    | cons w later ih =>
      intro earlier split v mem
      have below := ih (earlier ++ [w]) (by simpa using split)
      rcases mem_cons.mp mem with rfl | mem
      · rcases extension.parent earlier v later split with source | ⟨u, inLater, edge⟩
        · exact ⟨v, source, .refl⟩
        · obtain ⟨s, source, reaches⟩ := below u inLater
          exact ⟨s, source, reaches.tail edge⟩
      · exact below v mem
  exact suffixes added [] rfl

/-- A successor of a vertex recorded by the time `x` is recorded is itself
recorded by then, or still has `x` below it. -/
structure Settled (succs : V → List V) (state : DfsState V) : Prop where
  closed : ∀ a ∈ state.postorder, ∀ b ∈ succs a, b ∈ state.visited
  split : ∀ earlier x later, state.postorder = earlier ++ x :: later →
    ∀ a ∈ earlier ++ [x], ∀ b ∈ succs a, b ∈ earlier ++ [x] ∨ Reaches succs b x

/-- The vertices a search has entered and not yet recorded all lead to `v`. -/
def OpenReach (succs : V → List V) (state : DfsState V) (v : V) : Prop :=
  ∀ u ∈ state.visited, u ∉ state.postorder → Reaches succs u v

theorem OpenReach.of_extends {sources added : List V}
    (extension : Extends succs sources before after added)
    (openReach : OpenReach succs before v) : OpenReach succs after v := by
  intro u visited unrecorded
  rw [extension.postorder, mem_append, not_or] at unrecorded
  rcases (extension.mem_visited u).mp visited with old | new
  · exact openReach u old unrecorded.1
  · exact absurd new unrecorded.2

theorem Settled.record {state : DfsState V}
    (settled : Settled succs state) (below : ∀ b ∈ succs v, b ∈ state.visited)
    (openReach : OpenReach succs state v) :
    Settled succs { state with postorder := state.postorder ++ [v] } := by
  have closed : ∀ a ∈ state.postorder ++ [v], ∀ b ∈ succs a, b ∈ state.visited := by
    intro a mem b edge
    rcases mem_append.mp mem with old | new
    · exact settled.closed a old b edge
    · rw [mem_singleton.mp new] at edge
      exact below b edge
  refine ⟨closed, fun earlier x later split => ?_⟩
  rcases eq_nil_or_concat later with rfl | ⟨front, last, rfl⟩
  · obtain ⟨rfl, rfl⟩ : earlier = state.postorder ∧ x = v := by
      have ends := append_inj' split rfl
      simp only [List.cons.injEq, and_true] at ends
      exact ⟨ends.1.symm, ends.2.symm⟩
    intro a mem b edge
    by_cases recorded : b ∈ state.postorder ++ [x]
    · exact Or.inl recorded
    · rw [mem_append, not_or] at recorded
      exact Or.inr (openReach b (closed a mem b edge) recorded.1)
  · have front' : state.postorder = earlier ++ x :: front := by
      have ends : state.postorder ++ [v] = (earlier ++ x :: front) ++ [last] := by
        simpa using split
      exact (append_inj' ends rfl).1
    exact settled.split earlier x front front'

section Postorder

variable [DecidableEq V] {succs : V → List V} {nodes : List V}

private theorem foldl_dfsVisit_settled (closed : ∀ a ∈ nodes, ∀ b ∈ succs a, b ∈ nodes)
    (call : ∀ (w : V) (state : DfsState V), w ∈ nodes → (state.unvisited nodes).length < fuel →
      Settled succs state → OpenReach succs state w → Settled succs (dfsVisit succs fuel w state)) :
    ∀ (rest : List V) (current : DfsState V), (∀ w ∈ rest, w ∈ nodes) →
      (∀ w ∈ rest, Reaches succs v w) → (current.unvisited nodes).length < fuel →
      Settled succs current → OpenReach succs current v →
      Settled succs (rest.foldl (fun state w => dfsVisit succs fuel w state) current) := by
  intro rest
  induction rest with
  | nil => exact fun current _ _ _ settled _ => settled
  | cons w rest ih =>
    intro current inside reaches enough settled openReach
    have openAtW : OpenReach succs current w := fun u visited unrecorded =>
      (openReach u visited unrecorded).trans (reaches w mem_cons_self)
    obtain ⟨added, extension⟩ := dfsVisit_extends closed fuel w current
      (inside w mem_cons_self) enough
    have still := Nat.lt_of_le_of_lt (DfsState.unvisited_length_le nodes
      fun u visited => extension.visited_mono visited) enough
    exact ih _ (fun x mem => inside x (mem_cons_of_mem _ mem))
      (fun x mem => reaches x (mem_cons_of_mem _ mem)) still
      (call w current (inside w mem_cons_self) enough settled openAtW)
      (openReach.of_extends extension)

private theorem dfsVisit_settled (closed : ∀ a ∈ nodes, ∀ b ∈ succs a, b ∈ nodes) (fuel : Nat) :
    ∀ (v : V) (state : DfsState V), v ∈ nodes → (state.unvisited nodes).length < fuel →
      Settled succs state → OpenReach succs state v →
      Settled succs (dfsVisit succs fuel v state) := by
  induction fuel with
  | zero => exact fun _ _ _ enough => absurd enough (Nat.not_lt_zero _)
  | succ fuel ih =>
    intro v state mem enough settled openReach
    by_cases seen : v ∈ state.visited
    · rw [dfsVisit, if_pos seen]
      exact settled
    · rw [dfsVisit, if_neg seen]
      have fits := Nat.lt_of_lt_of_le (DfsState.unvisited_length_lt mem seen)
        (Nat.le_of_lt_succ enough)
      have entered : Settled succs { state with visited := v :: state.visited } :=
        ⟨fun a recorded b edge => mem_cons_of_mem _ (settled.closed a recorded b edge),
          settled.split⟩
      have openEntered : OpenReach succs { state with visited := v :: state.visited } v := by
        intro u visited unrecorded
        rcases mem_cons.mp visited with rfl | visited
        · exact .refl
        · exact openReach u visited unrecorded
      obtain ⟨added, extension⟩ := foldl_dfsVisit_extends (dfsVisit_extends closed fuel)
        (succs v) { state with visited := v :: state.visited } (closed v mem) fits
      have inner := foldl_dfsVisit_settled closed ih (succs v)
        { state with visited := v :: state.visited } (closed v mem)
        (fun w edge => .single edge) fits entered openEntered
      exact inner.record extension.started (openEntered.of_extends extension)

/-- All vertices in the order in which searches from each of them in turn
record them. -/
def postorderFrom (succs : V → List V) (fuel : Nat) (nodes : List V) : List V :=
  (nodes.foldl (fun state v => dfsVisit succs fuel v state) ⟨[], []⟩).postorder

/-- What the second search relies on. -/
structure IsPostorder (succs : V → List V) (nodes order : List V) : Prop where
  nodup : order.Nodup
  mem_iff : ∀ v, v ∈ order ↔ v ∈ nodes
  split : ∀ earlier x later, order = earlier ++ x :: later →
    ∀ a ∈ earlier ++ [x], ∀ b ∈ succs a, b ∈ earlier ++ [x] ∨ Reaches succs b x

private theorem postorderFrom_isPostorder (closed : ∀ a ∈ nodes, ∀ b ∈ succs a, b ∈ nodes)
    (enough : nodes.length < fuel) : IsPostorder succs nodes (postorderFrom succs fuel nodes) := by
  have fits : ((⟨[], []⟩ : DfsState V).unvisited nodes).length < fuel :=
    Nat.lt_of_le_of_lt (length_filter_le _ _) enough
  obtain ⟨added, extension⟩ := foldl_dfsVisit_extends (dfsVisit_extends closed fuel) nodes
    ⟨[], []⟩ (fun _ mem => mem) fits
  have order : postorderFrom succs fuel nodes = added := by
    rw [postorderFrom, extension.postorder, nil_append]
  -- between the outer calls no vertex is open
  have settled : ∀ (rest : List V) (current : DfsState V), (∀ w ∈ rest, w ∈ nodes) →
      (current.unvisited nodes).length < fuel → Settled succs current →
      (∀ u ∈ current.visited, u ∈ current.postorder) →
      Settled succs (rest.foldl (fun state w => dfsVisit succs fuel w state) current) := by
    intro rest
    induction rest with
    | nil => exact fun _ _ _ settled _ => settled
    | cons w rest ih =>
      intro current inside enough settled recorded
      obtain ⟨more, extension⟩ := dfsVisit_extends closed fuel w current
        (inside w mem_cons_self) enough
      have still := Nat.lt_of_le_of_lt (DfsState.unvisited_length_le nodes
        fun u visited => extension.visited_mono visited) enough
      refine ih _ (fun x mem => inside x (mem_cons_of_mem _ mem))
        still (dfsVisit_settled closed fuel w current (inside w mem_cons_self) enough settled
          fun u visited unrecorded => absurd (recorded u visited) unrecorded) fun u visited => ?_
      rw [extension.postorder]
      rcases (extension.mem_visited u).mp visited with old | new
      · exact mem_append_left _ (recorded u old)
      · exact mem_append_right _ new
  have final := settled nodes ⟨[], []⟩ (fun _ mem => mem) fits ⟨by simp, by simp⟩ (by simp)
  refine ⟨order ▸ extension.nodup, fun v => ?_, final.split⟩
  rw [order]
  constructor
  · intro mem
    obtain ⟨s, source, reaches⟩ := extension.reached v mem
    exact reaches.mem_of_closed (fun a inside b edge => closed a inside b edge) source
  · intro mem
    have visited := (extension.mem_visited v).mp (extension.started v mem)
    simpa using visited

end Postorder

section LastOfClass

theorem exists_last_split {p : V → Prop} {l : List V} (found : ∃ v ∈ l, p v) :
    ∃ earlier v later, l = earlier ++ v :: later ∧ p v ∧ ∀ w ∈ later, ¬ p w := by
  induction l with
  | nil => simp at found
  | cons head rest ih =>
    by_cases inRest : ∃ v ∈ rest, p v
    · obtain ⟨earlier, v, later, split, holds, none⟩ := ih inRest
      exact ⟨head :: earlier, v, later, by rw [split]; rfl, holds, none⟩
    · obtain ⟨v, mem, holds⟩ := found
      rcases mem_cons.mp mem with rfl | mem
      · exact ⟨[], v, rest, rfl, holds, fun w inside pw => inRest ⟨w, inside, pw⟩⟩
      · exact absurd ⟨v, mem, holds⟩ inRest

theorem idxOf_lt_iff_mem [BEq V] [LawfulBEq V] {before after : List V} (notBefore : r ∉ before) (x : V) :
    (before ++ r :: after).idxOf x < (before ++ r :: after).idxOf r ↔ x ∈ before := by
  rw [idxOf_append, idxOf_append, if_neg notBefore, idxOf_cons_self, Nat.zero_add]
  by_cases mem : x ∈ before
  · rw [if_pos mem]
    exact iff_of_true (idxOf_lt_length_of_mem mem) mem
  · rw [if_neg mem]
    exact iff_of_false (by omega) mem

private theorem not_before_both {l before after : List V} (nodup : l.Nodup)
    (splitR : l = earlier ++ r :: later) (xBefore : x ∈ earlier)
    (splitX : l = before ++ x :: after) (rBefore : r ∈ before) : False := by
  classical
  have notBefore : ∀ {v : V} {front back : List V}, l = front ++ v :: back → v ∉ front := by
    rintro v front back rfl
    exact fun mem => (nodup_append.mp nodup).2.2 v mem v mem_cons_self rfl
  have first : (earlier ++ r :: later).idxOf x < _ :=
    (idxOf_lt_iff_mem (notBefore splitR) x).mpr xBefore
  have second : (before ++ x :: after).idxOf r < _ :=
    (idxOf_lt_iff_mem (notBefore splitX) r).mpr rBefore
  rw [← splitR] at first
  rw [← splitX] at second
  omega

variable {succs : V → List V} {nodes order : List V}

section

variable (postorder : IsPostorder succs nodes order)
include postorder

/-- The vertex of a class recorded last has everything below it recorded by
then: an edge out of the recorded part leads back to the class. -/
theorem IsPostorder.reaches_of_last
    (split : order = earlier ++ x :: later)
    (last : ∀ y ∈ later, ¬ Mutual succs x y) (closed : ∀ a ∈ nodes, ∀ b ∈ succs a, b ∈ nodes)
    {y : V} (reaches : Reaches succs x y) : y ∈ earlier ++ [x] := by
  have inNodes : x ∈ nodes := by
    rw [← postorder.mem_iff, split]
    simp
  induction reaches with
  | refl => simp
  | @tail a b reaches edge ih =>
    rcases postorder.split earlier x later split a ih b edge with recorded | back
    · exact recorded
    · have both : Mutual succs x b := ⟨reaches.tail edge, back⟩
      have inOrder : b ∈ order :=
        (postorder.mem_iff b).mpr (both.1.mem_of_closed (P := (· ∈ nodes)) closed inNodes)
      rw [split, ← singleton_append, ← append_assoc, mem_append] at inOrder
      exact inOrder.resolve_right fun inLater => last b inLater both

section

variable (closed : ∀ a ∈ nodes, ∀ b ∈ succs a, b ∈ nodes) (split : order = earlier ++ r :: later)
include closed split

/-- The vertices from `r` on in the order contain one of every class that
reaches `r`. -/
theorem IsPostorder.exists_mutual_from
    (inNodes : x ∈ nodes) (reaches : Reaches succs x r) :
    ∃ x' ∈ r :: later, Mutual succs x x' := by
  obtain ⟨before, x', after, split', both, none⟩ := exists_last_split (p := Mutual succs x)
    ⟨x, (postorder.mem_iff x).mpr inNodes, .refl x⟩
  have last : ∀ y ∈ after, ¬ Mutual succs x' y := fun y mem back =>
    none y mem (both.trans back)
  have recorded := postorder.reaches_of_last split' last closed (both.2.trans reaches)
  refine ⟨x', ?_, both⟩
  rcases mem_append.mp recorded with inBefore | same
  · -- `r` is recorded before `x'`
    have inOrder : x' ∈ order := split' ▸ mem_append_right _ mem_cons_self
    rw [split] at inOrder
    refine (mem_append.mp inOrder).resolve_left fun inEarlier => ?_
    exact not_before_both postorder.nodup split inEarlier split' inBefore
  · rw [mem_singleton.mp same]
    exact mem_cons_self

/-- Among the vertices still to come, those that reach the first of them are
its class. -/
theorem IsPostorder.mutual_of_unvisited
    {visited : List V}
    (passed : ∀ v ∈ later, v ∈ visited) (saturated : ∀ a ∈ visited, ∀ b, Reaches succs b a →
      b ∈ visited) (inNodes : x ∈ nodes) (unseen : x ∉ visited) (reaches : Reaches succs x r) :
    Mutual succs r x := by
  obtain ⟨x', mem, both⟩ := postorder.exists_mutual_from closed split inNodes reaches
  rcases mem_cons.mp mem with rfl | inLater
  · exact both.symm
  · exact absurd (saturated x' (passed x' inLater) x both.1) unseen

end

end

end LastOfClass

section Collect

structure CollectState (V : Type u) where
  visited : List V
  component : List V

/-- The collecting search enters the vertices that the recording one does, and
lists them in the order of entry. -/
structure SameSearch (before : DfsState V) (start : CollectState V) (after : DfsState V)
    (final : CollectState V) : Prop where
  visited : final.visited = after.visited
  collected : ∃ entered recorded, final.component = start.component ++ entered ∧
    after.postorder = before.postorder ++ recorded ∧ entered.Perm recorded

theorem SameSearch.trans {middle : DfsState V} {start halfway final : CollectState V}
    (first : SameSearch before start middle halfway)
    (second : SameSearch middle halfway after final) : SameSearch before start after final := by
  obtain ⟨entered, recorded, component, postorder, perm⟩ := first.collected
  obtain ⟨entered', recorded', component', postorder', perm'⟩ := second.collected
  refine ⟨second.visited, entered ++ entered', recorded ++ recorded', ?_, ?_, perm.append perm'⟩
  · rw [component', component, append_assoc]
  · rw [postorder', postorder, append_assoc]

variable [DecidableEq V] {neighbours : V → List V}

/-- Visit `v` and record it, then its neighbours from left to right. -/
def dfsCollect (neighbours : V → List V) : Nat → V → CollectState V → CollectState V
  | 0, _, state => state
  | fuel + 1, v, state =>
    if v ∈ state.visited then state
    else (neighbours v).foldl (fun state w => dfsCollect neighbours fuel w state)
      ⟨v :: state.visited, state.component ++ [v]⟩

private theorem dfsCollect_sameSearch (neighbours : V → List V) (fuel : Nat) :
    ∀ (v : V) (before : DfsState V) (start : CollectState V), start.visited = before.visited →
      SameSearch before start (dfsVisit neighbours fuel v before)
        (dfsCollect neighbours fuel v start) := by
  induction fuel with
  | zero => exact fun _ _ _ same => ⟨same, [], [], by simp [dfsVisit, dfsCollect]⟩
  | succ fuel ih =>
    intro v before start same
    by_cases seen : v ∈ before.visited
    · rw [dfsVisit, dfsCollect, if_pos seen, if_pos (same ▸ seen)]
      exact ⟨same, [], [], by simp⟩
    · rw [dfsVisit, dfsCollect, if_neg seen, if_neg (same ▸ seen)]
      have loop : ∀ (rest : List V) (state : DfsState V) (current : CollectState V),
          current.visited = state.visited → SameSearch state current
            (rest.foldl (fun state w => dfsVisit neighbours fuel w state) state)
            (rest.foldl (fun state w => dfsCollect neighbours fuel w state) current) := by
        intro rest
        induction rest with
        | nil => exact fun _ _ same => ⟨same, [], [], by simp⟩
        | cons w rest restHypothesis =>
          intro state current same
          have first := ih w state current same
          exact first.trans (restHypothesis _ _ first.visited)
      obtain ⟨visited, entered, recorded, component, postorder, perm⟩ := loop (neighbours v)
        { before with visited := v :: before.visited }
        ⟨v :: start.visited, start.component ++ [v]⟩ (by rw [same])
      refine ⟨visited, v :: entered, recorded ++ [v], ?_, ?_, ?_⟩
      · rw [component]
        simp
      · show _ ++ [v] = _
        rw [postorder, append_assoc]
      · exact (perm.cons v).trans (perm_append_singleton v recorded).symm

/-- A collecting search from `r`, when every neighbour of a visited vertex is
visited: it lists the unvisited vertices below `r`. -/
theorem dfsCollect_component {nodes : List V} (closed : ∀ a ∈ nodes, ∀ b ∈ neighbours a, b ∈ nodes)
    {visited : List V} (inNodes : r ∈ nodes) (enough : nodes.length < fuel)
    (saturated : ∀ a ∈ visited, ∀ b ∈ neighbours a, b ∈ visited) :
    let found := dfsCollect neighbours fuel r ⟨visited, []⟩
    found.component.Nodup ∧
      (∀ x, x ∈ found.component ↔ Reaches neighbours r x ∧ x ∉ visited) ∧
      (∀ x, x ∈ found.visited ↔ x ∈ visited ∨ x ∈ found.component) ∧
      ∀ a ∈ found.visited, ∀ b ∈ neighbours a, b ∈ found.visited := by
  intro found
  have fits : ((⟨visited, []⟩ : DfsState V).unvisited nodes).length < fuel :=
    Nat.lt_of_le_of_lt (length_filter_le _ _) enough
  obtain ⟨added, extension⟩ := dfsVisit_extends closed fuel r ⟨visited, []⟩ inNodes fits
  obtain ⟨sameVisited, entered, recorded, component, postorder, perm⟩ :=
    dfsCollect_sameSearch neighbours fuel r ⟨visited, []⟩ ⟨visited, []⟩ rfl
  have isEntered : found.component = entered := by simpa using component
  have isAdded : recorded = added := by
    have twice := postorder.symm.trans extension.postorder
    simpa using twice
  have memComponent : ∀ x, x ∈ found.component ↔ x ∈ added := by
    intro x
    rw [isEntered, perm.mem_iff, isAdded]
  have memVisited : ∀ x, x ∈ found.visited ↔ x ∈ visited ∨ x ∈ found.component := by
    intro x
    rw [memComponent, sameVisited, extension.mem_visited]
  have closedAfter : ∀ a ∈ found.visited, ∀ b ∈ neighbours a, b ∈ found.visited := by
    intro a mem b edge
    rcases (memVisited a).mp mem with old | new
    · exact (memVisited b).mpr (Or.inl (saturated a old b edge))
    · rw [sameVisited]
      exact extension.closed a ((memComponent a).mp new) b edge
  refine ⟨?_, fun x => ⟨fun mem => ?_, fun ⟨reaches, unseen⟩ => ?_⟩, memVisited, closedAfter⟩
  · rw [isEntered, perm.nodup_iff, isAdded]
    exact extension.nodup
  · have inAdded := (memComponent x).mp mem
    obtain ⟨s, source, reaches⟩ := extension.reached x inAdded
    rw [mem_singleton.mp source] at reaches
    exact ⟨reaches, extension.fresh x inAdded⟩
  · have started : r ∈ found.visited := by
      rw [sameVisited]
      exact extension.started r (mem_singleton_self r)
    have inVisited := reaches.mem_of_closed (P := (· ∈ found.visited)) closedAfter started
    exact ((memVisited x).mp inVisited).resolve_left unseen

end Collect

section Components

/-- The classes of mutual reachability among `nodes`, each listed once, and no
class reaching a later one. -/
structure IsCondensation (succs : V → List V) (nodes : List V) (parts : List (List V)) :
    Prop where
  nodup : parts.flatten.Nodup
  mem_iff : ∀ v, v ∈ parts.flatten ↔ v ∈ nodes
  nonempty : ∀ c ∈ parts, c ≠ []
  classes : ∀ c ∈ parts, ∀ u ∈ c, ∀ v, v ∈ c ↔ Mutual succs u v
  ordered : parts.Pairwise fun c d => ∀ u ∈ c, ∀ v ∈ d, ¬ Reaches succs u v

/-- Only the members of the neighbour lists and of the parts matter. -/
theorem IsCondensation.of_perm {succs' : V → List V} {nodes nodes' : List V}
    {parts : List (List V)} (condensation : IsCondensation succs nodes parts)
    (sameEdges : ∀ a b, b ∈ succs' a ↔ b ∈ succs a) (sameNodes : ∀ v, v ∈ nodes' ↔ v ∈ nodes)
    {arrange : List V → List V} (perm : ∀ c, (arrange c).Perm c) :
    IsCondensation succs' nodes' (parts.map arrange) := by
  have sameReach : Reaches succs' = Reaches succs := by
    have edges : (fun a b => b ∈ succs' a) = fun a b => b ∈ succs a := by
      funext a b
      exact propext (sameEdges a b)
    unfold Reaches
    rw [edges]
  have flat : (parts.map arrange).flatten.Perm parts.flatten := by
    rw [← flatMap_def, ← flatMap_id]
    exact List.Perm.flatMap_left parts fun c _ => perm c
  refine ⟨flat.nodup_iff.mpr condensation.nodup, fun v => ?_, ?_, ?_, ?_⟩
  · rw [flat.mem_iff, condensation.mem_iff, sameNodes]
  · rintro _ mem empty
    obtain ⟨c, inParts, rfl⟩ := mem_map.mp mem
    exact condensation.nonempty c inParts (nil_perm.mp (empty ▸ perm c))
  · rintro _ mem u inU v
    obtain ⟨c, inParts, rfl⟩ := mem_map.mp mem
    rw [(perm c).mem_iff, Mutual, sameReach]
    exact condensation.classes c inParts u ((perm c).mem_iff.mp inU) v
  · rw [pairwise_map]
    refine condensation.ordered.imp fun {c d} apart u inU v inV => ?_
    rw [sameReach]
    exact apart u ((perm c).mem_iff.mp inU) v ((perm d).mem_iff.mp inV)

variable [DecidableEq V]

/-- One component for every listed vertex that no earlier component holds. -/
def components (preds : V → List V) (fuel : Nat) : List V → List V → List (List V)
  | [], _ => []
  | r :: rest, visited =>
    if r ∈ visited then components preds fuel rest visited
    else
      let found := dfsCollect preds fuel r ⟨visited, []⟩
      found.component :: components preds fuel rest found.visited

/-- The components of the vertices not visited yet, a component before those
that it reaches. -/
structure Partitions (succs : V → List V) (rest visited : List V) (parts : List (List V)) :
    Prop where
  nodup : ∀ c ∈ parts, c.Nodup
  classes : ∀ c ∈ parts, ∃ r ∈ rest, ∀ x, x ∈ c ↔ Mutual succs r x
  fresh : ∀ c ∈ parts, ∀ x ∈ c, x ∉ visited
  covers : ∀ x ∈ rest, x ∈ visited ∨ ∃ c ∈ parts, x ∈ c
  ordered : parts.Pairwise fun c d => ∀ u ∈ c, ∀ v ∈ d, ¬ Reaches succs v u

variable {succs preds : V → List V} {nodes order : List V}

/-- What the sweep adds from a saturated set of visited vertices on. -/
theorem components_partitions (postorder : IsPostorder succs nodes order)
    (closed : ∀ a ∈ nodes, ∀ b ∈ succs a, b ∈ nodes) (mirror : ∀ a b, a ∈ preds b ↔ b ∈ succs a)
    (closedBack : ∀ a ∈ nodes, ∀ b ∈ preds a, b ∈ nodes)
    (enough : nodes.length < fuel) :
    ∀ (rest passed visited : List V), order.reverse = passed ++ rest →
      (∀ v ∈ passed, v ∈ visited) → (∀ a ∈ visited, ∀ b ∈ preds a, b ∈ visited) →
      Partitions succs rest visited (components preds fuel rest visited) := by
  intro rest
  induction rest with
  | nil =>
    intro passed visited _ _ _
    exact ⟨by simp [components], by simp [components], by simp [components], by simp,
      by simp [components]⟩
  | cons r rest ih =>
    intro passed visited split inVisited saturated
    have nextSplit : order.reverse = (passed ++ [r]) ++ rest := by simpa using split
    by_cases seen : r ∈ visited
    · rw [components, if_pos seen]
      have later := ih (passed ++ [r]) visited nextSplit
        (by simpa [or_imp, forall_and, seen] using inVisited) saturated
      exact { later with
        classes := fun c mem => by
          obtain ⟨root, inRest, isClass⟩ := later.classes c mem
          exact ⟨root, mem_cons_of_mem _ inRest, isClass⟩
        covers := fun x mem => by
          rcases mem_cons.mp mem with rfl | inRest
          · exact Or.inl seen
          · exact later.covers x inRest }
    · have orderSplit : order = rest.reverse ++ r :: passed.reverse := by
        rw [← reverse_reverse order, split]
        simp
      have inNodes : r ∈ nodes := by
        rw [← postorder.mem_iff, orderSplit]
        simp
      rw [components, if_neg seen]
      obtain ⟨nodup, memComponent, memVisited, saturated'⟩ :=
        dfsCollect_component closedBack inNodes enough saturated
      have saturatedReach : ∀ a ∈ visited, ∀ b, Reaches succs b a → b ∈ visited := by
        intro a mem b reaches
        exact ((Reaches.mirror mirror).mpr reaches).mem_of_closed (P := (· ∈ visited)) saturated mem
      -- the search finds the class of its root
      have isClass : ∀ x, x ∈ (dfsCollect preds fuel r ⟨visited, []⟩).component ↔
          Mutual succs r x := by
        intro x
        rw [memComponent, Reaches.mirror mirror]
        constructor
        · rintro ⟨reaches, unseen⟩
          have back : Reaches preds r x := (Reaches.mirror mirror).mpr reaches
          exact postorder.mutual_of_unvisited closed orderSplit
            (fun v mem => inVisited v (mem_reverse.mp mem)) saturatedReach
            (back.mem_of_closed (P := (· ∈ nodes)) closedBack inNodes) unseen reaches
        · intro both
          exact ⟨both.2, fun visitedX => seen (saturatedReach x visitedX r both.1)⟩
      have later := ih (passed ++ [r]) _ nextSplit (by
        intro v mem
        rcases mem_append.mp mem with old | new
        · exact (memVisited v).mpr (Or.inl (inVisited v old))
        · rw [mem_singleton.mp new]
          exact (memVisited r).mpr (Or.inr ((isClass r).mpr (.refl r)))) saturated'
      refine ⟨?_, ?_, ?_, ?_, ?_⟩
      · exact forall_mem_cons.mpr ⟨nodup, later.nodup⟩
      · refine forall_mem_cons.mpr ⟨⟨r, mem_cons_self, isClass⟩, fun c mem => ?_⟩
        obtain ⟨root, inRest, isClass'⟩ := later.classes c mem
        exact ⟨root, mem_cons_of_mem _ inRest, isClass'⟩
      · refine forall_mem_cons.mpr ⟨fun x mem => ((memComponent x).mp mem).2, ?_⟩
        exact fun c inLater x mem visitedX =>
          later.fresh c inLater x mem ((memVisited x).mpr (Or.inl visitedX))
      · intro x mem
        rcases mem_cons.mp mem with rfl | inRest
        · exact Or.inr ⟨_, mem_cons_self, (isClass x).mpr (.refl x)⟩
        · rcases later.covers x inRest with visitedX | ⟨c, inLater, inside⟩
          · rcases (memVisited x).mp visitedX with old | new
            · exact Or.inl old
            · exact Or.inr ⟨_, mem_cons_self, new⟩
          · exact Or.inr ⟨c, mem_cons_of_mem _ inLater, inside⟩
      · refine pairwise_cons.mpr ⟨fun d inLater u inFirst v inD reaches => ?_, later.ordered⟩
        have visitedU := (memVisited u).mpr (Or.inr inFirst)
        have visitedV := ((Reaches.mirror mirror).mpr reaches).mem_of_closed
          (P := (· ∈ (dfsCollect preds fuel r ⟨visited, []⟩).visited)) saturated' visitedU
        exact later.fresh d inLater v inD visitedV

/-- The components of a vertex list, reached ones first. -/
def stronglyConnected (succs preds : V → List V) (nodes : List V) : List (List V) :=
  (components preds (nodes.length + 1)
    (postorderFrom succs (nodes.length + 1) nodes).reverse []).reverse

theorem stronglyConnected_isCondensation (closed : ∀ a ∈ nodes, ∀ b ∈ succs a, b ∈ nodes)
    (mirror : ∀ a b, a ∈ preds b ↔ b ∈ succs a)
    (closedBack : ∀ a ∈ nodes, ∀ b ∈ preds a, b ∈ nodes) :
    IsCondensation succs nodes (stronglyConnected succs preds nodes) := by
  have postorder := postorderFrom_isPostorder closed (Nat.lt_succ_self nodes.length)
  have parts := components_partitions postorder closed mirror closedBack
    (Nat.lt_succ_self nodes.length) (postorderFrom succs (nodes.length + 1) nodes).reverse [] []
    rfl (by simp) (by simp)
  have classes : ∀ c ∈ components preds (nodes.length + 1)
      (postorderFrom succs (nodes.length + 1) nodes).reverse [], ∀ u ∈ c, ∀ v,
        v ∈ c ↔ Mutual succs u v := by
    intro c mem u inside v
    obtain ⟨r, -, isClass⟩ := parts.classes c mem
    rw [isClass] at inside ⊢
    exact ⟨fun both => inside.symm.trans both, fun both => inside.trans both⟩
  refine ⟨?_, fun v => ?_, ?_, ?_, ?_⟩
  · rw [stronglyConnected, nodup_flatten]
    refine ⟨fun c mem => parts.nodup c (mem_reverse.mp mem), ?_⟩
    rw [pairwise_reverse]
    refine parts.ordered.imp_of_mem fun {c d} inC inD apart => ?_
    exact disjoint_left.mpr fun v inD' inC' => apart v inC' v inD' .refl
  · rw [stronglyConnected, mem_flatten]
    constructor
    · rintro ⟨c, mem, inside⟩
      obtain ⟨r, inOrder, isClass⟩ := parts.classes c (mem_reverse.mp mem)
      have inNodes := (postorder.mem_iff r).mp (mem_reverse.mp inOrder)
      exact ((isClass v).mp inside).1.mem_of_closed (P := (· ∈ nodes)) closed inNodes
    · intro mem
      have listed := parts.covers v (mem_reverse.mpr ((postorder.mem_iff v).mpr mem))
      obtain ⟨c, inParts, inside⟩ := listed.resolve_left (by simp)
      exact ⟨c, mem_reverse.mpr inParts, inside⟩
  · intro c mem
    obtain ⟨r, -, isClass⟩ := parts.classes c (mem_reverse.mp mem)
    exact ne_nil_of_mem ((isClass r).mpr (.refl r))
  · exact fun c mem => classes c (mem_reverse.mp mem)
  · rw [stronglyConnected, pairwise_reverse]
    exact parts.ordered.imp fun apart u inU v inV => apart v inV u inU

end Components

end R2Sleigh.Flow
