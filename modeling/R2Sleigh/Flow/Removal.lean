import Mathlib.Data.List.Perm.Basic
import Mathlib.Data.Prod.Basic
import R2Sleigh.Flow.DiGraph

/-!
Contract: what removing edges and nodes does to a `DiGraph`.
-/

namespace R2Sleigh.Flow.DiGraph

open List Option

universe u v

variable {last e i node index : Nat} {l : List Nat}

/-! ## Swap-removal -/

section SwapRemove

variable {α : Type u}

theorem swapRemove_length (l : List α) (index : Nat) :
    (swapRemove l index).length = l.length - 1 := by
  unfold swapRemove
  cases last : l.getLast? with
  | none => simp [List.getLast?_eq_none_iff.mp last]
  | some x => simp

theorem swapRemove_getElem? (l : List α) (index j : Nat) (inside : index < l.length) :
    (swapRemove l index)[j]? =
      if j < l.length - 1 then (if j = index then l[l.length - 1]? else l[j]?) else none := by
  have nonempty : l ≠ [] := ne_nil_of_length_pos (Nat.zero_lt_of_lt inside)
  have last : l.getLast? = some (l.getLast nonempty) := List.getLast?_eq_getLast_of_ne_nil nonempty
  unfold swapRemove
  rw [last]
  rw [List.getElem?_dropLast, length_set]
  split
  next early =>
    rw [List.getElem?_set]
    split
    next same =>
      rw [if_pos same.symm, ← List.getLast?_eq_getElem?, last]
    next other => rw [if_neg (Ne.symm other)]
  next => rfl

theorem swapRemove_perm (l : List α) (index : Nat) (inside : index < l.length) :
    (l[index] :: swapRemove l index).Perm l := by
  have nonempty : l ≠ [] := ne_nil_of_length_pos (Nat.zero_lt_of_lt inside)
  have last : l.getLast? = some (l.getLast nonempty) := List.getLast?_eq_getLast_of_ne_nil nonempty
  have setNonempty : l.set index (l.getLast nonempty) ≠ [] := by simpa using nonempty
  have setLast : (l.set index (l.getLast nonempty)).getLast setNonempty = l.getLast nonempty := by
    rw [getLast_eq_getElem, getElem_set]
    split
    · rfl
    · simp [getLast_eq_getElem]
  have split := dropLast_append_getLast setNonempty
  rw [setLast] at split
  have moved : (l.getLast nonempty :: swapRemove l index).Perm
      (l.getLast nonempty :: l.eraseIdx index) := by
    refine List.Perm.trans ?_ (set_perm_cons_eraseIdx inside (l.getLast nonempty))
    unfold swapRemove
    rw [last]
    dsimp only
    nth_rewrite 2 [← split]
    exact (perm_append_singleton _ _).symm
  exact ((moved.cons_inv).cons _).trans (getElem_cons_eraseIdx_perm inside)

end SwapRemove

/-! ## One edge -/

variable {N : Type u} {E : Type v} {g : DiGraph N E}

/-- The index of an edge after the last one took the index `e`. -/
def renumber (last e i : Nat) : Nat := if i = last then e else i

/-- An adjacency list after the removal of `e`. -/
def unlink (last e : Nat) (l : List Nat) : List Nat := (l.erase e).map (renumber last e)

theorem map_renumber (noLast : last ∉ l) :
    l.map (renumber last e) = l := by
  refine (map_congr_left fun i mem => ?_).trans (List.map_id l)
  have other : i ≠ last := fun same => noLast (same ▸ mem)
  simp [renumber, other]

theorem removeEdge_of_none (absent : g.edges[e]? = none) : g.removeEdge e = g := by
  unfold removeEdge
  rw [absent]

theorem removeEdge_edges (inside : e < g.edges.length) :
    (g.removeEdge e).edges = swapRemove g.edges e := by
  unfold removeEdge
  rw [List.getElem?_eq_getElem inside]
  dsimp only
  split <;> rfl

/-- Changing the lists at the two ends of an edge, when the change does nothing
to other lists. -/
theorem modify_ends {nodes : List (Node N)} {source target : Nat} {n : Node N}
    (here : nodes[i]? = some n) (change : List Nat → List Nat)
    (outgoing : source ≠ i → change n.outgoing = n.outgoing)
    (incoming : target ≠ i → change n.incoming = n.incoming) :
    ((nodes.modify source fun n => { n with outgoing := change n.outgoing }).modify target
      fun n => { n with incoming := change n.incoming })[i]? =
      some ⟨n.weight, change n.outgoing, change n.incoming⟩ := by
  rw [List.getElem?_modify, List.getElem?_modify, here]
  by_cases isSource : source = i <;> by_cases isTarget : target = i <;>
    simp [isSource, isTarget, outgoing, incoming]

theorem Valid.removeEdge_nodes (valid : g.Valid) (inside : e < g.edges.length)
    (i : Nat) : (g.removeEdge e).nodes[i]? = g.nodes[i]?.map fun n =>
      ⟨n.weight, unlink (g.edges.length - 1) e n.outgoing,
        unlink (g.edges.length - 1) e n.incoming⟩ := by
  have present : g.edges[e]? = some g.edges[e] := List.getElem?_eq_getElem inside
  have bound : g.edges.length - 1 < g.edges.length := by omega
  have final : g.edges[g.edges.length - 1]? = some g.edges[g.edges.length - 1] :=
    List.getElem?_eq_getElem bound
  cases here : g.nodes[i]? with
  | none =>
    unfold removeEdge
    rw [present]
    dsimp only
    split <;> simp [List.getElem?_modify, here]
  | some n =>
    -- away from its ends an edge is not listed
    have notOutgoing : ∀ k edge, g.edges[k]? = some edge → edge.source ≠ i →
        k ∉ n.outgoing := by
      intro k edge stored other listed
      obtain ⟨edge', stored', source⟩ := (valid.mem_outgoing i n here k).mp listed
      rw [stored, Option.some.injEq] at stored'
      exact other (by rw [stored', source])
    have notIncoming : ∀ k edge, g.edges[k]? = some edge → edge.target ≠ i →
        k ∉ n.incoming := by
      intro k edge stored other listed
      obtain ⟨edge', stored', target⟩ := (valid.mem_incoming i n here k).mp listed
      rw [stored, Option.some.injEq] at stored'
      exact other (by rw [stored', target])
    have unlinked := modify_ends here (·.erase e)
      (fun other => erase_of_not_mem (notOutgoing e _ present other))
      (fun other => erase_of_not_mem (notIncoming e _ present other))
    unfold removeEdge
    rw [present]
    dsimp only
    rw [map_some]
    have entry := swapRemove_getElem? g.edges e e inside
    rw [if_pos rfl] at entry
    by_cases isLast : e < g.edges.length - 1
    · rw [if_pos isLast, final] at entry
      rw [entry]
      rw [swapRemove_length]
      exact modify_ends unlinked (List.map (renumber (g.edges.length - 1) e))
        (fun other => map_renumber fun listed =>
          notOutgoing _ _ final other (mem_of_mem_erase listed))
        (fun other => map_renumber fun listed =>
          notIncoming _ _ final other (mem_of_mem_erase listed))
    · rw [if_neg isLast] at entry
      rw [entry]
      rw [unlinked]
      have same : g.edges.length - 1 = e := by omega
      unfold unlink
      rw [same, map_renumber ((valid.outgoing_nodup i n here).not_mem_erase),
        map_renumber ((valid.incoming_nodup i n here).not_mem_erase)]

theorem removeEdge_getElem? (inside : e < g.edges.length) (j : Nat) (edge : Edge E) :
    (g.removeEdge e).edges[j]? = some edge ↔
      ∃ i, i ≠ e ∧ g.edges[i]? = some edge ∧ j = renumber (g.edges.length - 1) e i := by
  rw [removeEdge_edges inside, swapRemove_getElem? g.edges e j inside]
  unfold renumber
  constructor
  · intro stored
    split at stored
    next early =>
      split at stored
      next same => exact ⟨g.edges.length - 1, by omega, stored, by simp [same]⟩
      next other => exact ⟨j, other, stored, by rw [if_neg (Nat.ne_of_lt early)]⟩
    next => exact absurd stored (by simp)
  · rintro ⟨i, other, stored, rfl⟩
    have bound := (List.getElem?_eq_some_iff.mp stored).1
    by_cases isLast : i = g.edges.length - 1
    · rw [if_pos isLast, if_pos (by omega), if_pos rfl, ← isLast]
      exact stored
    · rw [if_neg isLast, if_pos (by omega), if_neg other]
      exact stored

theorem mem_unlink (nodup : l.Nodup) {j : Nat} :
    j ∈ unlink last e l ↔ ∃ i ∈ l, i ≠ e ∧ j = renumber last e i := by
  unfold unlink
  simp only [List.mem_map, nodup.mem_erase_iff, eq_comm]
  constructor
  · rintro ⟨i, ⟨other, mem⟩, same⟩
    exact ⟨i, mem, other, same⟩
  · rintro ⟨i, mem, other, same⟩
    exact ⟨i, ⟨other, mem⟩, same⟩

theorem nodup_unlink (nodup : l.Nodup) :
    (unlink last e l).Nodup := by
  refine List.Nodup.map_on (fun i inside j inside' same => ?_) (nodup.erase e)
  have notE := (nodup.mem_erase_iff.mp inside).1
  have notE' := (nodup.mem_erase_iff.mp inside').1
  unfold renumber at same
  split at same <;> split at same <;> omega

theorem Valid.removeEdge_weights (valid : g.Valid) (e : Nat) :
    (g.removeEdge e).nodes.map Node.weight = g.nodes.map Node.weight := by
  by_cases inside : e < g.edges.length
  · refine ext_getElem? fun i => ?_
    rw [List.getElem?_map, List.getElem?_map, valid.removeEdge_nodes inside, Option.map_map]
    rfl
  · rw [removeEdge_of_none (List.getElem?_eq_none (Nat.le_of_not_lt inside))]

theorem Valid.removeEdge (valid : g.Valid) (e : Nat) : (g.removeEdge e).Valid := by
  by_cases inside : e < g.edges.length
  · have nodesLength : (g.removeEdge e).nodes.length = g.nodes.length := by
      simpa using congrArg List.length (valid.removeEdge_weights e)
    have inversion : ∀ (i : Nat) (n : Node N), (g.removeEdge e).nodes[i]? = some n →
        ∃ old : Node N, g.nodes[i]? = some old ∧
          n.outgoing = unlink (g.edges.length - 1) e old.outgoing ∧
          n.incoming = unlink (g.edges.length - 1) e old.incoming := by
      intro i n present
      rw [valid.removeEdge_nodes inside, map_eq_some_iff] at present
      obtain ⟨old, stored, rfl⟩ := present
      exact ⟨old, stored, rfl, rfl⟩
    refine ⟨fun j edge present => ?_, fun j edge present => ?_, fun i n present => ?_,
      fun i n present => ?_, fun i n present j => ?_, fun i n present j => ?_⟩
    · obtain ⟨k, _, stored, _⟩ := (removeEdge_getElem? inside j edge).mp present
      rw [nodesLength]
      exact valid.source_lt k edge stored
    · obtain ⟨k, _, stored, _⟩ := (removeEdge_getElem? inside j edge).mp present
      rw [nodesLength]
      exact valid.target_lt k edge stored
    · obtain ⟨old, stored, equal, _⟩ := inversion i n present
      rw [equal]
      exact nodup_unlink (valid.outgoing_nodup i old stored)
    · obtain ⟨old, stored, _, equal⟩ := inversion i n present
      rw [equal]
      exact nodup_unlink (valid.incoming_nodup i old stored)
    · obtain ⟨old, stored, equal, _⟩ := inversion i n present
      rw [equal, mem_unlink (valid.outgoing_nodup i old stored)]
      simp only [valid.mem_outgoing i old stored, removeEdge_getElem? inside]
      grind
    · obtain ⟨old, stored, _, equal⟩ := inversion i n present
      rw [equal, mem_unlink (valid.incoming_nodup i old stored)]
      simp only [valid.mem_incoming i old stored, removeEdge_getElem? inside]
      grind
  · rw [removeEdge_of_none (List.getElem?_eq_none (Nat.le_of_not_lt inside))]
    exact valid

/-! ## Many edges -/

/-- `g'` is `g` with the edges that `keep` selects. -/
structure Keeps (g g' : DiGraph N E) (keep : Edge E → Bool) : Prop where
  valid : g'.Valid
  weights : g'.nodes.map Node.weight = g.nodes.map Node.weight
  edges : g'.edges.Perm (g.edges.filter keep)

theorem Keeps.refl (valid : g.Valid) {keep : Edge E → Bool}
    (all : ∀ edge ∈ g.edges, keep edge = true) : Keeps g g keep :=
  ⟨valid, rfl, by rw [filter_eq_self.mpr all]⟩

theorem Keeps.trans {g' g'' : DiGraph N E} {keep keep' : Edge E → Bool} (first : Keeps g g' keep)
    (second : Keeps g' g'' keep') : Keeps g g'' fun edge => keep edge && keep' edge := by
  refine ⟨second.valid, second.weights.trans first.weights, ?_⟩
  rw [show (fun edge => keep edge && keep' edge) = fun edge => keep' edge && keep edge from
    funext fun _ => Bool.and_comm _ _, ← List.filter_filter]
  exact second.edges.trans (first.edges.filter keep')

/-- Remove the edge that `pick` finds until it finds none. -/
def removeEdgesBy (pick : DiGraph N E → Option Nat) : Nat → DiGraph N E → DiGraph N E
  | 0, g => g
  | fuel + 1, g =>
    match pick g with
    | none => g
    | some e => removeEdgesBy pick fuel (g.removeEdge e)

/-- `pick` finds an edge that is to go, as long as there is one. -/
def Picks (pick : DiGraph N E → Option Nat) (keep : Edge E → Bool) : Prop :=
  ∀ g : DiGraph N E, g.Valid →
    (pick g = none → ∀ edge ∈ g.edges, keep edge = true) ∧
    ∀ e, pick g = some e → ∃ edge, g.edges[e]? = some edge ∧ keep edge = false

theorem removeEdgesBy_keeps {pick : DiGraph N E → Option Nat} {keep : Edge E → Bool}
    (picks : Picks pick keep) : ∀ (fuel : Nat) (g : DiGraph N E), g.Valid →
      (g.edges.filter (!keep ·)).length ≤ fuel → Keeps g (removeEdgesBy pick fuel g) keep := by
  intro fuel
  induction fuel with
  | zero =>
    intro g valid enough
    refine .refl valid fun edge mem => ?_
    have none := eq_nil_of_length_eq_zero (Nat.le_zero.mp enough)
    have kept := filter_eq_nil_iff.mp none edge mem
    simpa using kept
  | succ fuel inductionHypothesis =>
    intro g valid enough
    unfold removeEdgesBy
    cases found : pick g with
    | none => exact .refl valid ((picks g valid).1 found)
    | some e =>
      obtain ⟨edge, stored, goes⟩ := (picks g valid).2 e found
      obtain ⟨inside, rfl⟩ := List.getElem?_eq_some_iff.mp stored
      have perm : (g.edges[e] :: (g.removeEdge e).edges).Perm g.edges := by
        rw [removeEdge_edges inside]
        exact swapRemove_perm g.edges e inside
      have fewer := (perm.filter (!keep ·)).length_eq
      rw [filter_cons_of_pos (by simp [goes]), length_cons] at fewer
      have rest := inductionHypothesis (g.removeEdge e) (valid.removeEdge e) (by omega)
      refine ⟨rest.valid, rest.weights.trans (valid.removeEdge_weights e), ?_⟩
      refine rest.edges.trans ?_
      have same := perm.filter keep
      rwa [filter_cons_of_neg (by simp [goes])] at same

/-- Every edge between two nodes, one after the other. -/
def removeBetween (g : DiGraph N E) (source target : Nat) : DiGraph N E :=
  removeEdgesBy (fun g => g.findEdge source target) g.edges.length g

private theorem picks_findEdge (source target : Nat) : Picks
    (fun g : DiGraph N E => g.findEdge source target)
    fun edge => !(edge.source == source && edge.target == target) := by
  intro g valid
  unfold findEdge
  constructor
  · intro absent edge mem
    rw [map_eq_none_iff, List.find?_eq_none] at absent
    obtain ⟨e, stored⟩ := mem_iff_getElem?.mp mem
    by_cases isSource : edge.source = source
    · subst isSource
      have listed : (e, edge) ∈ g.edgesDirected edge.source .Outgoing :=
        (valid.mem_edgesDirected (valid.source_lt e edge stored) .Outgoing e edge).mpr ⟨stored, rfl⟩
      simpa using absent _ listed
    · simp [isSource]
  · intro e found
    obtain ⟨entry, first, rfl⟩ := map_eq_some_iff.mp found
    have listed := mem_of_find?_eq_some first
    have isTarget := List.find?_some first
    by_cases inside : source < g.nodes.length
    · obtain ⟨stored, isSource⟩ :=
        (valid.mem_edgesDirected inside .Outgoing entry.1 entry.2).mp listed
      refine ⟨entry.2, stored, ?_⟩
      simpa [isSource] using isTarget
    · simp [edgesDirected, List.getElem?_eq_none (Nat.le_of_not_lt inside)] at listed

theorem Valid.removeBetween (valid : g.Valid) (source target : Nat) :
    Keeps g (g.removeBetween source target)
      fun edge => !(edge.source == source && edge.target == target) :=
  removeEdgesBy_keeps (picks_findEdge source target) _ g valid (length_filter_le _ _)

/-- Remove the edges of a list of indices one after the other. -/
def removeListed (g : DiGraph N E) (ids : List Nat) : DiGraph N E := ids.foldl removeEdge g

theorem Valid.removeListed (valid : g.Valid) (ids : List Nat) :
    (g.removeListed ids).Valid ∧
      (g.removeListed ids).nodes.map Node.weight = g.nodes.map Node.weight := by
  induction ids generalizing g with
  | nil => exact ⟨valid, rfl⟩
  | cons e rest inductionHypothesis =>
    obtain ⟨restValid, restWeights⟩ := inductionHypothesis (valid.removeEdge e)
    exact ⟨restValid, restWeights.trans (valid.removeEdge_weights e)⟩

private theorem removeListed_survives : ∀ (ids : List Nat), ids.Nodup →
    ∀ (g : DiGraph N E) (x : Nat) (edge : Edge E), x ∉ ids → g.edges[x]? = some edge →
      edge.source = node → ∃ edge' ∈ (g.removeListed ids).edges, edge'.source = node := by
  intro ids
  induction ids with
  | nil => exact fun _ g x edge _ stored kept => ⟨edge, mem_of_getElem? stored, kept⟩
  | cons e rest inductionHypothesis =>
    intro nodup g x edge absent stored kept
    have notE : x ≠ e := fun same => absent (same ▸ mem_cons_self)
    have notRest : x ∉ rest := fun mem => absent (mem_cons_of_mem _ mem)
    obtain ⟨fresh, nodupRest⟩ := nodup_cons.mp nodup
    by_cases inside : e < g.edges.length
    · refine inductionHypothesis nodupRest (g.removeEdge e)
        (renumber (g.edges.length - 1) e x) edge ?_
        ((removeEdge_getElem? inside _ edge).mpr ⟨x, notE, stored, rfl⟩) kept
      unfold renumber
      split
      · exact fresh
      · exact notRest
    · rw [DiGraph.removeListed, foldl_cons,
        removeEdge_of_none (List.getElem?_eq_none (Nat.le_of_not_lt inside))]
      exact inductionHypothesis nodupRest g x edge notRest stored kept

/-- Removing the listed edges of a node one after the other removes them all
exactly if none of them has become the last edge before its turn. -/
theorem removeListed_clears_iff : ∀ (ids : List Nat) (g : DiGraph N E), ids.Nodup →
    (∀ i, i ∈ ids ↔ ∃ edge, g.edges[i]? = some edge ∧ edge.source = node) →
    ((∀ edge ∈ (g.removeListed ids).edges, edge.source ≠ node) ↔
      ∀ j id, ids[j]? = some id → id + j < g.edges.length) := by
  intro ids
  induction ids with
  | nil =>
    intro g _ exact
    refine iff_of_true (fun edge mem isSource => ?_) (by simp)
    obtain ⟨i, stored⟩ := mem_iff_getElem?.mp mem
    exact absurd ((exact i).mpr ⟨edge, stored, isSource⟩) not_mem_nil
  | cons e rest inductionHypothesis =>
    intro g nodup exact
    obtain ⟨fresh, nodupRest⟩ := nodup_cons.mp nodup
    obtain ⟨edge, stored, isSource⟩ := (exact e).mp mem_cons_self
    have inside := (List.getElem?_eq_some_iff.mp stored).1
    have shorter : (g.removeEdge e).edges.length = g.edges.length - 1 := by
      rw [removeEdge_edges inside, swapRemove_length]
    by_cases lastListed : g.edges.length - 1 ∈ rest
    · -- the last edge moves to the freed index, which is not listed any more
      refine iff_of_false (fun cleared => ?_) (fun early => ?_)
      · obtain ⟨last, lastStored, lastSource⟩ := (exact _).mp (mem_cons_of_mem _ lastListed)
        have moved : (g.removeEdge e).edges[e]? = some last := by
          refine (removeEdge_getElem? inside e last).mpr
            ⟨g.edges.length - 1, fun same => fresh (same ▸ lastListed), lastStored, ?_⟩
          simp [renumber]
        obtain ⟨edge', mem, stays⟩ :=
          removeListed_survives rest nodupRest _ e last fresh moved lastSource
        exact cleared edge' mem stays
      · obtain ⟨j, position⟩ := mem_iff_getElem?.mp lastListed
        have bound := early (j + 1) (g.edges.length - 1) (by simpa using position)
        omega
    · have exactRest : ∀ i, i ∈ rest ↔ ∃ edge, (g.removeEdge e).edges[i]? = some edge ∧
          edge.source = node := by
        intro i
        simp only [removeEdge_getElem? inside]
        constructor
        · intro mem
          obtain ⟨edge', stored', isSource'⟩ := (exact i).mp (mem_cons_of_mem _ mem)
          refine ⟨edge', ⟨i, fun same => fresh (same ▸ mem), stored', ?_⟩, isSource'⟩
          have notLast : i ≠ g.edges.length - 1 := fun same => lastListed (same ▸ mem)
          rw [renumber, if_neg notLast]
        · rintro ⟨edge', ⟨k, other, stored', rfl⟩, isSource'⟩
          have listed := (mem_cons.mp ((exact k).mpr ⟨edge', stored', isSource'⟩)).resolve_left
            other
          have notLast : k ≠ g.edges.length - 1 := fun same => lastListed (same ▸ listed)
          rwa [renumber, if_neg notLast]
      have ih := inductionHypothesis (g.removeEdge e) nodupRest exactRest
      refine ih.trans ⟨fun early j id position => ?_, fun early j id position => ?_⟩
      · cases j with
        | zero =>
          obtain rfl : e = id := by simpa using position
          exact inside
        | succ j =>
          have bound := early j id (by simpa using position)
          omega
      · have bound := early (j + 1) id (by simpa using position)
        omega

theorem removeListed_others : ∀ (ids : List Nat) (g : DiGraph N E), ids.Nodup →
    (∀ i ∈ ids, ∀ edge, g.edges[i]? = some edge → edge.source = node) →
    ((g.removeListed ids).edges.filter (·.source != node)).Perm
      (g.edges.filter (·.source != node)) := by
  intro ids
  induction ids with
  | nil => exact fun g _ _ => .refl _
  | cons e rest inductionHypothesis =>
    intro g nodup owned
    obtain ⟨fresh, nodupRest⟩ := nodup_cons.mp nodup
    rw [removeListed, foldl_cons]
    by_cases inside : e < g.edges.length
    · refine (inductionHypothesis (g.removeEdge e) nodupRest ?_).trans ?_
      · intro i mem edge stored
        obtain ⟨k, _, stored', position⟩ := (removeEdge_getElem? inside i edge).mp stored
        unfold renumber at position
        split at position
        · exact absurd (position ▸ mem) fresh
        · exact owned i (mem_cons_of_mem _ mem) edge (position ▸ stored')
      · have perm : (g.edges[e] :: (g.removeEdge e).edges).Perm g.edges := by
          rw [removeEdge_edges inside]
          exact swapRemove_perm g.edges e inside
        have same := perm.filter (·.source != node)
        rwa [filter_cons_of_neg] at same
        simp [owned e mem_cons_self _ (List.getElem?_eq_getElem inside)]
    · rw [removeEdge_of_none (List.getElem?_eq_none (Nat.le_of_not_lt inside))]
      exact inductionHypothesis g nodupRest fun i mem =>
        owned i (mem_cons_of_mem _ mem)

/-! ## A node -/

/-- The end of an edge at the node whose lists have the direction. -/
def endpoint (direction : Direction) (edge : Edge E) : Nat :=
  match direction with
  | .Outgoing => edge.source
  | .Incoming => edge.target

/-- The first edge of an adjacency list. -/
def firstIncident (direction : Direction) (index : Nat) (g : DiGraph N E) : Option Nat :=
  (g.nodes[index]?).bind fun n => (adjacency n direction).head?

theorem removeIncident_eq (direction : Direction) (fuel : Nat) (g : DiGraph N E) (index : Nat) :
    removeIncident direction fuel g index =
      removeEdgesBy (firstIncident direction index) fuel g := by
  induction fuel generalizing g with
  | zero => rfl
  | succ fuel inductionHypothesis =>
    unfold removeIncident removeEdgesBy firstIncident
    cases g.nodes[index]? with
    | none => rfl
    | some n =>
      dsimp only [bind_some]
      cases adjacency n direction with
      | nil => rfl
      | cons e rest => exact inductionHypothesis _

theorem Valid.mem_adjacency (valid : g.Valid) {n : Node N}
    (here : g.nodes[i]? = some n) (direction : Direction) (e : Nat) :
    e ∈ adjacency n direction ↔ ∃ edge, g.edges[e]? = some edge ∧ endpoint direction edge = i := by
  cases direction with
  | Outgoing => exact valid.mem_outgoing i n here e
  | Incoming => exact valid.mem_incoming i n here e

theorem Valid.endpoint_lt (valid : g.Valid) {edge : Edge E}
    (stored : g.edges[e]? = some edge) (direction : Direction) :
    endpoint direction edge < g.nodes.length := by
  cases direction with
  | Outgoing => exact valid.source_lt e edge stored
  | Incoming => exact valid.target_lt e edge stored

private theorem picks_firstIncident (direction : Direction) (index : Nat) : Picks
    (firstIncident (N := N) (E := E) direction index)
    fun edge => !(endpoint direction edge == index) := by
  intro g valid
  unfold firstIncident
  constructor
  · intro absent edge mem
    obtain ⟨e, stored⟩ := mem_iff_getElem?.mp mem
    rw [Bool.not_eq_true', beq_eq_false_iff_ne]
    rintro rfl
    have inside := valid.endpoint_lt stored direction
    have here := List.getElem?_eq_getElem inside
    have listed := (valid.mem_adjacency here direction e).mpr ⟨edge, stored, rfl⟩
    rw [here, bind_some, List.head?_eq_none_iff] at absent
    rw [absent] at listed
    exact absurd listed not_mem_nil
  · intro e found
    obtain ⟨n, here, first⟩ := bind_eq_some_iff.mp found
    obtain ⟨edge, stored, incident⟩ :=
      (valid.mem_adjacency here direction e).mp (mem_of_mem_head? first)
    exact ⟨edge, stored, by simp [incident]⟩

theorem Valid.removeIncident (valid : g.Valid) (direction : Direction) (index : Nat)
    {fuel : Nat} (enough : g.edges.length ≤ fuel) :
    Keeps g (removeIncident direction fuel g index)
      fun edge => !(endpoint direction edge == index) := by
  rw [removeIncident_eq]
  exact removeEdgesBy_keeps (picks_firstIncident direction index) fuel g valid
    (Nat.le_trans (length_filter_le _ _) enough)

theorem Valid.edgesDirected_perm (valid : g.Valid) (inside : i < g.nodes.length)
    (direction : Direction) : ((g.edgesDirected i direction).map Prod.snd).Perm
      (g.edges.filter fun edge => endpoint direction edge == i) := by
  have here : g.nodes[i]? = some g.nodes[i] := List.getElem?_eq_getElem inside
  have listed : (g.edgesDirected i direction).Nodup := by
    unfold edgesDirected
    rw [here]
    refine List.Nodup.filterMap ?_ ?_
    · intro e e' entry first second
      obtain ⟨_, _, rfl⟩ := map_eq_some_iff.mp (mem_def.mp first)
      obtain ⟨_, _, same⟩ := map_eq_some_iff.mp (mem_def.mp second)
      exact (Prod.mk.inj same).1.symm
    · cases direction with
      | Outgoing => exact valid.outgoing_nodup i _ here
      | Incoming => exact valid.incoming_nodup i _ here
  -- compare the pairs of index and edge, which are distinct
  have pairs : (g.edgesDirected i direction).Perm
      ((g.edges.zipIdx.filter fun entry => endpoint direction entry.1 == i).map Prod.swap) := by
    refine (perm_ext_iff_of_nodup listed ?_).mpr fun entry => ?_
    · have indices : (g.edges.zipIdx.map Prod.snd).Nodup := by
        rw [zipIdx_map_snd]
        exact nodup_range'
      exact ((indices.of_map _).filter _).map Prod.swap_injective
    · obtain ⟨e, edge⟩ := entry
      rw [valid.mem_edgesDirected inside direction]
      simp only [List.mem_map, mem_filter, Prod.exists, Prod.swap_prod_mk, Prod.mk.injEq,
        mk_mem_zipIdx_iff_getElem?, beq_iff_eq]
      constructor
      · rintro ⟨stored, isEnd⟩
        exact ⟨edge, e, ⟨stored, by cases direction <;> exact isEnd⟩, rfl, rfl⟩
      · rintro ⟨_, _, ⟨stored, isEnd⟩, rfl, rfl⟩
        exact ⟨stored, by cases direction <;> exact isEnd⟩
  refine (pairs.map Prod.snd).trans ?_
  rw [List.map_map]
  have fst : g.edges.zipIdx.map Prod.fst = g.edges := by simp
  have filtered := List.filter_map (f := Prod.fst) (p := fun edge => endpoint direction edge == i)
    (l := g.edges.zipIdx)
  rw [fst] at filtered
  rw [filtered]
  exact .refl _

theorem foldl_modify_getElem? {α : Type u} (change : α → α)
    (idempotent : ∀ x, change (change x) = change x) (indices : List Nat) :
    ∀ (l : List α) (j : Nat), (indices.foldl (fun l e => l.modify e change) l)[j]? =
      l[j]?.map fun x => if j ∈ indices then change x else x := by
  induction indices with
  | nil => simp
  | cons e rest inductionHypothesis =>
    intro l j
    rw [foldl_cons, inductionHypothesis, List.getElem?_modify]
    cases l[j]? with
    | none => rfl
    | some x =>
      by_cases here : j = e
      · subst here
        by_cases later : j ∈ rest <;> simp [later, idempotent]
      · by_cases later : j ∈ rest <;> simp [later, here, Ne.symm here]

/-- The node index `i` after the last node took the index `index`. -/
def relabel (last index : Nat) (edge : Edge E) : Edge E :=
  ⟨edge.weight, renumber last index edge.source, renumber last index edge.target⟩

private theorem removeIsolated_edges (valid : g.Valid) (inside : index < g.nodes.length)
    (isolated : ∀ edge ∈ g.edges, edge.source ≠ index ∧ edge.target ≠ index) (j : Nat) :
    (match (swapRemove g.nodes index)[index]? with
      | none => g.edges
      | some moved => moved.incoming.foldl
          (fun edges e => edges.modify e fun edge => { edge with target := index })
          (moved.outgoing.foldl
            (fun edges e => edges.modify e fun edge => { edge with source := index }) g.edges))[j]? =
      g.edges[j]?.map (relabel (g.nodes.length - 1) index) := by
  have bound : g.nodes.length - 1 < g.nodes.length := by omega
  have loops : ∀ moved : Node N, (moved.incoming.foldl
      (fun edges e => edges.modify e fun edge => { edge with target := index })
      (moved.outgoing.foldl
        (fun edges e => edges.modify e fun edge => { edge with source := index }) g.edges))[j]? =
      g.edges[j]?.map fun edge => ⟨edge.weight,
        if j ∈ moved.outgoing then index else edge.source,
        if j ∈ moved.incoming then index else edge.target⟩ := by
    intro moved
    rw [foldl_modify_getElem? (fun edge : Edge E => { edge with target := index }) fun _ => rfl,
      foldl_modify_getElem? (fun edge : Edge E => { edge with source := index }) fun _ => rfl,
      Option.map_map]
    congr 1
    funext edge
    by_cases atSource : j ∈ moved.outgoing <;> by_cases atTarget : j ∈ moved.incoming <;>
      simp [atSource, atTarget]
  rw [swapRemove_getElem? g.nodes index index inside, if_pos rfl]
  cases stored : g.edges[j]? with
  | none =>
    split
    · exact stored
    · rw [loops, stored]
      rfl
  | some edge =>
    obtain ⟨notSource, notTarget⟩ := isolated edge (mem_of_getElem? stored)
    by_cases isLast : index < g.nodes.length - 1
    · rw [if_pos isLast, List.getElem?_eq_getElem bound]
      have moved := List.getElem?_eq_getElem bound
      rw [loops, stored]
      simp only [map_some, valid.mem_outgoing _ _ moved, valid.mem_incoming _ _ moved,
        stored, Option.some.injEq, exists_eq_left']
      unfold relabel renumber
      by_cases atSource : edge.source = g.nodes.length - 1 <;>
        by_cases atTarget : edge.target = g.nodes.length - 1 <;> simp [atSource, atTarget]
    · rw [if_neg isLast]
      rw [stored, map_some]
      unfold relabel renumber
      rw [if_neg (by omega), if_neg (by omega)]

/-- What the removal of a node leaves. -/
structure RemovesNode (g g' : DiGraph N E) (index : Nat) : Prop where
  valid : g'.Valid
  weights : g'.nodes.map Node.weight = swapRemove (g.nodes.map Node.weight) index
  edges : g'.edges.Perm ((g.edges.filter fun edge =>
    !(edge.source == index) && !(edge.target == index)).map (relabel (g.nodes.length - 1) index))

theorem swapRemove_map {α β : Type*} (f : α → β) (l : List α) (index : Nat) :
    (swapRemove l index).map f = swapRemove (l.map f) index := by
  unfold swapRemove
  rw [List.getLast?_map]
  cases l.getLast? with
  | none => rfl
  | some last => simp [map_dropLast, map_set]

private theorem Valid.moveLast (valid : g.Valid) (inside : index < g.nodes.length)
    (isolated : ∀ edge ∈ g.edges, edge.source ≠ index ∧ edge.target ≠ index) :
    (⟨swapRemove g.nodes index, g.edges.map (relabel (g.nodes.length - 1) index)⟩ :
      DiGraph N E).Valid := by
  -- node `i` of the new graph and the index it comes from
  have inversion : ∀ (i : Nat) (n : Node N), (swapRemove g.nodes index)[i]? = some n →
      ∃ k, k ≠ index ∧ g.nodes[k]? = some n ∧ i = renumber (g.nodes.length - 1) index k := by
    intro i n present
    rw [swapRemove_getElem? g.nodes index i inside] at present
    unfold renumber
    split at present
    next early =>
      split at present
      next same => exact ⟨g.nodes.length - 1, by omega, present, by simp [same]⟩
      next other => exact ⟨i, other, present, by rw [if_neg (Nat.ne_of_lt early)]⟩
    next => exact absurd present (by simp)
  have injective : ∀ k k', k ≠ index → k' ≠ index →
      renumber (g.nodes.length - 1) index k = renumber (g.nodes.length - 1) index k' → k = k' := by
    intro k k' other other' same
    unfold renumber at same
    split at same <;> split at same <;> omega
  have small : ∀ k, k < g.nodes.length → k ≠ index →
      renumber (g.nodes.length - 1) index k < (swapRemove g.nodes index).length := by
    intro k below other
    rw [swapRemove_length]
    unfold renumber
    split <;> omega
  have ends : ∀ (e : Nat) (edge : Edge E),
      (g.edges.map (relabel (g.nodes.length - 1) index))[e]? = some edge ↔
      ∃ old, g.edges[e]? = some old ∧ relabel (g.nodes.length - 1) index old = edge := by
    intro e edge
    rw [List.getElem?_map, map_eq_some_iff]
  refine ⟨fun e edge present => ?_, fun e edge present => ?_, fun i n present => ?_,
    fun i n present => ?_, fun i n present e => ?_, fun i n present e => ?_⟩
  · obtain ⟨old, stored, rfl⟩ := (ends e edge).mp present
    exact small _ (valid.source_lt e old stored) (isolated old (mem_of_getElem? stored)).1
  · obtain ⟨old, stored, rfl⟩ := (ends e edge).mp present
    exact small _ (valid.target_lt e old stored) (isolated old (mem_of_getElem? stored)).2
  · obtain ⟨k, _, stored, _⟩ := inversion i n present
    exact valid.outgoing_nodup k n stored
  · obtain ⟨k, _, stored, _⟩ := inversion i n present
    exact valid.incoming_nodup k n stored
  · obtain ⟨k, other, stored, rfl⟩ := inversion i n present
    rw [valid.mem_outgoing k n stored]
    constructor
    · rintro ⟨edge, inEdges, rfl⟩
      exact ⟨_, (ends e _).mpr ⟨edge, inEdges, rfl⟩, rfl⟩
    · rintro ⟨edge, inEdges, same⟩
      obtain ⟨old, oldEdge, rfl⟩ := (ends e edge).mp inEdges
      exact ⟨old, oldEdge, injective _ _ (isolated old (mem_of_getElem? oldEdge)).1 other same⟩
  · obtain ⟨k, other, stored, rfl⟩ := inversion i n present
    rw [valid.mem_incoming k n stored]
    constructor
    · rintro ⟨edge, inEdges, rfl⟩
      exact ⟨_, (ends e _).mpr ⟨edge, inEdges, rfl⟩, rfl⟩
    · rintro ⟨edge, inEdges, same⟩
      obtain ⟨old, oldEdge, rfl⟩ := (ends e edge).mp inEdges
      exact ⟨old, oldEdge, injective _ _ (isolated old (mem_of_getElem? oldEdge)).2 other same⟩

theorem Valid.removeNode (valid : g.Valid) (inside : index < g.nodes.length) :
    RemovesNode g (g.removeNode index) index := by
  have outgoing := valid.removeIncident .Outgoing index (Nat.le_refl g.edges.length)
  have fewer : (DiGraph.removeIncident .Outgoing g.edges.length g index).edges.length ≤
      g.edges.length := by
    rw [outgoing.edges.length_eq]
    exact length_filter_le _ _
  have both := outgoing.trans (outgoing.valid.removeIncident .Incoming index fewer)
  obtain ⟨h, isH⟩ : ∃ h, h = DiGraph.removeIncident .Incoming g.edges.length
    (DiGraph.removeIncident .Outgoing g.edges.length g index) index := ⟨_, rfl⟩
  rw [← isH] at both
  have sameLength : h.nodes.length = g.nodes.length := by
    simpa using congrArg List.length both.weights
  have insideH : index < h.nodes.length := by rw [sameLength]; exact inside
  have isolated : ∀ edge ∈ h.edges, edge.source ≠ index ∧ edge.target ≠ index := by
    intro edge mem
    have kept := (mem_filter.mp (both.edges.mem_iff.mp mem)).2
    simpa [endpoint] using kept
  have shape : (g.removeNode index).nodes = swapRemove h.nodes index ∧
      ∀ j : Nat, (g.removeNode index).edges[j]? =
        h.edges[j]?.map (relabel (g.nodes.length - 1) index) := by
    have edges := removeIsolated_edges both.valid insideH isolated
    rw [sameLength] at edges
    unfold DiGraph.removeNode
    rw [List.getElem?_eq_getElem inside]
    dsimp only
    rw [← isH]
    refine ⟨by split <;> rfl, fun j => ?_⟩
    rw [← edges j]
    cases (swapRemove h.nodes index)[index]? <;> rfl
  have edges : (g.removeNode index).edges =
      h.edges.map (relabel (g.nodes.length - 1) index) := by
    refine ext_getElem? fun j => ?_
    rw [shape.2 j, List.getElem?_map]
  refine ⟨?_, ?_, ?_⟩
  · have moved := both.valid.moveLast insideH isolated
    rw [sameLength, ← edges, ← shape.1] at moved
    exact moved
  · rw [shape.1, swapRemove_map, both.weights]
  · rw [edges]
    exact both.edges.map _

end R2Sleigh.Flow.DiGraph
