import Mathlib.Data.List.Induction
import R2Sleigh.Flow.Graph

/-!
Contract: depth-first search that records vertices in postorder.

Owns `Extends`.
-/

namespace R2Sleigh.Flow

open List

universe u

variable {V : Type u}

structure DfsState (V : Type u) where
  visited : List V
  postorder : List V

/-- Visit `v`, then its successors from left to right, then record `v`. -/
def dfsVisit [DecidableEq V] (succs : V → List V) : Nat → V → DfsState V → DfsState V
  | 0, _, state => state
  | fuel + 1, v, state =>
    if v ∈ state.visited then state
    else
      let inner := (succs v).foldl (fun state w => dfsVisit succs fuel w state)
        { state with visited := v :: state.visited }
      { inner with postorder := inner.postorder ++ [v] }

/-- The vertices of a universe not visited yet. -/
def DfsState.unvisited [DecidableEq V] (nodes : List V) (state : DfsState V) : List V :=
  nodes.filter (fun v => decide (v ∉ state.visited))

/-- What a search started from the vertices `sources` adds to a state. -/
structure Extends (succs : V → List V) (sources : List V) (before after : DfsState V)
    (added : List V) : Prop where
  postorder : after.postorder = before.postorder ++ added
  mem_visited : ∀ v, v ∈ after.visited ↔ v ∈ before.visited ∨ v ∈ added
  fresh : ∀ v ∈ added, v ∉ before.visited
  nodup : added.Nodup
  started : ∀ v ∈ sources, v ∈ after.visited
  closed : ∀ v ∈ added, ∀ w ∈ succs v, w ∈ after.visited
  parent : ∀ earlier v later, added = earlier ++ v :: later → v ∈ sources ∨ ∃ u ∈ later, v ∈ succs u

namespace Extends

variable {succs : V → List V} {sources : List V} {before middle after : DfsState V}
  {added more : List V}

theorem refl (state : DfsState V) (sources : List V)
    (seen : ∀ v ∈ sources, v ∈ state.visited) : Extends succs sources state state [] where
  postorder := by simp
  mem_visited := by simp
  fresh := by simp
  nodup := nodup_nil
  started := seen
  closed := by simp
  parent := by simp

theorem visited_mono (extension : Extends succs sources before after added) {v : V}
    (mem : v ∈ before.visited) : v ∈ after.visited :=
  (extension.mem_visited v).mpr (.inl mem)

theorem trans {first second : List V} (left : Extends succs first before middle added)
    (right : Extends succs second middle after more) :
    Extends succs (first ++ second) before after (added ++ more) where
  postorder := by rw [right.postorder, left.postorder, append_assoc]
  mem_visited v := by
    rw [right.mem_visited, left.mem_visited, mem_append, or_assoc]
  fresh v mem := by
    rcases mem_append.mp mem with mem | mem
    · exact left.fresh v mem
    · exact fun visited => right.fresh v mem (left.visited_mono visited)
  nodup := by
    refine left.nodup.append right.nodup (disjoint_left.mpr fun v inLeft inRight => ?_)
    exact right.fresh v inRight ((left.mem_visited v).mpr (.inr inLeft))
  started v mem := by
    rcases mem_append.mp mem with mem | mem
    · exact right.visited_mono (left.started v mem)
    · exact right.started v mem
  closed v mem w successor := by
    rcases mem_append.mp mem with mem | mem
    · exact right.visited_mono (left.closed v mem w successor)
    · exact right.closed v mem w successor
  parent earlier v later split := by
    rcases append_eq_append_iff.mp split with ⟨tail, equal, equal'⟩ | ⟨tail, equal, equal'⟩
    · rcases right.parent tail v later equal' with source | ⟨u, mem, successor⟩
      · exact .inl (mem_append_right _ source)
      · exact .inr ⟨u, mem, successor⟩
    · rcases tail with _ | ⟨head, tail⟩
      · rcases right.parent [] v later equal'.symm with source | ⟨u, mem, successor⟩
        · exact .inl (mem_append_right _ source)
        · exact .inr ⟨u, mem, successor⟩
      · obtain ⟨rfl, rfl⟩ := equal'
        rcases left.parent earlier v tail equal with source | ⟨u, mem, successor⟩
        · exact .inl (mem_append_left _ source)
        · exact .inr ⟨u, mem_append_left _ mem, successor⟩

theorem record {v : V} (inner : Extends succs (succs v)
      { before with visited := v :: before.visited } after added)
    (unseen : v ∉ before.visited) :
    Extends succs [v] before { after with postorder := after.postorder ++ [v] } (added ++ [v]) where
  postorder := by rw [inner.postorder, append_assoc]
  mem_visited w := by
    rw [inner.mem_visited]
    simp only [mem_cons, mem_append, not_mem_nil, or_false]
    tauto
  fresh w mem := by
    rcases mem_append.mp mem with mem | mem
    · exact fun visited => inner.fresh w mem (mem_cons_of_mem _ visited)
    · rw [mem_singleton.mp mem]
      exact unseen
  nodup := by
    refine inner.nodup.append (nodup_singleton v) (disjoint_left.mpr ?_)
    intro w inAdded isV
    rw [mem_singleton.mp isV] at inAdded
    exact inner.fresh v inAdded (mem_cons_self)
  started w mem := by
    rw [mem_singleton.mp mem]
    exact inner.visited_mono mem_cons_self
  closed w mem x successor := by
    rcases mem_append.mp mem with mem | mem
    · exact inner.closed w mem x successor
    · rw [mem_singleton.mp mem] at successor
      exact inner.started x successor
  parent earlier w later split := by
    rcases append_eq_append_iff.mp split with ⟨tail, equal, equal'⟩ | ⟨tail, equal, equal'⟩
    · rcases tail with _ | ⟨head, tail⟩
      · rw [nil_append, List.cons.injEq] at equal'
        exact .inl (by rw [equal'.1]; exact mem_singleton_self _)
      · simp at equal'
    · rcases tail with _ | ⟨head, tail⟩
      · rw [nil_append, List.cons.injEq] at equal'
        exact .inl (by rw [← equal'.1]; exact mem_singleton_self _)
      · obtain ⟨rfl, rfl⟩ := equal'
        right
        rcases inner.parent earlier w tail equal with source | ⟨u, mem, successor⟩
        · exact ⟨v, mem_append_right _ (mem_singleton_self v), source⟩
        · exact ⟨u, mem_append_left _ mem, successor⟩

end Extends

theorem DfsState.unvisited_length_le [DecidableEq V] (nodes : List V) {before after : DfsState V}
    (mono : ∀ v ∈ before.visited, v ∈ after.visited) :
    (after.unvisited nodes).length ≤ (before.unvisited nodes).length := by
  refine (monotone_filter_right nodes fun v unseen => ?_).length_le
  simp only [decide_eq_true_eq] at unseen ⊢
  exact fun visited => unseen (mono v visited)

section

variable [DecidableEq V] {nodes : List V}

theorem DfsState.unvisited_length_lt {state : DfsState V}
    {v : V}
    (mem : v ∈ nodes) (unseen : v ∉ state.visited) :
    (DfsState.unvisited nodes { state with visited := v :: state.visited }).length <
      (state.unvisited nodes).length := by
  have dropped : DfsState.unvisited nodes { state with visited := v :: state.visited } =
      (state.unvisited nodes).filter (· ≠ v) := by
    simp [DfsState.unvisited, filter_filter]
  rw [dropped, length_filter_lt_length_iff_exists]
  exact ⟨v, by simp [DfsState.unvisited, mem, unseen], by simp⟩

theorem foldl_dfsVisit_extends {succs : V → List V} {fuel : Nat}
    (call : ∀ (v : V) (state : DfsState V), v ∈ nodes → (state.unvisited nodes).length < fuel →
      ∃ added, Extends succs [v] state (dfsVisit succs fuel v state) added) :
    ∀ (rest : List V) (current : DfsState V), (∀ w ∈ rest, w ∈ nodes) →
      (current.unvisited nodes).length < fuel →
      ∃ added, Extends succs rest current
        (rest.foldl (fun state w => dfsVisit succs fuel w state) current) added := by
  intro rest
  induction rest with
  | nil => exact fun current _ _ => ⟨[], .refl current [] (by simp)⟩
  | cons w rest ih =>
    intro current inside enough
    obtain ⟨added, first⟩ := call w current (inside w mem_cons_self) enough
    have still := Nat.lt_of_le_of_lt (DfsState.unvisited_length_le nodes
      fun v visited => first.visited_mono visited) enough
    obtain ⟨more, second⟩ := ih _ (fun x mem => inside x (mem_cons_of_mem _ mem)) still
    exact ⟨added ++ more, first.trans second⟩

/-- With more fuel than unvisited vertices a call explores everything below
its vertex. -/
theorem dfsVisit_extends {succs : V → List V}
    (closed : ∀ v ∈ nodes, ∀ w ∈ succs v, w ∈ nodes) (fuel : Nat) :
    ∀ (v : V) (state : DfsState V), v ∈ nodes → (state.unvisited nodes).length < fuel →
      ∃ added, Extends succs [v] state (dfsVisit succs fuel v state) added := by
  induction fuel with
  | zero => exact fun _ _ _ enough => absurd enough (Nat.not_lt_zero _)
  | succ fuel ih =>
    intro v state mem enough
    by_cases seen : v ∈ state.visited
    · refine ⟨[], ?_⟩
      rw [dfsVisit, if_pos seen]
      exact .refl state [v] (by simpa using seen)
    · rw [dfsVisit, if_neg seen]
      obtain ⟨added, inner⟩ := foldl_dfsVisit_extends ih (succs v)
        { state with visited := v :: state.visited } (closed v mem)
        (Nat.lt_of_lt_of_le (DfsState.unvisited_length_lt mem seen) (Nat.le_of_lt_succ enough))
      exact ⟨added ++ [v], inner.record seen⟩

end

/-- The vertices reachable from `root` in reverse postorder. -/
def reversePostorder [DecidableEq V] (succs : V → List V) (fuel : Nat) (root : V) : List V :=
  (dfsVisit succs fuel root ⟨[], []⟩).postorder.reverse

/-- The graph a successor function spans from a root. -/
def succGraph (succs : V → List V) (root : V) : Graph V where
  root := root
  edge p b := b ∈ succs p

/-- What the algorithms that run over a reverse postorder rely on. -/
structure IsReversePostorder (g : Graph V) (order : List V) : Prop where
  nodup : order.Nodup
  mem_iff : ∀ v, v ∈ order ↔ g.Reach v
  head : order.head? = some g.root
  pred_before : ∀ earlier v later, order = earlier ++ v :: later → v ≠ g.root →
    ∃ u ∈ earlier, g.edge u v

theorem reversePostorder_isReversePostorder [DecidableEq V] {succs : V → List V}
    (nodes : List V) {root : V} {fuel : Nat}
    (closed : ∀ v ∈ nodes, ∀ w ∈ succs v, w ∈ nodes) (mem : root ∈ nodes)
    (enough : nodes.length < fuel) :
    IsReversePostorder (succGraph succs root) (reversePostorder succs fuel root) := by
  have fits : ((⟨[], []⟩ : DfsState V).unvisited nodes).length < fuel :=
    Nat.lt_of_le_of_lt (length_filter_le _ _) enough
  obtain ⟨added, extension⟩ := dfsVisit_extends closed fuel root ⟨[], []⟩ mem fits
  have order : reversePostorder succs fuel root = added.reverse := by
    rw [reversePostorder, extension.postorder, nil_append]
  have visitedIff : ∀ v, v ∈ (dfsVisit succs fuel root ⟨[], []⟩).visited ↔ v ∈ added := by
    intro v
    rw [extension.mem_visited]
    simp
  have predBefore : ∀ earlier v later, added.reverse = earlier ++ v :: later → v ≠ root →
      ∃ u ∈ earlier, v ∈ succs u := by
    intro earlier v later split notRoot
    have split' : added = later.reverse ++ v :: earlier.reverse := by
      rw [← reverse_reverse added, split]
      simp
    rcases extension.parent _ _ _ split' with source | ⟨u, inEarlier, successor⟩
    · exact absurd (mem_singleton.mp source) notRoot
    · exact ⟨u, mem_reverse.mp inEarlier, successor⟩
  have sound : ∀ earlier later, added.reverse = earlier ++ later →
      ∀ v ∈ earlier, (succGraph succs root).Reach v := by
    intro earlier
    induction earlier using List.reverseRecOn with
    | nil => simp
    | append_singleton earlier v ih =>
      intro later split w inside
      have split' : added.reverse = earlier ++ v :: later := by simpa using split
      rcases mem_append.mp inside with inside | isV
      · exact ih _ split' w inside
      · rw [mem_singleton.mp isV]
        by_cases isRoot : v = root
        · rw [isRoot]
          exact Graph.Reach.root
        · obtain ⟨u, inEarlier, successor⟩ := predBefore _ _ _ split' isRoot
          exact (ih _ split' u inEarlier).step successor
  have complete : ∀ v, (succGraph succs root).Reach v → v ∈ added := by
    intro v reach
    refine reach.induction (motive := (· ∈ added)) ?_ fun p b _ inAdded edge => ?_
    · exact (visitedIff root).mp (extension.started root (mem_singleton_self root))
    · exact (visitedIff b).mp (extension.closed p inAdded b edge)
  rw [order]
  refine ⟨nodup_reverse.mpr extension.nodup, fun v => ⟨?_, ?_⟩, ?_, predBefore⟩
  · exact sound added.reverse [] (by simp) v
  · exact fun reach => mem_reverse.mpr (complete v reach)
  · -- the head has no predecessor before it, so it is the root
    cases equal : added.reverse with
    | nil =>
      have inside := complete root Graph.Reach.root
      rw [← mem_reverse, equal] at inside
      simp at inside
    | cons v later =>
      by_cases isRoot : v = root
      · rw [isRoot]
        rfl
      · obtain ⟨u, inEarlier, _⟩ := predBefore [] v later equal isRoot
        simp at inEarlier

end R2Sleigh.Flow
