import Mathlib.Algebra.Order.BigOperators.Group.List
import Mathlib.Algebra.Order.Group.Nat
import Mathlib.Algebra.Ring.Nat
import R2Sleigh.Flow.Scc

/-!
Contract: breadth-first search with a queue and a set of reached vertices.
-/

namespace R2Sleigh.Flow

open List

universe u

variable {V : Type u} [DecidableEq V]

/-- Take a vertex from the front of the queue; on the first visit mark it and
append its successors. -/
def bfs (succs : V → List V) : Nat → List V → List V → List V
  | 0, _, reached => reached
  | _ + 1, [], reached => reached
  | fuel + 1, v :: queue, reached =>
    if v ∈ reached then bfs succs fuel queue reached
    else bfs succs fuel (queue ++ succs v) (v :: reached)

/-- The number of vertices that can still be appended to the queue. -/
def pendingEdges (succs : V → List V) (nodes reached : List V) : Nat :=
  ((nodes.filter fun v => v ∉ reached).map fun v => (succs v).length).sum

private theorem pendingEdges_cons_add_le (succs : V → List V) {nodes reached : List V} {v : V}
    (mem : v ∈ nodes) (unseen : v ∉ reached) :
    pendingEdges succs nodes (v :: reached) + (succs v).length ≤ pendingEdges succs nodes reached := by
  have kept : nodes.filter (fun w => w ∉ v :: reached) =
      (nodes.filter fun w => w ∉ reached).filter fun w => w ≠ v := by
    rw [filter_filter]
    simp only [mem_cons, not_or, ← Bool.decide_and]
  have listed : v ∈ nodes.filter fun w => w ∉ reached := mem_filter.mpr ⟨mem, decide_eq_true unseen⟩
  unfold pendingEdges
  rw [kept]
  generalize nodes.filter (fun w => w ∉ reached) = rest at listed
  induction rest with
  | nil => simp at listed
  | cons w rest ih =>
    have shrinks : ((rest.filter fun w => w ≠ v).map fun v => (succs v).length).sum ≤
        (rest.map fun v => (succs v).length).sum :=
      (filter_sublist.map _).sum_le_sum fun _ _ => Nat.zero_le _
    by_cases same : w = v
    · subst same
      rw [filter_cons_of_neg (by simp), map_cons, sum_cons]
      omega
    · have inRest := (mem_cons.mp listed).resolve_left fun equal => same equal.symm
      have rest := ih inRest
      rw [filter_cons_of_pos (by simpa using same), map_cons, map_cons, sum_cons, sum_cons]
      omega

/-- What the search keeps: everything known is below the root, and every
successor of a reached vertex is reached or queued. -/
structure Searching (succs : V → List V) (root : V) (queue reached : List V) : Prop where
  known : ∀ v, v ∈ queue ∨ v ∈ reached → Reaches succs root v
  closed : ∀ v ∈ reached, ∀ w ∈ succs v, w ∈ reached ∨ w ∈ queue
  started : root ∈ reached ∨ root ∈ queue

private theorem mem_bfs {succs : V → List V} {nodes : List V} {root : V}
    (closed : ∀ v ∈ nodes, ∀ w ∈ succs v, w ∈ nodes) (fuel : Nat) :
    ∀ queue reached, (∀ v ∈ queue, v ∈ nodes) → Searching succs root queue reached →
      queue.length + pendingEdges succs nodes reached < fuel →
      ∀ v, v ∈ bfs succs fuel queue reached ↔ Reaches succs root v := by
  induction fuel with
  | zero => exact fun _ _ _ _ enough => absurd enough (Nat.not_lt_zero _)
  | succ fuel ih =>
    intro queue reached inNodes searching enough v
    rcases queue with _ | ⟨head, queue⟩
    · refine ⟨fun mem => searching.known v (Or.inr mem), fun reaches => ?_⟩
      refine reaches.mem_of_closed (P := (· ∈ reached)) (fun a inside b edge => ?_) ?_
      · simpa using searching.closed a inside b edge
      · simpa using searching.started
    · have headInside := inNodes head mem_cons_self
      have queueInside : ∀ v ∈ queue, v ∈ nodes := fun v mem =>
        inNodes v (mem_cons_of_mem _ mem)
      rw [length_cons] at enough
      by_cases seen : head ∈ reached
      · rw [bfs, if_pos seen]
        refine ih queue reached queueInside ⟨?_, ?_, ?_⟩ (by omega) v
        · exact fun v known => searching.known v (known.imp_left (mem_cons_of_mem _))
        · intro a inside b edge
          rcases searching.closed a inside b edge with done | waiting
          · exact Or.inl done
          · rcases mem_cons.mp waiting with rfl | later
            · exact Or.inl seen
            · exact Or.inr later
        · rcases searching.started with done | waiting
          · exact Or.inl done
          · rcases mem_cons.mp waiting with rfl | later
            · exact Or.inl seen
            · exact Or.inr later
      · rw [bfs, if_neg seen]
        have headKnown := searching.known head (Or.inl mem_cons_self)
        have shrinks := pendingEdges_cons_add_le succs headInside seen
        refine ih (queue ++ succs head) (head :: reached) ?_ ⟨?_, ?_, ?_⟩
          (by rw [length_append]; omega) v
        · intro v mem
          rcases mem_append.mp mem with old | new
          · exact queueInside v old
          · exact closed head headInside v new
        · rintro v (queued | done)
          · rcases mem_append.mp queued with old | new
            · exact searching.known v (Or.inl (mem_cons_of_mem _ old))
            · exact headKnown.tail new
          · rcases mem_cons.mp done with rfl | old
            · exact headKnown
            · exact searching.known v (Or.inr old)
        · intro a inside b edge
          rcases mem_cons.mp inside with rfl | old
          · exact Or.inr (mem_append_right _ edge)
          · rcases searching.closed a old b edge with done | waiting
            · exact Or.inl (mem_cons_of_mem _ done)
            · rcases mem_cons.mp waiting with rfl | later
              · exact Or.inl mem_cons_self
              · exact Or.inr (mem_append_left _ later)
        · rcases searching.started with done | waiting
          · exact Or.inl (mem_cons_of_mem _ done)
          · rcases mem_cons.mp waiting with rfl | later
            · exact Or.inl mem_cons_self
            · exact Or.inr (mem_append_left _ later)

omit [DecidableEq V] in
theorem reach_iff_reaches {g : Graph V} {succs : V → List V}
    (edges : ∀ a b, g.Reach a → (b ∈ succs a ↔ g.edge a b)) {v : V} :
    g.Reach v ↔ Reaches succs g.root v := by
  constructor
  · intro reach
    exact reach.induction .refl fun p b reachP reaches edge =>
      reaches.tail ((edges p b reachP).mpr edge)
  · intro reaches
    induction reaches with
    | refl => exact .root
    | tail _ edge ih =>
      exact ih.step ((edges _ _ ih).mp edge)

/-- The vertices below a root. -/
def reachableFrom (succs : V → List V) (nodes : List V) (root : V) : List V :=
  bfs succs (pendingEdges succs nodes [] + 2) [root] []

theorem mem_reachableFrom {succs : V → List V} {nodes : List V} {root : V}
    (closed : ∀ v ∈ nodes, ∀ w ∈ succs v, w ∈ nodes) (mem : root ∈ nodes) (v : V) :
    v ∈ reachableFrom succs nodes root ↔ Reaches succs root v := by
  refine mem_bfs closed _ [root] [] (by simpa using mem) ⟨?_, ?_, ?_⟩ ?_ v
  · intro v known
    have isRoot : v = root := by simpa using known
    rw [isRoot]
  · simp
  · simp
  · rw [length_singleton]
    omega

end R2Sleigh.Flow
