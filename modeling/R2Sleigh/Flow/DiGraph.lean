import Mathlib.Data.List.Nodup

/-!
Contract: a directed multigraph stored in two vectors, with adjacency lists of
edge indices and swap-removal: the graph of `petgraph`.

Assumes its documented order: the edge added last comes first among those of its node,
and the last node or edge takes the place of the one removed.

Owns `Valid`.
-/

namespace R2Sleigh.Flow

universe u v

namespace DiGraph

structure Node (N : Type u) where
  weight : N
  outgoing : List Nat
  incoming : List Nat
deriving DecidableEq, Repr

structure Edge (E : Type v) where
  weight : E
  source : Nat
  target : Nat
deriving DecidableEq, Repr

inductive Direction where
  | Outgoing
  | Incoming
deriving DecidableEq, Repr

end DiGraph

open DiGraph

structure DiGraph (N : Type u) (E : Type v) where
  nodes : List (Node N)
  edges : List (Edge E)
deriving DecidableEq, Repr

namespace DiGraph

variable {N : Type u} {E : Type v}

def empty : DiGraph N E := ⟨[], []⟩

/-- Append a node; its index is the old number of nodes. -/
def addNode (g : DiGraph N E) (weight : N) : DiGraph N E :=
  { g with nodes := g.nodes ++ [⟨weight, [], []⟩] }

/-- Append an edge and put it in front of both adjacency lists. -/
def addEdge (g : DiGraph N E) (source target : Nat) (weight : E) : DiGraph N E :=
  let index := g.edges.length
  { nodes := (g.nodes.modify source fun n => { n with outgoing := index :: n.outgoing }).modify
      target fun n => { n with incoming := index :: n.incoming }
    edges := g.edges ++ [⟨weight, source, target⟩] }

def adjacency (n : Node N) : Direction → List Nat
  | .Outgoing => n.outgoing
  | .Incoming => n.incoming

/-- Edges leaving or entering a node, with their indices, in adjacency order. -/
def edgesDirected (g : DiGraph N E) (index : Nat) (direction : Direction) :
    List (Nat × Edge E) :=
  match g.nodes[index]? with
  | none => []
  | some n => (adjacency n direction).filterMap fun e => g.edges[e]?.map fun edge => (e, edge)

/-- The first edge from `source` to `target` in adjacency order. -/
def findEdge (g : DiGraph N E) (source target : Nat) : Option Nat :=
  ((g.edgesDirected source .Outgoing).find? fun entry => entry.2.target == target).map Prod.fst

/-- Removing from a vector by moving its last element to the freed index. -/
def swapRemove {α : Type u} (l : List α) (index : Nat) : List α :=
  match l.getLast? with
  | none => l
  | some last => (l.set index last).dropLast

/-- Unlink edge `e`, then let the last edge take its index. -/
def removeEdge (g : DiGraph N E) (e : Nat) : DiGraph N E :=
  match g.edges[e]? with
  | none => g
  | some edge =>
    let unlinked := (g.nodes.modify edge.source fun n =>
        { n with outgoing := n.outgoing.erase e }).modify edge.target fun n =>
        { n with incoming := n.incoming.erase e }
    let edges := swapRemove g.edges e
    match edges[e]? with
    | none => ⟨unlinked, edges⟩
    | some moved =>
      let rename := fun i => if i = edges.length then e else i
      { nodes := (unlinked.modify moved.source fun n =>
          { n with outgoing := n.outgoing.map rename }).modify moved.target fun n =>
          { n with incoming := n.incoming.map rename }
        edges := edges }

/-- Remove the edges at the head of an adjacency list until it is empty. The
fuel is a number of edges, each removal taking one. -/
def removeIncident (direction : Direction) : Nat → DiGraph N E → Nat → DiGraph N E
  | 0, g, _ => g
  | fuel + 1, g, index =>
    match g.nodes[index]? with
    | none => g
    | some n =>
      match adjacency n direction with
      | [] => g
      | e :: _ => removeIncident direction fuel (g.removeEdge e) index

def removeNode (g : DiGraph N E) (index : Nat) : DiGraph N E :=
  match g.nodes[index]? with
  | none => g
  | some _ =>
    let outgoing := removeIncident .Outgoing g.edges.length g index
    let isolated := removeIncident .Incoming g.edges.length outgoing index
    let nodes := swapRemove isolated.nodes index
    match nodes[index]? with
    | none => ⟨nodes, isolated.edges⟩
    | some moved =>
      { nodes := nodes
        edges := moved.incoming.foldl
          (fun edges e => edges.modify e fun edge => { edge with target := index })
          (moved.outgoing.foldl
            (fun edges e => edges.modify e fun edge => { edge with source := index })
            isolated.edges) }

/-- Endpoints exist, and each adjacency list holds the incident edges once. -/
structure Valid (g : DiGraph N E) : Prop where
  source_lt : ∀ (e : Nat) (edge : Edge E), g.edges[e]? = some edge → edge.source < g.nodes.length
  target_lt : ∀ (e : Nat) (edge : Edge E), g.edges[e]? = some edge → edge.target < g.nodes.length
  outgoing_nodup : ∀ (i : Nat) (n : Node N), g.nodes[i]? = some n → n.outgoing.Nodup
  incoming_nodup : ∀ (i : Nat) (n : Node N), g.nodes[i]? = some n → n.incoming.Nodup
  mem_outgoing : ∀ (i : Nat) (n : Node N), g.nodes[i]? = some n → ∀ e : Nat, e ∈ n.outgoing ↔
    ∃ edge : Edge E, g.edges[e]? = some edge ∧ edge.source = i
  mem_incoming : ∀ (i : Nat) (n : Node N), g.nodes[i]? = some n → ∀ e : Nat, e ∈ n.incoming ↔
    ∃ edge : Edge E, g.edges[e]? = some edge ∧ edge.target = i

theorem empty_valid : (empty : DiGraph N E).Valid := by
  constructor <;> simp [empty]

theorem Valid.addNode {g : DiGraph N E} (valid : g.Valid) (weight : N) :
    (g.addNode weight).Valid := by
  -- a node of the new graph is an old one or the fresh, isolated one
  have cases : ∀ (i : Nat) (n : Node N), (g.addNode weight).nodes[i]? = some n →
      g.nodes[i]? = some n ∨ (i = g.nodes.length ∧ n = ⟨weight, [], []⟩) := by
    intro i n present
    simp only [DiGraph.addNode] at present
    by_cases inside : i < g.nodes.length
    · rw [List.getElem?_append_left inside] at present
      exact .inl present
    · rcases Nat.eq_or_lt_of_le (Nat.le_of_not_lt inside) with equal | later
      · subst equal
        simp at present
        exact .inr ⟨rfl, present.symm⟩
      · rw [List.getElem?_eq_none (by simp; omega)] at present
        exact absurd present (by simp)
  have fresh : ∀ (e : Nat) (edge : Edge E), g.edges[e]? = some edge →
      edge.source ≠ g.nodes.length ∧ edge.target ≠ g.nodes.length := fun e edge present =>
    ⟨Nat.ne_of_lt (valid.source_lt e edge present), Nat.ne_of_lt (valid.target_lt e edge present)⟩
  have longer : (g.addNode weight).nodes.length = g.nodes.length + 1 := by
    simp [DiGraph.addNode]
  refine ⟨fun e edge present => ?_, fun e edge present => ?_, fun i n present => ?_,
    fun i n present => ?_, fun i n present e => ?_, fun i n present e => ?_⟩
  · rw [longer]
    exact Nat.lt_succ_of_lt (valid.source_lt e edge present)
  · rw [longer]
    exact Nat.lt_succ_of_lt (valid.target_lt e edge present)
  · rcases cases i n present with old | ⟨_, rfl⟩
    · exact valid.outgoing_nodup i n old
    · exact List.nodup_nil
  · rcases cases i n present with old | ⟨_, rfl⟩
    · exact valid.incoming_nodup i n old
    · exact List.nodup_nil
  · rcases cases i n present with old | ⟨rfl, rfl⟩
    · exact valid.mem_outgoing i n old e
    · refine ⟨by simp, ?_⟩
      rintro ⟨edge, inside, equal⟩
      exact absurd equal (fresh e edge inside).1
  · rcases cases i n present with old | ⟨rfl, rfl⟩
    · exact valid.mem_incoming i n old e
    · refine ⟨by simp, ?_⟩
      rintro ⟨edge, inside, equal⟩
      exact absurd equal (fresh e edge inside).2

theorem addEdge_nodes_getElem? (g : DiGraph N E) (source target : Nat) (weight : E) (i : Nat) :
    (g.addEdge source target weight).nodes[i]? = g.nodes[i]?.map fun n =>
      { weight := n.weight
        outgoing := if source = i then g.edges.length :: n.outgoing else n.outgoing
        incoming := if target = i then g.edges.length :: n.incoming else n.incoming } := by
  simp only [DiGraph.addEdge, List.getElem?_modify]
  cases g.nodes[i]? with
  | none => simp
  | some n => by_cases isSource : source = i <;> by_cases isTarget : target = i <;>
      simp [isSource, isTarget]

theorem addEdge_edges_getElem? (g : DiGraph N E) (source target : Nat) (weight : E) (e : Nat)
    (edge : Edge E) : (g.addEdge source target weight).edges[e]? = some edge ↔
      g.edges[e]? = some edge ∨ (e = g.edges.length ∧ edge = ⟨weight, source, target⟩) := by
  simp only [DiGraph.addEdge]
  rcases Nat.lt_trichotomy e g.edges.length with inside | equal | outside
  · rw [List.getElem?_append_left inside]
    simp [Nat.ne_of_lt inside]
  · subst equal
    simp [eq_comm]
  · rw [List.getElem?_eq_none (by simp; omega), List.getElem?_eq_none (Nat.le_of_lt outside)]
    simp [Nat.ne_of_gt outside]

theorem Valid.addEdge {g : DiGraph N E} (valid : g.Valid) {source target : Nat} (weight : E)
    (sourceLt : source < g.nodes.length) (targetLt : target < g.nodes.length) :
    (g.addEdge source target weight).Valid := by
  have sameLength : (g.addEdge source target weight).nodes.length = g.nodes.length := by
    simp [DiGraph.addEdge]
  have unused : ∀ (i : Nat) (n : Node N), g.nodes[i]? = some n →
      g.edges.length ∉ n.outgoing ∧ g.edges.length ∉ n.incoming := by
    intro i n present
    rw [valid.mem_outgoing i n present, valid.mem_incoming i n present]
    simp
  have inversion : ∀ (i : Nat) (n : Node N), (g.addEdge source target weight).nodes[i]? = some n →
      ∃ old : Node N, g.nodes[i]? = some old ∧
        n.outgoing = (if source = i then g.edges.length :: old.outgoing else old.outgoing) ∧
        n.incoming = (if target = i then g.edges.length :: old.incoming else old.incoming) := by
    intro i n present
    rw [addEdge_nodes_getElem?, Option.map_eq_some_iff] at present
    obtain ⟨old, inside, rfl⟩ := present
    exact ⟨old, inside, rfl, rfl⟩
  refine ⟨fun e edge present => ?_, fun e edge present => ?_, fun i n present => ?_,
    fun i n present => ?_, fun i n present e => ?_, fun i n present e => ?_⟩
  · rw [sameLength]
    rcases (addEdge_edges_getElem? ..).mp present with old | ⟨_, rfl⟩
    · exact valid.source_lt e edge old
    · exact sourceLt
  · rw [sameLength]
    rcases (addEdge_edges_getElem? ..).mp present with old | ⟨_, rfl⟩
    · exact valid.target_lt e edge old
    · exact targetLt
  · obtain ⟨old, inside, equal, _⟩ := inversion i n present
    rw [equal]
    split
    · exact (valid.outgoing_nodup i old inside).cons (unused i old inside).1
    · exact valid.outgoing_nodup i old inside
  · obtain ⟨old, inside, _, equal⟩ := inversion i n present
    rw [equal]
    split
    · exact (valid.incoming_nodup i old inside).cons (unused i old inside).2
    · exact valid.incoming_nodup i old inside
  · obtain ⟨old, inside, equal, _⟩ := inversion i n present
    simp only [addEdge_edges_getElem?, equal]
    split <;> rename_i isSource
    · rw [List.mem_cons, valid.mem_outgoing i old inside]
      grind
    · rw [valid.mem_outgoing i old inside]
      grind
  · obtain ⟨old, inside, _, equal⟩ := inversion i n present
    simp only [addEdge_edges_getElem?, equal]
    split <;> rename_i isTarget
    · rw [List.mem_cons, valid.mem_incoming i old inside]
      grind
    · rw [valid.mem_incoming i old inside]
      grind

theorem Valid.mem_edgesDirected {g : DiGraph N E} (valid : g.Valid) {i : Nat}
    (inside : i < g.nodes.length) (direction : Direction) (e : Nat) (edge : Edge E) :
    (e, edge) ∈ g.edgesDirected i direction ↔ g.edges[e]? = some edge ∧
      (match direction with | .Outgoing => edge.source | .Incoming => edge.target) = i := by
  have present : g.nodes[i]? = some g.nodes[i] := List.getElem?_eq_getElem inside
  have listed : ∀ a : Nat, a ∈ adjacency g.nodes[i] direction ↔ ∃ edge : Edge E, g.edges[a]? = some edge ∧
      (match direction with | .Outgoing => edge.source | .Incoming => edge.target) = i := by
    cases direction with
    | Outgoing => exact valid.mem_outgoing i _ present
    | Incoming => exact valid.mem_incoming i _ present
  simp only [edgesDirected, present, List.mem_filterMap, Option.map_eq_some_iff, Prod.mk.injEq,
    listed]
  constructor
  · rintro ⟨a, ⟨edge', there, incident⟩, edge'', there', rfl, rfl⟩
    rw [there] at there'
    cases there'
    exact ⟨there, incident⟩
  · rintro ⟨there, incident⟩
    exact ⟨e, ⟨edge, there, incident⟩, edge, there, rfl, rfl⟩

end DiGraph

end R2Sleigh.Flow
