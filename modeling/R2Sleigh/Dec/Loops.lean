import R2Sleigh.Dec.PostDominators
import R2Sleigh.Flow.Loops
import R2Sleigh.Lib.Endings

/-!
Contract: how the region analysis finds loops.

Owns `findBackEdges` and `findLoops`.
-/

namespace R2Sleigh.Dec

open Relation Flow Lib Ssa List

variable (successors predecessors : Nat → List Nat)

structure LoopSearch where
  visited : Finset Nat
  inStack : Finset Nat
  backEdges : HashMap Nat (List Nat)

namespace LoopSearch

def enter (search : LoopSearch) (block : Nat) : LoopSearch :=
  { search with
    visited := insert block search.visited
    inStack := insert block search.inStack }

def leave (search : LoopSearch) (block : Nat) : LoopSearch :=
  { search with inStack := search.inStack.erase block }

def push (search : LoopSearch) (block succ : Nat) : LoopSearch :=
  { search with backEdges := search.backEdges.pushAt succ block }

end LoopSearch

/-- `none` when the fuel was too little. -/
def dfsBackEdges : Nat → Nat → LoopSearch → Option LoopSearch
  | 0, _, _ => none
  | fuel + 1, block, search =>
    if block ∈ search.visited then some search
    else
      ((successors block).foldlM (fun search succ =>
        if succ ∈ search.inStack then some (search.push block succ)
        else dfsBackEdges fuel succ search) (search.enter block)).map (·.leave block)

def findBackEdges (fuel entry : Nat) : Option (HashMap Nat (List Nat)) :=
  (dfsBackEdges successors fuel entry ⟨∅, ∅, ∅⟩).map (·.backEdges)

/-- The last entry of the worklist is taken first; it is the head of the list. -/
def collectLoopBody (header : Nat) : Nat → List Nat → Finset Nat → Option (Finset Nat)
  | 0, _, _ => none
  | _ + 1, [], body => some body
  | fuel + 1, block :: worklist, body =>
    if block ∈ body then collectLoopBody header fuel worklist body
    else
      let body := insert block body
      let preds := (predecessors block).filter fun pred => pred ≠ header ∧ pred ∉ body
      collectLoopBody header fuel (preds.reverse ++ worklist) body

def loopBody (fuel header : Nat) (sources : List Nat) : Option (Finset Nat) :=
  sources.foldlM (fun body source => collectLoopBody predecessors header fuel [source] body)
    {header}

def findLoops (fuel : Nat) (backEdges : HashMap Nat (List Nat)) :
    Option (HashMap Nat (Finset Nat)) :=
  backEdges.entries.foldlM (fun loops entry =>
    (loopBody predecessors fuel entry.1 entry.2).map fun body => loops.insert entry.1 body) ∅

/-- The loops of a new analyzer. -/
def analyzerLoops (fuel entry : Nat) : Option (HashMap Nat (Finset Nat)) :=
  (findBackEdges successors fuel entry).bind (findLoops predecessors fuel)

variable {successors predecessors : Nat → List Nat}

/-! ## The search -/

namespace LoopSearch

/-- The search has recorded the edge from `s` to `h`. -/
def Records (search : LoopSearch) (s h : Nat) : Prop := s ∈ search.backEdges.listAt h

/-- Only back edges are recorded, and no header without one. -/
def Good (g : Graph Nat) (search : LoopSearch) : Prop :=
  ∀ h sources, search.backEdges.lookup h = some sources →
    sources ≠ [] ∧ ∀ s ∈ sources, g.BackEdge s h

/-- The path of the search. -/
def OnPath (search : LoopSearch) (l : List Nat) : Prop :=
  (∀ v, v ∈ search.inStack ↔ v ∈ l) ∧ ∀ v ∈ l, v ∈ search.visited

end LoopSearch

open LoopSearch

/-- What a search from a block does to the state. -/
structure Searched (g : Graph Nat) (before after : LoopSearch) : Prop where
  inStack : after.inStack = before.inStack
  visited : before.visited ⊆ after.visited
  records : ∀ s h, before.Records s h → after.Records s h
  good : before.Good g → after.Good g
  closed : ∀ s ∈ after.visited, s ∉ before.visited → ∀ w, g.edge s w →
    w ∈ after.visited ∧ (g.Dom w s → after.Records s w)

variable {g : Graph Nat} {before middle after search : LoopSearch} {l : List Nat}

theorem Searched.refl : Searched g before before :=
  ⟨rfl, Finset.Subset.refl _, fun _ _ => id, id, fun _ known unknown => absurd known unknown⟩

theorem Searched.trans (first : Searched g before middle) (second : Searched g middle after) :
    Searched g before after := by
  refine ⟨second.inStack.trans first.inStack, first.visited.trans second.visited,
    fun s h known => second.records s h (first.records s h known),
    fun good => second.good (first.good good), fun s known unknown w edge => ?_⟩
  by_cases early : s ∈ middle.visited
  · obtain ⟨visited, recorded⟩ := first.closed s early unknown w edge
    exact ⟨second.visited visited, fun dom => second.records s w (recorded dom)⟩
  · exact second.closed s known early w edge

private theorem LoopSearch.OnPath.of_searched (onPath : before.OnPath l)
    (searched : Searched g before after) : after.OnPath l :=
  ⟨fun v => by rw [searched.inStack, onPath.1], fun v mem => searched.visited (onPath.2 v mem)⟩

theorem Searched.push {block succ : Nat} (edge : g.BackEdge block succ) :
    Searched g search (search.push block succ) := by
  refine ⟨rfl, Finset.Subset.refl _, fun s h known => ?_, fun good h sources found => ?_,
    fun _ known unknown => absurd known unknown⟩
  · exact (HashMap.mem_listAt_pushAt search.backEdges succ h block s).mpr (.inl known)
  · rw [LoopSearch.push, HashMap.pushAt] at found
    by_cases same : h = succ
    · subst same
      rw [AList.lookup_insert, Option.some.injEq, HashMap.listAt] at found
      cases stored : search.backEdges.lookup h with
      | none =>
        rw [stored] at found
        rw [← found]
        exact ⟨cons_ne_nil _ _, forall_mem_singleton.mpr edge⟩
      | some old =>
        rw [stored] at found
        rw [← found]
        refine ⟨append_ne_nil_of_right_ne_nil _ (cons_ne_nil _ _),
          forall_mem_append.mpr ⟨(good h old stored).2, ?_⟩⟩
        exact forall_mem_singleton.mpr edge
    · rw [AList.lookup_insert_ne same] at found
      exact good h sources found

/-- A call with more fuel than unvisited blocks explores all that is below its block. -/
def Explores (successors : Nat → List Nat) (g : Graph Nat) (nodes : Finset Nat) (fuel : Nat) :
    Prop :=
  ∀ block search l, block ∈ nodes → (nodes \ search.visited).card < fuel → search.OnPath l →
    g.forward.PathTo block (block :: l) → ∃ after,
      (∀ more, fuel ≤ more → dfsBackEdges successors more block search = some after) ∧
        Searched g search after ∧ block ∈ after.visited

variable {nodes : Finset Nat}

/-- An edge to a block on the path is a back edge; any other leads the path further. -/
theorem foldlM_searched {fuel block : Nat} (reducible : g.Reducible)
    (call : Explores successors g nodes fuel) (path : g.forward.PathTo block l) :
    ∀ (rest : List Nat) (search : LoopSearch), (∀ w ∈ rest, g.edge block w ∧ w ∈ nodes) →
      (nodes \ search.visited).card < fuel → search.OnPath l → ∃ after,
        (∀ more, fuel ≤ more → rest.foldlM (fun search succ =>
          if succ ∈ search.inStack then some (search.push block succ)
          else dfsBackEdges successors more succ search) search = some after) ∧
        Searched g search after ∧
        ∀ w ∈ rest, w ∈ after.visited ∧ (g.Dom w block → after.Records block w)
  | [], search, _, _, _ =>
    ⟨search, fun _ _ => rfl, .refl, fun _ mem => absurd mem not_mem_nil⟩
  | w :: rest, search, edges, enough, onPath => by
    obtain ⟨⟨edge, inside⟩, edges⟩ := forall_mem_cons.mp edges
    obtain ⟨next, steps, first, visited, recorded⟩ : ∃ next,
        (∀ more, fuel ≤ more → (if w ∈ search.inStack then some (search.push block w)
          else dfsBackEdges successors more w search) = some next) ∧
        Searched g search next ∧ w ∈ next.visited ∧
        (g.Dom w block → next.Records block w) := by
      by_cases known : w ∈ search.inStack
      · have mem := (onPath.1 w).mp known
        refine ⟨_, fun _ _ => if_pos known, .push (reducible.backEdge path mem edge),
          onPath.2 w mem, fun _ => ?_⟩
        exact (HashMap.mem_listAt_pushAt search.backEdges w w block block).mpr (.inr ⟨rfl, rfl⟩)
      · have other : ¬ g.Dom w block := fun dom =>
          known ((onPath.1 w).mpr (dom l path.of_forward))
        obtain ⟨next, runs, searched, visited⟩ :=
          call w search l inside enough onPath (.snoc path ⟨edge, other⟩)
        exact ⟨next, fun more enough => by rw [if_neg known, runs more enough], searched, visited,
          fun dom => absurd dom other⟩
    have still : (nodes \ next.visited).card < fuel := (Finset.card_le_card
      (Finset.sdiff_subset_sdiff (Finset.Subset.refl nodes) first.visited)).trans_lt enough
    obtain ⟨after, runs, second, others⟩ :=
      foldlM_searched reducible call path rest next edges still (onPath.of_searched first)
    refine ⟨after, fun more enough => ?_, first.trans second,
      forall_mem_cons.mpr ⟨⟨second.visited visited, fun dom => ?_⟩, others⟩⟩
    · rw [foldlM_cons, steps more enough]
      exact runs more enough
    · exact second.records block w (recorded dom)

variable (edges : ∀ p b, b ∈ successors p ↔ g.edge p b) (inside : ∀ p b, g.edge p b → b ∈ nodes)
include edges inside

private theorem dfsBackEdges_explores (reducible : g.Reducible) (fuel : Nat) :
    Explores successors g nodes fuel := by
  induction fuel with
  | zero => exact fun _ _ _ _ enough => absurd enough (Nat.not_lt_zero _)
  | succ fuel ih =>
    intro block search l isNode enough onPath path
    by_cases seen : block ∈ search.visited
    · refine ⟨search, fun more enough => ?_, .refl, seen⟩
      obtain ⟨less, rfl⟩ := Nat.exists_eq_add_of_le' enough
      exact if_pos seen
    have fresh : block ∉ search.inStack := fun inStack =>
      seen (onPath.2 block ((onPath.1 block).mp inStack))
    have entered : (search.enter block).OnPath (block :: l) := by
      refine ⟨fun v => ?_, forall_mem_cons.mpr ⟨Finset.mem_insert_self _ _, fun v mem =>
        Finset.mem_insert_of_mem (onPath.2 v mem)⟩⟩
      rw [LoopSearch.enter, Finset.mem_insert, mem_cons, onPath.1]
    have fewer : (nodes \ (search.enter block).visited).card < fuel := by
      rw [LoopSearch.enter, Finset.sdiff_insert]
      exact (Finset.card_erase_lt_of_mem (Finset.mem_sdiff.mpr ⟨isNode, seen⟩)).trans_le
        (Nat.le_of_lt_succ enough)
    obtain ⟨after, runs, searched, handled⟩ := foldlM_searched reducible ih path
      (successors block) (search.enter block)
      (fun w mem => ⟨(edges block w).mp mem, inside block w ((edges block w).mp mem)⟩)
      fewer entered
    refine ⟨after.leave block, fun more enough => ?_, ⟨?_, ?_, searched.records, searched.good,
      fun s known unknown w edge => ?_⟩, searched.visited (Finset.mem_insert_self _ _)⟩
    · obtain ⟨less, rfl⟩ := Nat.exists_eq_add_of_le' enough
      rw [← Nat.add_assoc, dfsBackEdges, if_neg seen, runs _ (Nat.le_add_left _ _)]
      rfl
    · rw [LoopSearch.leave, searched.inStack]
      exact Finset.erase_insert fresh
    · exact (Finset.subset_insert _ _).trans searched.visited
    · by_cases same : s = block
      · subst same
        exact handled w ((edges s w).mpr edge)
      · refine searched.closed s known (fun early => ?_) w edge
        exact unknown ((Finset.mem_insert.mp early).resolve_left same)

/-- On a reducible graph the search records the back edges. -/
theorem findBackEdges_spec (reducible : g.Reducible) (root : g.root ∈ nodes) : ∃ backEdges,
      (∀ fuel, nodes.card < fuel → findBackEdges successors fuel g.root = some backEdges) ∧
      (∀ h sources, backEdges.lookup h = some sources →
        sources ≠ [] ∧ ∀ s ∈ sources, g.BackEdge s h) ∧
      ∀ s h, g.Reach s → g.BackEdge s h → s ∈ backEdges.listAt h := by
  obtain ⟨after, runs, searched, started⟩ := dfsBackEdges_explores edges inside reducible
    (nodes.card + 1) g.root ⟨∅, ∅, ∅⟩ [] root
    (Nat.lt_succ_of_le (Finset.card_le_card Finset.sdiff_subset))
    ⟨fun v => by simp, fun _ mem => absurd mem not_mem_nil⟩ .root
  have good : after.Good g := searched.good fun h sources found => by cases found
  have visited {v : Nat} (reach : g.Reach v) : v ∈ after.visited := by
    refine reach.induction (motive := (· ∈ after.visited)) started fun p b _ known edge => ?_
    exact (searched.closed p known (Finset.notMem_empty p) b edge).1
  refine ⟨after.backEdges, fun fuel enough => by rw [findBackEdges, runs fuel enough]; rfl, good,
    fun s h reach backEdge => ?_⟩
  exact (searched.closed s (visited reach) (Finset.notMem_empty s) h backEdge.1).2 backEdge.2

omit edges inside

/-! ## The walks -/

/-- A body that holds all ways to its blocks, but those through the header, or has them in a
worklist. -/
structure Walking (g : Graph Nat) (h : Nat) (worklist : List Nat) (body : Finset Nat) : Prop where
  header : h ∈ body
  closed : ∀ v ∈ body, v ≠ h → ∀ p, g.edge p v → p ≠ h → p ∈ body ∨ p ∈ worklist

theorem Walking.mem {h v p : Nat} {body : Finset Nat} (walking : Walking g h [] body)
    (known : v ∈ body) (other : v ≠ h) (edge : g.edge p v) (notHeader : p ≠ h) : p ∈ body :=
  (walking.closed v known other p edge notHeader).resolve_right not_mem_nil

variable (preds : ∀ p b, p ∈ predecessors b ↔ g.edge p b)
  (sources : ∀ p b, g.edge p b → p ∈ nodes) {h : Nat}
include preds sources

/-- A walk ends with the least closed body above the one it starts from. -/
theorem collectLoopBody_ends (holds : Nat → Prop)
    (back : ∀ v p, holds v → v ≠ h → g.edge p v → p ≠ h → holds p) (worklist : List Nat)
    (body : Finset Nat) (inBody : ∀ v ∈ body, holds v)
    (waits : ∀ v ∈ worklist, holds v ∧ v ∈ nodes) (walking : Walking g h worklist body) :
    ∃ bound final,
      (∀ fuel, bound < fuel → collectLoopBody predecessors h fuel worklist body = some final) ∧
      body ⊆ final ∧ (∀ v ∈ worklist, v ∈ final) ∧ Walking g h [] final ∧ ∀ v ∈ final, holds v := by
  match worklist with
  | [] =>
    refine ⟨0, body, fun fuel enough => ?_, Finset.Subset.refl _,
      fun _ mem => absurd mem not_mem_nil, walking, inBody⟩
    obtain ⟨less, rfl⟩ := Nat.exists_eq_add_of_lt enough
    rfl
  | block :: rest =>
    obtain ⟨⟨holdsBlock, isNode⟩, waits⟩ := forall_mem_cons.mp waits
    by_cases seen : block ∈ body
    · obtain ⟨bound, final, runs, grows, takes, ended, all⟩ := collectLoopBody_ends holds back rest
        body inBody waits ⟨walking.header, fun v known other p edge notHeader => by
          rcases walking.closed v known other p edge notHeader with known | waits
          · exact .inl known
          · exact (mem_cons.mp waits).imp_left fun same => by rw [same]; exact seen⟩
      refine ⟨bound + 1, final, fun fuel enough => ?_, grows,
        forall_mem_cons.mpr ⟨grows seen, takes⟩, ended, all⟩
      obtain ⟨less, rfl⟩ := Nat.exists_eq_add_of_lt enough
      rw [collectLoopBody, if_pos seen]
      exact runs _ (by omega)
    · obtain ⟨queue, isQueue⟩ : ∃ queue, queue = ((predecessors block).filter fun pred =>
        pred ≠ h ∧ pred ∉ insert block body).reverse := ⟨_, rfl⟩
      have isPred {p : Nat} :
          p ∈ queue ↔ g.edge p block ∧ p ≠ h ∧ p ∉ insert block body := by
        rw [isQueue, mem_reverse, mem_filter, preds, decide_eq_true_iff]
      have waits' : ∀ v ∈ queue ++ rest, holds v ∧ v ∈ nodes := by
        refine forall_mem_append.mpr ⟨fun p mem => ?_, waits⟩
        obtain ⟨edge, notHeader, -⟩ := isPred.mp mem
        exact ⟨back block p holdsBlock (fun same => seen (same ▸ walking.header)) edge notHeader,
          sources p block edge⟩
      have walking' : Walking g h (queue ++ rest) (insert block body) := by
        refine ⟨Finset.mem_insert_of_mem walking.header,
          fun v known other p edge notHeader => or_iff_not_imp_left.mpr fun new => ?_⟩
        rcases Finset.mem_insert.mp known with rfl | known
        · exact mem_append_left _ (isPred.mpr ⟨edge, notHeader, new⟩)
        · rcases walking.closed v known other p edge notHeader with known | waits
          · exact absurd (Finset.mem_insert_of_mem known) new
          · exact mem_append_right _ ((mem_cons.mp waits).resolve_left fun same =>
              new (same ▸ Finset.mem_insert_self _ _))
      obtain ⟨bound, final, runs, grows, takes, ended, all⟩ := collectLoopBody_ends holds back
        (queue ++ rest) (insert block body)
        ((Finset.forall_mem_insert _ _ _).mpr ⟨holdsBlock, inBody⟩) waits' walking'
      refine ⟨bound + 1, final, fun fuel enough => ?_, (Finset.subset_insert _ _).trans grows,
        forall_mem_cons.mpr ⟨grows (Finset.mem_insert_self _ _), fun v mem =>
          takes v (mem_append_right _ mem)⟩, ended, all⟩
      obtain ⟨less, rfl⟩ := Nat.exists_eq_add_of_lt enough
      rw [collectLoopBody, if_neg seen]
      subst isQueue
      exact runs _ (by omega)
termination_by ((nodes \ body).card, worklist.length)
decreasing_by
  · exact Prod.Lex.right _ (Nat.lt_succ_self _)
  · rw [Finset.sdiff_insert]
    exact Prod.Lex.left _ _ (Finset.card_erase_lt_of_mem (Finset.mem_sdiff.mpr ⟨isNode, seen⟩))

/-- The walks from the sources of a header give the union of the natural loops. -/
theorem loopBody_ends {ends : List Nat} (nonempty : ends ≠ []) (isNode : ∀ s ∈ ends, s ∈ nodes) :
    ∃ bound body, (∀ fuel, bound < fuel → loopBody predecessors fuel h ends = some body) ∧
      ∀ v, v ∈ body ↔ ∃ s ∈ ends, g.NaturalLoop h s v := by
  obtain ⟨bound, body, runs, -, isBody⟩ := foldlM_ends
    (fun fuel body source => collectLoopBody predecessors h fuel [source] body)
    (fun done body =>
      Walking g h [] body ∧ ∀ v, v ∈ body ↔ v = h ∨ ∃ s ∈ done, g.NaturalLoop h s v) ends {h} []
    ⟨⟨Finset.mem_singleton_self h, fun v known other =>
      absurd (Finset.mem_singleton.mp known) other⟩, by simp⟩
    fun done s body mem ⟨walking, isBody⟩ => by
      obtain ⟨bound, next, runs, grows, takes, ended, all⟩ := collectLoopBody_ends preds sources
        (fun v => v ∈ body ∨ g.NaturalLoop h s v) (fun v p either other edge notHeader => by
          rcases either with known | rfl | path
          · exact .inl (walking.mem known other edge notHeader)
          · exact absurd rfl other
          · exact .inr (.inr (.head ⟨edge, notHeader, other⟩ path))) [s] body (fun v => .inl)
        (forall_mem_singleton.mpr ⟨.inr (.inr .refl), isNode s mem⟩) ⟨walking.header,
          fun v known other p edge notHeader => .inl (walking.mem known other edge notHeader)⟩
      refine ⟨bound, next, runs, ended, fun v => ?_⟩
      have isNext : v ∈ next ↔ v ∈ body ∨ g.NaturalLoop h s v := by
        refine ⟨all v, ?_⟩
        rintro (known | rfl | path)
        · exact grows known
        · exact grows walking.header
        · induction path using ReflTransGen.head_induction_on with
          | refl => exact takes s (mem_singleton_self s)
          | head step _ ih => exact ended.mem ih step.2.2 step.1 step.2.1
      simp only [isNext, isBody, mem_append, mem_singleton, or_and_right, exists_or,
        exists_eq_left, or_assoc]
  refine ⟨bound, body, runs, fun v => (isBody v).trans (or_iff_right_of_imp fun isHeader => ?_)⟩
  obtain ⟨s, mem⟩ := exists_mem_of_ne_nil ends nonempty
  exact ⟨s, mem, .inl isHeader⟩

omit preds sources

/-! ## The loops -/

/-- The headers are the targets of back edges, each with the union of their natural loops. -/
structure NaturalLoops (g : Graph Nat) (loopAt : Nat → Option (Finset Nat)) : Prop where
  headers : ∀ h, (loopAt h).isSome ↔ ∃ s, g.BackEdge s h
  bodies : ∀ h body, loopAt h = some body →
    ∀ v, v ∈ body ↔ ∃ s, g.BackEdge s h ∧ g.NaturalLoop h s v

theorem NaturalLoops.unique {loopAt loopAt' : Nat → Option (Finset Nat)}
    (loops : NaturalLoops g loopAt) (loops' : NaturalLoops g loopAt') : loopAt = loopAt' := by
  funext h
  have known := (loops.headers h).trans (loops'.headers h).symm
  cases here : loopAt h with
  | none =>
    rw [here] at known
    exact (Option.not_isSome_iff_eq_none.mp fun there => nomatch known.mpr there).symm
  | some body =>
    rw [here] at known
    obtain ⟨body', there⟩ := Option.isSome_iff_exists.mp (known.mp rfl)
    rw [there, Option.some.injEq]
    ext v
    rw [loops.bodies h body here, loops'.bodies h body' there]

private theorem findLoops_ends {backEdges : HashMap Nat (List Nat)}
    (preds : ∀ p b, p ∈ predecessors b ↔ g.edge p b) (sources : ∀ p b, g.edge p b → p ∈ nodes)
    (good : ∀ h ends, backEdges.lookup h = some ends → ends ≠ [] ∧ ∀ s ∈ ends, g.BackEdge s h)
    (recorded : ∀ s h, g.BackEdge s h → s ∈ backEdges.listAt h) : ∃ bound loops,
      (∀ fuel, bound < fuel → findLoops predecessors fuel backEdges = some loops) ∧
        NaturalLoops g loops.lookup := by
  obtain ⟨bound, loops, runs, keys, bodies⟩ := foldlM_ends (fun fuel loops entry =>
      (loopBody predecessors fuel entry.1 entry.2).map fun body => loops.insert entry.1 body)
    (fun done (loops : HashMap Nat (Finset Nat)) => (∀ h, h ∈ loops ↔ h ∈ done.keys) ∧
      ∀ h body, loops.lookup h = some body →
        ∀ v, v ∈ body ↔ ∃ s, g.BackEdge s h ∧ g.NaturalLoop h s v)
    backEdges.entries ∅ [] ⟨fun h => by simp, fun h body stored => by cases stored⟩
    fun done entry loops mem inv => by
      obtain ⟨keys, bodies⟩ := inv
      have stored := AList.mem_lookup_iff.mpr mem
      obtain ⟨nonempty, backEdge⟩ := good _ _ stored
      obtain ⟨bound, body, runs, isBody⟩ := loopBody_ends preds sources nonempty fun s mem =>
        sources s _ (backEdge s mem).1
      refine ⟨bound, loops.insert entry.1 body, fun fuel enough => by rw [runs fuel enough]; rfl,
        fun h => ?_, fun h body' found => ?_⟩
      · rw [AList.mem_insert, keys, keys_append, mem_append, or_comm]
        exact or_congr_right (by simp)
      · by_cases same : h = entry.1
        · subst same
          rw [AList.lookup_insert] at found
          cases found
          refine fun v => (isBody v).trans (exists_congr fun s =>
            and_congr_left fun _ => ⟨backEdge s, fun edge => ?_⟩)
          have mem := recorded s _ edge
          rwa [HashMap.listAt, stored] at mem
        · exact bodies h body' (AList.lookup_insert_ne same ▸ found)
  refine ⟨bound, loops, fun fuel enough => runs fuel enough, fun h => ?_, bodies⟩
  rw [AList.lookup_isSome, keys, nil_append]
  refine (AList.mem_keys (s := backEdges)).symm.trans ⟨?_, ?_⟩
  · intro known
    obtain ⟨ends, stored⟩ := HashMap.mem_iff_exists_lookup.mp known
    obtain ⟨nonempty, backEdge⟩ := good h ends stored
    obtain ⟨s, mem⟩ := exists_mem_of_ne_nil _ nonempty
    exact ⟨s, backEdge s mem⟩
  · rintro ⟨s, backEdge⟩
    by_contra unknown
    have mem := recorded s h backEdge
    rw [HashMap.listAt, AList.lookup_eq_none.mpr unknown] at mem
    cases mem

/-- With enough fuel the analyzer returns the natural loops. -/
theorem analyzerLoops_ends (nodes : Finset Nat) (edges : ∀ p b, b ∈ successors p ↔ g.edge p b)
    (preds : ∀ p b, p ∈ predecessors b ↔ g.edge p b) (reducible : g.Reducible)
    (isNode : ∀ b, b ∈ nodes ↔ g.Reach b) (reach : ∀ p b, g.edge p b → g.Reach p) :
    ∃ bound, ∀ fuel, bound < fuel → ∃ loops,
      analyzerLoops successors predecessors fuel g.root = some loops ∧
        NaturalLoops g loops.lookup := by
  obtain ⟨backEdges, found, good, recorded⟩ := findBackEdges_spec edges
    (fun p b edge => (isNode b).mpr ((reach p b edge).step edge)) reducible ((isNode _).mpr .root)
  obtain ⟨bound, loops, runs, natural⟩ := findLoops_ends preds
    (fun p b edge => (isNode p).mpr (reach p b edge)) good
    fun s h backEdge => recorded s h (reach s h backEdge.1) backEdge
  refine ⟨max nodes.card bound, fun fuel enough => ⟨loops, ?_, natural⟩⟩
  rw [analyzerLoops, found fuel ((Nat.le_max_left _ _).trans_lt enough), Option.bind_some]
  exact runs fuel ((Nat.le_max_right _ _).trans_lt enough)

/-- On a reducible graph whose blocks are all reachable the analysis finds the natural
loops, in whatever order successors and predecessors are listed. -/
theorem analyzerLoops_natural {func : SSAFunction} (consistent : func.cfg.Consistent)
    (entry : func.entry = func.cfg.entry) (present : func.cfg.entry ∈ func.cfg.addrToNode)
    (reachable : ∀ b ∈ func.cfg.addrToNode, func.cfg.flow.Reach b)
    (reducible : func.cfg.flow.Reducible) :
    ∃ loopAt, NaturalLoops func.cfg.flow loopAt ∧ ∀ successors predecessors : Nat → List Nat,
      (∀ p b, b ∈ successors p ↔ b ∈ func.successors p) →
      (∀ p b, p ∈ predecessors b ↔ p ∈ func.cfg.predecessors b) →
      ∃ bound, ∀ fuel, bound < fuel → ∃ loops,
        analyzerLoops successors predecessors fuel func.entry = some loops ∧
          ∀ h, loops.lookup h = loopAt h := by
  have finds (successors predecessors : Nat → List Nat)
      (succs : ∀ p b, b ∈ successors p ↔ b ∈ func.successors p)
      (preds : ∀ p b, p ∈ predecessors b ↔ p ∈ func.cfg.predecessors b) :=
    analyzerLoops_ends (g := func.cfg.flow) func.cfg.addrToNode.keys.toFinset
      (fun p b => (succs p b).trans consistent.mem_successors)
      (fun p b => (preds p b).trans consistent.mem_predecessors) reducible
      (fun b => by
        rw [mem_toFinset, ← AList.mem_keys]
        exact ⟨reachable b, CFG.reach_mapped present⟩)
      fun p b edge => reachable p edge.source_mapped
  obtain ⟨bound, ends⟩ := finds _ _ (fun _ _ => Iff.rfl) fun _ _ => Iff.rfl
  obtain ⟨loops, -, natural⟩ := ends (bound + 1) (Nat.lt_succ_self bound)
  refine ⟨_, natural, fun successors predecessors succs preds => ?_⟩
  obtain ⟨bound, ends⟩ := finds successors predecessors succs preds
  refine ⟨bound, fun fuel enough => ?_⟩
  obtain ⟨loops', runs, natural'⟩ := ends fuel enough
  rw [entry]
  exact ⟨loops', runs, fun h => congrFun (natural'.unique natural) h⟩

/-- The example's one loop is the block that branches to itself. -/
theorem analyzerLoops_natural_loopOrReturn :
    ∃ loopAt, NaturalLoops loopOrReturn.flow loopAt ∧ ∀ successors predecessors : Nat → List Nat,
      (∀ p b, b ∈ successors p ↔ b ∈ loopOrReturn.successors p) →
      (∀ p b, p ∈ predecessors b ↔ p ∈ loopOrReturn.predecessors b) →
      ∃ bound, ∀ fuel, bound < fuel → ∃ loops,
        analyzerLoops successors predecessors fuel 0 = some loops ∧
          ∀ h, loops.lookup h = loopAt h := by
  obtain ⟨consistent, present, -⟩ : loopOrReturn.Consistent ∧
      loopOrReturn.entry ∈ loopOrReturn.addrToNode ∧ _ :=
    CFG.fromBlocks_spec (CFG.fromBlocks_cons_eq _ _ (CFG.new 0))
  have blocks : ∀ b ∈ loopOrReturn.addrToNode.keys, b = 0 ∨ b ∈ loopOrReturn.successors 0 := by
    decide +kernel
  have rises : ∀ p ∈ loopOrReturn.addrToNode.keys, ∀ b ∈ loopOrReturn.successors p,
      b = p ∨ p < b := by decide +kernel
  refine @analyzerLoops_natural loopOrReturnFunction consistent rfl present
    (fun b known => ?_) fun v cycle => ?_
  · rcases blocks b (AList.mem_keys.mp known) with rfl | succ
    · exact .root
    · exact Graph.Reach.root.step (consistent.mem_successors.mp succ)
  · have up {p b : Nat} (edge : loopOrReturn.flow.forward.edge p b) : p < b := by
      refine (rises p (AList.mem_keys.mp edge.1.source_mapped) b
        (consistent.mem_successors.mpr edge.1)).resolve_left fun same => edge.2 ?_
      rw [same]
      exact Graph.Dom.refl p
    have ups {p b : Nat} (path : TransGen loopOrReturn.flow.forward.edge p b) : p < b := by
      induction path with
      | single edge => exact up edge
      | tail _ edge ih => exact ih.trans (up edge)
    exact lt_irrefl v (ups cycle)

end R2Sleigh.Dec
