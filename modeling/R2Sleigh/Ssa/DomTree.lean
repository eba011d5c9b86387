import R2Sleigh.Ssa.Cfg

/-!
Contract: the dominator tree and the dominance frontiers of a control-flow
graph, as the code computes them.

Owns `intersect`, `dominates`, `preorder` and `iteratedFrontier`.

Loops whose bound the source leaves to the argument take fuel and return
`none` when it runs out, so that termination is a statement about them.
-/

namespace R2Sleigh.Ssa

open Flow Lib

structure DomTree where
  entry : Nat
  idomMap : HashMap Nat Nat
  childrenMap : HashMap Nat (List Nat)
  frontierMap : HashMap Nat (List Nat)
  depthMap : HashMap Nat Nat

namespace DomTree

/-- `usize::MAX`, the index of a block outside the reverse postorder. -/
def usizeMax : Nat := 2 ^ 64 - 1

/-- Position in the reverse postorder. -/
def rpoIndex (rpo : List Nat) (block : Nat) : Nat := (rpo.idxOf? block).getD usizeMax

/-- Inner loop of `intersect`: climb from `block` while its index `idx` is
above `limit`. -/
def climb (idom : HashMap Nat Nat) (rpo : List Nat) (limit : Nat) : Nat → Nat → Nat → Option Nat
  | 0, _, _ => none
  | fuel + 1, block, idx =>
    if limit < idx then
      match idom.lookup block with
      | some parent =>
        if parent = block then some block
        else if idx ≤ rpoIndex rpo parent then some parent
        else climb idom rpo limit fuel parent (rpoIndex rpo parent)
      | none => some block
    else some block

/-- Find a common dominator by climbing from the later block in turn. -/
def intersect (idom : HashMap Nat Nat) (rpo : List Nat) : Nat → Nat → Nat → Option Nat
  | 0, _, _ => none
  | fuel + 1, b1, b2 =>
    if b1 = b2 then some b1
    else do
      let b1' ← climb idom rpo (rpoIndex rpo b2) (rpo.length + 1) b1 (rpoIndex rpo b1)
      let b2' ← climb idom rpo (rpoIndex rpo b1') (rpo.length + 1) b2 (rpoIndex rpo b2)
      if b1' = b2' then some b1'
      else if rpoIndex rpo b1' = rpoIndex rpo b2' then some b1'
      else intersect idom rpo fuel b1' b2'

/-- Fold `intersect` over the processed predecessors. -/
def intersectPreds (idom : HashMap Nat Nat) (rpo preds : List Nat) (first : Nat) : Option Nat :=
  preds.foldlM (fun newIdom pred =>
    if pred = newIdom then some newIdom
    else if (idom.lookup pred).isSome then
      intersect idom rpo (2 * rpo.length + 1) pred newIdom
    else some newIdom) first

/-- Recompute the idom of one block; the flag records a change. -/
def processBlock (cfg : CFG) (rpo : List Nat) (state : HashMap Nat Nat × Bool) (block : Nat) :
    Option (HashMap Nat Nat × Bool) :=
  let preds := cfg.predecessors block
  match preds.find? fun pred => (state.1.lookup pred).isSome with
  | none => some state
  | some first => do
      let newIdom ← intersectPreds state.1 rpo preds first
      if state.1.lookup block = some newIdom then some state
      else some (state.1.insert block newIdom, true)

/-- One sweep over the reverse postorder, the entry left out. -/
def sweep (cfg : CFG) (rpo : List Nat) (idom : HashMap Nat Nat) :
    Option (HashMap Nat Nat × Bool) :=
  rpo.tail.foldlM (processBlock cfg rpo) (idom, false)

/-- Sweep until nothing changes. -/
def whileChanged (cfg : CFG) (rpo : List Nat) : Nat → HashMap Nat Nat → Option (HashMap Nat Nat)
  | 0, _ => none
  | fuel + 1, idom =>
    match sweep cfg rpo idom with
    | none => none
    | some (idom', true) => whileChanged cfg rpo fuel idom'
    | some (idom', false) => some idom'

/-- The idom map; the number of sweeps is bounded by the number of blocks. -/
def computeIdom (cfg : CFG) : Option (HashMap Nat Nat) :=
  let rpo := cfg.reversePostorder
  whileChanged cfg rpo (rpo.length + 2) ((∅ : HashMap Nat Nat).insert cfg.entry cfg.entry)

/-- Children of each block, ascending. -/
def buildChildren (idom : HashMap Nat Nat) : HashMap Nat (List Nat) :=
  HashMap.mapValues (fun blocks => blocks.insertionSort (· ≤ ·))
    (idom.entries.foldl (fun children entry =>
      if entry.1 = entry.2 then children else HashMap.pushAt children entry.2 entry.1) ∅)

/-- Depths below `block`; a branch of the tree is no longer than the tree. -/
def computeDepths (children : HashMap Nat (List Nat)) :
    Nat → Nat → Nat → HashMap Nat Nat → Option (HashMap Nat Nat)
  | 0, _, _, _ => none
  | fuel + 1, block, depth, depths =>
    (children.listAt block).foldlM
      (fun depths child => computeDepths children fuel child (depth + 1) depths)
      (depths.insert block depth)

/-- Walk up from `runner`, entering `addr` in the frontiers passed. -/
def walkFrontier (idom : HashMap Nat Nat) (addr stop : Nat) :
    Nat → Nat → HashMap Nat (List Nat) → Option (HashMap Nat (List Nat))
  | 0, _, _ => none
  | fuel + 1, runner, frontier =>
    if runner = stop then some frontier
    else
      let frontier' := frontier.insertAt runner addr
      match idom.lookup runner with
      | some parent =>
        if parent = runner then some frontier'
        else walkFrontier idom addr stop fuel parent frontier'
      | none => some frontier'

/-- Frontier contributions of one block: only blocks with two or more incoming
edges start a walk. -/
def blockFrontier (cfg : CFG) (idom : HashMap Nat Nat) (frontier : HashMap Nat (List Nat))
    (addr : Nat) : Option (HashMap Nat (List Nat)) :=
  let preds := cfg.predecessors addr
  if 2 ≤ preds.length then
    preds.foldlM (fun frontier pred =>
      walkFrontier idom addr ((idom.lookup addr).getD addr) (idom.keys.length + 2) pred frontier)
      frontier
  else some frontier

def computeFrontiers (cfg : CFG) (idom : HashMap Nat Nat) : Option (HashMap Nat (List Nat)) :=
  cfg.blockAddrs.foldlM (blockFrontier cfg idom)
    (cfg.blockAddrs.foldl (fun frontier addr => frontier.insert addr []) ∅)

/-- The tree before any block is processed. -/
def empty (cfg : CFG) : DomTree := ⟨cfg.entry, ∅, ∅, ∅, ∅⟩

/-- The computation, or `none` if one of its loops ran out of fuel. -/
def computeLoops (cfg : CFG) : Option DomTree :=
  if cfg.reversePostorder.isEmpty then some (empty cfg)
  else do
    let idom ← computeIdom cfg
    let children := buildChildren idom
    let depths ← computeDepths children (idom.keys.length + 1) cfg.entry 0 ∅
    let frontier ← computeFrontiers cfg idom
    some
      { entry := cfg.entry
        idomMap := idom
        childrenMap := children
        frontierMap := frontier
        depthMap := depths }

def compute (cfg : CFG) : DomTree := (computeLoops cfg).getD (empty cfg)

/-! ## Queries -/

/-- Immediate dominator; the entry has none. -/
def idom (tree : DomTree) (block : Nat) : Option Nat :=
  (tree.idomMap.lookup block).filter fun parent => parent != block

def children (tree : DomTree) (block : Nat) : List Nat := tree.childrenMap.listAt block

def frontier (tree : DomTree) (block : Nat) : List Nat :=
  (tree.frontierMap.listAt block).insertionSort (· ≤ ·)

/-- Walk from `current` towards the entry looking for `a`. -/
def dominatesWalk (tree : DomTree) (a : Nat) : Nat → Nat → Option Bool
  | 0, _ => none
  | fuel + 1, current =>
    match tree.idom current with
    | none => some false
    | some parent => if parent = a then some true else dominatesWalk tree a fuel parent

def dominates (tree : DomTree) (a b : Nat) : Bool :=
  if a = b then true else (dominatesWalk tree a (tree.idomMap.keys.length + 1) b).getD false

/-- Stack loop of `preorder`: the head of the list is the top of the stack. -/
def preorderLoop (tree : DomTree) : Nat → List Nat → List Nat → Option (List Nat)
  | 0, _, _ => none
  | _ + 1, [], result => some result
  | fuel + 1, current :: stack, result =>
    preorderLoop tree fuel (tree.children current ++ stack) (result ++ [current])

def preorder (tree : DomTree) : List Nat :=
  (preorderLoop tree (tree.idomMap.keys.length + 2) [tree.entry] []).getD []

/-- Worklist loop of `iteratedFrontier`, last element of the list first. -/
def iteratedFrontierLoop (tree : DomTree) :
    Nat → List Nat → List Nat → List Nat → Option (List Nat)
  | 0, _, _, _ => none
  | fuel + 1, worklist, processed, result =>
    match worklist.getLast? with
    | none => some result
    | some block =>
      let rest := worklist.dropLast
      if block ∈ processed then iteratedFrontierLoop tree fuel rest processed result
      else
        -- frontier blocks in descending order; the new ones are pushed
        let blocks := (tree.frontier block).reverse
        let fresh := blocks.filter (· ∉ result)
        iteratedFrontierLoop tree fuel (rest ++ fresh) (block :: processed) (result ++ fresh)

/-- Every pass takes one element off the worklist, which starts as `blocks` and
receives each block of the frontier map at most once. -/
def iteratedFrontier (tree : DomTree) (blocks : List Nat) : List Nat :=
  (iteratedFrontierLoop tree
    (blocks.length + (tree.frontierMap.entries.flatMap fun entry => entry.2).length + 1)
    (blocks.insertionSort (· ≥ ·)) [] []).getD []

end DomTree

end R2Sleigh.Ssa
