import R2Sleigh.Flow.Loops
import R2Sleigh.Ssa.Cytron

/-!
Contract: the two views of what an operation defines.

`renameOp` and `SSAOp.dst` know four kinds of outputs that phi placement does
not list: load-linked, store-conditional, compare-and-swap and guarded loads.
Placement records unreachable blocks too, and places a phi at the entry only if
two edges lead to it, for a definition in another block.
-/

namespace R2Sleigh.Ssa

open Il Flow Lib List Relation

/-- Renaming with the phis placed for the blocks that are recorded. -/
def recordedArgs (cfg : CFG) (regNames : Option RegisterNameMap) : RenameArgs where
  cfg := cfg
  domtree := DomTree.compute cfg
  phiPlacement := PhiPlacement.compute cfg (DomTree.compute cfg)
    (collectDefsFromCfgWithNames cfg regNames).1 (collectDefsFromCfgWithNames cfg regNames).2
  regNames := regNames
  callBoundaries := none

/-- The blocks that phi placement records for `x`. -/
def recordedBlocks (args : RenameArgs) (x : String) : Set Nat :=
  {b | b ∈ (collectDefsFromCfgWithNames args.cfg args.regNames).1.listAt x}

/-- The blocks in which renaming allocated a version of `x` behind the phis. -/
def allocatingBlocks (args : RenameArgs) (renamed : RenamedFunction) (x : String) : Set Nat :=
  {b | b ∈ renamed.blockOrder ∧
    x ∈ (defsOf ((renamed.getBlock b).drop (args.phiPlacement.getPhis b).length)).map Prod.fst}

/-- The two views agree, and a block without a phi for a name is entered with one version of
it on all paths. -/
structure OutputsAgree (args : RenameArgs) (renamed : RenamedFunction) : Prop where
  blocks : ∀ x, allocatingBlocks args renamed x = recordedBlocks args x
  joins : ∀ x b earlier earlier', args.cfg.flow.PathTo b (b :: earlier) →
    args.cfg.flow.PathTo b (b :: earlier') →
    x ∉ (args.phiPlacement.getPhis b).map PhiInfo.varName →
    versionsAfter renamed earlier x = versionsAfter renamed earlier' x

/-- An operation of the block writes `x`. -/
def Writes (args : RenameArgs) (b : Nat) (x : String) : Prop :=
  ∃ op ∈ bodyOps args b, outputName args.regNames op = some x

/-- Another operation of a listed kind does so. -/
def WritesListed (args : RenameArgs) (b : Nat) (x : String) : Prop :=
  ∃ op ∈ bodyOps args b, unlistedOutput op = false ∧ outputName args.regNames op = some x

/-- The blocks that can be reached write nothing by unlisted operations only, the others
write nothing by listed ones; and a name written in a loop through the entry is also written
outside the entry in such a loop, with two edges back to the entry at least. -/
structure OutputsCovered (args : RenameArgs) : Prop where
  listed : ∀ b x, args.cfg.flow.Reach b → Writes args b x → WritesListed args b x
  unreached : ∀ b x, ¬ args.cfg.flow.Reach b → ¬ WritesListed args b x
  entry : ∀ b x, args.cfg.flow.Reach b → Writes args b x →
    TransGen args.cfg.flow.edge b args.cfg.entry →
    2 ≤ (args.cfg.predecessors args.cfg.entry).length ∧
      ∃ b' ≠ args.cfg.entry, args.cfg.flow.Reach b' ∧ Writes args b' x ∧
        TransGen args.cfg.flow.edge b' args.cfg.entry

/-! ## Frontiers and the entry -/

section Frontier

variable {cfg : CFG} {tree : DomTree} (spec : tree.Computed cfg) (consistent : cfg.Consistent)
  {defs : List Nat}
include spec consistent

theorem reach_of_frontier {x y : Nat} (reach : cfg.flow.Reach x)
    (inFrontier : y ∈ tree.frontier x) :
    cfg.flow.Reach y ∧ x ≠ cfg.entry ∧ TransGen cfg.flow.edge x y := by
  obtain ⟨-, -, p, isPred, passes⟩ := spec.mem_frontier_iff.mp inFrontier
  have reachP : cfg.flow.Reach p := by
    cases passes with
    | here _ => exact reach
    | up _ found _ _ => exact spec.approx.reach _ _ found
  have reachY := reachP.step (consistent.mem_predecessors.mp isPred)
  obtain ⟨-, q, ⟨l, path⟩, edge, dom, sdom⟩ :=
    (spec.mem_frontier_iff_of_reach consistent reach reachY).mp inFrontier
  refine ⟨reachY, ?_, .tail' (path.reaches (dom l path)) edge⟩
  rintro rfl
  exact sdom.2 (Graph.dom_root_iff.mp sdom.1)

/-- What the closure finds is reached from a definition outside the entry. -/
theorem exists_source_of_closure (reach : ∀ b ∈ defs, cfg.flow.Reach b) {y : Nat}
    (closure : tree.FrontierClosure defs y) :
    cfg.flow.Reach y ∧ ∃ b ∈ defs, b ≠ cfg.entry ∧ TransGen cfg.flow.edge b y := by
  induction closure with
  | base isDef inFrontier =>
    obtain ⟨reachY, notEntry, path⟩ :=
      reach_of_frontier spec consistent (reach _ isDef) inFrontier
    exact ⟨reachY, _, isDef, notEntry, path⟩
  | step _ inFrontier ih =>
    obtain ⟨reachX, b, isDef, notEntry, path⟩ := ih
    obtain ⟨reachY, -, last⟩ := reach_of_frontier spec consistent reachX inFrontier
    exact ⟨reachY, b, isDef, notEntry, path.trans last⟩

/-- Walking from a definition outside the entry to the entry meets the frontiers that lead
to a phi there. -/
theorem closure_entry (two : 2 ≤ (cfg.predecessors cfg.entry).length) {b : Nat}
    (isDef : b ∈ defs) (notEntry : b ≠ cfg.entry) (reach : cfg.flow.Reach b)
    (walk : TransGen cfg.flow.edge b cfg.entry) : tree.FrontierClosure defs cfg.entry := by
  have along : ∀ y, ReflTransGen cfg.flow.edge b y → tree.FrontierClosure defs cfg.entry ∨
      (y ≠ cfg.entry ∧ cfg.flow.Reach y ∧ ∃ d, d ≠ cfg.entry ∧ cfg.flow.Reach d ∧
        (d ∈ defs ∨ tree.FrontierClosure defs d) ∧ cfg.flow.Dom d y) := by
    intro y walk
    induction walk with
    | refl => exact .inr ⟨notEntry, reach, b, notEntry, reach, .inl isDef, Graph.Dom.refl b⟩
    | @tail x y _ edge ih =>
      refine ih.elim .inl ?_
      rintro ⟨-, reachX, d, other, reachD, known, dom⟩
      have reachY := reachX.step edge
      have below : y ∈ tree.frontier d → tree.FrontierClosure defs y := fun inFrontier =>
        known.elim (.base · inFrontier) (.step · inFrontier)
      by_cases isEntry : y = cfg.entry
      · subst isEntry
        have root : tree.idomMap.lookup cfg.entry = some cfg.entry := spec.approx.root
        have stop : tree.stopOf cfg.entry = cfg.entry := by
          rw [DomTree.stopOf, root, Option.getD_some]
        refine .inl (below ((spec.mem_frontier_iff_of_reach consistent reachD reachY).mpr
          ⟨two, x, reachX, edge, dom, ?_⟩))
        rw [stop]
        exact ⟨Graph.Dom.root d, other.symm⟩
      · by_cases above : cfg.flow.SDom d y
        · exact .inr ⟨isEntry, reachY, d, other, reachD, known, above.1⟩
        · have inFrontier := (spec.mem_frontier_iff_inFrontier consistent reachD reachY
            isEntry).mpr ⟨⟨x, reachX, edge, dom⟩, above⟩
          exact .inr ⟨isEntry, reachY, y, isEntry, reachY, .inr (below inFrontier),
            Graph.Dom.refl y⟩
  exact (along _ walk.to_reflTransGen).resolve_right fun other => other.1 rfl

end Frontier

/-! ## Versions on a path -/

private theorem exists_path_through {g : Graph Nat} {w y : Nat} (reach : g.Reach w)
    (walk : TransGen g.edge w y) : ∃ l, g.PathTo y (y :: l) ∧ w ∈ l := by
  induction walk with
  | single edge =>
    obtain ⟨l, path⟩ := reach
    exact ⟨l, .snoc path edge, path.mem_self⟩
  | tail _ edge ih =>
    obtain ⟨l, path, mem⟩ := ih
    exact ⟨_, .snoc path edge, mem_cons_of_mem _ mem⟩

private theorem versionsAfter_pos {renamed : RenamedFunction} {x : String} {w : Nat} {l : List Nat}
    (positive : ∀ b ∈ l, ∀ k, (x, k) ∈ defsOf (renamed.getBlock b) → 0 < k) (mem : w ∈ l)
    (creates : x ∈ (defsOf (renamed.getBlock w)).map Prod.fst) :
    0 < versionsAfter renamed l x := by
  induction l with
  | nil => cases mem
  | cons b rest ih =>
    rw [versionsAfter, advance]
    by_cases here : x ∈ (defsOf (renamed.getBlock b)).map Prod.fst
    · exact positive b mem_cons_self _ (advanceDefs_mem here)
    · rw [advanceDefs_of_not_mem here]
      rcases mem_cons.mp mem with rfl | mem
      · exact absurd creates here
      · exact ih (fun b mem => positive b (mem_cons_of_mem _ mem)) mem

/-! ## The two views -/

section Views

variable {cfg : CFG} {regNames : Option RegisterNameMap} {x : String} {b : Nat}

theorem mem_recordedBlocks (consistent : cfg.Consistent) :
    b ∈ recordedBlocks (recordedArgs cfg regNames) x ↔
      WritesListed (recordedArgs cfg regNames) b x := by
  refine (mem_collectDefs consistent).trans ?_
  rw [WritesListed, bodyOps, show (recordedArgs cfg regNames).cfg = cfg from rfl]
  cases cfg.getBlock b with
  | none => simp
  | some block => simp [recordedArgs]

variable {init : RenameContext} {renamed : RenamedFunction} {final : RenameContext}
  {entered : Nat → RenameContext}
  (result : Renamed (recordedArgs cfg regNames) init renamed final entered)
  (consistent : cfg.Consistent) (spec : (DomTree.compute cfg).Computed cfg)
include result

theorem writes_iff (reach : cfg.flow.Reach b) :
    Writes (recordedArgs cfg regNames) b x ↔ x ∈ (defsOf ((renamed.getBlock b).drop
      ((recordedArgs cfg regNames).phiPlacement.getPhis b).length)).map Prod.fst := by
  rw [result.getBlock_eq reach, drop_left' (length_phiRow _ _ _), bodyOf,
    show (recordedArgs cfg regNames).callBoundaries = none from rfl, defsOf_renameOps_names,
    mem_filterMap]
  rfl

private theorem creates_of_writes (reach : cfg.flow.Reach b)
    (writes : Writes (recordedArgs cfg regNames) b x) :
    x ∈ (defsOf (renamed.getBlock b)).map Prod.fst := by
  have behind := (writes_iff result reach).mp writes
  rw [← take_append_drop ((recordedArgs cfg regNames).phiPlacement.getPhis b).length
    (renamed.getBlock b), defsOf_append, map_append]
  exact mem_append_right _ behind

include spec

theorem mem_allocatingBlocks : b ∈ allocatingBlocks (recordedArgs cfg regNames) renamed x ↔
    cfg.flow.Reach b ∧ Writes (recordedArgs cfg regNames) b x := by
  have listed : b ∈ renamed.blockOrder ↔ cfg.flow.Reach b := by
    rw [result.blockOrder]
    exact spec.order.mem_iff b
  exact (and_congr_left' listed).trans
    (and_congr_right fun reach => (writes_iff result reach).symm)

include consistent

/-- The condition is necessary. -/
theorem covered_of_agree (agree : OutputsAgree (recordedArgs cfg regNames) renamed) :
    OutputsCovered (recordedArgs cfg regNames) := by
  have views : ∀ b x, (cfg.flow.Reach b ∧ Writes (recordedArgs cfg regNames) b x) ↔
      WritesListed (recordedArgs cfg regNames) b x := by
    intro b x
    rw [← mem_allocatingBlocks result spec, agree.blocks x, mem_recordedBlocks consistent]
  refine ⟨fun b x reach writes => (views b x).mp ⟨reach, writes⟩,
    fun b x unreached listed => unreached ((views b x).mpr listed).1,
    fun b x reach writes walk => ?_⟩
  have ofDef : ∀ d ∈ recordedBlocks (recordedArgs cfg regNames) x,
      cfg.flow.Reach d ∧ Writes (recordedArgs cfg regNames) d x :=
    fun d isDef => (views d x).mpr ((mem_recordedBlocks consistent).mp isDef)
  by_cases hasPhi : x ∈ ((recordedArgs cfg regNames).phiPlacement.getPhis cfg.entry).map
      PhiInfo.varName
  · have closure := (PhiPlacement.exists_phi_iff spec).mp (List.mem_map.mp hasPhi)
    obtain ⟨-, d, isDef, notEntry, path⟩ :=
      exists_source_of_closure spec consistent (fun d isDef => (ofDef d isDef).1) closure
    refine ⟨?_, d, notEntry, (ofDef d isDef).1, (ofDef d isDef).2, path⟩
    cases closure with
    | base _ inFrontier | step _ inFrontier => exact (spec.mem_frontier_iff.mp inFrontier).2.1
  · -- the version of the loop and version 0 meet at the entry
    obtain ⟨l, path, through⟩ := exists_path_through reach walk
    have positive : ∀ b ∈ l, ∀ k, (x, k) ∈ defsOf (renamed.getBlock b) → 0 < k := by
      intro b mem k defines
      have listed : b ∈ renamed.blockOrder := by
        rw [result.blockOrder]
        exact (spec.order.mem_iff b).mpr (path.reach_of_mem (mem_cons_of_mem _ mem))
      exact Nat.zero_lt_of_lt ((result.definitions_fresh spec.order).range x k
        (mem_flatMap.mpr ⟨b, listed, defines⟩)).1
    have version := versionsAfter_pos positive through (creates_of_writes result reach writes)
    rw [← agree.joins x cfg.entry [] l .root path hasPhi] at version
    exact absurd version (Nat.lt_irrefl 0)

section Covered

variable (covered : OutputsCovered (recordedArgs cfg regNames))
include covered

omit result spec in
theorem views_of_covered : (cfg.flow.Reach b ∧ Writes (recordedArgs cfg regNames) b x) ↔
    b ∈ recordedBlocks (recordedArgs cfg regNames) x := by
  rw [mem_recordedBlocks consistent]
  refine ⟨fun written => covered.listed b x written.1 written.2, fun listed => ⟨?_, ?_⟩⟩
  · exact by_contra fun unreached => covered.unreached b x unreached listed
  · obtain ⟨op, mem, -, name⟩ := listed
    exact ⟨op, mem, name⟩

omit result in
/-- A definition or phi for `x`, and its frontier. -/
theorem closure_of_inFrontier {w : Nat} (reach : cfg.flow.Reach w)
    (known : w ∈ recordedBlocks (recordedArgs cfg regNames) x ∨
      (DomTree.compute cfg).FrontierClosure
        ((collectDefsFromCfgWithNames cfg regNames).1.listAt x) w)
    (inFrontier : cfg.flow.InFrontier w b) : (DomTree.compute cfg).FrontierClosure
      ((collectDefsFromCfgWithNames cfg regNames).1.listAt x) b := by
  have views {b} := views_of_covered (x := x) (b := b) consistent covered
  obtain ⟨p, ⟨l, path⟩, edge, dom⟩ := inFrontier.1
  have reachB : cfg.flow.Reach b := Graph.Reach.step ⟨l, path⟩ edge
  by_cases isEntry : b = cfg.entry
  · subst isEntry
    have toEntry : TransGen cfg.flow.edge w cfg.entry := .tail' (path.reaches (dom l path)) edge
    obtain ⟨d, isDef, walk⟩ : ∃ d ∈ recordedBlocks (recordedArgs cfg regNames) x,
        TransGen cfg.flow.edge d cfg.entry := by
      rcases known with isDef | closure
      · exact ⟨w, isDef, toEntry⟩
      · obtain ⟨-, d, isDef, -, path⟩ := exists_source_of_closure spec consistent
          (fun d isDef => (views.mpr isDef).1) closure
        exact ⟨d, isDef, path.trans toEntry⟩
    obtain ⟨reachD, writes⟩ := views.mpr isDef
    obtain ⟨two, d', notEntry, reach', writes', walk'⟩ := covered.entry d x reachD writes walk
    exact closure_entry spec consistent two (views.mp ⟨reach', writes'⟩) notEntry reach' walk'
  · have inTree := (spec.mem_frontier_iff_inFrontier consistent reach reachB isEntry).mpr inFrontier
    exact known.elim (.base · inTree) (.step · inTree)

/-- The condition is enough. -/
theorem agree_of_covered (initial : Initial init) :
    OutputsAgree (recordedArgs cfg regNames) renamed := by
  have views {x b} := views_of_covered (x := x) (b := b) consistent covered
  have enough : ∀ x b, cfg.flow.InIteratedFrontier (renamed.Creates x) b →
      ∃ phi ∈ (recordedArgs cfg regNames).phiPlacement.getPhis b, phi.varName = x := by
    intro x b iterated
    refine (PhiPlacement.exists_phi_iff spec).mpr ?_
    induction iterated with
    | @base w b creates inFrontier =>
      obtain ⟨⟨p, reachP, -, dom⟩, -⟩ := id inFrontier
      have reach : cfg.flow.Reach w := dom.reach reachP
      refine closure_of_inFrontier consistent spec covered reach ?_ inFrontier
      rw [result.creates_iff reach, defsAt, map_append, mem_append] at creates
      rcases creates with phi | body
      · rw [List.map_map, show (Prod.fst ∘ fun var : SSAVar => (var.name, var.version)) =
          SSAVar.name from rfl, phiDsts_names] at phi
        exact .inr ((PhiPlacement.exists_phi_iff spec).mp (List.mem_map.mp phi))
      · rw [bodyOf, show (recordedArgs cfg regNames).callBoundaries = none from rfl,
          defsOf_renameOps_names, mem_filterMap] at body
        exact .inl (views.mp ⟨reach, body⟩)
    | step _ inFrontier ih =>
      have reach := (exists_source_of_closure spec consistent
        (fun d isDef => (views.mpr isDef).1) ih).1
      exact closure_of_inFrontier consistent spec covered reach (.inr ih) inFrontier
  have arrives : ∀ {x b earlier}, cfg.flow.PathTo b (b :: earlier) →
      x ∉ ((recordedArgs cfg regNames).phiPlacement.getPhis b).map PhiInfo.varName →
      versionsAfter renamed earlier x =
        (phiState ((recordedArgs cfg regNames).phiPlacement.getPhis b)
          ⟨entered b, []⟩).ctx.currentVersion x := by
    intro x b earlier path noPhi
    obtain ⟨earlier', split, afterPhis, -⟩ :=
      result.versions_of_path spec.toIsTree initial enough path
    obtain rfl : earlier = earlier' := (List.cons.inj split).2
    rw [← afterPhis, advanceDefs_of_not_mem]
    rw [List.map_map, show (Prod.fst ∘ fun var : SSAVar => (var.name, var.version)) =
      SSAVar.name from rfl, phiDsts_names]
    exact noPhi
  refine ⟨fun x => Set.ext fun b => ?_, fun x b earlier earlier' path path' noPhi => ?_⟩
  · rw [mem_allocatingBlocks result spec]
    exact views
  · rw [arrives path noPhi, arrives path' noPhi]

end Covered

end Views

/-- The two views agree, so that no versions of a name meet without a phi, exactly where the
outputs are covered. -/
theorem outputsAgree_iff (blocks : List R2ILBlock) (cfg : CFG)
    (built : CFG.fromBlocks blocks = some cfg) (regNames : Option RegisterNameMap) :
    ∃ renamed final, renameFunctionWithNamesAndCallBoundaries (recordedArgs cfg regNames)
        (collectDefsFromCfgWithNames cfg regNames).2 = some (renamed, final) ∧
      (OutputsAgree (recordedArgs cfg regNames) renamed ↔
        OutputsCovered (recordedArgs cfg regNames)) := by
  obtain ⟨consistent, present, _⟩ := CFG.fromBlocks_spec built
  have spec := DomTree.compute_computed consistent present
  obtain ⟨renamed, final, entered, run, result⟩ := renameFunction_spec (recordedArgs cfg regNames)
    consistent spec.toIsTree (collectDefsFromCfgWithNames cfg regNames).2
  exact ⟨renamed, final, run, covered_of_agree result consistent spec, fun covered =>
    agree_of_covered result consistent spec covered (initialContext_initial _ _)⟩


/-- A register written by a load-linked operation in one arm of a branch and read at
the join. -/
def linkedBlocks : List R2ILBlock :=
  [⟨4096, 4, [.CBranch ⟨.Const, 4104, 8⟩ ⟨.Register, 8, 1⟩], none⟩,
   ⟨4100, 4, [.Branch ⟨.Const, 4108, 8⟩], none⟩,
   ⟨4104, 4, [.LoadLinked ⟨.Register, 0, 8⟩ .Ram ⟨.Register, 16, 8⟩ .Relaxed], none⟩,
   ⟨4108, 4, [.Copy ⟨.Unique, 16, 8⟩ ⟨.Register, 0, 8⟩], none⟩]

def linked : CFG := (CFG.fromBlocks linkedBlocks).getD (CFG.new 4096)

theorem linked_built : CFG.fromBlocks linkedBlocks = some linked := CFG.fromBlocks_cons_eq _ _ _

set_option maxRecDepth 8000 in
/-- The register gets a version in the arm, which is not recorded, and the join
has no phi. -/
theorem linked_not_recorded :
    ∃ renamed final, renameFunctionWithNamesAndCallBoundaries (recordedArgs linked none)
        (collectDefsFromCfgWithNames linked none).2 = some (renamed, final) ∧
      ¬ OutputsAgree (recordedArgs linked none) renamed ∧
      4108 ∈ (DomTree.compute linked).iteratedFrontier [4104] ∧
      (recordedArgs linked none).phiPlacement.getPhis 4108 = [] := by
  obtain ⟨consistent, present, _⟩ := CFG.fromBlocks_spec linked_built
  have spec := DomTree.compute_computed consistent present
  obtain ⟨renamed, final, entered, run, result⟩ := renameFunction_spec (recordedArgs linked none)
    consistent spec.toIsTree (collectDefsFromCfgWithNames linked none).2
  refine ⟨renamed, final, run, fun agree => ?_, by decide +kernel, by decide +kernel⟩
  have body : bodyOps (recordedArgs linked none) 4104 =
      [.LoadLinked ⟨.Register, 0, 8⟩ .Ram ⟨.Register, 16, 8⟩ .Relaxed] := by decide +kernel
  have reach : linked.flow.Reach 4104 := (spec.order.mem_iff 4104).mp (by decide +kernel)
  obtain ⟨op, mem, listed, -⟩ := (covered_of_agree result consistent spec agree).listed 4104 "reg:0"
    reach ⟨_, by rw [body]; exact List.mem_singleton.mpr rfl, by decide⟩
  rw [body, List.mem_singleton] at mem
  rw [mem] at listed
  exact absurd listed (by decide)

set_option maxRecDepth 8000 in
theorem outputsAgree_diamond :
    ∃ renamed final, renameFunctionWithNamesAndCallBoundaries (recordedArgs diamond none)
        (collectDefsFromCfgWithNames diamond none).2 = some (renamed, final) ∧
      OutputsAgree (recordedArgs diamond none) renamed := by
  obtain ⟨consistent, present, _⟩ := CFG.fromBlocks_spec diamond_built
  have spec := DomTree.compute_computed consistent present
  have entry : diamond.entry = 4096 := CFG.fromBlocks_entry diamond_built
  have order : ∀ b ∈ diamond.blockAddrs, b ∈ diamond.reversePostorder := by decide +kernel
  have known {b op} (mem : op ∈ bodyOps (recordedArgs diamond none) b) :
      ∃ block, diamond.getBlock b = some block ∧ op ∈ block.ops := by
    rw [bodyOps, show (recordedArgs diamond none).cfg = diamond from rfl] at mem
    cases found : diamond.getBlock b with
    | none => simp [found] at mem
    | some block => exact ⟨block, rfl, by simpa [found] using mem⟩
  obtain ⟨renamed, final, run, agree⟩ := outputsAgree_iff diamondBlocks diamond diamond_built none
  refine ⟨renamed, final, run, agree.mpr ⟨?listed, ?unreached, ?entry⟩⟩
  case listed =>
    rintro b x - ⟨op, mem, name⟩
    obtain ⟨block, found, mem'⟩ := known mem
    exact ⟨op, mem, diamond_listed b block found op mem', name⟩
  case unreached =>
    rintro b x unreached ⟨op, mem, -, -⟩
    obtain ⟨block, found, -⟩ := known mem
    refine unreached ((spec.order.mem_iff b).mp (order b (CFG.mem_blockAddrs.mpr ?_)))
    exact consistent.getBlock_isSome.mp (by rw [found]; rfl)
  case entry =>
    intro b x _ _ walk
    obtain ⟨p, -, edge⟩ := (TransGen.tail'_iff).mp walk
    rw [show (recordedArgs diamond none).cfg = diamond from rfl, entry] at edge
    have isPred := consistent.mem_predecessors.mpr edge
    rw [diamond_noPreds] at isPred
    cases isPred

end R2Sleigh.Ssa
