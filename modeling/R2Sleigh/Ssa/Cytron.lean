import R2Sleigh.Ssa.RenameFunction

/-!
Contract: renaming is correct along every path, given enough phis.

Owns `versionsAfter`.
-/

namespace R2Sleigh.Ssa

open Il Flow Lib List Option CFG

variable {v b : Nat} {x : String}

/-- The renaming created a version of `x` in the block. -/
def RenamedFunction.Creates (renamed : RenamedFunction) (x : String) (b : Nat) : Prop :=
  ∃ op ∈ renamed.getBlock b, ∃ var, op.dst = some var ∧ var.name = x

/-- The version of each name that was defined last on a path, 0 if none was.
The last block of the path comes first in the list. -/
def versionsAfter (renamed : RenamedFunction) : List Nat → String → Nat
  | [] => fun _ => 0
  | b :: earlier => advance (versionsAfter renamed earlier) (renamed.getBlock b)

/-! ## Contents of a block -/

theorem defsOf_phiRow (sources : PhiInfo → List SSAVar) (phis : List PhiInfo) :
    ∀ dsts : List SSAVar, dsts.length = phis.length →
      defsOf (phiRow dsts phis sources) = dsts.map fun var => (var.name, var.version) := by
  induction phis with
  | nil =>
    intro dsts length
    rw [length_nil, length_eq_zero_iff] at length
    subst length
    rfl
  | cons phi rest ih =>
    intro dsts length
    cases dsts with
    | nil => simp at length
    | cons dst dsts =>
      rw [length_cons, length_cons, Nat.succ_inj] at length
      exact congrArg ((dst.name, dst.version) :: ·) (ih dsts length)

theorem getElem?_phiDsts (phis : List PhiInfo) :
    ∀ (state : RenameState) (i : Nat) (phi : PhiInfo), phis[i]? = some phi →
      ∃ dst, (phiDsts phis state)[i]? = some dst ∧ dst.name = phi.varName := by
  induction phis with
  | nil => simp
  | cons first rest ih =>
    intro state i phi found
    cases i with
    | zero =>
      rw [List.getElem?_cons_zero, Option.some.injEq] at found
      subst found
      exact ⟨_, rfl, rfl⟩
    | succ i => exact ih _ i phi found

theorem phiDsts_names (phis : List PhiInfo) :
    ∀ state : RenameState, (phiDsts phis state).map SSAVar.name = phis.map PhiInfo.varName := by
  induction phis with
  | nil => exact fun _ => rfl
  | cons phi rest ih =>
    intro state
    exact congrArg (phi.varName :: ·) (ih _)

theorem length_phiRow (phis : List PhiInfo) (state : RenameState)
    (sources : PhiInfo → List SSAVar) :
    (phiRow (phiDsts phis state) phis sources).length = phis.length := by
  rw [phiRow, length_zipWith, phiDsts_length, Nat.min_self]

namespace Renamed

/-- After earlier blocks and the phis of a block, and after all of a path, the versions are
those of the renaming. -/
def Arrived (args : RenameArgs) (renamed : RenamedFunction) (entered : Nat → RenameContext)
    (b : Nat) (earlier l : List Nat) : Prop :=
  advanceDefs (versionsAfter renamed earlier)
    ((phiDsts (args.phiPlacement.getPhis b) ⟨entered b, []⟩).map fun var => (var.name, var.version)) =
      (phiState (args.phiPlacement.getPhis b) ⟨entered b, []⟩).ctx.currentVersion ∧
  versionsAfter renamed l = (leave args b (entered b)).ctx.currentVersion

variable {args : RenameArgs} {init : RenameContext} {renamed : RenamedFunction}
  {final : RenameContext} {entered : Nat → RenameContext}
  (result : Renamed args init renamed final entered)
include result

section

variable (reach : args.cfg.flow.Reach v)
include reach

theorem getBlock_eq : renamed.getBlock v =
    phiRow (phiDsts (args.phiPlacement.getPhis v) ⟨entered v, []⟩) (args.phiPlacement.getPhis v)
      (sourcesOf (filledAt args entered v) (firstPreds args v)) ++ bodyOf args v (entered v) := by
  rw [RenamedFunction.getBlock, HashMap.listAt, result.block v reach]
  rfl

theorem defsOf_getBlock :
    defsOf (renamed.getBlock v) = defsAt args v (entered v) := by
  rw [result.getBlock_eq reach, defsOf_append, defsOf_phiRow _ _ _ (phiDsts_length _ _)]
  rfl

/-- Each operation of the block has its segment behind the phis, in order. -/
theorem segments_of_body : ∃ segments : List (List SSAOp),
    (renamed.getBlock v).drop (args.phiPlacement.getPhis v).length = segments.flatten ∧
      List.Forall₂ (fun op segment => ∃ state, segment =
        (renameOpWithBoundary args.regNames args.callBoundaries state op).1)
          (bodyOps args v) segments := by
  have inOrder : ∀ (ops : List R2ILOp) (state : RenameState), ∃ segments : List (List SSAOp),
      (renameOps args.regNames args.callBoundaries ops state).1 = segments.flatten ∧
        List.Forall₂ (fun op segment => ∃ state, segment =
          (renameOpWithBoundary args.regNames args.callBoundaries state op).1) ops segments := by
    intro ops
    induction ops with
    | nil => exact fun _ => ⟨[], rfl, .nil⟩
    | cons op rest ih =>
      intro state
      obtain ⟨segments, flat, each⟩ :=
        ih (renameOpWithBoundary args.regNames args.callBoundaries state op).2
      exact ⟨_ :: segments, congrArg (_ ++ ·) flat, .cons ⟨state, rfl⟩ each⟩
  rw [result.getBlock_eq reach, drop_left' (length_phiRow _ _ _)]
  exact inOrder _ _

theorem creates_iff :
    renamed.Creates x v ↔ x ∈ (defsAt args v (entered v)).map Prod.fst := by
  rw [← result.defsOf_getBlock reach, defsOf, List.mem_map]
  simp only [mem_filterMap, SSAOp.definition, map_eq_some_iff]
  constructor
  · rintro ⟨op, mem, var, dst, rfl⟩
    exact ⟨_, ⟨op, mem, var, dst, rfl⟩, rfl⟩
  · rintro ⟨_, ⟨op, mem, var, dst, rfl⟩, rfl⟩
    exact ⟨op, mem, var, dst, rfl⟩

theorem currentVersion_leave (absent : ¬ renamed.Creates x v) :
    (leave args v (entered v)).ctx.currentVersion x = (entered v).currentVersion x := by
  rw [← (leave_defines args v (entered v)).versions]
  exact advanceDefs_of_not_mem fun mem => absent ((result.creates_iff reach).mpr mem)

theorem getElem?_phi {i : Nat} {phi : PhiInfo}
    (found : (args.phiPlacement.getPhis v)[i]? = some phi) :
    ∃ dst, dst.name = phi.varName ∧ (renamed.getBlock v)[i]? =
      some (.Phi dst (sourcesOf (filledAt args entered v) (firstPreds args v) phi)) := by
  obtain ⟨dst, at_, name⟩ := getElem?_phiDsts _ ⟨entered v, []⟩ i phi found
  refine ⟨dst, name, ?_⟩
  rw [result.getBlock_eq reach]
  have row : (phiRow (phiDsts (args.phiPlacement.getPhis v) ⟨entered v, []⟩)
      (args.phiPlacement.getPhis v) (sourcesOf (filledAt args entered v) (firstPreds args v)))[i]? =
      some (.Phi dst (sourcesOf (filledAt args entered v) (firstPreds args v) phi)) := by
    rw [phiRow, List.getElem?_zipWith, at_, found]
  obtain ⟨bound, _⟩ := List.getElem?_eq_some_iff.mp row
  rw [List.getElem?_append_left bound]
  exact row

end

/-- The definitions of all blocks get the numbers that the renaming counted. -/
theorem definitions_fresh
    (order : IsReversePostorder args.cfg.flow args.cfg.reversePostorder) :
    Fresh init.counter (renamed.blockOrder.flatMap fun v => defsOf (renamed.getBlock v))
      final.counter := by
  obtain ⟨visits, nodup, members, fresh⟩ := result.fresh
  have sameBlocks : visits.Perm renamed.blockOrder := by
    rw [result.blockOrder, List.perm_ext_iff_of_nodup nodup order.nodup]
    exact fun v => (members v).trans (order.mem_iff v).symm
  refine fresh.perm ((List.Perm.flatMap_left visits fun v mem => ?_).trans
    (sameBlocks.flatMap_right _))
  rw [result.defsOf_getBlock ((members v).mp mem)]

/-! ## Cytron's argument -/

section Paths

variable (spec : DomTree.IsTree args.cfg args.domtree) (initial : Initial init)
  (enough : ∀ x b, args.cfg.flow.InIteratedFrontier (renamed.Creates x) b →
    ∃ phi ∈ args.phiPlacement.getPhis b, phi.varName = x)
include spec

theorem currentVersion_climb {d : Nat} (w : Nat) (reach : args.cfg.flow.Reach w)
    (dom : args.cfg.flow.Dom d w)
    (clear : ∀ w', args.cfg.flow.Dom w' w → args.cfg.flow.SDom d w' → ¬ renamed.Creates x w') :
    (leave args w (entered w)).ctx.currentVersion x =
      (leave args d (entered d)).ctx.currentVersion x := by
  induction rank : DomTree.rpoIndex args.cfg.reversePostorder w using Nat.strongRecOn
    generalizing w with
  | ind n ih =>
    by_cases here : w = d
    · rw [here]
    have notEntry : w ≠ args.cfg.entry := by
      rintro rfl
      exact here (Graph.dom_root_iff.mp dom).symm
    obtain ⟨parent, idom⟩ := spec.exists_idom reach notEntry
    have sdom : args.cfg.flow.SDom d w := ⟨dom, Ne.symm here⟩
    have parentDom := (spec.isIdom idom).sdom.1
    rw [result.currentVersion_leave reach (clear w (Graph.Dom.refl w) sdom),
      (result.parent w parent idom).currentVersion]
    exact ih _ (rank ▸ spec.rank_lt idom) parent (spec.reach_of_idom idom).2
      ((spec.isIdom idom).closest d sdom)
      (fun w' domW' => clear w' (domW'.trans parentDom)) rfl

/-- Along an edge nothing changes if no dominator of its source that is not
above its target creates a version. -/
theorem currentVersion_entered_of_clear {p : Nat} (reach : args.cfg.flow.Reach p)
    (edge : args.cfg.flow.edge p b)
    (clear : ∀ w, args.cfg.flow.Dom w p → ¬ args.cfg.flow.SDom w b → ¬ renamed.Creates x w) :
    (entered b).currentVersion x = (leave args p (entered p)).ctx.currentVersion x := by
  by_cases isEntry : b = args.cfg.entry
  · subst isEntry
    have noneAbove : ∀ w, ¬ args.cfg.flow.SDom w args.cfg.entry :=
      fun w sdom => sdom.2 (Graph.dom_root_iff.mp sdom.1)
    rw [result.currentVersion_climb spec p reach (Graph.Dom.root p)
      fun w dom _ => clear w dom (noneAbove w)]
    exact (result.currentVersion_leave Graph.Reach.root
      (clear _ (Graph.Dom.root p) (noneAbove _))).symm
  · obtain ⟨d, idom⟩ := spec.exists_idom (reach.step edge) isEntry
    have isIdom := spec.isIdom idom
    rw [(result.parent b d idom).currentVersion]
    refine (result.currentVersion_climb spec p reach (isIdom.dom_pred edge) ?_).symm
    intro w domW sdomW
    refine clear w domW fun above => ?_
    exact sdomW.2 (Graph.Dom.antisymm (sdomW.1.reach (domW.reach reach)) sdomW.1
      (isIdom.closest w above))

include enough

/-- The version a block without a phi is entered with is the one its
predecessor was left with. -/
theorem currentVersion_entered {p : Nat} (reach : args.cfg.flow.Reach p)
    (edge : args.cfg.flow.edge p b)
    (noPhi : x ∉ (args.phiPlacement.getPhis b).map PhiInfo.varName) :
    (entered b).currentVersion x = (leave args p (entered p)).ctx.currentVersion x := by
  refine result.currentVersion_entered_of_clear spec reach edge fun w domW notAbove creates => ?_
  -- otherwise the join is in the frontier of the definition
  obtain ⟨phi, mem, name⟩ := enough x b (.base creates ⟨⟨p, reach, edge, domW⟩, notAbove⟩)
  exact noPhi (List.mem_map.mpr ⟨phi, mem, name⟩)

include initial

/-- On every path the versions after the phis of a block, and after the block,
are those of the renaming. -/
theorem versions_of_path {l : List Nat} (path : args.cfg.flow.PathTo b l) :
    ∃ earlier, l = b :: earlier ∧ Arrived args renamed entered b earlier l := by
  -- it is enough that arrival and entry agree away from the phis
  have ofArrival : ∀ (b : Nat) (earlier : List Nat), args.cfg.flow.Reach b →
      (∀ x, x ∉ (args.phiPlacement.getPhis b).map PhiInfo.varName →
        versionsAfter renamed earlier x = (entered b).currentVersion x) →
      Arrived args renamed entered b earlier (b :: earlier) := by
    intro b earlier reach agree
    have phis := phiState_defines (args.phiPlacement.getPhis b) ⟨entered b, []⟩
    have names : ((phiDsts (args.phiPlacement.getPhis b) ⟨entered b, []⟩).map
        fun var => (var.name, var.version)).map Prod.fst =
        (args.phiPlacement.getPhis b).map PhiInfo.varName := by
      rw [List.map_map, ← phiDsts_names]
      rfl
    have afterPhis : advanceDefs (versionsAfter renamed earlier)
        ((phiDsts (args.phiPlacement.getPhis b) ⟨entered b, []⟩).map
          fun var => (var.name, var.version)) =
        (phiState (args.phiPlacement.getPhis b) ⟨entered b, []⟩).ctx.currentVersion := by
      rw [← phis.versions]
      exact advanceDefs_congr (by rw [names]; exact agree)
    refine ⟨afterPhis, ?_⟩
    have body := (renameOps_spec args.regNames args.callBoundaries (bodyOps args b)
      (phiState (args.phiPlacement.getPhis b) ⟨entered b, []⟩)).1.versions
    rw [versionsAfter, advance, result.defsOf_getBlock reach, defsAt, advanceDefs_append, afterPhis]
    exact body
  induction path with
  | root =>
    refine ⟨[], rfl, ofArrival args.cfg.entry [] Graph.Reach.root fun x _ => ?_⟩
    rw [result.root.currentVersion, initial.currentVersion]
    rfl
  | @snoc p b l path edge ih =>
    obtain ⟨_, _, _, afterP⟩ := ih
    refine ⟨l, rfl, ofArrival b l (Graph.Reach.step ⟨l, path⟩ edge) fun x noPhi => ?_⟩
    rw [afterP]
    exact (result.currentVersion_entered spec enough ⟨l, path⟩ edge noPhi).symm

end Paths

/-! ## Enough phis -/

/-- Phis placed from the blocks recorded for each name are enough if every
operation and call that defines a name is recorded. -/
theorem enough_of_recorded (consistent : args.cfg.Consistent)
    (spec : DomTree.Computed args.cfg args.domtree)
    (noPreds : ∀ p, ¬ args.cfg.flow.edge p args.cfg.entry)
    {defs : HashMap String (List Nat)} {varSizes : HashMap String Nat}
    (placed : args.phiPlacement = PhiPlacement.compute args.cfg args.domtree defs varSizes)
    (recorded : ∀ b, args.cfg.flow.Reach b →
      x ∈ (defsOf (bodyOf args b (entered b))).map Prod.fst → b ∈ defs.listAt x)
    (iterated : args.cfg.flow.InIteratedFrontier (renamed.Creates x) b) :
    ∃ phi ∈ args.phiPlacement.getPhis b, phi.varName = x := by
  have inTree : ∀ w b, args.cfg.flow.InFrontier w b → b ∈ args.domtree.frontier w := by
    rintro w b ⟨⟨p, reachP, edge, dom⟩, notAbove⟩
    have notEntry : b ≠ args.cfg.entry := by
      rintro rfl
      exact noPreds p edge
    exact (spec.mem_frontier_iff_inFrontier consistent (dom.reach reachP) (reachP.step edge)
      notEntry).mpr ⟨⟨p, reachP, edge, dom⟩, notAbove⟩
  rw [placed, PhiPlacement.exists_phi_iff spec]
  induction iterated with
  | @base w b creates inFrontier =>
    have reach : args.cfg.flow.Reach w := by
      obtain ⟨⟨p, reachP, _, dom⟩, _⟩ := inFrontier
      exact dom.reach reachP
    rw [result.creates_iff reach, defsAt, map_append, mem_append] at creates
    rcases creates with phi | body
    · rw [List.map_map, show (Prod.fst ∘ fun var : SSAVar => (var.name, var.version)) =
        SSAVar.name from rfl, phiDsts_names, List.mem_map, placed] at phi
      exact .step ((PhiPlacement.exists_phi_iff spec).mp phi) (inTree w b inFrontier)
    · exact .base (recorded w reach body) (inTree w b inFrontier)
  | step _ inFrontier ih =>
    exact .step ih (inTree _ _ inFrontier)

omit result in
/-- Without call boundaries and unlisted outputs every definition is
recorded. -/
theorem recorded_of_listed (consistent : args.cfg.Consistent)
    (noBoundary : args.callBoundaries = none)
    (listed : ∀ b block, args.cfg.getBlock b = some block → ∀ op ∈ block.ops,
      unlistedOutput op = false) {ctx : RenameContext}
    (defined : x ∈ (defsOf (bodyOf args b ctx)).map Prod.fst) :
    b ∈ (collectDefsFromCfgWithNames args.cfg args.regNames).1.listAt x := by
  rw [bodyOf, noBoundary, defsOf_renameOps_names, mem_filterMap, bodyOps] at defined
  rw [mem_collectDefs consistent]
  obtain ⟨op, mem, name⟩ := defined
  cases found : args.cfg.getBlock b with
  | none => simp [found] at mem
  | some block =>
    rw [found, map_some, getD_some] at mem
    exact ⟨block, rfl, op, mem, listed b block found op mem, name⟩

end Renamed

/-! ## The theorem -/

/-- The renamed blocks are the reachable ones. Behind its phis, each is its operations
renamed one by one, a call with the definitions behind it; and all definitions of a name,
those of the phis included, have versions of their own from 1 on. -/
structure RenamesBlocks (args : RenameArgs) (renamed : RenamedFunction) : Prop where
  order : renamed.blockOrder.Nodup ∧ ∀ b, b ∈ renamed.blockOrder ↔ args.cfg.flow.Reach b
  body : ∀ b ∈ renamed.blockOrder, ∃ segments : List (List SSAOp),
    (renamed.getBlock b).drop (args.phiPlacement.getPhis b).length = segments.flatten ∧
      List.Forall₂ (fun op segment => ∃ state, segment =
        (renameOpWithBoundary args.regNames args.callBoundaries state op).1)
          (bodyOps args b) segments
  fresh : (renamed.blockOrder.flatMap fun b => defsOf (renamed.getBlock b)).Nodup
  positive : ∀ b ∈ renamed.blockOrder, ∀ x k, (x, k) ∈ defsOf (renamed.getBlock b) → 0 < k

/-- What a path that arrives at `b` after `earlier` reads there: each operation
reads the version last defined, and each phi selects it at the position of the
block it comes from. -/
structure ReadsLastDefinition (args : RenameArgs) (renamed : RenamedFunction) (b : Nat)
    (earlier : List Nat) : Prop where
  ops : ∀ i op, (args.phiPlacement.getPhis b).length ≤ i → (renamed.getBlock b)[i]? = some op →
    ∀ source ∈ op.sources, source.isConst = false →
      source.version =
        advance (versionsAfter renamed earlier) ((renamed.getBlock b).take i) source.name
  phis : ∀ p rest, earlier = p :: rest → ∀ (i : Nat) (phi : PhiInfo),
    (args.phiPlacement.getPhis b)[i]? = some phi → ∃ (dst : SSAVar) (sources : List SSAVar),
      (renamed.getBlock b)[i]? = some (.Phi dst sources) ∧ dst.name = phi.varName ∧
      ∀ j : Nat, (args.cfg.predecessors b)[j]? = some p → ∃ source, sources[j]? = some source ∧
        source.name = dst.name ∧ source.version = versionsAfter renamed earlier source.name

/-- Renaming keeps the operations of every block and gives each definition a version of its
own. It is correct wherever its inputs are: on every path from the entry, every operand read
is the version last defined on it, version 0 if there is none. Phis of the entry block count
as executed at the start. -/
theorem rename_correct (args : RenameArgs) (varSizes : HashMap String Nat)
    (consistent : args.cfg.Consistent) (present : args.cfg.entry ∈ args.cfg.addrToNode)
    (computed : args.domtree = DomTree.compute args.cfg)
    (noParallel : ∀ b, (args.cfg.predecessors b).Nodup)
    (aligned : ∀ b, ∀ phi ∈ args.phiPlacement.getPhis b,
      phi.predecessors = args.cfg.predecessors b) :
    ∃ renamed final,
      renameFunctionWithNamesAndCallBoundaries args varSizes = some (renamed, final) ∧
      RenamesBlocks args renamed ∧
      ((∀ x b, args.cfg.flow.InIteratedFrontier (renamed.Creates x) b →
          ∃ phi ∈ args.phiPlacement.getPhis b, phi.varName = x) →
        ∀ b earlier, args.cfg.flow.PathTo b (b :: earlier) →
          ReadsLastDefinition args renamed b earlier) := by
  have spec : DomTree.Computed args.cfg args.domtree :=
    computed ▸ DomTree.compute_computed consistent present
  obtain ⟨renamed, final, entered, run, result⟩ :=
    renameFunction_spec args consistent spec.toIsTree varSizes
  have initial := initialContext_initial args.phiPlacement varSizes
  have reachOf : ∀ b, b ∈ renamed.blockOrder ↔ args.cfg.flow.Reach b := by
    rw [result.blockOrder]
    exact spec.order.mem_iff
  have fresh := result.definitions_fresh spec.order
  refine ⟨renamed, final, run, ⟨⟨result.blockOrder ▸ spec.order.nodup, reachOf⟩,
    fun b listed => result.segments_of_body ((reachOf b).mp listed), fresh.nodup,
    fun b listed x k defines => ?_⟩, fun enough b earlier path => ?_⟩
  · exact Nat.zero_lt_of_lt (fresh.range x k (mem_flatMap.mpr ⟨b, listed, defines⟩)).1
  have reach : args.cfg.flow.Reach b := ⟨_, path⟩
  obtain ⟨earlier', split, afterPhis, _⟩ :=
    result.versions_of_path spec.toIsTree initial enough path
  obtain rfl : earlier = earlier' := (List.cons.inj split).2
  have rowLength := length_phiRow (args.phiPlacement.getPhis b) ⟨entered b, []⟩
    (sourcesOf (filledAt args entered b) (firstPreds args b))
  constructor
  · intro i op beyond found source mem notConst
    rw [result.getBlock_eq reach, List.getElem?_append_right (rowLength ▸ beyond), rowLength] at found
    have reads := (renameOps_spec args.regNames args.callBoundaries (bodyOps args b)
      (phiState (args.phiPlacement.getPhis b) ⟨entered b, []⟩)).2
    have before : advance (versionsAfter renamed earlier) ((renamed.getBlock b).take i) =
        advance (phiState (args.phiPlacement.getPhis b) ⟨entered b, []⟩).ctx.currentVersion
          ((bodyOf args b (entered b)).take (i - (args.phiPlacement.getPhis b).length)) := by
      have rowFits : (phiRow (phiDsts (args.phiPlacement.getPhis b) ⟨entered b, []⟩)
          (args.phiPlacement.getPhis b)
          (sourcesOf (filledAt args entered b) (firstPreds args b))).length ≤ i :=
        rowLength ▸ beyond
      rw [result.getBlock_eq reach, take_append, take_of_length_le rowFits, rowLength,
        advance_append, ← afterPhis]
      congr 1
      rw [advance, defsOf_phiRow _ _ _ (phiDsts_length _ _)]
    rw [before]
    exact reads.get found mem notConst
  · rintro p rest rfl i phi found
    obtain ⟨dst, name, at_⟩ := result.getElem?_phi reach found
    refine ⟨dst, _, at_, name, fun j position => ?_⟩
    have phiMember := mem_of_getElem? found
    have search : firstPreds args b = args.cfg.predecessors b := by
      obtain ⟨first, others, phis⟩ := exists_cons_of_ne_nil (ne_nil_of_mem phiMember)
      rw [firstPreds, phis, List.head?_cons, map_some, getD_some]
      exact aligned b first (by rw [phis]; exact mem_cons_self)
    have jBound : j < phi.predecessors.length := by
      rw [aligned b phi phiMember]
      exact (List.getElem?_eq_some_iff.mp position).1
    have first : (firstPreds args b).idxOf? p = some j := by
      obtain ⟨inRange, isP⟩ := List.getElem?_eq_some_iff.mp position
      rw [search, List.idxOf?_eq_some_iff]
      refine ⟨inRange, isP, fun k smaller isP' => ?_⟩
      have same := (noParallel b).getElem_inj_iff.mp (isP'.trans isP.symm)
      omega
    have edge : args.cfg.flow.edge p b := consistent.mem_predecessors.mp (mem_of_getElem? position)
    have pathP := path.tail
    have reachP : args.cfg.flow.Reach p := ⟨_, pathP⟩
    have filled : filledAt args entered b p = some (leave args p (entered p)).ctx := by
      rw [filledAt, if_pos ⟨consistent.mem_successors.mpr edge, reachP⟩]
    obtain ⟨_, _, _, afterP⟩ := result.versions_of_path spec.toIsTree initial enough pathP
    refine ⟨(leave args p (entered p)).ctx.readVar phi.varName, ?_, name.symm, ?_⟩
    · rw [sourcesOf, List.getElem?_map, List.getElem?_range jBound, map_some,
        sourceAt_of_position first, filled]
    · rw [afterP]
      rfl

/-- One register written in both arms of a branch and read at the join. -/
def diamondBlocks : List R2ILBlock :=
  [⟨4096, 4, [.CBranch ⟨.Const, 4104, 8⟩ ⟨.Register, 8, 1⟩], none⟩,
   ⟨4100, 4, [.Copy ⟨.Register, 0, 8⟩ ⟨.Const, 1, 8⟩, .Branch ⟨.Const, 4108, 8⟩], none⟩,
   ⟨4104, 4, [.Copy ⟨.Register, 0, 8⟩ ⟨.Const, 2, 8⟩], none⟩,
   ⟨4108, 4, [.Copy ⟨.Unique, 16, 8⟩ ⟨.Register, 0, 8⟩, .Return ⟨.Register, 16, 8⟩], none⟩]

def diamond : CFG := (fromBlocks diamondBlocks).getD (new 4096)

theorem diamond_built : fromBlocks diamondBlocks = some diamond := fromBlocks_cons_eq _ _ _

def diamondArgs : RenameArgs where
  cfg := diamond
  domtree := DomTree.compute diamond
  phiPlacement := PhiPlacement.compute diamond (DomTree.compute diamond)
    (collectDefsFromCfgWithNames diamond none).1 (collectDefsFromCfgWithNames diamond none).2
  regNames := none
  callBoundaries := none

set_option maxRecDepth 8000 in
theorem diamond_noPreds : diamond.predecessors 4096 = [] := by decide +kernel

set_option maxRecDepth 8000 in
private theorem diamond_noParallel (b : Nat) : (diamond.predecessors b).Nodup := by
  have each : (diamond.blockAddrs.all fun b => (diamond.predecessors b).Nodup) = true := by
    decide +kernel
  by_cases known : b ∈ diamond.addrToNode
  · simpa using List.all_eq_true.mp each b (mem_blockAddrs.mpr known)
  · rw [predecessors, getNode, AList.lookup_eq_none.mpr known]
    exact nodup_nil

set_option maxRecDepth 8000 in
theorem diamond_listed (b : Nat) (block : BasicBlock) (found : diamond.getBlock b = some block)
    (op : R2ILOp) (mem : op ∈ block.ops) : unlistedOutput op = false := by
  have each : (diamond.blockAddrs.all fun b =>
      (bodyOps diamondArgs b).all fun op => unlistedOutput op = false) = true := by decide +kernel
  obtain ⟨consistent, _, _⟩ := fromBlocks_spec diamond_built
  have known : b ∈ diamond.blockAddrs :=
    mem_blockAddrs.mpr (consistent.getBlock_isSome.mp (by rw [found]; rfl))
  have inBody : op ∈ bodyOps diamondArgs b := by
    rw [bodyOps, show diamondArgs.cfg.getBlock b = some block from found]
    exact mem
  simpa using List.all_eq_true.mp (List.all_eq_true.mp each b known) op inBody

set_option maxRecDepth 8000 in
theorem rename_correct_diamond :
    ∃ renamed final, renameFunctionWithNamesAndCallBoundaries diamondArgs
        (collectDefsFromCfgWithNames diamond none).2 = some (renamed, final) ∧
      RenamesBlocks diamondArgs renamed ∧
      ReadsLastDefinition diamondArgs renamed 4108 [4104, 4096] := by
  obtain ⟨consistent, present, _⟩ := fromBlocks_spec diamond_built
  have entry : diamond.entry = 4096 := fromBlocks_entry diamond_built
  have noPreds : diamondArgs.cfg.predecessors diamondArgs.cfg.entry = [] := by
    rw [show diamondArgs.cfg.entry = 4096 from entry]
    exact diamond_noPreds
  have path : diamond.flow.PathTo 4108 [4108, 4104, 4096] := by
    have first : diamond.flow.edge diamond.entry 4104 := by
      rw [entry]
      exact consistent.mem_successors.mp (by decide +kernel)
    have start : diamond.flow.PathTo 4104 [4104, diamond.entry] := .snoc .root first
    rw [entry] at start
    exact .snoc start (consistent.mem_successors.mp (by decide +kernel))
  obtain ⟨renamed, final, run, blocks, correct⟩ := rename_correct diamondArgs
    (collectDefsFromCfgWithNames diamond none).2 consistent present rfl diamond_noParallel
    fun b phi mem => PhiPlacement.predecessors_of_mem mem
  refine ⟨renamed, final, run, blocks, correct (fun x b iterated => ?_) 4108 [4104, 4096] path⟩
  have spec := DomTree.compute_computed consistent present
  obtain ⟨_, _, entered, run', result⟩ := renameFunction_spec diamondArgs consistent spec.toIsTree
    (collectDefsFromCfgWithNames diamond none).2
  rw [run, Option.some.injEq, Prod.mk.injEq] at run'
  obtain ⟨rfl, rfl⟩ := run'
  have placed : diamondArgs.phiPlacement = PhiPlacement.compute diamondArgs.cfg
      diamondArgs.domtree (collectDefsFromCfgWithNames diamondArgs.cfg diamondArgs.regNames).1
      (collectDefsFromCfgWithNames diamond none).2 := rfl
  have recorded : ∀ b, diamondArgs.cfg.flow.Reach b →
      x ∈ (defsOf (bodyOf diamondArgs b (entered b))).map Prod.fst →
      b ∈ (collectDefsFromCfgWithNames diamondArgs.cfg diamondArgs.regNames).1.listAt x :=
    fun b _ defined => Renamed.recorded_of_listed consistent rfl diamond_listed defined
  exact result.enough_of_recorded consistent spec (consistent.not_edge_of_nil noPreds) placed
    recorded iterated

end R2Sleigh.Ssa
