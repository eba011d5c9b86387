import Mathlib.Data.List.Zip
import R2Sleigh.Ssa.LastDefinition

/-!
Contract: the sources of the phis against the edges of the graph.

Does not own: call boundaries, which `fromBlocksRaw` does not use.

A predecessor with several edges into a join is filled in at its first position
only; the other positions keep version 0.
-/

namespace R2Sleigh.Ssa

open Il Flow Lib List Option

/-! ## The nodes of a block -/

theorem mem_renameOps_none {regNames : Option RegisterNameMap} {op : SSAOp} (ops : List R2ILOp) :
    ∀ {state : RenameState}, op ∈ (renameOps regNames none ops state).1 ↔
      ∃ before source after, ops = before ++ source :: after ∧
        op = (renameOp regNames (renameOps regNames none before state).2 source).1 := by
  induction ops with
  | nil => simp [renameOps]
  | cons first rest ih =>
    intro state
    rw [renameOps, renameOpWithBoundary_none]
    simp only [singleton_append, mem_cons, ih]
    constructor
    · rintro (rfl | ⟨before, source, after, rfl, rfl⟩)
      · exact ⟨[], first, rest, rfl, rfl⟩
      · refine ⟨first :: before, source, after, rfl, ?_⟩
        rw [renameOps, renameOpWithBoundary_none]
    · rintro ⟨before, source, after, split, rfl⟩
      cases before with
      | nil =>
        obtain ⟨rfl, rfl⟩ := split
        exact .inl rfl
      | cons head before =>
        obtain ⟨rfl, rfl⟩ := split
        refine .inr ⟨before, source, after, rfl, ?_⟩
        rw [renameOps, renameOpWithBoundary_none]

theorem phiNode_renameOp {regNames : Option RegisterNameMap} {state : RenameState} {op : R2ILOp}
    {preds : List Nat} {node : PhiNode} :
    phiNode preds (renameOp regNames state op).1 = some node ↔
      ∃ dst inputs, op = .Multiequal dst inputs ∧
        node = ⟨(state.define (varnodeToName dst regNames)).1,
          preds.zip (inputs.map (readVarnode regNames state.ctx))⟩ := by
  have swapped : ∀ (sources : List SSAVar) (preds : List Nat),
      ((sources.zip preds).map fun entry => (entry.2, entry.1)) = preds.zip sources := by
    intro sources preds
    exact zip_swap sources preds
  cases op with
  | Multiequal dst inputs =>
    simp only [renameOp, phiNode, swapped, Option.some.injEq, R2ILOp.Multiequal.injEq]
    constructor
    · rintro rfl
      exact ⟨dst, inputs, ⟨rfl, rfl⟩, rfl⟩
    · rintro ⟨_, _, ⟨rfl, rfl⟩, rfl⟩
      rfl
  | _ => simp [renameOp, renameUnaryOp, renameBinaryOp, phiNode]

theorem exists_later_iff {preds : List Nat} {p : Nat} :
    1 < preds.count p ↔ ∃ j : Nat, preds[j]? = some p ∧ preds.idxOf? p ≠ some j := by
  induction preds with
  | nil => simp
  | cons first rest ih =>
    by_cases here : first = p
    · subst here
      rw [count_cons_self, Nat.lt_add_left_iff_pos, count_pos_iff]
      constructor
      · intro mem
        obtain ⟨j, found⟩ := mem_iff_getElem?.mp mem
        exact ⟨j + 1, by simpa using found, by simp [List.idxOf?_cons]⟩
      · rintro ⟨j, found, later⟩
        cases j with
        | zero => simp [List.idxOf?_cons] at later
        | succ j => exact mem_of_getElem? (by simpa using found)
    · rw [count_cons_of_ne here, ih]
      have shifted : (first :: rest).idxOf? p = (rest.idxOf? p).map (· + 1) := by
        simp [List.idxOf?_cons, here]
      rw [shifted]
      constructor
      · rintro ⟨j, found, later⟩
        refine ⟨j + 1, by simpa using found, fun position => later ?_⟩
        simpa using position
      · rintro ⟨j, found, later⟩
        cases j with
        | zero => simp [here] at found
        | succ j =>
          refine ⟨j, by simpa using found, fun position => later ?_⟩
          simp [position]

/-- The sources of a phi are what its block's predecessors end with: one for
each incoming edge, in order, and for a reachable predecessor the version last
defined on every path to its end, which is 0 exactly if no path defines the
name. -/
structure PhiInputsMatch (cfg : CFG) (renamed : RenamedFunction) (b : Nat) (node : PhiNode) :
    Prop where
  edges : node.sources.map Prod.fst = cfg.predecessors b
  name : ∀ p v, (p, v) ∈ node.sources → cfg.flow.Reach p → v.name = node.dst.name
  current : ∀ p v, (p, v) ∈ node.sources → cfg.flow.Reach p → ∀ l, cfg.flow.PathTo p l →
    v.version = versionsAfter renamed l node.dst.name
  zero : ∀ p v, (p, v) ∈ node.sources → cfg.flow.Reach p →
    (v.version = 0 ↔ ∀ l, cfg.flow.PathTo p l → ∀ w ∈ l, ¬ renamed.Creates node.dst.name w)

/-- A predecessor whose paths decide the version of `x`, and which is not
joined twice once they set it. -/
def PlacedSourceSettled (args : RenameArgs) (b : Nat) (x : String) (p : Nat) : Prop :=
  AgreeOn args x p p ∧ (1 < (args.cfg.predecessors b).count p → Untouched args x p)

/-- A `Multiequal` operand that stands for what `p` ends with: the variable of
the operation itself, not set before it in its block, on which the paths to `p`
and to the immediate dominator of the block agree. -/
def WrittenSourceSettled (args : RenameArgs) (b : Nat) (before : List R2ILOp) (dst : Varnode)
    (p : Nat) (vn : Varnode) : Prop :=
  let x := varnodeToName dst args.regNames
  varnodeToName vn args.regNames = x ∧
    if vn.space = .Const then Untouched args x p
    else (∀ phi ∈ args.phiPlacement.getPhis b, phi.varName ≠ x) ∧
      (∀ op ∈ before, outputName args.regNames op ≠ some x) ∧
      ∃ d, args.cfg.flow.IsIdom d b ∧ AgreeOn args x p d

/-- The edges into a block settle its phis. -/
structure PhiInputsSettled (args : RenameArgs) (b : Nat) : Prop where
  placed : ∀ phi ∈ args.phiPlacement.getPhis b, ∀ p ∈ args.cfg.predecessors b,
    args.cfg.flow.Reach p → PlacedSourceSettled args b phi.varName p
  written : ∀ before dst inputs after,
    bodyOps args b = before ++ .Multiequal dst inputs :: after →
    (args.cfg.predecessors b).length ≤ inputs.length ∧
      ∀ p vn, (p, vn) ∈ (args.cfg.predecessors b).zip inputs → args.cfg.flow.Reach p →
        WrittenSourceSettled args b before dst p vn

theorem mem_zip_iff_getElem? {A B : Type} {l : List A} {l' : List B} {x : A} {y : B} :
    (x, y) ∈ l.zip l' ↔ ∃ j : Nat, l[j]? = some x ∧ l'[j]? = some y := by
  simp [mem_iff_getElem?, List.getElem?_zip_eq_some]

namespace Renamed

variable {args : RenameArgs} {init : RenameContext} {renamed : RenamedFunction}
  {final : RenameContext} {entered : Nat → RenameContext}
  (result : Renamed args init renamed final entered) (consistent : args.cfg.Consistent)
  (noBoundary : args.callBoundaries = none)
include result noBoundary

theorem phiInputsMatch_iff {b : Nat} {node : PhiNode} :
    PhiInputsMatch args.cfg renamed b node ↔
      node.sources.map Prod.fst = args.cfg.predecessors b ∧
      ∀ p v, (p, v) ∈ node.sources → args.cfg.flow.Reach p → v.name = node.dst.name ∧
        ∀ l, args.cfg.flow.PathTo p l → v.version = versionsAfter renamed l node.dst.name := by
  constructor
  · intro matching
    exact ⟨matching.edges, fun p v mem reach =>
      ⟨matching.name p v mem reach, matching.current p v mem reach⟩⟩
  · rintro ⟨edges, sources⟩
    refine ⟨edges, fun p v mem reach => (sources p v mem reach).1,
      fun p v mem reach => (sources p v mem reach).2, fun p v mem reach => ?_⟩
    have untouched : ∀ l, args.cfg.flow.PathTo p l →
        (v.version = 0 ↔ ∀ w ∈ l, ¬ renamed.Creates node.dst.name w) := by
      intro l path
      rw [(sources p v mem reach).2 l path, result.versionsAfter_eq_zero_iff noBoundary path,
        List.find?_eq_none]
      refine forall₂_congr fun w inPath => ?_
      rw [result.creates_iff_sets noBoundary (path.reach_of_mem inPath)]
    constructor
    · exact fun zero l path => (untouched l path).mp zero
    · intro clear
      obtain ⟨l, path⟩ := reach
      exact (untouched l path).mpr (clear l path)

variable {b : Nat}
include consistent

omit result noBoundary in
/-- The source of a placed phi at a position: only the first position of a
predecessor is filled in. -/
theorem sourceAt_filled (aligned : ∀ phi ∈ args.phiPlacement.getPhis b,
      phi.predecessors = args.cfg.predecessors b) {phi : PhiInfo}
    (mem : phi ∈ args.phiPlacement.getPhis b) {p j : Nat}
    (position : (args.cfg.predecessors b)[j]? = some p) (reachP : args.cfg.flow.Reach p) :
    sourceAt (filledAt args entered b) (firstPreds args b) phi j =
      if (args.cfg.predecessors b).idxOf? p = some j then
        (leave args p (entered p)).ctx.readVar phi.varName
      else ⟨phi.varName, 0, phi.varSize⟩ := by
  have search : firstPreds args b = args.cfg.predecessors b := by
    obtain ⟨first, others, phis⟩ := exists_cons_of_ne_nil (ne_nil_of_mem mem)
    rw [firstPreds, phis, List.head?_cons, map_some, getD_some]
    exact aligned first (by rw [phis]; exact mem_cons_self)
  have edge : args.cfg.flow.edge p b := consistent.mem_predecessors.mp (mem_of_getElem? position)
  have filled : filledAt args entered b p = some (leave args p (entered p)).ctx := by
    rw [filledAt, if_pos ⟨consistent.mem_successors.mpr edge, reachP⟩]
  rw [search]
  by_cases first : (args.cfg.predecessors b).idxOf? p = some j
  · rw [if_pos first, sourceAt_of_position first, filled]
  · rw [if_neg first, sourceAt, position]
    simp [Option.filter, first]

variable (spec : DomTree.IsTree args.cfg args.domtree) (initial : Initial init)
include spec initial

theorem placed_match_iff (aligned : ∀ phi ∈ args.phiPlacement.getPhis b,
      phi.predecessors = args.cfg.predecessors b) {phi : PhiInfo}
    (mem : phi ∈ args.phiPlacement.getPhis b) (node : PhiNode)
    (name : node.dst.name = phi.varName)
    (sources : node.sources = (args.cfg.predecessors b).zip
      (sourcesOf (filledAt args entered b) (firstPreds args b) phi)) :
    PhiInputsMatch args.cfg renamed b node ↔ ∀ p ∈ args.cfg.predecessors b,
      args.cfg.flow.Reach p → PlacedSourceSettled args b phi.varName p := by
  have length : (sourcesOf (filledAt args entered b) (firstPreds args b) phi).length =
      (args.cfg.predecessors b).length := by
    rw [sourcesOf_length, aligned phi mem]
  have found : ∀ {j p : Nat}, (args.cfg.predecessors b)[j]? = some p →
      (p, sourceAt (filledAt args entered b) (firstPreds args b) phi j) ∈ node.sources := by
    intro j p position
    have bound : j < phi.predecessors.length := by
      rw [aligned phi mem]
      exact (List.getElem?_eq_some_iff.mp position).1
    rw [sources, mem_zip_iff_getElem?]
    refine ⟨j, position, ?_⟩
    rw [sourcesOf, List.getElem?_map, List.getElem?_range bound, map_some]
  have ofMember : ∀ {p : Nat} {v : SSAVar}, (p, v) ∈ node.sources →
      ∃ j : Nat, (args.cfg.predecessors b)[j]? = some p ∧
        v = sourceAt (filledAt args entered b) (firstPreds args b) phi j := by
    intro p v inSources
    rw [sources, mem_zip_iff_getElem?] at inSources
    obtain ⟨j, position, source⟩ := inSources
    have bound : j < phi.predecessors.length := by
      rw [aligned phi mem]
      exact (List.getElem?_eq_some_iff.mp position).1
    rw [sourcesOf, List.getElem?_map, List.getElem?_range bound, map_some,
      Option.some.injEq] at source
    exact ⟨j, position, source.symm⟩
  rw [result.phiInputsMatch_iff noBoundary, name]
  constructor
  · rintro ⟨_, matching⟩ p isPred reachP
    have versions : ∀ {j : Nat}, (args.cfg.predecessors b)[j]? = some p →
        ∀ l, args.cfg.flow.PathTo p l →
          (sourceAt (filledAt args entered b) (firstPreds args b) phi j).version =
            versionsAfter renamed l phi.varName :=
      fun position => (matching p _ (found position) reachP).2
    obtain ⟨j, position⟩ := mem_iff_getElem?.mp isPred
    refine ⟨fun l l' path path' => ?_, fun twice l path => ?_⟩
    · exact result.find_eq_of_versions noBoundary path path'
        ((versions position l path).symm.trans (versions position l' path'))
    · obtain ⟨j, position, later⟩ := exists_later_iff.mp twice
      rw [← result.versionsAfter_eq_zero_iff noBoundary path, ← versions position l path,
        sourceAt_filled consistent aligned mem position reachP, if_neg later]
  · intro settled
    refine ⟨by rw [sources, map_fst_zip (by rw [length])], fun p v inSources reachP => ?_⟩
    obtain ⟨j, position, rfl⟩ := ofMember inSources
    obtain ⟨agree, untouched⟩ := settled p (mem_of_getElem? position) reachP
    rw [sourceAt_filled consistent aligned mem position reachP]
    by_cases first : (args.cfg.predecessors b).idxOf? p = some j
    · rw [if_pos first]
      exact ⟨rfl, fun l path => result.currentVersion_of_agree noBoundary spec initial agree path⟩
    · rw [if_neg first]
      refine ⟨rfl, fun l path => Eq.symm ?_⟩
      rw [result.versionsAfter_eq_zero_iff noBoundary path]
      exact untouched (exists_later_iff.mpr ⟨j, position, first⟩) l path

omit result consistent spec initial in
/-- A block is its phis and the operations before an operation, the operation,
and those after it. -/
theorem defsAt_split (ctx : RenameContext) {before after : List R2ILOp} {op : R2ILOp}
    (split : bodyOps args b = before ++ op :: after) :
    ∃ earlier later,
      earlier.map Prod.fst = (args.phiPlacement.getPhis b).map PhiInfo.varName ++
        before.filterMap (outputName args.regNames) ∧
      Defines ⟨ctx, []⟩ earlier (renameOps args.regNames none before
        (phiState (args.phiPlacement.getPhis b) ⟨ctx, []⟩)).2 ∧
      defsAt args b ctx = earlier ++ (defsOf [(renameOp args.regNames (renameOps args.regNames none
        before (phiState (args.phiPlacement.getPhis b) ⟨ctx, []⟩)).2 op).1] ++ later) := by
  refine ⟨(phiDsts (args.phiPlacement.getPhis b) ⟨ctx, []⟩).map
    (fun var => (var.name, var.version)) ++ defsOf (renameOps args.regNames none before
      (phiState (args.phiPlacement.getPhis b) ⟨ctx, []⟩)).1,
    defsOf (renameOps args.regNames none after (renameOp args.regNames
      (renameOps args.regNames none before
        (phiState (args.phiPlacement.getPhis b) ⟨ctx, []⟩)).2 op).2).1, ?_,
    (phiState_defines _ _).trans (renameOps_spec _ _ _ _).1, ?_⟩
  · rw [map_append, defsOf_renameOps_names, List.map_map,
      show (Prod.fst ∘ fun var : SSAVar => (var.name, var.version)) = SSAVar.name from rfl,
      phiDsts_names]
  · rw [defsAt, bodyOf, noBoundary, split, renameOps_append, renameOps, renameOpWithBoundary_none]
    simp only [defsOf_append, append_assoc]

variable (reach : args.cfg.flow.Reach b)
include reach

omit consistent spec initial in
/-- A version that a block replaces is not current at the end of any path. -/
theorem not_defined_before {x : String} {p : Nat} {l : List Nat}
    {earlier defs later : List (String × Nat)}
    (whole : defsAt args b (entered b) = earlier ++ (defs ++ later)) (replaced : x ∈ defs.map Prod.fst)
    (path : args.cfg.flow.PathTo p l) : (x, versionsAfter renamed l x) ∉ earlier := by
  intro mem
  have inBlock : (x, versionsAfter renamed l x) ∈ defsAt args b (entered b) := by
    rw [whole]
    exact mem_append_left _ mem
  have positive := result.defsAt_pos reach inBlock
  have versions := result.versionsAfter_eq_find noBoundary (x := x) fun v => path.reach_of_mem
  cases found : l.find? (setsName args x) with
  | none =>
    rw [versions, found] at positive
    exact absurd positive (Nat.lt_irrefl 0)
  | some d =>
    rw [found, map_some, getD_some] at versions
    have reachD := path.reach_of_mem (mem_of_find?_eq_some found)
    have inD := result.mem_defsAt_of_sets noBoundary reachD (List.find?_some found)
    rw [← versions] at inD
    obtain rfl := result.defsAt_unique reach reachD inBlock inD
    have named : x ∈ (defs ++ later).map Prod.fst := by
      rw [map_append]
      exact mem_append_left _ replaced
    have last : (x, versionsAfter renamed l x) ∈ defs ++ later := by
      rw [versions, lastVersion, advance, result.defsOf_getBlock reach, whole, advanceDefs_append]
      exact advanceDefs_mem named
    have nodup := (leave_defines args b (entered b)).fresh.nodup
    rw [whole] at nodup
    exact disjoint_of_nodup_append nodup mem last

theorem written_source_iff {before after inputs : List _} {dst vn : Varnode} {p : Nat}
    (split : bodyOps args b = before ++ .Multiequal dst inputs :: after)
    (isPred : p ∈ args.cfg.predecessors b) (reachP : args.cfg.flow.Reach p) {state : RenameState}
    (stateEq : state = (renameOps args.regNames none before
      (phiState (args.phiPlacement.getPhis b) ⟨entered b, []⟩)).2) :
    ((readVarnode args.regNames state.ctx vn).name = varnodeToName dst args.regNames ∧
      ∀ l, args.cfg.flow.PathTo p l → (readVarnode args.regNames state.ctx vn).version =
        versionsAfter renamed l (varnodeToName dst args.regNames)) ↔
      WrittenSourceSettled args b before dst p vn := by
  have readName : (readVarnode args.regNames state.ctx vn).name =
      varnodeToName vn args.regNames := by
    unfold readVarnode varnodeToName
    cases vn.space <;> rfl
  rw [readName, WrittenSourceSettled]
  refine and_congr_right fun sameName => ?_
  generalize isX : varnodeToName dst args.regNames = x at sameName ⊢
  by_cases isConst : vn.space = .Const
  · -- a literal is version 0
    have version : (readVarnode args.regNames state.ctx vn).version = 0 := by
      rw [readVarnode, isConst]
      rfl
    rw [if_pos isConst, version]
    refine forall₂_congr fun l path => ?_
    rw [eq_comm, result.versionsAfter_eq_zero_iff noBoundary path]
  rw [if_neg isConst]
  obtain ⟨earlier, later, names, defines, whole⟩ := defsAt_split noBoundary (entered b) split
  rw [← stateEq] at defines whole
  have version : (readVarnode args.regNames state.ctx vn).version =
      advanceDefs (entered b).currentVersion earlier x := by
    have current : (readVarnode args.regNames state.ctx vn).version =
        state.ctx.currentVersion x := by
      rw [← sameName, readVarnode]
      cases space : vn.space <;> simp [space, RenameContext.readVar] at isConst ⊢
    rw [current, ← defines.versions]
  have unset : x ∉ earlier.map Prod.fst ↔ (∀ phi ∈ args.phiPlacement.getPhis b, phi.varName ≠ x) ∧
      ∀ op ∈ before, outputName args.regNames op ≠ some x := by
    rw [names, mem_append, not_or, List.mem_map, mem_filterMap]
    simp
  have written : setsName args x b = true := by
    rw [setsName, split, Bool.or_eq_true]
    exact .inr (by simp [outputName, R2ILOp.output, isX])
  have edge : args.cfg.flow.edge p b := consistent.mem_predecessors.mp isPred
  rw [version, ← and_assoc, ← unset]
  constructor
  · intro current
    have notBefore : x ∉ earlier.map Prod.fst := by
      intro set
      obtain ⟨l, path⟩ := reachP
      have replaced : x ∈ (defsOf [(renameOp args.regNames state
          (.Multiequal dst inputs)).1]).map Prod.fst := by
        simp [defsOf, SSAOp.definition, renameOp, SSAOp.dst, writeVarnode, RenameState.define, isX]
      refine result.not_defined_before noBoundary reach whole replaced path ?_
      rw [← current l path]
      exact advanceDefs_mem set
    have notEntry : b ≠ args.cfg.entry := by
      rintro rfl
      obtain ⟨l, path⟩ := reachP
      have zero : versionsAfter renamed l x = 0 := by
        rw [← current l path, advanceDefs_of_not_mem notBefore]
        exact (congrFun result.root.currentVersion x).trans (initial.currentVersion x)
      rw [result.versionsAfter_eq_zero_iff noBoundary path, List.find?_eq_none] at zero
      exact zero _ path.root_mem written
    obtain ⟨d, parent⟩ := spec.exists_idom reach notEntry
    have idom := spec.isIdom parent
    refine ⟨notBefore, d, idom, ?_⟩
    refine result.agreeOn_dominator noBoundary spec initial (idom.dom_pred edge) fun l path => ?_
    rw [← current l path, advanceDefs_of_not_mem notBefore,
      (result.parent b d parent).currentVersion]
  · rintro ⟨notBefore, d, idom, agree⟩ l path
    have notEntry : b ≠ args.cfg.entry := by
      rintro rfl
      exact idom.sdom.2 (Graph.dom_root_iff.mp idom.sdom.1)
    obtain ⟨d', parent⟩ := spec.exists_idom reach notEntry
    obtain rfl : d' = d := (spec.isIdom parent).unique reach idom
    obtain ⟨l', path'⟩ := (spec.reach_of_idom parent).2
    have agreeAbove : AgreeOn args x d' d' := fun l₁ l₂ path₁ path₂ =>
      (agree l l₁ path path₁).symm.trans (agree l l₂ path path₂)
    rw [advanceDefs_of_not_mem notBefore, (result.parent b d' parent).currentVersion,
      result.currentVersion_of_agree noBoundary spec initial agreeAbove path',
      result.versionsAfter_eq_find noBoundary fun v => path.reach_of_mem,
      result.versionsAfter_eq_find noBoundary fun v => path'.reach_of_mem, agree l l' path path']

theorem written_match_iff {before after : List R2ILOp} {inputs : List Varnode} {dst : Varnode}
    (split : bodyOps args b = before ++ .Multiequal dst inputs :: after) {state : RenameState}
    (stateEq : state = (renameOps args.regNames none before
      (phiState (args.phiPlacement.getPhis b) ⟨entered b, []⟩)).2) :
    PhiInputsMatch args.cfg renamed b ⟨(state.define (varnodeToName dst args.regNames)).1,
        (args.cfg.predecessors b).zip (inputs.map (readVarnode args.regNames state.ctx))⟩ ↔
      (args.cfg.predecessors b).length ≤ inputs.length ∧
        ∀ p vn, (p, vn) ∈ (args.cfg.predecessors b).zip inputs → args.cfg.flow.Reach p →
          WrittenSourceSettled args b before dst p vn := by
  have edges : ((args.cfg.predecessors b).zip
      (inputs.map (readVarnode args.regNames state.ctx))).map Prod.fst = args.cfg.predecessors b ↔
      (args.cfg.predecessors b).length ≤ inputs.length := by
    constructor
    · intro all
      have lengths := congrArg List.length all
      rw [length_map, length_zip, length_map] at lengths
      omega
    · exact fun enough => map_fst_zip (by rwa [length_map])
  have inZip : ∀ {p : Nat} {vn : Varnode}, (p, vn) ∈ (args.cfg.predecessors b).zip inputs →
      p ∈ args.cfg.predecessors b := fun mem => (of_mem_zip mem).1
  rw [result.phiInputsMatch_iff noBoundary, edges, zip_map_right]
  refine and_congr_right fun _ => ⟨fun matching p vn mem reachP => ?_,
    fun settled p v mem reachP => ?_⟩
  · rw [← result.written_source_iff consistent noBoundary spec initial reach split (inZip mem)
      reachP stateEq]
    exact matching p _ (List.mem_map.mpr ⟨(p, vn), mem, rfl⟩) reachP
  · obtain ⟨⟨p, vn⟩, inInputs, image⟩ := List.mem_map.mp mem
    obtain ⟨rfl, rfl⟩ := image
    exact (result.written_source_iff consistent noBoundary spec initial reach split
      (inZip inInputs) reachP stateEq).mpr (settled p vn inInputs reachP)

/-- The nodes of a block match exactly if its edges settle them. -/
theorem block_match_iff (aligned : ∀ phi ∈ args.phiPlacement.getPhis b,
      phi.predecessors = args.cfg.predecessors b) (cfgBlock : BasicBlock) :
    (∀ node ∈ (ssaBlock args.cfg cfgBlock b (renamed.getBlock b)).phis,
      PhiInputsMatch args.cfg renamed b node) ↔ PhiInputsSettled args b := by
  have nodes : ∀ node, node ∈ (ssaBlock args.cfg cfgBlock b (renamed.getBlock b)).phis ↔
      ∃ op ∈ renamed.getBlock b, phiNode (args.cfg.predecessors b) op = some node := by
    intro node
    simp only [ssaBlock, mem_filterMap, mem_filter]
    refine exists_congr fun op => and_congr_left fun found => and_iff_left ?_
    cases op <;> simp [phiNode] at found
    rfl
  have placedNode : ∀ dst sources, phiNode (args.cfg.predecessors b) (.Phi dst sources) =
      some ⟨dst, (args.cfg.predecessors b).zip sources⟩ := by
    intro dst sources
    exact congrArg (fun pairs => some (PhiNode.mk dst pairs)) (zip_swap sources _)
  constructor
  · intro matching
    refine ⟨fun phi mem => ?_, fun before dst inputs after split => ?_⟩
    · obtain ⟨i, found⟩ := mem_iff_getElem?.mp mem
      obtain ⟨dst, name, at_⟩ := result.getElem?_phi reach found
      refine (result.placed_match_iff consistent noBoundary spec initial aligned mem
        ⟨dst, _⟩ name rfl).mp (matching _ ((nodes _).mpr ?_))
      exact ⟨_, mem_of_getElem? at_, placedNode _ _⟩
    · refine (result.written_match_iff consistent noBoundary spec initial reach split rfl).mp
        (matching _ ((nodes _).mpr ?_))
      refine ⟨_, ?_, phiNode_renameOp.mpr ⟨dst, inputs, rfl, rfl⟩⟩
      rw [result.getBlock_eq reach, mem_append, bodyOf, noBoundary]
      exact .inr ((mem_renameOps_none _).mpr ⟨before, _, after, split, rfl⟩)
  · intro settled node mem
    obtain ⟨op, inBlock, found⟩ := (nodes node).mp mem
    rw [result.getBlock_eq reach, mem_append] at inBlock
    rcases inBlock with inRow | inBody
    · obtain ⟨i, at_⟩ := mem_iff_getElem?.mp inRow
      rw [phiRow, List.getElem?_zipWith_eq_some] at at_
      obtain ⟨dst, phi, atDst, atPhi, rfl⟩ := at_
      rw [placedNode, Option.some.injEq] at found
      subst found
      obtain ⟨dst', atDst', name⟩ := getElem?_phiDsts _ _ i phi atPhi
      rw [atDst, Option.some.injEq] at atDst'
      subst atDst'
      have phiMember := mem_of_getElem? atPhi
      exact (result.placed_match_iff consistent noBoundary spec initial aligned phiMember
        _ name rfl).mpr (settled.placed phi phiMember)
    · rw [bodyOf, noBoundary] at inBody
      obtain ⟨before, source, after, split, rfl⟩ := (mem_renameOps_none _).mp inBody
      obtain ⟨dst, inputs, rfl, rfl⟩ := phiNode_renameOp.mp found
      exact (result.written_match_iff consistent noBoundary spec initial reach split rfl).mpr
        (settled.written before dst inputs after split)

end Renamed

/-- In the function built from any blocks, every source of every phi is what
its predecessor ends with, exactly if in every reachable block the edges settle
the phis. -/
theorem phi_inputs_match_iff (first : R2ILBlock) (rest : List R2ILBlock) (arch : Option ArchSpec) :
    ∃ func renamed final,
      fromBlocksRaw (first :: rest) arch = some func ∧
      renameFunctionWithNamesAndCallBoundaries (rawArgs func.cfg arch none)
        (rawSizes func.cfg arch) = some (renamed, final) ∧
      ((∀ b block, func.blocks.lookup b = some block →
          ∀ node ∈ block.phis, PhiInputsMatch func.cfg renamed b node) ↔
        ∀ b, func.cfg.flow.Reach b → PhiInputsSettled (rawArgs func.cfg arch none) b) := by
  obtain ⟨func, renamed, final, entered, build, built⟩ :=
    fromBlocksRawWithPolicy_built first rest arch none
  refine ⟨func, renamed, final, build, built.run, ?_⟩
  have initial := initialContext_initial (rawArgs func.cfg arch none).phiPlacement
    (rawSizes func.cfg arch)
  have each : ∀ b, func.cfg.flow.Reach b → ∀ cfgBlock,
      ((∀ node ∈ (ssaBlock func.cfg cfgBlock b (renamed.getBlock b)).phis,
        PhiInputsMatch func.cfg renamed b node) ↔
        PhiInputsSettled (rawArgs func.cfg arch none) b) :=
    fun b reach => built.result.block_match_iff built.consistent rfl built.spec.toIsTree initial
      reach fun phi mem => PhiPlacement.predecessors_of_mem mem
  constructor
  · intro matching b reach
    obtain ⟨cfgBlock, _, found⟩ := built.exists_block reach
    exact (each b reach cfgBlock).mp (matching b _ found)
  · intro settled b block found
    have reach := built.reach_of_lookup found
    obtain ⟨cfgBlock, _, found'⟩ := built.exists_block reach
    rw [found, Option.some.injEq] at found'
    subst found'
    exact (each b reach cfgBlock).mpr (settled b reach)

/-- A conditional branch whose two targets are one block, in an arm that writes
a register. -/
def doubledBlocks : List R2ILBlock :=
  [⟨4096, 4, [.CBranch ⟨.Const, 4104, 8⟩ ⟨.Register, 8, 1⟩], none⟩,
   ⟨4100, 4, [.Branch ⟨.Const, 4108, 8⟩], none⟩,
   ⟨4104, 4, [.Copy ⟨.Register, 0, 8⟩ ⟨.Const, 1, 8⟩,
      .CBranch ⟨.Const, 4108, 8⟩ ⟨.Register, 8, 1⟩], none⟩,
   ⟨4108, 4, [.Copy ⟨.Unique, 16, 8⟩ ⟨.Register, 0, 8⟩, .Return ⟨.Register, 16, 8⟩], none⟩]

def doubled : CFG := (CFG.fromBlocks doubledBlocks).getD (CFG.new 4096)

theorem doubled_built : CFG.fromBlocks doubledBlocks = some doubled := CFG.fromBlocks_cons_eq _ _ _

def doubledPhis : Option (List PhiNode) :=
  (fromBlocksRaw doubledBlocks none).bind fun func =>
    (func.blocks.lookup 4108).map SSABlock.phis

set_option maxRecDepth 8000 in
private theorem doubledPhis_eq : doubledPhis = some [⟨⟨"reg:0", 2, 8⟩,
    [(4100, ⟨"reg:0", 0, 8⟩), (4104, ⟨"reg:0", 1, 8⟩), (4104, ⟨"reg:0", 0, 8⟩)]⟩] := by
  decide +kernel

set_option maxRecDepth 8000 in
/-- The second edge from the arm keeps version 0. -/
theorem doubled_not_match :
    ∃ func renamed final,
      fromBlocksRaw doubledBlocks none = some func ∧
      renameFunctionWithNamesAndCallBoundaries (rawArgs func.cfg none none)
        (rawSizes func.cfg none) = some (renamed, final) ∧
      ¬ ∀ b block, func.blocks.lookup b = some block →
        ∀ node ∈ block.phis, PhiInputsMatch func.cfg renamed b node := by
  obtain ⟨func, renamed, final, entered, build, built⟩ :=
    fromBlocksRawWithPolicy_built _ _ none none
  refine ⟨func, renamed, final, build, built.run, fun matching => ?_⟩
  have graph : func.cfg = doubled := some.inj (built.graph.symm.trans doubled_built)
  have phis := doubledPhis_eq
  rw [doubledPhis, show fromBlocksRaw doubledBlocks none = some func from build, bind_some,
    map_eq_some_iff] at phis
  obtain ⟨block, found, phis⟩ := phis
  have sources := matching 4108 block found _ (by rw [phis]; exact mem_singleton.mpr rfl)
  have path : func.cfg.flow.PathTo 4104 [4104, func.cfg.entry] := by
    have entry : func.cfg.entry = 4096 := CFG.fromBlocks_entry built.graph
    have edge : func.cfg.flow.edge func.cfg.entry 4104 := by
      rw [entry, graph]
      exact (CFG.fromBlocks_spec doubled_built).1.mem_successors.mp (by decide +kernel)
    exact .snoc .root edge
  have first := sources.current 4104 ⟨"reg:0", 1, 8⟩ (by simp) ⟨_, path⟩ _ path
  have second := sources.current 4104 ⟨"reg:0", 0, 8⟩ (by simp) ⟨_, path⟩ _ path
  exact absurd (first.trans second.symm) (by decide)

end R2Sleigh.Ssa
