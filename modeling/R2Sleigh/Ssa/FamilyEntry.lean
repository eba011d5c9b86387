import R2Sleigh.Ssa.FamilyLoop
import R2Sleigh.Ssa.Outputs

/-!
Contract: the rounds over functions built from blocks.

The entry gets no phi for a definition in the entry block itself, so that copies
around a loop at the entry are cut by nothing.
-/

namespace R2Sleigh.Ssa.Family

open Il Flow Lib

/-! ## Where a loop is entered -/

/-- Walking from a definition to the vertex at which a set is entered meets the
frontier of the definition, or of a phi for it. -/
theorem frontierClosure_of_walk {cfg : CFG} {tree : DomTree} (spec : tree.Computed cfg)
    (consistent : cfg.Consistent) (noBack : ∀ p, cfg.flow.Reach p → ¬ cfg.flow.edge p cfg.entry)
    {defs : List Nat} {inside : Nat → Prop} (reach : ∀ b, inside b → cfg.flow.Reach b)
    {h : Nat} {l : List Nat} (path : cfg.flow.PathTo h l) (first : ∀ x ∈ l, inside x → x = h)
    {b : Nat} (defines : b ∈ defs) (isInside : inside b)
    (walk : Relation.TransGen (fun x y => cfg.flow.edge x y ∧ inside y) b h) :
    tree.FrontierClosure defs h := by
  let known (d : Nat) : Prop := inside d ∧ (d ∈ defs ∨ tree.FrontierClosure defs d)
  -- one step of the walk below a definition or phi
  have step : ∀ {d x y}, known d → inside x → cfg.flow.Dom d x → cfg.flow.edge x y → inside y →
      ∃ d, known d ∧ cfg.flow.Dom d y ∧ (d = y → tree.FrontierClosure defs y) := by
    intro d x y isKnown insideX dom edge insideY
    by_cases below : cfg.flow.SDom d y
    · exact ⟨d, isKnown, below.1, fun same => absurd same below.2⟩
    · have notEntry : y ≠ cfg.entry := by
        rintro rfl
        exact noBack x (reach x insideX) edge
      have inFrontier : y ∈ tree.frontier d :=
        (spec.mem_frontier_iff_inFrontier consistent (reach d isKnown.1) (reach y insideY)
          notEntry).mpr ⟨⟨x, reach x insideX, edge, dom⟩, below⟩
      have closure : tree.FrontierClosure defs y := by
        rcases isKnown.2 with isDef | isPhi
        · exact .base isDef inFrontier
        · exact .step isPhi inFrontier
      exact ⟨y, ⟨insideY, .inr closure⟩, Graph.Dom.refl y, fun _ => closure⟩
  have along : ∀ y, Relation.TransGen (fun x y => cfg.flow.edge x y ∧ inside y) b y →
      inside y ∧ ∃ d, known d ∧ cfg.flow.Dom d y ∧ (d = y → tree.FrontierClosure defs y) := by
    intro y walk
    induction walk with
    | single taken =>
      exact ⟨taken.2, step ⟨isInside, .inl defines⟩ isInside (Graph.Dom.refl b) taken.1 taken.2⟩
    | tail _ taken ih =>
      obtain ⟨insideX, d, isKnown, dom, _⟩ := ih
      exact ⟨taken.2, step isKnown insideX dom taken.1 taken.2⟩
  obtain ⟨-, d, isKnown, dom, atEnd⟩ := along h walk
  exact atEnd (first d (dom l path) isKnown.1)

/-! ## Operations that hand on a source -/

private theorem callDefines_calls {names : List String} {state : RenameState} {op : SSAOp}
    (mem : op ∈ (callDefines names state).1) : ∃ dst, op = .CallDefine dst := by
  induction names generalizing state with
  | nil => cases mem
  | cons name names ih =>
    rcases List.mem_cons.mp mem with rfl | mem
    · exact ⟨_, rfl⟩
    · exact ih mem

variable {regNames : Option RegisterNameMap}

private theorem appendCallBoundaryDefs_calls
    {regs : List CallBoundaryDef} {state : RenameState} {op : SSAOp}
    (mem : op ∈ (appendCallBoundaryDefs regNames regs state).1) : ∃ dst, op = .CallDefine dst := by
  induction regs generalizing state with
  | nil => cases mem
  | cons reg regs ih =>
    rcases List.mem_append.mp mem with mem | mem
    · exact callDefines_calls mem
    · exact ih mem

private theorem renameOpWithBoundary_ops (regNames : Option RegisterNameMap)
    (callBoundaries : Option CallBoundaryConfig) (state : RenameState) (source : R2ILOp) :
    ∃ defs, (renameOpWithBoundary regNames callBoundaries state source).1 =
      (renameOp regNames state source).1 :: defs ∧ ∀ op ∈ defs, ∃ dst, op = .CallDefine dst := by
  unfold renameOpWithBoundary
  cases isCall source with
  | false => exact ⟨[], rfl, by simp⟩
  | true =>
    cases callBoundaries with
    | none => exact ⟨[], rfl, by simp⟩
    | some boundary => exact ⟨_, rfl, fun op mem => appendCallBoundaryDefs_calls mem⟩

private theorem renameOp_handedOn {state : RenameState}
    {source : R2ILOp} (hands : (handedOn (renameOp regNames state source).1).isSome) :
    unlistedOutput source = false := by
  cases source with
  | LoadLinked | StoreConditional | AtomicCAS | LoadGuarded => cases hands
  | _ => rfl

private theorem renameOps_handedOn
    {callBoundaries : Option CallBoundaryConfig} (ops : List R2ILOp) :
    ∀ {state : RenameState} {op : SSAOp} {dst : SSAVar},
      op ∈ (renameOps regNames callBoundaries ops state).1 → (handedOn op).isSome →
      op.dst = some dst →
      ∃ source ∈ ops, unlistedOutput source = false ∧ outputName regNames source = some dst.name := by
  induction ops with
  | nil => exact fun mem => nomatch mem
  | cons source rest ih =>
    intro state op dst mem hands isDst
    rw [renameOps, List.mem_append] at mem
    rcases mem with mem | mem
    · have isRenamed : op = (renameOp regNames state source).1 := by
        obtain ⟨defs, isOps, calls⟩ := renameOpWithBoundary_ops regNames callBoundaries state source
        rw [isOps] at mem
        rcases List.mem_cons.mp mem with same | mem
        · exact same
        · obtain ⟨dst, rfl⟩ := calls op mem
          cases hands
      subst isRenamed
      rw [(renameOp_spec ..).2.1] at isDst
      obtain ⟨name, isName, rfl⟩ := Option.map_eq_some_iff.mp isDst
      exact ⟨source, List.mem_cons_self, renameOp_handedOn hands, isName⟩
    · obtain ⟨source, isSource, listed⟩ := ih mem hands isDst
      exact ⟨source, List.mem_cons_of_mem _ isSource, listed⟩

end R2Sleigh.Ssa.Family

namespace R2Sleigh.Ssa.Built

open Il Flow Lib Ssa.Family

variable {blocks : List R2ILBlock} {arch : Option ArchSpec}
  {callBoundaries : Option CallBoundaryConfig} {func : SSAFunction} {renamed : RenamedFunction}
  {final : RenameContext} {entered : Nat → RenameContext}
  (built : Built blocks arch callBoundaries func renamed final entered)
include built

private theorem recorded_of_handedOn {b : Nat} {block : SSABlock} {op : SSAOp} {dst : SSAVar}
    (found : func.getBlock b = some block) (mem : op ∈ block.ops)
    (hands : (handedOn op).isSome) (isDst : op.dst = some dst) :
    b ∈ (collectDefsFromCfgWithNames func.cfg (arch.map buildRegisterNameMap)).1.listAt dst.name := by
  have reach := built.reach_of_lookup found
  obtain ⟨cfgBlock, isCfgBlock, isBlock⟩ := built.exists_block reach
  obtain rfl := Option.some.inj (found.symm.trans isBlock)
  obtain ⟨inRenamed, notPhi⟩ := List.mem_filter.mp mem
  rw [built.result.getBlock_eq reach] at inRenamed
  rcases List.mem_append.mp inRenamed with inRow | inBody
  · obtain ⟨i, isOp⟩ := List.mem_iff_getElem?.mp inRow
    rw [phiRow, List.getElem?_zipWith] at isOp
    split at isOp
    · obtain rfl := Option.some.inj isOp
      cases notPhi
    · cases isOp
  · obtain ⟨source, isSource, listed⟩ := renameOps_handedOn _ inBody hands isDst
    refine (mem_collectDefs built.consistent).mpr ⟨cfgBlock, isCfgBlock, source, ?_, listed⟩
    rw [bodyOps, show (rawArgs func.cfg arch callBoundaries).cfg = func.cfg from rfl, isCfgBlock] at isSource
    exact isSource

private theorem exists_phi_of_closure {h : Nat} {x : String} {block : SSABlock}
    (found : func.getBlock h = some block)
    (closure : (DomTree.compute func.cfg).FrontierClosure
      ((collectDefsFromCfgWithNames func.cfg (arch.map buildRegisterNameMap)).1.listAt x) h) :
    ∃ phi ∈ block.phis, phi.dst.name = x := by
  have reach := built.reach_of_lookup found
  obtain ⟨cfgBlock, -, isBlock⟩ := built.exists_block reach
  obtain rfl := Option.some.inj (found.symm.trans isBlock)
  obtain ⟨placed, isPlaced, rfl⟩ := (PhiPlacement.exists_phi_iff built.spec).mpr closure
  obtain ⟨i, isAt⟩ := List.mem_iff_getElem?.mp isPlaced
  obtain ⟨dst, name, isOp⟩ := built.result.getElem?_phi reach isAt
  refine ⟨_, List.mem_filterMap.mpr ⟨_, List.mem_filter.mpr
    ⟨List.mem_of_getElem? isOp, rfl⟩, rfl⟩, name⟩

/-- Where no edge leads back to the entry, no slot is copied around a loop: the
loop is entered at a phi for every name that it copies to, and what is not copied is
never known. -/
theorem noCopyCircle (noBack : ∀ p, func.cfg.flow.Reach p → ¬ func.cfg.flow.edge p func.cfg.entry)
    (info : RegisterFamilyInfo) : NoCopyCircle info func := by
  intro v circle
  let around (u : Nat × RegisterFamilySlot) : Prop :=
    Relation.ReflTransGen (SlotFlows info func) v u ∧
      Relation.ReflTransGen (SlotFlows info func) u v
  let inside (b : Nat) : Prop := ∃ slot, around (b, slot)
  -- every slot on the circle comes from another one on it
  have before : ∀ u, around u → ∃ w, around w ∧ SlotFlows info func w u := by
    intro u isAround
    have through : Relation.TransGen (SlotFlows info func) v u := by
      rcases Relation.reflTransGen_iff_eq_or_transGen.mp isAround.1 with rfl | through
      · exact circle
      · exact through
    obtain ⟨w, toLast, last⟩ := Relation.TransGen.tail'_iff.mp through
    exact ⟨w, ⟨toLast, Relation.ReflTransGen.head last isAround.2⟩, last⟩
  have reach : ∀ b, inside b → func.cfg.flow.Reach b := by
    rintro b ⟨slot, isAround⟩
    obtain ⟨w, -, flows⟩ := before _ isAround
    have listed := flows.listed
    rw [built.order] at listed
    exact (built.spec.order.mem_iff b).mp listed
  have isBlock : ∀ b, inside b → ∃ block, func.getBlock b = some block := by
    intro b isInside
    obtain ⟨_, _, found⟩ := built.exists_block (reach b isInside)
    exact ⟨_, found⟩
  have edge : ∀ {u w}, SlotFlows info func u w → func.cfg.flow.edge u.1 w.1 :=
    fun flows => built.consistent.mem_predecessors.mp flows.isPred
  -- the block at which the circle is entered
  have atV : around v := ⟨.refl, .refl⟩
  have insideV : inside v.1 := ⟨v.2, atV⟩
  obtain ⟨toV, pathToV⟩ := reach v.1 insideV
  obtain ⟨h, l, ⟨atH, aroundH⟩, path, first⟩ := pathToV.exists_first pathToV.mem_self insideV
  obtain ⟨⟨p, slot⟩, aroundP, enters⟩ := before _ aroundH
  obtain ⟨blockH, foundH⟩ := isBlock h ⟨atH, aroundH⟩
  have isOrigin := enters.origin
  rw [foundH] at isOrigin
  have noPhi := phi_not_writes_origin isOrigin
  -- nothing on the circle hands a source to the family that enters there
  have silent : ∀ b, inside b → ∀ block, func.getBlock b = some block →
      ¬ ∃ op ∈ block.ops, WritesFamily info op slot.familyId ∧ (handedOn op).isSome := by
    rintro b ⟨slotB, aroundB⟩ block found ⟨op, mem, ⟨written, isMember, inFamily⟩, hands⟩
    obtain ⟨dst, isDst, isMember⟩ := Option.bind_eq_some_iff.mp isMember
    have recorded := built.recorded_of_handedOn found mem hands isDst
    have walk : Relation.TransGen (fun x y => func.cfg.flow.edge x y ∧ inside y) b h := by
      have toH : Relation.TransGen (SlotFlows info func) (b, slotB) (h, atH) :=
        Relation.TransGen.tail' ((aroundB.2.trans aroundP.1)) enters
      have inner : ∀ u, Relation.TransGen (SlotFlows info func) (b, slotB) u →
          Relation.ReflTransGen (SlotFlows info func) u v →
          Relation.TransGen (fun x y => func.cfg.flow.edge x y ∧ inside y) b u.1 := by
        intro u flows
        induction flows with
        | single taken =>
          exact fun back => .single ⟨edge taken, _, aroundB.1.tail taken, back⟩
        | tail before taken ih =>
          intro back
          refine .tail (ih (.head taken back)) ⟨edge taken, _, ?_, back⟩
          exact (aroundB.1.trans before.to_reflTransGen).tail taken
      exact inner (h, atH) toH aroundH.2
    have closure := frontierClosure_of_walk built.spec built.consistent noBack reach path first
      recorded ⟨slotB, aroundB⟩ walk
    obtain ⟨phi, inPhis, name⟩ := built.exists_phi_of_closure foundH closure
    refine noPhi phi inPhis ⟨written, ?_, inFamily⟩
    rw [RegisterFamilyInfo.memberFor, name]
    exact isMember
  -- so the circle carries the one slot, and writes its family nowhere
  have stays : ∀ u, Relation.ReflTransGen (SlotFlows info func) u (p, slot) → around u →
      u.2 = slot ∧ ∀ block, func.getBlock u.1 = some block →
        ¬ BlockWritesFamily info block slot.familyId := by
    have unwritten : ∀ u, around u → u.2 = slot → ∀ block, func.getBlock u.1 = some block →
        ¬ BlockWritesFamily info block slot.familyId ∧
          ∀ w, SlotFlows info func w u → w.2 = slot := by
      rintro ⟨b, slotB⟩ isAround rfl block found
      have cases : ∀ {w}, SlotFlows info func w (b, slotB) →
          ¬ BlockWritesFamily info block slotB.familyId ∧ w.2 = slotB := by
        intro w flows
        have isOrigin := flows.origin
        rw [found] at isOrigin
        exact (slotOrigin_cases isOrigin).resolve_right (silent b ⟨slotB, isAround⟩ block found)
      obtain ⟨w, -, flows⟩ := before _ isAround
      exact ⟨(cases flows).1, fun w flows => (cases flows).2⟩
    intro u toP
    induction toP using Relation.ReflTransGen.head_induction_on with
    | refl => exact fun isAround => ⟨rfl, fun block found => (unwritten _ isAround rfl block found).1⟩
    | @head u w flows toP ih =>
      intro isAround
      have aroundW : around w := ⟨isAround.1.tail flows, toP.trans aroundP.2⟩
      have same := (ih aroundW).1
      obtain ⟨block, found⟩ := isBlock w.1 ⟨w.2, aroundW⟩
      have sameU := (unwritten w aroundW same block found).2 u flows
      exact ⟨sameU, fun block found => (unwritten u isAround sameU block found).1⟩
  -- and so nothing is known of it
  have unknown {c} (holds : MayHold info func (p, slot) c) : c = none := by
    have silent (b) (isAround : around (b, slot)) :=
      (stays (b, slot) (isAround.2.trans aroundP.1) isAround).2
    refine holds.unknown silent (fun b isAround => ?_) aroundP rfl
    obtain ⟨⟨q, slotQ⟩, aroundQ, flows⟩ := before _ isAround
    obtain rfl : slotQ = slot := (stays _ (aroundQ.2.trans aroundP.1) aroundQ).1
    exact ⟨q, flows.isPred, aroundQ⟩
  obtain ⟨c, c', differ, holds, holds'⟩ := enters.varies
  exact differ ((unknown holds).trans (unknown holds').symm)

end R2Sleigh.Ssa.Built

namespace R2Sleigh.Ssa.Family

open Il Flow Lib

/-! ## The loop on built functions -/

/-- For a function built from blocks, with or without call boundaries, the loop
reaches an iteration that changes nothing unless changing contents of a slot are copied
around a loop of the function; none are if no reachable block branches to the entry. -/
theorem computeDecompileFamilyInStates_returns (info : RegisterFamilyInfo) {blocks : List R2ILBlock}
    {arch : Option ArchSpec} {func : SSAFunction}
    (build : fromBlocksRaw blocks arch = some func ∨
      fromBlocksRawForDecompile blocks arch = some func) :
    (NoCopyCircle info func → ∃ fuel, (computeDecompileFamilyInStates info func fuel).isSome) ∧
      ((∀ p, func.cfg.flow.Reach p → ¬ func.cfg.flow.edge p func.cfg.entry) →
        NoCopyCircle info func) := by
  obtain ⟨callBoundaries, build⟩ : ∃ callBoundaries,
      fromBlocksRawWithPolicy blocks arch callBoundaries = some func := by
    rcases build with build | build
    · exact ⟨_, build⟩
    · exact ⟨_, build⟩
  cases blocks with
  | nil => cases build
  | cons first rest =>
    obtain ⟨func', renamed, final, entered, build', built⟩ :=
      fromBlocksRawWithPolicy_built first rest arch callBoundaries
    obtain rfl := Option.some.inj (build.symm.trans build')
    have order : func.blockOrder.Nodup := by
      rw [built.order]
      exact built.spec.order.nodup
    exact ⟨fun noCircle => noCircle.returns order, fun noBack => built.noCopyCircle noBack info⟩

def withHalves : ArchSpec :=
  ⟨"x86-64", 8, [⟨"RAX", 0, 8⟩, ⟨"EAX", 0, 4⟩, ⟨"RCX", 8, 8⟩, ⟨"ECX", 8, 4⟩, ⟨"RDX", 16, 8⟩,
    ⟨"EDX", 16, 4⟩]⟩

/-- `EDX := EAX; EAX := ECX; ECX := EDX`, each of them extended, over and over. -/
def exchangeAt (addr : Nat) : R2ILBlock :=
  ⟨addr, 4, [.unary .IntZExt ⟨.Register, 16, 8⟩ ⟨.Register, 0, 4⟩,
    .unary .IntZExt ⟨.Register, 0, 8⟩ ⟨.Register, 8, 4⟩,
    .unary .IntZExt ⟨.Register, 8, 8⟩ ⟨.Register, 16, 4⟩, .Branch ⟨.Const, addr, 8⟩], none⟩

def exchange : List R2ILBlock := [exchangeAt 0]

/-- The same loop behind an entry block. -/
def enteredExchange : List R2ILBlock := [⟨0, 4, [], none⟩, exchangeAt 4]

theorem computeDecompileFamilyInStates_returns_enteredExchange :
    ∃ func, fromBlocksRaw enteredExchange (some withHalves) = some func ∧
      ∃ fuel, (computeDecompileFamilyInStates
        (.fromArch toAsciiLowercase withHalves) func fuel).isSome := by
  obtain ⟨func, renamed, final, entered, build, built⟩ :=
    fromBlocksRawWithPolicy_built _ _ (some withHalves) none
  refine ⟨func, build, ?_⟩
  obtain ⟨returns, noCircle⟩ := computeDecompileFamilyInStates_returns
    (.fromArch toAsciiLowercase withHalves) (.inl build)
  refine returns (noCircle fun p _ edge => ?_)
  have noPreds : (fromBlocksRaw enteredExchange (some withHalves)).all
      (fun func => func.cfg.predecessors func.cfg.entry = []) = true := by decide +kernel
  rw [show fromBlocksRaw enteredExchange (some withHalves) = some func from build] at noPreds
  have isPred := built.consistent.mem_predecessors.mpr edge
  rw [of_decide_eq_true noPreds] at isPred
  cases isPred

/-- The entries of the states of all blocks. -/
def listed (states : HashMap Nat FamilyRootState) :
    List (Nat × List ((_ : RegisterFamilySlot) × SSAVar)) :=
  states.entries.map fun entry => (entry.1, entry.2.entries)

theorem eq_of_listed {x y : HashMap Nat FamilyRootState} (same : listed x = listed y) : x = y := by
  refine AList.ext (List.map_injective_iff.mpr ?_ same)
  rintro ⟨b, state⟩ ⟨b', state'⟩ same
  obtain ⟨sameBlock, entries⟩ := Prod.mk.inj same
  exact Sigma.ext sameBlock (heq_of_eq (AList.ext entries))

/-- The states of the exchange come back after two rounds, and every round changes
them. -/
theorem exchange_never_returns : ∃ func, fromBlocksRaw exchange (some withHalves) = some func ∧
    ∀ fuel, computeDecompileFamilyInStates (.fromArch toAsciiLowercase withHalves) func fuel =
      none := by
  obtain ⟨func, build⟩ : ∃ func, fromBlocksRaw exchange (some withHalves) = some func := ⟨_, rfl⟩
  refine ⟨func, build, fun fuel => ?_⟩
  let info := RegisterFamilyInfo.fromArch toAsciiLowercase withHalves
  have rounds : (fromBlocksRaw exchange (some withHalves)).all (fun func =>
      (List.range 4).all (fun n => (familyRound info func (stepStates info func n)).2) &&
        decide (listed (stepStates info func 4).inStates =
          listed (stepStates info func 2).inStates ∧
        listed (stepStates info func 4).outStates =
          listed (stepStates info func 2).outStates)) = true := by decide +kernel
  rw [build, Option.all_some, Bool.and_eq_true, List.all_eq_true, decide_eq_true_eq] at rounds
  obtain ⟨changes, sameIn, sameOut⟩ := rounds
  have comesBack : stepStates info func 4 = stepStates info func 2 :=
    congrArg₂ FamilyStates.mk (eq_of_listed sameIn) (eq_of_listed sameOut)
  refine Option.not_isSome_iff_eq_none.mp fun returns => ?_
  obtain ⟨n, unchanged⟩ := computeDecompileFamilyInStates_isSome_iff.mp ⟨fuel, returns⟩
  obtain ⟨m, small, same⟩ := exists_iterate_lt (by decide : 2 < 4) comesBack n
  change stepStates info func n = stepStates info func m at same
  rw [same, changes m (List.mem_range.mpr small)] at unchanged
  cases unchanged

end R2Sleigh.Ssa.Family
