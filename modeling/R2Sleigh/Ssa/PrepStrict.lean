import R2Sleigh.Ssa.FamilyEntry
import R2Sleigh.Ssa.PrepStops
import R2Sleigh.Ssa.StrictCheck

/-!
Contract: the passes that prepare roots end for functions in strict SSA form whose stack
roots are steady.
-/

namespace R2Sleigh.Ssa.Family

open Il Flow Lib List Option

variable {info : RegisterFamilyInfo} {inStates : HashMap Nat FamilyRootState} {func : SSAFunction}

/-! ## Items of a function -/

theorem map_snd_scan {S A : Type} (effect : S → A → S) (l : List A) :
    ∀ state, (scan effect state l).map Prod.snd = l := by
  induction l with
  | nil => exact fun _ => rfl
  | cons a rest ih =>
    exact fun state => congrArg (a :: ·) (ih (effect state a))

private theorem filterMap_blockItems (familyState : FamilyRootState) (block : SSABlock) :
    (blockItems info familyState block).filterMap itemDst = block.dsts := by
  rw [blockItems, filterMap_append, filterMap_map, filterMap_map, SSABlock.dsts]
  have phis : ∀ l : List (FamilyRootState × PhiNode),
      l.filterMap (itemDst ∘ Prod.map id .inl) = (l.map Prod.snd).map PhiNode.dst := by
    intro l
    rw [List.map_map, ← filterMap_eq_map]
    rfl
  have ops : ∀ l : List (FamilyRootState × SSAOp),
      l.filterMap (itemDst ∘ Prod.map id .inr) = (l.map Prod.snd).filterMap SSAOp.dst := by
    intro l
    rw [filterMap_map]
    rfl
  rw [phis, ops, map_snd_scan, map_snd_scan]

theorem filterMap_prepItems (info : RegisterFamilyInfo) (inStates : HashMap Nat FamilyRootState)
    (func : SSAFunction) : (prepItems info inStates func).filterMap itemDst =
      func.blockOrder.flatMap func.dstsAt := by
  rw [prepItems, filterMap_flatMap]
  refine congrArg (fun f => func.blockOrder.flatMap f) (funext fun addr => ?_)
  rw [SSAFunction.dstsAt]
  cases func.getBlock addr with
  | none => rfl
  | some block => exact filterMap_blockItems _ block

private theorem nodup_prepItems (ssa : func.StrictSsa) :
    ((prepItems info inStates func).filterMap itemDst).Nodup := by
  rw [filterMap_prepItems]
  refine nodup_flatMap.mpr ⟨fun addr _ => ?_, ?_⟩
  · rw [SSAFunction.dstsAt]
    cases found : func.getBlock addr with
    | none => exact nodup_nil
    | some block => exact ssa.nodup found
  · refine ssa.order.imp fun {a b} different v inA inB => different ?_
    obtain ⟨block, found, isDst⟩ := SSAFunction.getBlock_of_dstsAt inA
    obtain ⟨block', found', isDst'⟩ := SSAFunction.getBlock_of_dstsAt inB
    exact ssa.unique found found' isDst isDst'

private theorem exists_dstsAt {item : PrepItem} (mem : item ∈ prepItems info inStates func)
    (isDst : itemDst item = some d) : ∃ addr, d ∈ func.dstsAt addr := by
  have listed : d ∈ (prepItems info inStates func).filterMap itemDst :=
    mem_filterMap.mpr ⟨item, mem, isDst⟩
  rw [filterMap_prepItems] at listed
  obtain ⟨addr, -, mem⟩ := mem_flatMap.mp listed
  exact ⟨addr, mem⟩

private theorem freshItems (info : RegisterFamilyInfo) (ssa : func.StrictSsa) :
    FreshItems (prepItems info inStates func) := by
  refine ⟨nodup_prepItems ssa, fun item mem d isDst => ?_⟩
  obtain ⟨addr, own⟩ := exists_dstsAt mem isDst
  obtain ⟨block, found, inBlock⟩ := SSAFunction.getBlock_of_dstsAt own
  exact (ssa.fresh found inBlock).imp Nat.ne_of_gt id

/-- Every variable is steady. -/
def RootsSteady (info : RegisterFamilyInfo) (inStates : HashMap Nat FamilyRootState)
    (func : SSAFunction) : Prop :=
  ∀ v, Steady info (prepItems info inStates func) v

/-- The passes over a strict function end for all states at the start of the blocks, if every
variable is steady; a variable is that may carry one stack root only, and all are where they
have a rank in which every item reads below what it sets. -/
theorem collectFactsFrom_returns (info : RegisterFamilyInfo) (ssa : func.StrictSsa) :
    (RootsSteady info inStates func →
      ∃ fuel, (collectFactsFrom info inStates func fuel).isSome) ∧
    (∀ v, (∀ r r', MayCarry info (prepItems info inStates func) v r →
        MayCarry info (prepItems info inStates func) v r' → r = r') →
      Steady info (prepItems info inStates func) v) ∧
    ∀ rank, FlowsDown rank (prepItems info inStates func) → RootsSteady info inStates func :=
  have fresh := freshItems info ssa
  ⟨collectFactsFrom_returns_of_steady fresh, fun _ => steady_of_unique info fresh,
    fun _ flows => flows.steady fresh⟩

/-- The stack pointer is moved on one of two ways around a loop at the entry. -/
def pushed : List R2ILBlock :=
  [⟨0, 4, [.CBranch ⟨.Const, 8, 8⟩ ⟨.Register, 24, 1⟩], none⟩,
    ⟨4, 4, [.binary .IntSub ⟨.Register, 32, 8⟩ ⟨.Register, 32, 8⟩ ⟨.Const, 8, 8⟩,
      .Branch ⟨.Const, 0, 8⟩], none⟩,
    ⟨8, 4, [.Branch ⟨.Const, 0, 8⟩], none⟩]

def withStack : ArchSpec :=
  ⟨"x86-64", 8, [⟨"RBX", 24, 8⟩, ⟨"RSP", 32, 8⟩, ⟨"RBP", 40, 8⟩, ⟨"RSI", 48, 8⟩, ⟨"RDI", 56, 8⟩,
    ⟨"R8", 128, 8⟩]⟩

def pushedFunction : SSAFunction := (fromBlocksRaw pushed (some withStack)).get (by decide +kernel)

def pushedStates : HashMap Nat FamilyRootState :=
  (computeDecompileFamilyInStates (.fromArch toAsciiLowercase withStack) pushedFunction 4).get
    (by decide +kernel)

def pushedPointer (version : Nat) : SSAVar := ⟨"RSP", version, 8⟩

private theorem pushed_items : (prepItems (.fromArch toAsciiLowercase withStack) pushedStates
      pushedFunction).map Prod.snd =
    [.inl ⟨pushedPointer 1, [(4, pushedPointer 2), (8, pushedPointer 1)]⟩,
      .inr (.CBranch (.constant 8 8) ⟨"reg:18", 0, 8⟩),
      .inr (.binary .IntSub (pushedPointer 2) (pushedPointer 1) (.constant 8 8)),
      .inr (.Branch (.constant 0 8)), .inr (.Branch (.constant 0 8))] := by
  decide +kernel

/-- The pointer has one root at the loop, although what it is moved by comes back there. -/
theorem collectFactsFrom_returns_pushed : ∃ fuel,
    (collectFactsFrom (.fromArch toAsciiLowercase withStack) pushedStates pushedFunction fuel).isSome := by
  let info := RegisterFamilyInfo.fromArch toAsciiLowercase withStack
  let items := prepItems info pushedStates pushedFunction
  have members {item} (mem : item ∈ items) := pushed_items ▸ mem_map_of_mem (f := Prod.snd) mem
  simp only [mem_cons, not_mem_nil, or_false] at members
  have atLoop : ∀ v r, MayCarry info items v r → v = pushedPointer 1 →
      r = ⟨.StackPointer, 0⟩ := by
    intro v r carries
    induction carries with
    | named named =>
      rintro rfl
      have own : stackBaseRootForName "RSP" = some ⟨.StackPointer, 0⟩ := by decide
      exact (some.inj (own.symm.trans named)).symm
    | phi mem _ _ ih =>
      intro _
      rcases members mem with same | same | same | same | same <;> cases same
      exact ih (8, pushedPointer 1) (by simp) rfl
    | op mem isDst _ _ _ =>
      rintro rfl
      rcases members mem with same | same | same | same | same <;> cases same
      all_goals exact absurd isDst (by decide)
  have ssa : pushedFunction.StrictSsa := SSAFunction.strictSsa_of_checksStrict
    (fun b => if b = 0 then [0] else [0, b]) (by decide +kernel)
  have fresh : FreshItems items := freshItems info ssa
  have steadyLoop : Steady info items (pushedPointer 1) :=
    steady_of_unique info fresh fun r r' carries carries' =>
      (atLoop _ r carries rfl).trans (atLoop _ r' carries' rfl).symm
  refine (collectFactsFrom_returns _ ssa).1 fun v => ?_
  by_cases defined : ∃ item ∈ items, itemDst item = some v
  · obtain ⟨⟨familyState, kind⟩, mem, isDst⟩ := defined
    rcases members mem with same | same | same | same | same <;> cases same
    · obtain rfl := some.inj isDst
      exact steadyLoop
    · cases isDst
    · refine .op mem isDst fun move moves => ?_
      obtain rfl := mem_singleton.mp moves
      exact steadyLoop
    · cases isDst
    · cases isDst
  · exact steady_of_undefined fresh defined

/-- In a loop without a block before it, stack pointers and frame pointers change
places. -/
def rotation : List R2ILBlock :=
  [⟨0, 4, [.binary .IntAdd ⟨.Register, 32, 8⟩ ⟨.Register, 24, 8⟩ ⟨.Const, 0, 8⟩,
    .Copy ⟨.Register, 128, 8⟩ ⟨.Register, 32, 8⟩,
    .binary .IntAdd ⟨.Register, 40, 8⟩ ⟨.Register, 48, 8⟩ ⟨.Const, 0, 8⟩,
    .binary .IntAdd ⟨.Register, 32, 8⟩ ⟨.Register, 56, 8⟩ ⟨.Const, 0, 8⟩,
    .Copy ⟨.Register, 24, 8⟩ ⟨.Register, 40, 8⟩, .Copy ⟨.Register, 48, 8⟩ ⟨.Register, 32, 8⟩,
    .Copy ⟨.Register, 56, 8⟩ ⟨.Register, 128, 8⟩, .Branch ⟨.Const, 0, 8⟩], none⟩]

private theorem eq_of_entries {x y : DecompilePrepFacts}
    (same : x.canonicalValueRoots.entries = y.canonicalValueRoots.entries ∧
      x.stackAddressRoots.entries = y.stackAddressRoots.entries) : x = y := by
  rw [DecompilePrepFacts.mk.injEq]
  exact ⟨AList.ext same.1, AList.ext same.2⟩

/-- The facts of the rotation after four passes are those after two, and every pass
changes them. -/
theorem rotation_never_returns : ∃ func inStates,
    fromBlocksRaw rotation (some withStack) = some func ∧ func.StrictSsa ∧
    (∀ addr ∈ func.blockOrder, func.flow.Reach addr) ∧
    computeDecompileFamilyInStates (.fromArch toAsciiLowercase withStack) func 4 = some inStates ∧
    ∀ fuel, collectFactsFrom (.fromArch toAsciiLowercase withStack) inStates func fuel = none := by
  let info := RegisterFamilyInfo.fromArch toAsciiLowercase withStack
  have runs : (fromBlocksRaw rotation (some withStack)).any (fun func =>
      func.checksStrict (fun _ => [0]) && decide (func.blockOrder = [func.entry]) &&
        (computeDecompileFamilyInStates info func 4).any fun inStates =>
          (List.range 4).all (fun n =>
            (prepPass info inStates func (factsAfter info inStates func n)).changed) &&
          decide ((factsAfter info inStates func 4).canonicalValueRoots.entries =
              (factsAfter info inStates func 2).canonicalValueRoots.entries ∧
            (factsAfter info inStates func 4).stackAddressRoots.entries =
              (factsAfter info inStates func 2).stackAddressRoots.entries)) = true := by
    decide +kernel
  obtain ⟨func, build, runs⟩ := (Option.any_eq_true _ _).mp runs
  rw [Bool.and_eq_true, Bool.and_eq_true, decide_eq_true_eq] at runs
  obtain ⟨⟨strict, order⟩, runs⟩ := runs
  obtain ⟨inStates, states, runs⟩ := (Option.any_eq_true _ _).mp runs
  rw [Bool.and_eq_true, List.all_eq_true, decide_eq_true_eq] at runs
  obtain ⟨changes, same⟩ := runs
  refine ⟨func, inStates, build, SSAFunction.strictSsa_of_checksStrict _ strict, ?_, states,
    fun fuel => ?_⟩
  · rw [order]
    intro addr mem
    rw [mem_singleton.mp mem]
    exact Graph.Reach.root
  · refine not_isSome_iff_eq_none.mp fun returns => ?_
    obtain ⟨n, unchanged⟩ := collectFactsFrom_isSome_iff.mp ⟨fuel, returns⟩
    obtain ⟨m, small, equal⟩ := exists_iterate_lt (by decide : 2 < 4) (eq_of_entries same) n
    change factsAfter info inStates func n = factsAfter info inStates func m at equal
    rw [equal, changes m (mem_range.mpr small)] at unchanged
    cases unchanged

end R2Sleigh.Ssa.Family
