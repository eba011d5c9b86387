import R2Sleigh.Ssa.DeadCode

/-!
Contract: dead code elimination preserves meaning.
-/

namespace R2Sleigh.Ssa

open Dec List

section Blocks

variable {Val Mem : Type} {I : Interpretation Val Mem} {dead : SSAVar → Prop}
  {stays : SSAOp → Bool} {block block' : SSABlock} {σ σ' : State Val Mem}

structure AgreeAlive (dead : SSAVar → Prop) (σ σ' : State Val Mem) : Prop where
  mem : σ.mem = σ'.mem
  env : ∀ v, ¬ dead v → σ.env v = σ'.env v

/-- A block without the operations that do not stay, and without phis of dead variables. -/
structure Eliminates (I : Interpretation Val Mem) (dead : SSAVar → Prop) (stays : SSAOp → Bool)
    (block block' : SSABlock) : Prop where
  ops : block'.ops = block.ops.filter stays
  alive : ∀ op ∈ block.ops, stays op = true → ∀ v ∈ op.sources, ¬ dead v
  drops : ∀ op ∈ block.ops, stays op = false →
    ∃ dst, op.dst = some dst ∧ dead dst ∧ ∀ values mem, (I.exec op values mem).2 = mem
  exits : ∀ op ∈ block.ops, transfersControl op = true → stays op = true
  phis : ∀ v, ¬ dead v →
    block'.phis.find? (fun phi => phi.dst = v) = block.phis.find? fun phi => phi.dst = v
  sources : ∀ phi ∈ block.phis, ∀ source ∈ phi.sources, dead source.2 → dead phi.dst

variable (eliminates : Eliminates I dead stays block block') (agree : AgreeAlive dead σ σ')
include eliminates

section

include agree

theorem Eliminates.arrive (pred : Option Nat) :
    AgreeAlive dead (Dec.arrive block.phis pred σ) (Dec.arrive block'.phis pred σ') := by
  refine ⟨agree.mem, fun v alive => ?_⟩
  simp only [Dec.arrive, eliminates.phis v alive]
  cases isSource : (block.phis.find? fun phi => phi.dst = v).bind (sourceFor · pred) with
  | none => exact agree.env v alive
  | some src =>
    refine agree.env src fun isDead => alive ?_
    obtain ⟨phi, isPhi, isSrc⟩ := Option.bind_eq_some_iff.mp isSource
    obtain ⟨_, -, isSrc⟩ := Option.bind_eq_some_iff.mp isSrc
    obtain ⟨source, isFirst, rfl⟩ := Option.map_eq_some_iff.mp isSrc
    obtain rfl : phi.dst = v := by simpa using find?_some isPhi
    exact eliminates.sources phi (mem_of_find?_eq_some isPhi) source
      (mem_of_find?_eq_some isFirst) isDead

theorem Eliminates.reads_eq {op : SSAOp} (mem : op ∈ block.ops) (isKept : stays op = true) :
    reads σ op = reads σ' op :=
  map_congr_left fun v used => agree.env v (eliminates.alive op mem isKept v used)

end

theorem Eliminates.execOps (ops : List SSAOp) : ∀ {σ σ' : State Val Mem},
    (∀ op ∈ ops, op ∈ block.ops) → AgreeAlive dead σ σ' →
    AgreeAlive dead (Dec.execOps I ops σ) (Dec.execOps I (ops.filter stays) σ') := by
  induction ops with
  | nil => exact fun _ agree => agree
  | cons op rest ih =>
    intro σ σ' inside agree
    obtain ⟨mem, inside⟩ := forall_mem_cons.mp inside
    cases isKept : stays op with
    | true =>
      have same := eliminates.reads_eq agree mem isKept
      rw [filter_cons_of_pos isKept]
      refine ih inside ⟨?_, fun v alive => ?_⟩
      · simp only [execOp, same, agree.mem]
      · simp only [execOp, same, agree.mem, agree.env v alive]
    | false =>
      -- Only a dead variable changes.
      obtain ⟨dst, isDst, isDead, keeps⟩ := eliminates.drops op mem isKept
      rw [filter_cons_of_neg (by rw [isKept]; decide)]
      refine ih inside ⟨(keeps _ _).trans agree.mem, fun v alive => ?_⟩
      refine (if_neg fun isV => alive ?_).trans (agree.env v alive)
      rw [isDst] at isV
      rwa [← Option.some.inj isV]

/-- A block is left at the operation at which it was left before. -/
theorem Eliminates.executed {exit : Option Nat} (transfers : ∀ e, exit = some e →
      ∃ op, block.ops[e]? = some op ∧ transfersControl op = true) :
    ∃ exit', (∀ e, exit' = some e → ∃ op, block'.ops[e]? = some op ∧ transfersControl op = true) ∧
      Dec.executed block'.ops exit' = (Dec.executed block.ops exit).filter stays := by
  rw [eliminates.ops]
  cases exit with
  | none => exact ⟨none, by simp, rfl⟩
  | some e =>
    obtain ⟨op, atExit, isTransfer⟩ := transfers e rfl
    obtain ⟨inside, rfl⟩ := List.getElem?_eq_some_iff.mp atExit
    have isKept := eliminates.exits _ (getElem_mem inside) isTransfer
    have split : block.ops.filter stays = (block.ops.take e).filter stays ++
        block.ops[e] :: (block.ops.drop (e + 1)).filter stays := by
      rw [← filter_cons_of_pos isKept, getElem_cons_drop, ← filter_append, take_append_drop]
    refine ⟨some ((block.ops.take e).filter stays).length, fun _ isE => ⟨_, ?_, isTransfer⟩, ?_⟩
    · obtain rfl := Option.some.inj isE
      rw [split, getElem?_append_right (Nat.le_refl _), Nat.sub_self, getElem?_cons_zero]
    · rw [Dec.executed, Dec.executed, split, take_length_add_append,
        take_succ_eq_append_getElem inside, filter_append, filter_cons_of_pos isKept]
      rfl

end Blocks

section Runs

variable {Val Mem : Type} {I : Interpretation Val Mem} {dead : SSAVar → Prop}
  {stays : SSAOp → Bool} {func after : SSAFunction}

/-- Runs go through the same blocks and agree on all live variables. -/
theorem runs_eliminated (successors : after.successors = func.successors)
    (blocks : ∀ {addr block}, func.getBlock addr = some block → ∃ block',
      after.getBlock addr = some block' ∧ Eliminates I dead stays block block')
    (steps : List Dec.Step) : ∀ {p : Nat} {σ σ' : State Val Mem}, AgreeAlive dead σ σ' →
    Dec.Follows func p steps → ∃ steps', steps'.map Dec.Step.next = steps.map Dec.Step.next ∧
      Dec.Follows after p steps' ∧
      (runSteps I after p σ' steps').1 = (runSteps I func p σ steps).1 ∧
      AgreeAlive dead (runSteps I func p σ steps).2 (runSteps I after p σ' steps').2 := by
  induction steps with
  | nil => exact fun agree _ => ⟨[], rfl, trivial, rfl, agree⟩
  | cons step rest ih =>
    rintro p σ σ' agree ⟨block, target, found, foundTarget, edge, exits, follows⟩
    obtain ⟨block', found', eliminates⟩ := blocks found
    obtain ⟨target', foundTarget', arrival⟩ := blocks foundTarget
    obtain ⟨exit', exits', same⟩ := eliminates.executed exits
    have inside : ∀ op ∈ executed block.ops step.exit, op ∈ block.ops := by
      cases step.exit with
      | none => exact fun _ mem => mem
      | some e => exact fun _ mem => mem_of_mem_take mem
    have arrives := arrival.arrive (eliminates.execOps _ inside agree) (some p)
    obtain ⟨steps', nexts, follows', agreeEnd⟩ := ih arrives follows
    refine ⟨⟨exit', step.next⟩ :: steps', by rw [map_cons, nexts]; rfl,
      ⟨_, _, found', foundTarget', by rwa [successors], exits', follows'⟩, ?_⟩
    simp only [runSteps, found, foundTarget, found', foundTarget', same]
    exact agreeEnd

end Runs

/-! ## The pass -/

namespace SSAFunction

variable {Val Mem : Type} {preserveMemoryReads : Bool} {func after : SSAFunction}

/-- A definition that may be dropped leaves memory alone. -/
def KeepsMemory (I : Interpretation Val Mem) (preserveMemoryReads : Bool) : Prop :=
  ∀ op values mem, op.dst.isSome → op.hasSideEffects preserveMemoryReads = false →
    (I.exec op values mem).2 = mem

/-- What `withoutDropped` asks of an operation. -/
def staysOp (preserveMemoryReads : Bool) (dropped : SSAVar → Bool) (op : SSAOp) : Bool :=
  op.dst.all (fun dst => !dropped dst) || op.hasSideEffects preserveMemoryReads

theorem Dropping.eliminates {dropped : SSAVar → Bool} {I : Interpretation Val Mem}
    (dropping : Dropping preserveMemoryReads func after dropped)
    (assigned : func.Assigned) (stable : Stable preserveMemoryReads after)
    (keeps : KeepsMemory I preserveMemoryReads) {addr : Nat} {block : SSABlock}
    (found : func.getBlock addr = some block) :
    Eliminates I (Dead preserveMemoryReads func) (staysOp preserveMemoryReads dropped) block
      (withoutDropped preserveMemoryReads dropped block) := by
  constructor
  · rfl
  · rintro op mem isKept v used ⟨-, -, -, reads, readers⟩
    obtain ⟨dst, isDst⟩ := Option.isSome_iff_exists.mp (reads addr block op found mem used)
    have isDead := readers addr block op dst found mem used isDst
    refine dropping.not_defines_of_dead assigned stable isDead
      (dropping.changes.defines.mpr ⟨addr, block, found, mem_append_right _ ?_⟩)
    exact mem_filterMap.mpr ⟨op, mem_filter.mpr ⟨mem, isKept⟩, isDst⟩
  · intro op mem isKept
    obtain ⟨undefined, pure⟩ := Bool.or_eq_false_iff.mp isKept
    obtain ⟨dst, isDst, isDropped⟩ : ∃ dst, op.dst = some dst ∧ dropped dst = true := by
      cases isDst : op.dst <;> simp_all
    exact ⟨dst, isDst, (dropping.dead dst isDropped).resolve_right
      (assigned.not_effect_of_op found mem isDst pure), fun _ _ => keeps op _ _ (by simp [isDst]) pure⟩
  · intro op _ transfers
    cases op <;> first | rfl | cases transfers
  · intro v alive
    show (block.phis.filter _).find? _ = _
    rw [find?_filter]
    cases isDropped : dropped v with
    | false => exact congrArg (find? · _) (funext fun phi => by grind)
    | true =>
      -- The variable is defined with a side effect, and so by no phi.
      have effect := (dropping.dead v isDropped).resolve_left alive
      have noPhi : ∀ phi ∈ block.phis, phi.dst ≠ v := by
        rintro phi mem rfl
        exact assigned.not_effect_of_phi found mem effect
      rw [find?_eq_none.mpr (by grind), find?_eq_none.mpr (by grind)]
  · rintro phi mem source inSources ⟨-, -, phis, -, -⟩
    exact phis addr block phi source found mem inSources rfl

/-- Each run of a function is one of the function without its dead code, through the same
blocks. At its end memory and the variables that are not dead are the same, and each
operation that is left reads the same values. -/
theorem deadCodeElim_preserves (preserveMemoryReads : Bool) (assigned : func.Assigned)
    (I : Interpretation Val Mem) (keeps : KeepsMemory I preserveMemoryReads) (p : Nat)
    (σ : State Val Mem) (steps : List Dec.Step) (follows : Dec.Follows func p steps) :
    let after := (deadCodeElim preserveMemoryReads func).1
    ∃ steps', steps'.map Dec.Step.next = steps.map Dec.Step.next ∧ Dec.Follows after p steps' ∧
      let last := runSteps I func p σ steps
      let last' := runSteps I after p σ steps'
      last'.1 = last.1 ∧ AgreeAlive (Dead preserveMemoryReads func) last.2 last'.2 ∧
        ∀ block' before' op rest', after.getBlock last.1 = some block' →
          block'.ops = before' ++ op :: rest' →
          ∃ block before rest, func.getBlock last.1 = some block ∧ block.ops = before ++ op :: rest ∧
            reads (execOps I before last.2) op = reads (execOps I before' last'.2) op := by
  intro after
  obtain ⟨stable, dropped, dropping⟩ := dropping_deadCodeElim preserveMemoryReads assigned
  have blocks : ∀ {addr block}, func.getBlock addr = some block →
      after.getBlock addr = some (withoutDropped preserveMemoryReads dropped block) := by
    intro addr block found
    rw [dropping.changes.blocks, found, Option.map_some]
  obtain ⟨steps', nexts, follows', sameEnd, agree⟩ := runs_eliminated
    (funext fun addr => by rw [successors, dropping.cfg, successors])
    (fun found => ⟨_, blocks found, dropping.eliminates assigned stable keeps found⟩) steps
    (σ := σ) ⟨rfl, fun _ _ => rfl⟩ follows
  refine ⟨steps', nexts, follows', sameEnd, agree, fun block' before' op rest' found' split => ?_⟩
  obtain ⟨block, found, rfl⟩ := dropping.changes.origin found'
  have eliminates := dropping.eliminates assigned stable keeps found
  rw [eliminates.ops] at split
  obtain ⟨first, second, isOps, rfl, splitSecond⟩ := filter_eq_append_iff.mp split
  obtain ⟨skipped, rest, rfl, skips, isKept, -⟩ := filter_eq_cons_iff.mp splitSecond
  refine ⟨block, first ++ skipped, rest, found, by rw [isOps, append_assoc], ?_⟩
  have executes := eliminates.execOps (first ++ skipped) (by rw [isOps]; grind) agree
  rw [filter_append, filter_eq_nil_iff.mpr skips, append_nil] at executes
  exact eliminates.reads_eq executes (by rw [isOps]; simp) isKept

theorem deadCodeElim_preserves_setThenReturn :
    let after := (deadCodeElim true setThenReturn).1
    let keeping : Interpretation Nat Unit := ⟨fun _ values mem => (values.headD 0, mem), fun _ _ _ _ => rfl⟩
    ∃ steps', steps'.map Dec.Step.next = [4] ∧ Dec.Follows after 0 steps' ∧
      AgreeAlive (Dead true setThenReturn)
        (runSteps keeping setThenReturn 0 ⟨fun _ => 7, ()⟩ [⟨none, 4⟩]).2
        (runSteps keeping after 0 ⟨fun _ => 7, ()⟩ steps').2 := by
  obtain ⟨steps', nexts, follows', -, agree, -⟩ := deadCodeElim_preserves true
    setThenReturn_strictSsa.assigned ⟨fun _ values mem => (values.headD 0, mem), fun _ _ _ _ => rfl⟩
    (fun _ _ _ _ _ => rfl) 0 ⟨fun _ => 7, ()⟩ [⟨none, 4⟩]
    ⟨_, _, rfl, rfl, by decide +kernel, by simp, trivial⟩
  exact ⟨steps', nexts, follows', agree⟩

end SSAFunction

end R2Sleigh.Ssa
