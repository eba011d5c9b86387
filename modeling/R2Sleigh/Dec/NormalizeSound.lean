import R2Sleigh.Dec.Execution
import R2Sleigh.Dec.Normalize

/-!
Contract: executions of a function before and after its phis become copies.

Owns `SafeSteps`.

Does not own: which edge an execution takes. A run of the result follows the
steps of a run of the original, whose operations read the same values.

Copies are executed in order, so a source that an earlier copy overwrote has
lost its value; a phi that stays reads its source after the copies; and the
copies stand before the last terminator, whatever follows it.
-/

namespace R2Sleigh.Dec

open Ssa Lib List Option

/-! ## Runs of the result -/

section Positions

variable (func : SSAFunction)

/-- Where an operation of a block stands in the result. -/
def position (p : Nat) (ops : List SSAOp) (i : Nat) : Nat :=
  if i < insertPosition ops then i else i + (copiesAt func p).length

/-- The steps of the result that leave blocks at the same operations. -/
def translate : Nat → List Step → List Step
  | _, [] => []
  | p, step :: rest =>
    ⟨step.exit.map (position func p (((func.getBlock p).map SSABlock.ops).getD [])), step.next⟩ ::
      translate step.next rest

/-! ## Safe runs -/

/-- Some copy gives a variable the value of another one. -/
def Overwrites (copies : List SSAOp) (v : SSAVar) : Prop := ∃ src, .Copy v src ∈ copies ∧ src ≠ v

/-- No operation after the copies reads what they overwrote. -/
def SafeReads (p : Nat) (ops ran : List SSAOp) : Prop :=
  ∀ op ∈ ran.drop (insertPosition ops), ∀ src ∈ op.sources, ¬ Overwrites (copiesAt func p) src

/-- No copy reads what an earlier one overwrote. -/
def InOrder (copies : List SSAOp) : Prop :=
  ∀ before dst src after, copies = before ++ .Copy dst src :: after → ¬ Overwrites before src

/-- Copies that are executed act as the phis do. By `mem_copiesAt` they are the sources
that phis have at `p`, if it has one successor. -/
structure SafeCopies (p : Nat) (ops ran : List SSAOp) (target : Nat) (block : SSABlock) : Prop where
  reads : SafeReads func p ops ran
  order : InOrder (copiesAt func p)
  sources : ∀ dst src, .Copy dst src ∈ copiesAt func p →
    ∀ op ∈ ran.drop (insertPosition ops), op.dst ≠ some src
  kept : ∀ phi ∈ phisAfter func target block, ∀ src, sourceFor phi (some p) = some src →
    ¬ Overwrites (copiesAt func p) src

/-- The copies are executed before the block is left. -/
def Reached (ops : List SSAOp) (exit : Option Nat) : Prop := ∀ e, exit = some e → insertPosition ops ≤ e

/-- The copies are safe, or they are not reached and nothing depends on them. -/
structure SafeStep (p : Nat) (ops : List SSAOp) (exit : Option Nat) (target : Nat) (block : SSABlock) :
    Prop where
  copies : Reached ops exit → SafeCopies func p ops (executed ops exit) target block
  skipped : ¬ Reached ops exit → ∀ phi ∈ block.phis, ∀ src, sourceFor phi (some p) = some src →
    phi ∈ phisAfter func target block

def SafeSteps : Nat → List Step → Prop
  | _, [] => True
  | p, step :: rest =>
    (∀ block target, func.getBlock p = some block → func.getBlock step.next = some target →
      SafeStep func p block.ops step.exit step.next target) ∧
    SafeSteps step.next rest

end Positions

/-- What single assignment and the shape of phis guarantee. -/
structure SsaForm (func : SSAFunction) : Prop where
  addressed : Addressed func
  phiDsts : ∀ {b block}, func.getBlock b = some block → (block.phis.map PhiNode.dst).Nodup
  opDsts : ∀ {b block p other phi op}, func.getBlock b = some block → func.getBlock p = some other →
    phi ∈ block.phis → op ∈ other.ops → op.dst ≠ some phi.dst
  preds : ∀ {b block phi source}, func.getBlock b = some block → phi ∈ block.phis →
    source ∈ phi.sources → b ∈ func.successors source.1
  unique : ∀ {b block phi pred src src'}, func.getBlock b = some block → phi ∈ block.phis →
    (pred, src) ∈ phi.sources → (pred, src') ∈ phi.sources → src = src'

/-! ## Sequences of operations -/

section Sequences

variable {Val Mem : Type} {I : Interpretation Val Mem}

/-- States that differ only where copies overwrote something. -/
structure AgreesOff (copies : List SSAOp) (σ σ' : State Val Mem) : Prop where
  env : ∀ v, ¬ Overwrites copies v → σ'.env v = σ.env v
  mem : σ'.mem = σ.mem

section

variable {copies : List SSAOp} {σ σ' : State Val Mem} {op : SSAOp} (agrees : AgreesOff copies σ σ')
  (safe : ∀ src ∈ op.sources, ¬ Overwrites copies src)
include agrees safe

theorem AgreesOff.reads : Dec.reads σ' op = Dec.reads σ op :=
  map_congr_left fun src member => agrees.env src (safe src member)

theorem AgreesOff.execOp :
    AgreesOff copies (execOp I σ op) (Dec.execOp I σ' op) := by
  have same := agrees.reads safe
  refine ⟨fun v kept => ?_, ?_⟩
  · simp only [Dec.execOp, same, agrees.mem, agrees.env v kept]
  · simp only [Dec.execOp, same, agrees.mem]

end

theorem AgreesOff.execOps {copies : List SSAOp} {ops : List SSAOp}
    (safe : ∀ op ∈ ops, ∀ src ∈ op.sources, ¬ Overwrites copies src) :
    ∀ {σ σ' : State Val Mem}, AgreesOff copies σ σ' →
      AgreesOff copies (execOps I ops σ) (Dec.execOps I ops σ') := by
  induction ops with
  | nil => exact id
  | cons op ops ih =>
    intro σ σ' agrees
    exact ih (fun op member => safe op (mem_cons_of_mem _ member))
      (agrees.execOp (safe op mem_cons_self))

theorem InOrder.tail {op : SSAOp} {copies : List SSAOp} (order : InOrder (op :: copies)) :
    InOrder copies := by
  rintro before dst src after isCopies ⟨other, member, changes⟩
  exact order (op :: before) dst src after (by rw [isCopies]; rfl)
    ⟨other, mem_cons_of_mem _ member, changes⟩

/-- Copies in order: each destination takes the value that its source had. -/
theorem execOps_copies {copies : List SSAOp} (allCopies : ∀ op ∈ copies, ∃ dst src, op = .Copy dst src)
    (functional : ∀ dst src src', .Copy dst src ∈ copies → .Copy dst src' ∈ copies → src = src')
    (order : InOrder copies) (σ : State Val Mem) :
    (∀ dst src, .Copy dst src ∈ copies → (execOps I copies σ).env dst = σ.env src) ∧
      (execOps I copies σ).mem = σ.mem := by
  induction copies generalizing σ with
  | nil => exact ⟨fun _ _ member => absurd member not_mem_nil, rfl⟩
  | cons op copies ih =>
    obtain ⟨dst, src, rfl⟩ := allCopies op mem_cons_self
    obtain ⟨values, mem⟩ := ih
      (fun op member => allCopies op (mem_cons_of_mem _ member))
      (fun d s s' first second => functional d s s' (mem_cons_of_mem _ first)
        (mem_cons_of_mem _ second)) order.tail (execOp I σ (.Copy dst src))
    have split : execOps I (.Copy dst src :: copies) σ =
        execOps I copies (execOp I σ (.Copy dst src)) := rfl
    have later : ∀ d s, .Copy d s ∈ copies →
        (execOps I (.Copy dst src :: copies) σ).env d = σ.env s := by
      intro d s member
      rw [split, values d s member, execOp_copy]
      dsimp only
      split
      · rename_i same
        subst same
        -- The head would have overwritten the source, unless it copies a variable to itself.
        obtain ⟨before, after, isCopies⟩ := append_of_mem member
        have self : src = dst := by
          by_contra changes
          exact order (.Copy dst src :: before) d dst after (by rw [isCopies]; rfl)
            ⟨src, mem_cons_self, changes⟩
        rw [self]
      · rfl
    refine ⟨?_, ?_⟩
    · intro d s member
      rcases mem_cons.mp member with head | inTail
      · obtain ⟨rfl, rfl⟩ := SSAOp.Copy.inj head
        by_cases again : ∃ s', SSAOp.Copy d s' ∈ copies
        · obtain ⟨s', inTail⟩ := again
          have same : s' = s := functional d s' s (mem_cons_of_mem _ inTail) member
          rw [later d s' inTail, same]
        · have undefined : ∀ op ∈ copies, op.dst ≠ some d := by
            intro op inTail defines
            obtain ⟨d', s', rfl⟩ := allCopies op (mem_cons_of_mem _ inTail)
            obtain rfl : d' = d := some.inj defines
            exact again ⟨s', inTail⟩
          rw [split, execOps_frame undefined, execOp_copy]
          exact if_pos rfl
      · exact later d s inTail
    · rw [split, mem, execOp_copy]

theorem AgreesOff.copies {copies done : List SSAOp} (within : ∀ op ∈ done, op ∈ copies)
    (allCopies : ∀ op ∈ copies, ∃ dst src, op = .Copy dst src) :
    ∀ {σ σ' : State Val Mem}, AgreesOff copies σ σ' → AgreesOff copies σ (Dec.execOps I done σ') := by
  induction done with
  | nil => exact id
  | cons op done ih =>
    intro σ σ' agrees
    refine ih (fun op member => within op (mem_cons_of_mem _ member)) ?_
    obtain ⟨dst, src, rfl⟩ := allCopies op (within op mem_cons_self)
    rw [execOp_copy]
    refine ⟨fun v kept => ?_, agrees.mem⟩
    dsimp only
    split
    · rename_i same
      subst same
      have self : src = dst := by
        by_contra changes
        exact kept ⟨src, within _ mem_cons_self, changes⟩
      rw [self]
      exact agrees.env dst kept
    · exact agrees.env v kept

theorem AgreesOff.refl (copies : List SSAOp) (σ : State Val Mem) : AgreesOff copies σ σ :=
  ⟨fun _ _ => rfl, rfl⟩

end Sequences

/-! ## One step -/

section OneStep

variable {func : SSAFunction}

theorem isCopy_of_mem_copiesAt {p : Nat} : ∀ op ∈ copiesAt func p, ∃ dst src, op = .Copy dst src := by
  intro op member
  obtain ⟨-, -, -, phi, -, src, -, isCopy⟩ := mem_copiesAt.mp member
  exact ⟨phi.dst, src, isCopy⟩

theorem successor_unique {p b b' : Nat} (one : hasOneSuccessor func p) (edge : b ∈ func.successors p)
    (edge' : b' ∈ func.successors p) : b' = b := by
  obtain ⟨only, isOnly⟩ := length_eq_one_iff.mp (of_decide_eq_true one)
  rw [isOnly, mem_singleton] at edge edge'
  rw [edge, edge']

theorem mem_sources_of_sourceFor {phi : PhiNode} {p : Nat} {src : SSAVar}
    (found : sourceFor phi (some p) = some src) : (p, src) ∈ phi.sources := by
  obtain ⟨source, isFirst, rfl⟩ := map_eq_some_iff.mp found
  have isPred : source.1 = p := by simpa using List.find?_some isFirst
  rw [← isPred]
  exact mem_of_find?_eq_some isFirst

variable (form : SsaForm func) {p b : Nat} {block : SSABlock} (found : func.getBlock b = some block)
include form found

theorem SsaForm.phi_of_copy (edge : b ∈ func.successors p) {op : SSAOp}
    (member : op ∈ copiesAt func p) :
    ∃ phi ∈ block.phis, ∃ src, sourceFor phi (some p) = some src ∧ op = .Copy phi.dst src := by
  obtain ⟨one, other, listed, phi, inPhis, src, inSources, rfl⟩ := mem_copiesAt.mp member
  obtain ⟨b', -, stored⟩ := mem_blockList.mp listed
  obtain rfl : b' = b := successor_unique one edge (form.preds stored inPhis inSources)
  obtain rfl : block = other := some.inj (found.symm.trans stored)
  refine ⟨phi, inPhis, src, ?_, rfl⟩
  cases isFirst : sourceFor phi (some p) with
  | none =>
    rw [sourceFor, bind_some, map_eq_none_iff, List.find?_eq_none] at isFirst
    exact absurd (by simp) (isFirst (p, src) inSources)
  | some src' => rw [form.unique stored inPhis inSources (mem_sources_of_sourceFor isFirst)]

private theorem SsaForm.copy_functional (edge : b ∈ func.successors p) (dst src src' : SSAVar)
    (first : .Copy dst src ∈ copiesAt func p) (second : .Copy dst src' ∈ copiesAt func p) :
    src = src' := by
  obtain ⟨phi, inPhis, s, isSource, isFirst⟩ := form.phi_of_copy found edge first
  obtain ⟨phi', inPhis', s', isSource', isSecond⟩ := form.phi_of_copy found edge second
  obtain ⟨rfl, rfl⟩ := SSAOp.Copy.inj isFirst
  obtain ⟨sameDst, rfl⟩ := SSAOp.Copy.inj isSecond
  rw [inj_on_of_nodup_map (form.phiDsts found) inPhis inPhis' sameDst, isSource'] at isSource
  exact (some.inj isSource).symm

private theorem SsaForm.copy_of_gone {phi : PhiNode} (inPhis : phi ∈ block.phis)
    (gone : phi ∉ phisAfter func b block) {src : SSAVar} (isSource : sourceFor phi (some p) = some src) :
    .Copy phi.dst src ∈ copiesAt func p := by
  obtain ⟨all, listed⟩ := allMaterialized_of_notMem form.addressed found inPhis gone
  have inSources := mem_sources_of_sourceFor isSource
  exact mem_copiesAt.mpr ⟨all_eq_true.mp all (p, src) inSources, block, listed, phi, inPhis, src,
    inSources, rfl⟩

variable {Val Mem : Type}

/-- When arriving with fewer phis, after copies, is arriving with all phis. -/
theorem SsaForm.arrive_eq {σ σ' : State Val Mem} (mem : σ'.mem = σ.mem)
    (kept : ∀ phi ∈ phisAfter func b block, ∀ src, sourceFor phi (some p) = some src →
      σ'.env src = σ.env src)
    (gone : ∀ phi ∈ block.phis, phi ∉ phisAfter func b block → ∀ src,
      sourceFor phi (some p) = some src → σ'.env phi.dst = σ.env src)
    (others : ∀ v, (∀ phi ∈ block.phis, phi.dst = v → sourceFor phi (some p) = none) →
      σ'.env v = σ.env v) :
    arrive (phisAfter func b block) (some p) σ' = arrive block.phis (some p) σ := by
  have sublist := phisAfter_sublist form.addressed found
  have nodup := form.phiDsts found
  have env : ∀ v, (arrive (phisAfter func b block) (some p) σ').env v =
      (arrive block.phis (some p) σ).env v := by
    intro v
    by_cases isDst : ∃ phi ∈ block.phis, phi.dst = v
    · obtain ⟨phi, inPhis, rfl⟩ := isDst
      have without : sourceFor phi (some p) = none → σ'.env phi.dst = σ.env phi.dst := by
        intro noSource
        refine others phi.dst fun other inOther sameDst => ?_
        rw [inj_on_of_nodup_map nodup inOther inPhis sameDst, noSource]
      have here : block.phis.find? (fun other => other.dst = phi.dst) = some phi :=
        find?_dst nodup inPhis
      by_cases stays : phi ∈ phisAfter func b block
      · have there : (phisAfter func b block).find? (fun other => other.dst = phi.dst) = some phi :=
          find?_dst (nodup.sublist (sublist.map _)) stays
        simp only [arrive, here, there, bind_some]
        cases isSource : sourceFor phi (some p) with
        | none => exact without isSource
        | some src => exact kept phi stays src isSource
      · have there : (phisAfter func b block).find? (fun other => other.dst = phi.dst) = none := by
          rw [List.find?_eq_none]
          intro other member same
          have sameDst : other.dst = phi.dst := by simpa using same
          exact stays (inj_on_of_nodup_map nodup (sublist.subset member) inPhis sameDst ▸ member)
        simp only [arrive, here, there, bind_some, bind_none, elim_none]
        cases isSource : sourceFor phi (some p) with
        | none => exact without isSource
        | some src => exact gone phi inPhis stays src isSource
    · have here : block.phis.find? (fun other => other.dst = v) = none := by
        rw [List.find?_eq_none]
        intro other member same
        exact isDst ⟨other, member, by simpa using same⟩
      have there : (phisAfter func b block).find? (fun other => other.dst = v) = none := by
        rw [List.find?_eq_none] at here ⊢
        exact fun other member => here other (sublist.subset member)
      simp only [arrive, here, there, bind_none, elim_none]
      exact others v fun phi inPhis isV => absurd ⟨phi, inPhis, isV⟩ isDst
  simp only [arrive, mem, State.mk.injEq, and_true]
  funext v
  exact env v

end OneStep

/-! ## Blocks with copies -/

section Inserted

theorem rposition_lt {α : Type} {p : α → Bool} {i : Nat} : ∀ {l : List α}, rposition p l = some i →
    i < l.length
  | a :: rest, found => by
    rw [rposition] at found
    split at found
    · rename_i j later
      have bound := rposition_lt later
      rw [← some.inj found, length_cons]
      omega
    · split at found
      · rw [← some.inj found]
        exact Nat.succ_pos _
      · cases found

theorem insertPosition_le (ops : List SSAOp) : insertPosition ops ≤ ops.length := by
  unfold insertPosition
  cases found : rposition isBlockTerminator ops with
  | none => exact Nat.le_refl _
  | some i => exact (rposition_lt found).le

private theorem mem_of_mem_executed {ops : List SSAOp} {exit : Option Nat} {op : SSAOp}
    (member : op ∈ executed ops exit) : op ∈ ops := by
  cases exit with
  | none => exact member
  | some e => exact mem_of_mem_take member

variable {func : SSAFunction} {p : Nat} {ops : List SSAOp} {exit : Option Nat}

private theorem executed_split (reached : Reached ops exit) : executed ops exit =
    ops.take (insertPosition ops) ++ (executed ops exit).drop (insertPosition ops) := by
  cases exit with
  | none => exact (take_append_drop _ _).symm
  | some e =>
    have after : insertPosition ops ≤ e := reached e rfl
    have front : ops.take (insertPosition ops) = (ops.take (e + 1)).take (insertPosition ops) := by
      rw [take_take, Nat.min_eq_left (by omega)]
    rw [executed, front, take_append_drop]

private theorem executed_insertCopies (reached : Reached ops exit) :
    executed (insertCopies (copiesAt func p) ops) (exit.map (position func p ops)) =
      ops.take (insertPosition ops) ++ copiesAt func p ++
        (executed ops exit).drop (insertPosition ops) := by
  cases exit with
  | none => rfl
  | some e =>
    have after : insertPosition ops ≤ e := reached e rfl
    have bound := insertPosition_le ops
    have length : (ops.take (insertPosition ops) ++ copiesAt func p).length =
        insertPosition ops + (copiesAt func p).length := by
      rw [length_append, length_take, Nat.min_eq_left bound]
    rw [map_some, position, if_neg (by omega), executed, executed, insertCopies,
      take_append, take_of_length_le (by omega), length, drop_take]
    congr 2
    omega

private theorem executed_skipped (skipped : ¬ Reached ops exit) :
    executed (insertCopies (copiesAt func p) ops) (exit.map (position func p ops)) =
      executed ops exit := by
  cases exit with
  | none => exact absurd (fun _ isSome => by cases isSome) skipped
  | some e =>
    have before : e < insertPosition ops := by
      by_contra after
      refine skipped fun e' isSome => ?_
      cases isSome
      omega
    have bound := insertPosition_le ops
    rw [map_some, position, if_pos before, executed, executed, insertCopies,
      append_assoc, take_append_of_le_length, take_take, Nat.min_eq_left (by omega)]
    rw [length_take, Nat.min_eq_left bound]
    omega

end Inserted

/-! ## Runs -/

section Runs

variable {func : SSAFunction} (form : SsaForm func) {Val Mem : Type} (I : Interpretation Val Mem)
include form

/-- A safe step leads to the same state with copies as with phis. -/
theorem SsaForm.step_eq {p b : Nat} {pred block : SSABlock} {exit : Option Nat}
    (foundP : func.getBlock p = some pred) (foundB : func.getBlock b = some block)
    (edge : b ∈ func.successors p) (safe : SafeStep func p pred.ops exit b block)
    (σ : State Val Mem) :
    arrive (phisAfter func b block) (some p)
        (execOps I (executed (insertCopies (copiesAt func p) pred.ops)
          (exit.map (position func p pred.ops))) σ) =
      arrive block.phis (some p) (execOps I (executed pred.ops exit) σ) := by
  by_cases reached : Reached pred.ops exit
  · obtain ⟨safeReads, order, sources, kept⟩ := safe.copies reached
    have functional := form.copy_functional foundB edge
    have definesNoPhi : ∀ phi ∈ block.phis,
        ∀ op ∈ (executed pred.ops exit).drop (insertPosition pred.ops), op.dst ≠ some phi.dst :=
      fun phi inPhis op member => form.opDsts foundB foundP inPhis
        (mem_of_mem_executed (mem_of_mem_drop member))
    have original : execOps I (executed pred.ops exit) σ =
        execOps I ((executed pred.ops exit).drop (insertPosition pred.ops))
          (execOps I (pred.ops.take (insertPosition pred.ops)) σ) := by
      rw [← execOps_append, ← executed_split reached]
    rw [executed_insertCopies reached, execOps_append, execOps_append, original]
    generalize execOps I (pred.ops.take (insertPosition pred.ops)) σ = σ₁
    obtain ⟨values, -⟩ := execOps_copies (I := I) isCopy_of_mem_copiesAt functional order σ₁
    have agrees := AgreesOff.execOps (I := I) safeReads
      ((AgreesOff.refl (copiesAt func p) σ₁).copies (I := I) (fun _ => id) isCopy_of_mem_copiesAt)
    refine form.arrive_eq foundB agrees.mem ?_ ?_ ?_
    · exact fun phi stays src isSource => agrees.env src (kept phi stays src isSource)
    · intro phi inPhis gone src isSource
      have isCopy := form.copy_of_gone foundB inPhis gone isSource
      rw [execOps_frame (definesNoPhi phi inPhis), values phi.dst src isCopy,
        execOps_frame (sources phi.dst src isCopy)]
    · intro v noSource
      refine agrees.env v ?_
      rintro ⟨src, isCopy, -⟩
      obtain ⟨phi, inPhis, src', isSource, same⟩ := form.phi_of_copy foundB edge isCopy
      obtain ⟨rfl, rfl⟩ := SSAOp.Copy.inj same
      rw [noSource phi inPhis rfl] at isSource
      cases isSource
  · rw [executed_skipped reached]
    refine form.arrive_eq foundB rfl (fun _ _ _ _ => rfl) ?_ fun _ _ => rfl
    exact fun phi inPhis gone src isSource => absurd (safe.skipped reached phi inPhis src isSource) gone

/-- Along safe steps both functions compute the same. -/
theorem SsaForm.runSteps_eq : ∀ (steps : List Step) (p : Nat) (σ : State Val Mem),
    Follows func p steps → SafeSteps func p steps →
    runSteps I (materializePhis func) p σ (translate func p steps) = runSteps I func p σ steps
  | [], _, _, _, _ => rfl
  | step :: rest, p, σ, follows, safe => by
    obtain ⟨pred, block, foundP, foundB, edge, -, follows⟩ := follows
    have same := form.step_eq I foundP foundB edge (safe.1 pred block foundP foundB) σ
    rw [translate, runSteps, runSteps, getBlock_materializePhis, getBlock_materializePhis, foundP,
      foundB]
    simp only [map_some, getD_some]
    rw [same]
    exact SsaForm.runSteps_eq rest step.next _ follows safe.2

end Runs

section Reads

variable {func : SSAFunction} {Val Mem : Type} (I : Interpretation Val Mem) {p i : Nat}
  {ops : List SSAOp} {op : SSAOp}

theorem length_front : (ops.take (insertPosition ops) ++ copiesAt func p).length =
    insertPosition ops + (copiesAt func p).length := by
  rw [length_append, length_take, Nat.min_eq_left (insertPosition_le ops)]

theorem getElem?_position (present : ops[i]? = some op) :
    (insertCopies (copiesAt func p) ops)[position func p ops i]? = some op := by
  have bound := insertPosition_le ops
  rw [insertCopies, position]
  split
  · rename_i before
    rw [append_assoc, List.getElem?_append_left, List.getElem?_take_of_lt before, present]
    rw [length_take, Nat.min_eq_left bound]
    exact before
  · rw [List.getElem?_append_right (by rw [length_front]; omega), length_front, List.getElem?_drop,
      ← present]
    congr 1
    omega

/-- Operations read the same values from blocks with copies. -/
theorem reads_position (present : ops[i]? = some op)
    (safe : SafeReads func p ops (ops.take (i + 1))) (σ : State Val Mem) :
    reads (execOps I ((insertCopies (copiesAt func p) ops).take (position func p ops i)) σ) op =
        reads (execOps I (ops.take i) σ) op ∧
      (execOps I ((insertCopies (copiesAt func p) ops).take (position func p ops i)) σ).mem =
        (execOps I (ops.take i) σ).mem := by
  have bound := insertPosition_le ops
  by_cases before : i < insertPosition ops
  · have same : (insertCopies (copiesAt func p) ops).take (position func p ops i) = ops.take i := by
      rw [position, if_pos before, insertCopies, append_assoc, take_append_of_le_length,
        take_take, Nat.min_eq_left before.le]
      rw [length_take, Nat.min_eq_left bound]
      exact before.le
    rw [same]
    exact ⟨rfl, rfl⟩
  · have original : ops.take i = ops.take (insertPosition ops) ++
        (ops.take i).drop (insertPosition ops) := by
      conv_lhs => rw [← take_append_drop (insertPosition ops) (ops.take i)]
      rw [take_take, Nat.min_eq_left (by omega)]
    have result : (insertCopies (copiesAt func p) ops).take (position func p ops i) =
        ops.take (insertPosition ops) ++ copiesAt func p ++ (ops.take i).drop (insertPosition ops) := by
      rw [position, if_neg before, insertCopies, take_append,
        take_of_length_le (by rw [length_front]; omega), length_front, drop_take]
      congr 2
      omega
    -- The operation itself is the last of those that must not read an overwritten variable.
    have upTo : (ops.take (i + 1)).drop (insertPosition ops) =
        (ops.take i).drop (insertPosition ops) ++ [op] := by
      rw [take_add_one, present, drop_append_of_le_length]
      · rfl
      · rw [length_take]
        omega
    rw [SafeReads, upTo] at safe
    have agrees := AgreesOff.execOps (I := I)
      (fun op member => safe op (mem_append_left _ member))
      ((AgreesOff.refl (copiesAt func p) (execOps I (ops.take (insertPosition ops)) σ)).copies
        (I := I) (fun _ => id) isCopy_of_mem_copiesAt)
    rw [result, execOps_append, execOps_append, original, execOps_append]
    rw [← original]
    exact ⟨agrees.reads (safe op (by simp)), agrees.mem⟩

end Reads

/-! ## Whole runs -/

section Whole

variable {func : SSAFunction}

private theorem successors_materializePhis (p : Nat) :
    (materializePhis func).successors p = func.successors p := by
  rw [SSAFunction.successors, SSAFunction.successors, (materializePhis_cfg func).1]

theorem Follows.translate : ∀ {steps : List Step} {p : Nat}, Follows func p steps →
    Follows (materializePhis func) p (translate func p steps)
  | [], _, _ => trivial
  | step :: rest, p, follows => by
    obtain ⟨pred, block, foundP, foundB, edge, leaves, follows⟩ := follows
    refine ⟨_, _, by rw [getBlock_materializePhis, foundP]; rfl,
      by rw [getBlock_materializePhis, foundB]; rfl, ?_, ?_, Follows.translate follows⟩
    · rw [successors_materializePhis]
      exact edge
    · intro e isExit
      rw [foundP] at isExit
      obtain ⟨e', isExit', rfl⟩ := map_eq_some_iff.mp isExit
      obtain ⟨op, present, transfers⟩ := leaves e' isExit'
      exact ⟨op, getElem?_position present, transfers⟩

private theorem arrive_none {Val Mem : Type} (phis : List PhiNode) (σ : State Val Mem) :
    arrive phis none σ = σ := by
  unfold arrive
  congr
  funext v
  have noSource : ∀ found : Option PhiNode, found.bind (sourceFor · none) = none := by
    intro found
    cases found <;> rfl
  rw [noSource]
  rfl

theorem runFrom_eq {Val Mem : Type} (I : Interpretation Val Mem) {init : State Val Mem}
    {steps : List Step} (present : (func.getBlock func.entry).isSome) :
    runFrom I func init steps = runSteps I func func.entry init steps := by
  obtain ⟨block, found⟩ := isSome_iff_exists.mp present
  rw [runFrom, found]
  exact congrArg (fun σ => runSteps I func func.entry σ steps) (arrive_none block.phis init)

/-- On safe runs the result goes through the same blocks with the same values:
phis give variables the same values, and operations read the same ones. -/
theorem materializePhis_preserves (form : SsaForm func) {Val Mem : Type} (I : Interpretation Val Mem)
    (init : State Val Mem) (steps : List Step) (follows : Follows func func.entry steps)
    (safe : SafeSteps func func.entry steps) :
    Follows (materializePhis func) func.entry (translate func func.entry steps) ∧
    runFrom I (materializePhis func) init (translate func func.entry steps) =
      runFrom I func init steps ∧
    ∀ p σ block i op, runFrom I func init steps = (p, σ) → func.getBlock p = some block →
      block.ops[i]? = some op → SafeReads func p block.ops (block.ops.take (i + 1)) →
      ∃ block', (materializePhis func).getBlock p = some block' ∧
        block'.ops[position func p block.ops i]? = some op ∧
        reads (execOps I (block'.ops.take (position func p block.ops i)) σ) op =
          reads (execOps I (block.ops.take i) σ) op ∧
        (execOps I (block'.ops.take (position func p block.ops i)) σ).mem =
          (execOps I (block.ops.take i) σ).mem := by
  refine ⟨follows.translate, ?_, ?_⟩
  · have isEntry := (materializePhis_cfg func).2
    cases found : func.getBlock func.entry with
    | none =>
      have missing : (materializePhis func).getBlock (materializePhis func).entry = none := by
        rw [isEntry, getBlock_materializePhis, found]
        rfl
      rw [runFrom, runFrom, missing, found, isEntry]
    | some block =>
      have present : (func.getBlock func.entry).isSome := by rw [found]; rfl
      have present' : ((materializePhis func).getBlock (materializePhis func).entry).isSome := by
        rw [isEntry, getBlock_materializePhis, found]
        rfl
      rw [runFrom_eq I present, runFrom_eq I present', isEntry]
      exact form.runSteps_eq I steps func.entry init follows safe
  · intro p σ block i op _ found present safeReads
    refine ⟨_, by rw [getBlock_materializePhis, found]; rfl, getElem?_position present, ?_⟩
    exact reads_position I present safeReads σ

end Whole

section Examples

/-- An entry and a block that loops for ever. -/
def loopCfg : CFG :=
  (CFG.fromBlocks [⟨0, 4, [.Branch ⟨.Const, 4, 8⟩], none⟩,
    ⟨4, 4, [.Branch ⟨.Const, 4, 8⟩], none⟩]).getD (CFG.new 0)

def loopWith (phis : List PhiNode) : SSAFunction where
  entry := 0
  cfg := loopCfg
  domtree := DomTree.compute loopCfg
  blocks := (AList.insert 0 ⟨0, 4, [.Branch ⟨"const:4", 0, 8⟩], []⟩ ∅).insert 4
    ⟨4, 4, [.Branch ⟨"const:4", 0, 8⟩], phis⟩
  blockOrder := [0, 4]

def x (version : Nat) : SSAVar := ⟨"x", version, 8⟩
def y (version : Nat) : SSAVar := ⟨"y", version, 8⟩

/-- The loop exchanges two variables. -/
def swapLoop : SSAFunction := loopWith [⟨x 1, [(0, x 0), (4, y 1)]⟩, ⟨y 1, [(0, y 0), (4, x 1)]⟩]

/-- The loop moves one variable to another. -/
def shiftLoop : SSAFunction := loopWith [⟨x 1, [(0, x 0), (4, y 1)]⟩, ⟨y 1, [(0, y 0), (4, y 0)]⟩]

theorem getBlock_loopWith {phis : List PhiNode} {b : Nat} {block : SSABlock}
    (found : (loopWith phis).getBlock b = some block) :
    (b = 0 ∧ block = ⟨0, 4, [.Branch ⟨"const:4", 0, 8⟩], []⟩) ∨
      (b = 4 ∧ block = ⟨4, 4, [.Branch ⟨"const:4", 0, 8⟩], phis⟩) := by
  have isBlock : AList.lookup b (loopWith phis).blocks = some block := found
  unfold loopWith at isBlock
  by_cases isLoop : b = 4
  · subst isLoop
    exact .inr ⟨rfl, (some.inj isBlock).symm⟩
  · rw [AList.lookup_insert_ne isLoop] at isBlock
    by_cases isEntry : b = 0
    · subst isEntry
      exact .inl ⟨rfl, (some.inj isBlock).symm⟩
    · rw [AList.lookup_insert_ne isEntry, AList.lookup_empty] at isBlock
      cases isBlock

theorem successors_loopWith (phis : List PhiNode) :
    (loopWith phis).successors 0 = [4] ∧ (loopWith phis).successors 4 = [4] := by
  have both : loopCfg.successors 0 = [4] ∧ loopCfg.successors 4 = [4] := by decide +kernel
  exact both

/-- Phis with distinct destinations and one source for each predecessor. -/
theorem loopWith_ssaForm {phis : List PhiNode} (dsts : (phis.map PhiNode.dst).Nodup)
    (preds : ∀ phi ∈ phis, phi.sources.map Prod.fst = [0, 4]) : SsaForm (loopWith phis) where
  addressed addr block found := by
    rcases getBlock_loopWith found with ⟨rfl, rfl⟩ | ⟨rfl, rfl⟩ <;> rfl
  phiDsts := by
    intro b block found
    rcases getBlock_loopWith found with ⟨rfl, rfl⟩ | ⟨rfl, rfl⟩
    · exact nodup_nil
    · exact dsts
  opDsts := by
    intro b block p other phi op _ foundOther _ member
    rcases getBlock_loopWith foundOther with ⟨rfl, rfl⟩ | ⟨rfl, rfl⟩ <;>
    · rw [mem_singleton] at member
      rw [member]
      nofun
  preds := by
    intro b block phi source found inPhis inSources
    rcases getBlock_loopWith found with ⟨rfl, rfl⟩ | ⟨rfl, rfl⟩
    · exact absurd inPhis not_mem_nil
    · have isPred : source.1 ∈ [0, 4] := by
        rw [← preds phi inPhis]
        exact mem_map_of_mem inSources
      have successors := successors_loopWith phis
      rcases mem_cons.mp isPred with isEntry | isLoop
      · rw [isEntry, successors.1]
        exact mem_singleton_self 4
      · rw [mem_singleton.mp isLoop, successors.2]
        exact mem_singleton_self 4
  unique := by
    intro b block phi pred src src' found inPhis first second
    rcases getBlock_loopWith found with ⟨rfl, rfl⟩ | ⟨rfl, rfl⟩
    · exact absurd inPhis not_mem_nil
    · have nodup : (phi.sources.map Prod.fst).Nodup := by
        rw [preds phi inPhis]
        decide
      exact congrArg Prod.snd (inj_on_of_nodup_map nodup first second rfl)

/-- Copies copy, and everything else gives zero. -/
def copying : Interpretation Nat Unit where
  exec op values mem :=
    match op with
    | .Copy _ _ => (values.headD 0, mem)
    | _ => (0, mem)
  copy _ _ _ _ := rfl

def init : State Nat Unit := ⟨fun v => if v = x 0 then 1 else 2, ()⟩

def twice : List Step := [⟨none, 4⟩, ⟨none, 4⟩]

theorem follows_twice (phis : List PhiNode) : Follows (loopWith phis) 0 twice := by
  have successors := successors_loopWith phis
  refine ⟨_, _, rfl, rfl, ?_, nofun, _, _, rfl, rfl, ?_, nofun, trivial⟩
  · exact mem_singleton_self 4
  · exact mem_singleton_self 4

/-- Exchanging two variables by copies in a row loses one of them. -/
theorem swapLoop_differs : ¬ ∀ func : SSAFunction, SsaForm func →
    ∀ (I : Interpretation Nat Unit) (init : State Nat Unit) (steps : List Step),
      Follows func func.entry steps →
      runFrom I (materializePhis func) init (translate func func.entry steps) =
        runFrom I func init steps := by
  intro preserves
  have same := preserves swapLoop (loopWith_ssaForm (by decide) (by decide)) copying init twice
    (follows_twice _)
  have value := congrArg (fun run => run.2.env (y 1)) same
  exact absurd value (by decide +kernel)

theorem inOrder_pair {d s d' s' : SSAVar} (distinct : s' ≠ d) :
    InOrder [.Copy d s, .Copy d' s'] := by
  intro before dst src after isCopies
  match before with
  | [] =>
    rintro ⟨_, member, _⟩
    exact absurd member not_mem_nil
  | [op] =>
    obtain ⟨rfl, isSecond⟩ := List.cons.inj isCopies
    obtain ⟨rfl, rfl⟩ := SSAOp.Copy.inj (List.cons.inj isSecond).1
    rintro ⟨other, member, _⟩
    exact distinct (SSAOp.Copy.inj (mem_singleton.mp member)).1
  | op :: op' :: before =>
    have tooLong := congrArg List.length isCopies
    simp only [length_cons, length_append, length_nil] at tooLong
    omega

/-- A loop whose copies are in order and are read by nothing after them. -/
theorem shiftLoop_safe {p : Nat} {block target : SSABlock} {b : Nat}
    (found : shiftLoop.getBlock p = some block) (foundTarget : shiftLoop.getBlock b = some target) :
    SafeStep shiftLoop p block.ops none b target := by
  have entryCopies : copiesAt shiftLoop 0 = [.Copy (x 1) (x 0), .Copy (y 1) (y 0)] := by
    decide +kernel
  have loopCopies : copiesAt shiftLoop 4 = [.Copy (x 1) (y 1), .Copy (y 1) (y 0)] := by
    decide +kernel
  have noPhis : phisAfter shiftLoop b target = [] := by
    rcases getBlock_loopWith foundTarget with ⟨rfl, rfl⟩ | ⟨rfl, rfl⟩ <;> decide +kernel
  have onlyBranch : ∀ op ∈ block.ops, op = .Branch ⟨"const:4", 0, 8⟩ := by
    rcases getBlock_loopWith found with ⟨rfl, rfl⟩ | ⟨rfl, rfl⟩ <;>
      exact fun op member => mem_singleton.mp member
  refine ⟨fun _ => ⟨?_, ?_, ?_, ?_⟩, fun skipped => absurd nofun skipped⟩
  · intro op member src isSource
    rw [onlyBranch op (mem_of_mem_drop member)] at isSource
    obtain rfl := mem_singleton.mp isSource
    rintro ⟨other, isCopy, -⟩
    rcases getBlock_loopWith found with ⟨rfl, rfl⟩ | ⟨rfl, rfl⟩
    · rw [entryCopies] at isCopy
      simp [x, y] at isCopy
    · rw [loopCopies] at isCopy
      simp [x, y] at isCopy
  · rcases getBlock_loopWith found with ⟨rfl, rfl⟩ | ⟨rfl, rfl⟩
    · exact inOrder_pair (by decide)
    · exact inOrder_pair (by decide)
  · intro dst src _ op member
    rw [onlyBranch op (mem_of_mem_drop member)]
    nofun
  · rw [noPhis]
    nofun

theorem shiftLoop_preserved : runFrom copying (materializePhis shiftLoop) init twice =
    runFrom copying shiftLoop init twice := by
  refine (materializePhis_preserves (loopWith_ssaForm (by decide) (by decide)) copying init twice
    (follows_twice _) ⟨?_, ?_, trivial⟩).2.1
  · exact fun block target found foundTarget => shiftLoop_safe found foundTarget
  · exact fun block target found foundTarget => shiftLoop_safe found foundTarget

end Examples

end R2Sleigh.Dec
