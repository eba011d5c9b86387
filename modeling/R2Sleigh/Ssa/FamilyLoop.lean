import R2Sleigh.Ssa.FamilyFlow

/-!
Contract: the rounds that propagate register families.

Owns `stepStates`, `MayHold` and `NoCopyCircle`.

The contents of a slot can come from another slot, by a copy, or stay where they
are, if all predecessors hold the same. A slot that only stays where it is around a
loop is never known, since the rounds start from empty states.
-/

namespace R2Sleigh.Ssa.Family

open Il Lib List

variable {info : RegisterFamilyInfo} {func : SSAFunction}
variable {slot : RegisterFamilySlot} {state : FamilyRootState}

/-! ## One block -/

def Records (states : HashMap Nat FamilyRootState) (addr : Nat) (next : FamilyRootState) : Prop :=
  ∃ state, states.lookup addr = some state ∧ ∀ slot, state.lookup slot = next.lookup slot

theorem recordState_spec (states : HashMap Nat FamilyRootState) (addr : Nat)
    (next : FamilyRootState) :
    Records (recordState states addr next).1 addr next ∧
      (∀ b, b ≠ addr → (recordState states addr next).1.lookup b = states.lookup b) ∧
      ((recordState states addr next).2 = true ↔ ¬ Records states addr next) := by
  unfold recordState
  cases found : states.lookup addr with
  | none =>
    refine ⟨⟨next, AList.lookup_insert _, fun _ => rfl⟩, fun b other =>
      AList.lookup_insert_ne other, iff_of_true rfl ?_⟩
    rintro ⟨state, isState, -⟩
    rw [found] at isState
    cases isState
  | some state =>
    have records : Records states addr next ↔ sameState state next = true := by
      rw [sameState_iff]
      constructor
      · rintro ⟨state', isState, same⟩
        rw [found] at isState
        cases isState
        exact same
      · exact fun same => ⟨state, found, same⟩
    dsimp only
    by_cases same : sameState state next = true
    · rw [if_pos same]
      exact ⟨records.mpr same, fun _ _ => rfl,
        iff_of_false Bool.false_ne_true (not_not.mpr (records.mpr same))⟩
    · rw [if_neg same]
      exact ⟨⟨next, AList.lookup_insert _, fun _ => rfl⟩, fun b other =>
        AList.lookup_insert_ne other, iff_of_true rfl (records.not.mpr same)⟩

theorem Records.slotAt {states : HashMap Nat FamilyRootState} {addr : Nat} {next : FamilyRootState}
    (records : Records states addr next) (slot : RegisterFamilySlot) :
    slotAt states addr slot = next.lookup slot := by
  obtain ⟨state, found, same⟩ := records
  rw [Family.slotAt, found, Option.bind_some, same]

/-- The state at the start of a block, from the states at the ends of the others. -/
def blockIn (func : SSAFunction) (states : FamilyStates) (addr : Nat) : FamilyRootState :=
  meetFamilyStates states.outStates (func.cfg.predecessors addr)

def blockOut (info : RegisterFamilyInfo) (func : SSAFunction) (states : FamilyStates) (addr : Nat) :
    FamilyRootState :=
  transferFamilyStateForBlock info func addr (blockIn func states addr)

/-- Both states of the block are recorded as they follow from `mixed`. -/
def Recorded (info : RegisterFamilyInfo) (func : SSAFunction) (mixed states : FamilyStates)
    (addr : Nat) : Prop :=
  Records states.inStates addr (blockIn func mixed addr) ∧
    Records states.outStates addr (blockOut info func mixed addr)

theorem familyStep_spec (info : RegisterFamilyInfo) (func : SSAFunction)
    (acc : FamilyStates × Bool) (addr : Nat) :
    Recorded info func acc.1 (familyStep info func acc addr).1 addr ∧
      (∀ b, b ≠ addr →
        (familyStep info func acc addr).1.inStates.lookup b = acc.1.inStates.lookup b ∧
        (familyStep info func acc addr).1.outStates.lookup b = acc.1.outStates.lookup b) ∧
      ((familyStep info func acc addr).2 = true ↔
        acc.2 = true ∨ ¬ Recorded info func acc.1 acc.1 addr) := by
  obtain ⟨inHere, inOthers, inFlag⟩ :=
    recordState_spec acc.1.inStates addr (blockIn func acc.1 addr)
  obtain ⟨outHere, outOthers, outFlag⟩ :=
    recordState_spec acc.1.outStates addr (blockOut info func acc.1 addr)
  refine ⟨⟨inHere, outHere⟩, fun b other => ⟨inOthers b other, outOthers b other⟩, ?_⟩
  have flag : (familyStep info func acc addr).2 = (acc.2 ||
      (recordState acc.1.inStates addr (blockIn func acc.1 addr)).2 ||
      (recordState acc.1.outStates addr (blockOut info func acc.1 addr)).2) := rfl
  rw [flag, Bool.or_eq_true, Bool.or_eq_true, inFlag, outFlag, Recorded, or_assoc]
  exact or_congr_right (by tauto)

/-! ## One round -/

/-- Each slot is as in one of two states. -/
def Between (before after mixed : FamilyStates) : Prop :=
  ∀ p slot, slotAt mixed.outStates p slot = slotAt before.outStates p slot ∨
    slotAt mixed.outStates p slot = slotAt after.outStates p slot

/-- A round over distinct blocks: each block is recorded as it follows from states
that are between those before and after the round. -/
theorem foldl_familyStep_spec (info : RegisterFamilyInfo) (func : SSAFunction) (order : List Nat) :
    ∀ acc : FamilyStates × Bool, order.Nodup →
    let after := order.foldl (familyStep info func) acc
    (∀ b ∉ order, after.1.inStates.lookup b = acc.1.inStates.lookup b ∧
      after.1.outStates.lookup b = acc.1.outStates.lookup b) ∧
    (∀ b ∈ order, ∃ mixed, Between acc.1 after.1 mixed ∧ Recorded info func mixed after.1 b) ∧
    (after.2 = true → acc.2 = true ∨
      ∃ b ∈ order, ∃ mixed, Between acc.1 after.1 mixed ∧ ¬ Recorded info func mixed acc.1 b) := by
  induction order with
  | nil => exact fun acc _ => ⟨fun _ _ => ⟨rfl, rfl⟩, by simp, .inl⟩
  | cons addr rest ih =>
    intro acc nodup
    obtain ⟨notLater, nodupRest⟩ := nodup_cons.mp nodup
    obtain ⟨here, others, flag⟩ := familyStep_spec info func acc addr
    obtain ⟨outside, inside, laterFlag⟩ := ih (familyStep info func acc addr) nodupRest
    rw [foldl_cons]
    set next := familyStep info func acc addr
    set after := rest.foldl (familyStep info func) next
    -- a block visited before is final, the others are as they were
    have between : ∀ mixed, Between next.1 after.1 mixed → Between acc.1 after.1 mixed := by
      intro mixed isBetween p slot
      rcases isBetween p slot with isNext | isAfter
      · by_cases isAddr : p = addr
        · subst isAddr
          rw [isNext, slotAt, slotAt, slotAt, (outside p notLater).2]
          exact .inr rfl
        · rw [isNext, slotAt, slotAt, (others p isAddr).2]
          exact .inl rfl
      · exact .inr isAfter
    have starts : Between acc.1 after.1 acc.1 := fun _ _ => .inl rfl
    refine ⟨fun b absent => ?_, fun b mem => ?_, fun changed => ?_⟩
    · obtain ⟨notAddr, notRest⟩ := not_or.mp (mem_cons.not.mp absent)
      exact ⟨(outside b notRest).1.trans (others b notAddr).1,
        (outside b notRest).2.trans (others b notAddr).2⟩
    · rcases mem_cons.mp mem with rfl | mem
      · refine ⟨acc.1, starts, ?_⟩
        obtain ⟨inHere, outHere⟩ := here
        rw [Recorded, Records, Records, (outside b notLater).1, (outside b notLater).2]
        exact ⟨inHere, outHere⟩
      · obtain ⟨mixed, isBetween, recorded⟩ := inside b mem
        exact ⟨mixed, between mixed isBetween, recorded⟩
    · rcases laterFlag changed with changed | ⟨b, mem, mixed, isBetween, unrecorded⟩
      · rcases flag.mp changed with changed | unrecorded
        · exact .inl changed
        · exact .inr ⟨addr, mem_cons_self, acc.1, starts, unrecorded⟩
      · refine .inr ⟨b, mem_cons_of_mem _ mem, mixed, between mixed isBetween, ?_⟩
        have notAddr : b ≠ addr := fun same => notLater (same ▸ mem)
        rw [Recorded, Records, Records, (others b notAddr).1, (others b notAddr).2] at unrecorded
        exact unrecorded

/-! ## All rounds -/

/-- The states after a number of rounds. -/
def stepStates (info : RegisterFamilyInfo) (func : SSAFunction) (n : Nat) : FamilyStates :=
  (fun states => (familyRound info func states).1)^[n] ⟨∅, ∅⟩

theorem stepStates_succ (n : Nat) : stepStates info func (n + 1) =
    (familyRound info func (stepStates info func n)).1 :=
  Function.iterate_succ_apply' ..

theorem computeDecompileFamilyInStates_isSome_iff :
    (∃ fuel, (computeDecompileFamilyInStates info func fuel).isSome) ↔
      ∃ n, (familyRound info func (stepStates info func n)).2 = false := by
  have loop : ∀ fuel states, familyLoop info func (fuel + 1) states =
      if (familyRound info func states).2 then familyLoop info func fuel (familyRound info func states).1
      else some (familyRound info func states).1 := by
    intro fuel states
    rw [familyLoop]
    cases familyRound info func states with
    | mk next changed => cases changed <;> rfl
  simp only [computeDecompileFamilyInStates, Option.isSome_map]
  exact returns_iff_of_rounds (fun _ => rfl) loop ⟨∅, ∅⟩

/-! ## Slots that settle -/

/-- The contents of a slot at the end of a block, round by round. -/
def slotRun (info : RegisterFamilyInfo) (func : SSAFunction) (cell : Nat × RegisterFamilySlot)
    (n : Nat) : Option SSAVar :=
  slotAt (stepStates info func n).outStates cell.1 cell.2

/-- What a slot at the end of a block may hold after a visit: what the block makes of
contents that its predecessors may hold, where those not visited before it may still hold
nothing. -/
inductive MayHold (info : RegisterFamilyInfo) (func : SSAFunction) :
    Nat × RegisterFamilySlot → Option SSAVar → Prop
  | visit {b : Nat} (listed : b ∈ func.blockOrder) (outStates : HashMap Nat FamilyRootState)
      (slot : RegisterFamilySlot)
      (held : ∀ p ∈ func.cfg.predecessors b, ∀ slot,
        p ∈ func.blockOrder.takeWhile (· ≠ b) ∨ (slotAt outStates p slot).isSome →
          MayHold info func (p, slot) (slotAt outStates p slot)) :
    MayHold info func (b, slot) ((transferFamilyStateForBlock info func b
      (meetFamilyStates outStates (func.cfg.predecessors b))).lookup slot)

/-- The slot at the end of one block that a slot at the end of the next takes its contents
from: all predecessors may hold the same there, and it may hold different contents. -/
structure SlotFlows (info : RegisterFamilyInfo) (func : SSAFunction)
    (u v : Nat × RegisterFamilySlot) : Prop where
  listed : v.1 ∈ func.blockOrder
  isPred : u.1 ∈ func.cfg.predecessors v.1
  origin : slotOrigin info (func.getBlock v.1) v.2 = some u.2
  common : ∃ var, ∀ p ∈ func.cfg.predecessors v.1, MayHold info func (p, u.2) (some var)
  varies : ∃ c c', c ≠ c' ∧ MayHold info func u c ∧ MayHold info func u c'

/-- No slot takes changing contents from itself, around a loop. -/
def NoCopyCircle (info : RegisterFamilyInfo) (func : SSAFunction) : Prop :=
  ∀ v, ¬ Relation.TransGen (SlotFlows info func) v v

variable {cell : Nat × RegisterFamilySlot} {c : Option SSAVar}

theorem MayHold.listed (holds : MayHold info func cell c) : cell.1 ∈ func.blockOrder := by
  cases holds with
  | visit listed => exact listed

/-- Nothing is held at blocks that do not write a family and each have one of them
before it. -/
theorem MayHold.unknown {blocks : Nat → Prop}
    (silent : ∀ b, blocks b → ∀ block, func.getBlock b = some block →
      ¬ BlockWritesFamily info block slot.familyId)
    (before : ∀ b, blocks b → ∃ p ∈ func.cfg.predecessors b, blocks p)
    (holds : MayHold info func cell c) (inside : blocks cell.1) (here : cell.2 = slot) :
    c = none := by
  induction holds with
  | @visit b _ outStates _ _ ih =>
    obtain rfl := here
    rw [lookup_transfer_of_not_writes (silent b inside)]
    refine Option.eq_none_iff_forall_ne_some.mpr fun v found => ?_
    obtain ⟨p, inPreds, insideP⟩ := before b inside
    have leaves := (lookup_meetFamilyStates.mp found).2 p inPreds
    have unknown := ih p inPreds _ (.inr (by rw [leaves]; rfl)) insideP rfl
    rw [leaves] at unknown
    cases unknown

/-- What the blocks visited so far hold, they may hold; the others hold nothing. -/
def Visited (info : RegisterFamilyInfo) (func : SSAFunction) (done : List Nat)
    (states : FamilyStates) : Prop :=
  ∀ p slot, p ∈ done ∨ (slotAt states.outStates p slot).isSome →
    MayHold info func (p, slot) (slotAt states.outStates p slot)

theorem Visited.step {done rest : List Nat} {addr : Nat} {acc : FamilyStates × Bool}
    (order : func.blockOrder = done ++ addr :: rest) (fresh : addr ∉ done)
    (visited : Visited info func done acc.1) :
    Visited info func (done ++ [addr]) (familyStep info func acc addr).1 := by
  intro p slot known
  obtain ⟨here, others, -⟩ := familyStep_spec info func acc addr
  by_cases isAddr : p = addr
  · subst isAddr
    have others : ∀ b ∈ done, decide (b ≠ p) = true := fun b mem =>
      decide_eq_true (ne_of_mem_of_not_mem mem fresh)
    have earlier : func.blockOrder.takeWhile (· ≠ p) = done := by
      rw [order, takeWhile_append_of_pos others, takeWhile_cons_of_neg (by simp), append_nil]
    rw [here.2.slotAt]
    refine .visit (by simp [order]) acc.1.outStates slot fun q _ slot' known => ?_
    rw [earlier] at known
    exact visited q slot' known
  · rw [slotAt, (others p isAddr).2] at known ⊢
    refine visited p slot (known.imp_left fun mem => ?_)
    exact (mem_append.mp mem).resolve_right fun same => isAddr (mem_singleton.mp same)

theorem Visited.foldl (order : func.blockOrder.Nodup) : ∀ (rest done : List Nat)
    (acc : FamilyStates × Bool), func.blockOrder = done ++ rest → Visited info func done acc.1 →
      Visited info func func.blockOrder (rest.foldl (familyStep info func) acc).1 := by
  intro rest
  induction rest with
  | nil =>
    intro done acc split visited
    rw [split, append_nil]
    exact visited
  | cons addr rest ih =>
    intro done acc split visited
    have fresh : addr ∉ done := fun mem =>
      (nodup_append.mp (split ▸ order)).2.2 addr mem addr mem_cons_self rfl
    exact ih (done ++ [addr]) _ (by rw [split, append_assoc, singleton_append])
      (visited.step split fresh)

section Rounds

variable (order : func.blockOrder.Nodup)
include order

theorem visited_stepStates (n : Nat) : Visited info func [] (stepStates info func n) ∧
    Visited info func func.blockOrder (stepStates info func (n + 1)) := by
  have round : ∀ n, Visited info func [] (stepStates info func n) →
      Visited info func func.blockOrder (stepStates info func (n + 1)) := by
    intro n visited
    rw [stepStates_succ]
    exact Visited.foldl order func.blockOrder [] (stepStates info func n, false) rfl visited
  induction n with
  | zero =>
    have empty : Visited info func [] (stepStates info func 0) := by
      rintro p slot (mem | known)
      · cases mem
      · cases known
    exact ⟨empty, round 0 empty⟩
  | succ n ih =>
    have visited : Visited info func [] (stepStates info func (n + 1)) := fun p slot known =>
      ih.2 p slot (known.imp_left fun mem => absurd mem not_mem_nil)
    exact ⟨visited, round (n + 1) visited⟩

theorem mayHold_slotRun (info : RegisterFamilyInfo) (listed : cell.1 ∈ func.blockOrder) (n : Nat) :
    MayHold info func cell (slotRun info func cell (n + 1)) :=
  (visited_stepStates order n).2 cell.1 cell.2 (.inl listed)

theorem mayHold_of_slotRun {n : Nat} {v : SSAVar} (holds : slotRun info func cell n = some v) :
    MayHold info func cell (some v) := by
  have held : MayHold info func cell (slotRun info func cell n) :=
    (visited_stepStates order n).1 cell.1 cell.2 (.inr (by rw [← slotRun, holds]; rfl))
  rwa [holds] at held

theorem slotRun_succ (info : RegisterFamilyInfo) (mem : cell.1 ∈ func.blockOrder)
    (n : Nat) : ∃ mixed,
      Between (stepStates info func n) (stepStates info func (n + 1)) mixed ∧
      slotRun info func cell (n + 1) = (blockOut info func mixed cell.1).lookup cell.2 := by
  obtain ⟨mixed, between, recorded⟩ :=
    (foldl_familyStep_spec info func func.blockOrder (stepStates info func n, false) order).2.1
      cell.1 mem
  rw [← familyRound, ← stepStates_succ] at between recorded
  exact ⟨mixed, between, recorded.2.slotAt cell.2⟩

/-- A slot at the start of a block settles with those before it that it takes changing
contents from. -/
theorem settles_blockIn {b : Nat} {slot : RegisterFamilySlot}
    (settled : (∃ var, ∀ p ∈ func.cfg.predecessors b, MayHold info func (p, slot) (some var)) →
      ∀ p ∈ func.cfg.predecessors b, Settles (slotRun info func (p, slot))) :
    ∃ bound, ∀ n n' mixed mixed', bound ≤ n → bound ≤ n' →
      Between (stepStates info func n) (stepStates info func (n + 1)) mixed →
      Between (stepStates info func n') (stepStates info func (n' + 1)) mixed' →
      (blockIn func mixed b).lookup slot = (blockIn func mixed' b).lookup slot := by
  by_cases common :
      ∃ var, ∀ p ∈ func.cfg.predecessors b, MayHold info func (p, slot) (some var)
  · obtain ⟨bound, constant⟩ := Settles.together (fun p => slotRun info func (p, slot))
      (func.cfg.predecessors b) (settled common)
    refine ⟨bound, fun n n' mixed mixed' large large' between between' => ?_⟩
    refine lookup_meetFamilyStates_congr fun p inPreds => ?_
    have same := constant p inPreds
    rcases between p slot with first | first <;> rcases between' p slot with second | second
    all_goals exact first.trans ((same _ _ (by omega) (by omega)).trans second.symm)
  · -- the predecessors agree on nothing
    have unknown : ∀ n mixed,
        Between (stepStates info func n) (stepStates info func (n + 1)) mixed →
        (blockIn func mixed b).lookup slot = none := by
      intro n mixed between
      refine Option.eq_none_iff_forall_ne_some.mpr fun v known => common ⟨v, fun p inPreds => ?_⟩
      have leaves := (lookup_meetFamilyStates.mp known).2 p inPreds
      rcases between p slot with same | same
      · exact mayHold_of_slotRun (n := n) order (same.symm.trans leaves)
      · exact mayHold_of_slotRun (n := n + 1) order (same.symm.trans leaves)
    exact ⟨0, fun n n' mixed mixed' _ _ between between' =>
      (unknown n mixed between).trans (unknown n' mixed' between').symm⟩

private theorem settles_slotRun (listed : cell.1 ∈ func.blockOrder)
    (settled : ∀ u, SlotFlows info func u cell → Settles (slotRun info func u)) :
    Settles (slotRun info func cell) := by
  obtain ⟨bound, constant⟩ : ∃ bound, ∀ n n' mixed mixed', bound ≤ n → bound ≤ n' →
      Between (stepStates info func n) (stepStates info func (n + 1)) mixed →
      Between (stepStates info func n') (stepStates info func (n' + 1)) mixed' →
      ∀ origin, slotOrigin info (func.getBlock cell.1) cell.2 = some origin →
      (blockIn func mixed cell.1).lookup origin = (blockIn func mixed' cell.1).lookup origin := by
    cases isOrigin : slotOrigin info (func.getBlock cell.1) cell.2 with
    | none => exact ⟨0, fun _ _ _ _ _ _ _ _ _ found => nomatch found⟩
    | some origin =>
      have settledBefore : (∃ var, ∀ p ∈ func.cfg.predecessors cell.1,
          MayHold info func (p, origin) (some var)) →
          ∀ p ∈ func.cfg.predecessors cell.1, Settles (slotRun info func (p, origin)) := by
        intro common p inPreds
        by_cases varies : ∃ c c', c ≠ c' ∧ MayHold info func (p, origin) c ∧
            MayHold info func (p, origin) c'
        · exact settled (p, origin) ⟨listed, inPreds, isOrigin, common, varies⟩
        · obtain ⟨var, holds⟩ := common
          have inOrder := (holds p inPreds).listed
          refine Settles.of_step 1 fun n large => ?_
          obtain ⟨n, rfl⟩ := Nat.exists_eq_add_of_le' large
          by_contra differ
          exact varies ⟨_, _, differ, mayHold_slotRun order info inOrder (n + 1),
            mayHold_slotRun order info inOrder n⟩
      obtain ⟨bound, constant⟩ := settles_blockIn order settledBefore
      refine ⟨bound, fun n n' mixed mixed' large large' between between' origin' same => ?_⟩
      cases same
      exact constant n n' mixed mixed' large large' between between'
  refine Settles.of_step (bound + 1) fun n large => ?_
  obtain ⟨n, rfl⟩ := Nat.exists_eq_add_of_le' (Nat.le_trans (Nat.le_add_left 1 bound) large)
  obtain ⟨mixed, between, before⟩ := slotRun_succ order info listed n
  obtain ⟨mixed', between', after⟩ := slotRun_succ order info listed (n + 1)
  rw [before, after]
  exact lookup_transfer_congr (constant _ _ mixed' mixed (by omega) (by omega) between' between)

end Rounds

/-! ## The slots of a function -/

def phiSlots (info : RegisterFamilyInfo) (phi : PhiNode) : List RegisterFamilySlot :=
  (info.memberFor phi.dst).toList.map fun mem => ⟨mem.familyId, mem.width⟩

/-- The slots that an operation can fill. -/
def opSlots (info : RegisterFamilyInfo) (op : SSAOp) : List RegisterFamilySlot :=
  (op.dst.bind info.memberFor).toList.flatMap fun mem =>
    (mem.width :: handedWidths info mem op).map fun width => ⟨mem.familyId, width⟩

def blockSlots (info : RegisterFamilyInfo) (block : SSABlock) : List RegisterFamilySlot :=
  block.phis.flatMap (phiSlots info) ++ block.ops.flatMap (opSlots info)

private theorem filled_of_phi {phi : PhiNode}
    (found : ((applyPhiFamilyEffect info state phi).lookup slot).isSome) :
    (state.lookup slot).isSome ∨ slot ∈ phiSlots info phi := by
  rw [lookup_applyPhiFamilyEffect] at found
  cases isMember : info.memberFor phi.dst with
  | none =>
    rw [isMember] at found
    exact .inl found
  | some mem =>
    rw [isMember] at found
    dsimp only at found
    by_cases outside : slot.familyId ≠ mem.familyId
    · rw [if_pos outside] at found
      exact .inl found
    · rw [if_neg outside] at found
      split at found
      · rename_i sameWidth
        obtain ⟨familyId, width⟩ := slot
        obtain rfl : familyId = mem.familyId := not_not.mp outside
        obtain rfl : width = mem.width := sameWidth
        exact .inr (by simp [phiSlots, isMember])
      · cases found

theorem filled_of_op {op : SSAOp} (found : ((rewriteAndApply info state op).lookup slot).isSome) :
    (state.lookup slot).isSome ∨ slot ∈ opSlots info op := by
  rw [rewriteAndApply, lookup_applyOpFamilyEffect, SSAOp.dst_mapSources] at found
  cases isMember : op.dst.bind info.memberFor with
  | none =>
    rw [isMember] at found
    exact .inl found
  | some mem =>
    rw [isMember] at found
    dsimp only at found
    by_cases outside : slot.familyId ≠ mem.familyId
    · rw [if_pos outside] at found
      exact .inl found
    · rw [if_neg outside] at found
      obtain ⟨v, found⟩ := Option.isSome_iff_exists.mp found
      have width := width_of_written isMember (size_rewriteDecompileFamilySource state) found
      obtain ⟨familyId, slotWidth⟩ := slot
      obtain rfl : familyId = mem.familyId := not_not.mp outside
      refine .inr ?_
      rw [opSlots, isMember, Option.toList_some, flatMap_singleton]
      exact mem_map.mpr ⟨slotWidth, mem_cons.mpr width, rfl⟩

theorem filled_of_foldl {A : Type} (step : FamilyRootState → A → FamilyRootState)
    {fills : A → List RegisterFamilySlot} (filled : ∀ state a, ((step state a).lookup slot).isSome →
      (state.lookup slot).isSome ∨ slot ∈ fills a) (l : List A) :
    ∀ state, ((l.foldl step state).lookup slot).isSome →
      (state.lookup slot).isSome ∨ slot ∈ l.flatMap fills := by
  induction l with
  | nil => exact fun _ found => .inl found
  | cons a rest ih =>
    intro state found
    rcases ih _ found with found | later
    · refine (filled state a found).imp id fun here => ?_
      exact mem_flatMap.mpr ⟨a, mem_cons_self, here⟩
    · exact .inr (mem_append_right _ later)

private theorem filled_of_transfer {addr : Nat}
    (found : ((transferFamilyStateForBlock info func addr state).lookup slot).isSome) :
    (state.lookup slot).isSome ∨
      ∃ block, func.getBlock addr = some block ∧ slot ∈ blockSlots info block := by
  unfold transferFamilyStateForBlock at found
  cases isBlock : func.getBlock addr with
  | none =>
    rw [isBlock] at found
    exact .inl found
  | some block =>
    rw [isBlock] at found
    have ops := filled_of_foldl (rewriteAndApply info) (fun _ _ => filled_of_op) block.ops _ found
    rcases ops with found | inOps
    · have phis := filled_of_foldl (applyPhiFamilyEffect info) (fun _ _ => filled_of_phi)
        block.phis _ found
      exact phis.imp id fun inPhis => ⟨block, rfl, mem_append_left _ inPhis⟩
    · exact .inr ⟨block, rfl, mem_append_right _ inOps⟩

def slotUniverse (info : RegisterFamilyInfo) (func : SSAFunction) : List RegisterFamilySlot :=
  func.blockOrder.flatMap fun addr => ((func.getBlock addr).map (blockSlots info)).getD []

private theorem MayHold.mem_universe (holds : MayHold info func cell c) (known : c.isSome) :
    cell.2 ∈ slotUniverse info func := by
  induction holds with
  | @visit b listed outStates slot _ ih =>
    rcases filled_of_transfer known with found | ⟨block, isBlock, inBlock⟩
    · obtain ⟨v, found⟩ := Option.isSome_iff_exists.mp found
      obtain ⟨nonempty, leaves⟩ := lookup_meetFamilyStates.mp found
      obtain ⟨p, inPreds⟩ := exists_mem_of_ne_nil _ nonempty
      have isSome : (slotAt outStates p slot).isSome := by
        rw [leaves p inPreds]
        rfl
      exact ih p inPreds slot (.inr isSome) isSome
    · refine mem_flatMap.mpr ⟨b, listed, ?_⟩
      rw [isBlock]
      exact inBlock

theorem slotRun_outside (order : func.blockOrder.Nodup)
    (outside : cell ∉ func.blockOrder ×ˢ slotUniverse info func) (n : Nat) :
    slotRun info func cell n = none := by
  refine Option.eq_none_iff_forall_ne_some.mpr fun v found => outside ?_
  have holds := mayHold_of_slotRun order found
  exact mem_product.mpr ⟨holds.listed, holds.mem_universe rfl⟩

/-! ## The loop -/

/-- Every slot settles in a function without a circle that copies. -/
theorem NoCopyCircle.settles (noCircle : NoCopyCircle info func) (order : func.blockOrder.Nodup)
    (cell : Nat × RegisterFamilySlot) : Settles (slotRun info func cell) := by
  have cover : ∀ cell, cell ∉ func.blockOrder ×ˢ slotUniverse info func →
      Settles (slotRun info func cell) := fun cell outside =>
    .of_eq 0 fun n _ => slotRun_outside order outside n
  by_contra unsettled
  obtain ⟨v, -, circle⟩ := exists_unsettled_circle cover (fun v settled => by
    by_cases inside : v ∈ func.blockOrder ×ˢ slotUniverse info func
    · exact settles_slotRun order (mem_product.mp inside).1 settled
    · exact cover v inside) unsettled
  exact noCircle v (Relation.TransGen.mono (fun _ _ step => step.2) _ _ circle)

private theorem exists_bound (order : func.blockOrder.Nodup)
    (settles : ∀ cell, Settles (slotRun info func cell)) :
    ∃ bound, ∀ cell n m, bound ≤ n → bound ≤ m →
      slotRun info func cell n = slotRun info func cell m := by
  obtain ⟨bound, constant⟩ := Settles.together (slotRun info func)
    (func.blockOrder ×ˢ slotUniverse info func) fun cell _ => settles cell
  refine ⟨bound, fun cell n m large large' => ?_⟩
  by_cases mem : cell ∈ func.blockOrder ×ˢ slotUniverse info func
  · exact constant cell mem n m large large'
  · exact (slotRun_outside order mem n).trans (slotRun_outside order mem m).symm

/-- Once all slots have settled, the round after the next one changes nothing. -/
theorem familyRound_unchanged (order : func.blockOrder.Nodup) {bound : Nat}
    (constant : ∀ cell n m, bound ≤ n → bound ≤ m →
      slotRun info func cell n = slotRun info func cell m) :
    (familyRound info func (stepStates info func (bound + 1))).2 = false := by
  by_contra changed
  obtain ⟨-, -, flag⟩ := foldl_familyStep_spec info func func.blockOrder
    (stepStates info func (bound + 1), false) order
  obtain ⟨-, recorded, -⟩ := foldl_familyStep_spec info func func.blockOrder
    (stepStates info func bound, false) order
  rcases flag (Bool.not_eq_false _ ▸ changed) with impossible | ⟨b, mem, mixed, between, unrecorded⟩
  · cases impossible
  obtain ⟨mixed', between', inRecorded, outRecorded⟩ := recorded b mem
  rw [← familyRound, ← stepStates_succ] at between between' inRecorded outRecorded
  -- both states of the block were computed from the same slots
  have same : ∀ p slot, slotAt mixed'.outStates p slot = slotAt mixed.outStates p slot := by
    intro p slot
    have constant := constant (p, slot)
    rcases between p slot with first | first <;> rcases between' p slot with second | second
    all_goals exact second.trans ((constant _ _ (by omega) (by omega)).trans first.symm)
  have sameIn : ∀ slot, (blockIn func mixed' b).lookup slot = (blockIn func mixed b).lookup slot :=
    fun slot => lookup_meetFamilyStates_congr fun p _ => same p slot
  have sameOut : ∀ slot, (blockOut info func mixed' b).lookup slot =
      (blockOut info func mixed b).lookup slot :=
    fun slot => lookup_transfer_congr fun origin _ => sameIn origin
  obtain ⟨inState, inFound, inSlots⟩ := inRecorded
  obtain ⟨outState, outFound, outSlots⟩ := outRecorded
  exact unrecorded ⟨⟨inState, inFound, fun slot => (inSlots slot).trans (sameIn slot)⟩,
    ⟨outState, outFound, fun slot => (outSlots slot).trans (sameOut slot)⟩⟩

theorem NoCopyCircle.returns (noCircle : NoCopyCircle info func) (order : func.blockOrder.Nodup) :
    ∃ fuel, (computeDecompileFamilyInStates info func fuel).isSome := by
  obtain ⟨bound, constant⟩ := exists_bound order fun cell => noCircle.settles order cell
  exact computeDecompileFamilyInStates_isSome_iff.mpr
    ⟨bound + 1, familyRound_unchanged order constant⟩

end R2Sleigh.Ssa.Family
