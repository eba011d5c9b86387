import R2Sleigh.Ssa.Machine
import R2Sleigh.Ssa.StrictForm

/-!
Contract: definitions as equations of an execution.
-/

namespace R2Sleigh.Ssa

open Il Flow Lib List Option

variable {block : SSABlock} {addr opIdx : Nat} {dst : SSAVar}

/-! ## Results -/

theorem Machine.value_congr {machine machine' : Machine} {var : SSAVar}
    (same : machine'.env var = machine.env var) : machine'.value var = machine.value var := by
  unfold Machine.value
  cases constValue var with
  | some word => rfl
  | none => exact same

theorem SSAOp.result_congr {value value' : SSAVar → Nat} {op : SSAOp}
    (same : ∀ var ∈ op.sources, value' var = value var) : op.result value' = op.result value := by
  cases op <;> simp only [SSAOp.sources, mem_cons, not_mem_nil, or_false,
    forall_eq_or_imp, forall_eq, SSAOp.result] at same ⊢
  all_goals first
    | rfl
    | rw [same.1, same.2]
    | rw [same]

/-- The destination of an operation is its result, at the destination's width. -/
def Machine.Holds (machine : Machine) (op : SSAOp) : Prop :=
  ∀ dst r, op.dst = some dst → op.result machine.value = some r →
    (machine.env dst : Int) = r % 2 ^ (dst.size * 8)

theorem Machine.Holds.congr {machine machine' : Machine} {op : SSAOp} (holds : machine.Holds op)
    (dst : ∀ var, op.dst = some var → machine'.env var = machine.env var)
    (sources : ∀ var ∈ op.sources, machine'.env var = machine.env var) : machine'.Holds op := by
  intro var r isDst computes
  rw [SSAOp.result_congr fun src used => Machine.value_congr (sources src used)] at computes
  rw [dst var isDst]
  exact holds var r isDst computes

/-! ## Definitions before a point -/

namespace SSAFunction

/-- The operation is at an earlier index of the block, or in a block that strictly
dominates it. -/
def Earlier (func : SSAFunction) (addr opIdx : Nat) (op : SSAOp) : Prop :=
  ∃ d j block, func.getBlock d = some block ∧ block.ops[j]? = some op ∧
    (func.flow.SDom d addr ∨ (d = addr ∧ j < opIdx))

/-- The operation is in some block. -/
def Contains (func : SSAFunction) (op : SSAOp) : Prop :=
  ∃ d block, func.getBlock d = some block ∧ op ∈ block.ops

namespace StrictSsa

variable {func : SSAFunction} (ssa : func.StrictSsa)

theorem mem_dsts {op : SSAOp} (mem : op ∈ block.ops)
    (isDst : op.dst = some dst) : dst ∈ block.dsts :=
  mem_append_right _ (mem_filterMap.mpr ⟨op, mem, isDst⟩)

section

variable {ops : List SSAOp} {x y : SSAOp} (nodup : (ops.filterMap SSAOp.dst).Nodup)
include nodup

private theorem eq_of_dst
    (first : x ∈ ops) (second : y ∈ ops) (ofFirst : x.dst = some dst)
    (ofSecond : y.dst = some dst) : x = y := by
  obtain ⟨before, after, rfl⟩ := append_of_mem first
  rw [filterMap_append, filterMap_cons, ofFirst] at nodup
  obtain ⟨-, laterNodup, apart⟩ := nodup_append.mp nodup
  rcases mem_append.mp second with isBefore | isLater
  · exact absurd rfl (apart dst (mem_filterMap.mpr ⟨y, isBefore, ofSecond⟩) dst (mem_cons_self ..))
  · rcases mem_cons.mp isLater with rfl | isAfter
    · rfl
    · exact absurd (mem_filterMap.mpr ⟨y, isAfter, ofSecond⟩) (nodup_cons.mp laterNodup).1

private theorem index_of_dst {i j : Nat}
    (first : ops[i]? = some x) (second : ops[j]? = some y)
    (ofFirst : x.dst = some dst) (ofSecond : y.dst = some dst) : i = j := by
  induction ops generalizing i j with
  | nil => simp at first
  | cons op rest ih =>
    have later : ∀ {k : Nat} {z : SSAOp}, rest[k]? = some z → z.dst = some dst →
        dst ∈ rest.filterMap SSAOp.dst := fun here ofLater =>
      mem_filterMap.mpr ⟨_, mem_of_getElem? here, ofLater⟩
    have restNodup : (rest.filterMap SSAOp.dst).Nodup :=
      nodup.sublist ((sublist_cons_self op rest).filterMap SSAOp.dst)
    have notLater : op.dst = some dst → dst ∉ rest.filterMap SSAOp.dst := by
      intro isDst
      rw [filterMap_cons, isDst] at nodup
      exact (nodup_cons.mp nodup).1
    cases i with
    | zero =>
      obtain rfl : op = x := by simpa using first
      cases j with
      | zero => rfl
      | succ j => exact absurd (later second ofSecond) (notLater ofFirst)
    | succ i =>
      cases j with
      | zero =>
        obtain rfl : op = y := by simpa using second
        exact absurd (later first ofFirst) (notLater ofSecond)
      | succ j =>
        exact congrArg Nat.succ (ih restNodup first second)

end

include ssa in
private theorem not_read_at {op : SSAOp}
    (reach : func.flow.Reach addr) (found : func.getBlock addr = some block)
    (here : block.ops[opIdx]? = some op) (isDst : op.dst = some dst) : dst ∉ op.sources := by
  obtain ⟨inRange, isOp⟩ := List.getElem?_eq_some_iff.mp here
  have position : block.ops = block.ops.take opIdx ++ op :: block.ops.drop (opIdx + 1) := by
    rw [← isOp, getElem_cons_drop, take_append_drop]
  exact (ssa.not_read_before reach found position isDst).1

include ssa in
/-- What an operation reads is defined before it. -/
theorem earlier_of_use {op defining : SSAOp} {src : SSAVar}
    (reach : func.flow.Reach addr) (found : func.getBlock addr = some block)
    (here : block.ops[opIdx]? = some op) (used : src ∈ op.sources)
    (contains : func.Contains defining) (defines : defining.dst = some src) :
    func.Earlier addr opIdx defining := by
  obtain ⟨d, holder, foundHolder, mem⟩ := contains
  have defined := mem_dsts mem defines
  obtain ⟨inRange, isOp⟩ := List.getElem?_eq_some_iff.mp here
  have position : block.ops = block.ops.take opIdx ++ op :: block.ops.drop (opIdx + 1) := by
    rw [← isOp, getElem_cons_drop, take_append_drop]
  rcases ssa.strict.opUses reach found position src used with
    predefined | isPhi | isEarly | ⟨above, dominator, sdom, foundAbove, definedAbove⟩
  · exact absurd predefined (ssa.not_predefined foundHolder defined)
  · obtain rfl := ssa.unique foundHolder found defined (mem_append_left _ isPhi)
    obtain rfl := some.inj (foundHolder.symm.trans found)
    have apart := (nodup_append.mp (ssa.nodup found)).2.2
    exact absurd rfl (apart src isPhi src (mem_filterMap.mpr ⟨defining, mem, defines⟩))
  · obtain ⟨other, isBefore, definesToo⟩ := mem_filterMap.mp isEarly
    have otherMember := mem_of_mem_take isBefore
    obtain rfl := ssa.unique foundHolder found defined (mem_dsts otherMember definesToo)
    obtain rfl := some.inj (foundHolder.symm.trans found)
    obtain rfl := eq_of_dst (nodup_append.mp (ssa.nodup found)).2.1 otherMember mem
      definesToo defines
    obtain ⟨j, below, isDefining⟩ := mem_take_iff_getElem.mp isBefore
    exact ⟨d, j, holder, found,
      List.getElem?_eq_some_iff.mpr ⟨(lt_min_iff.mp below).2, isDefining⟩,
      .inr ⟨rfl, (lt_min_iff.mp below).1⟩⟩
  · obtain rfl := ssa.unique foundHolder foundAbove defined definedAbove
    obtain ⟨j, isDefining⟩ := List.getElem?_of_mem mem
    exact ⟨d, j, holder, foundHolder, isDefining, .inl sdom⟩

include ssa in
theorem earlier_source {op defining : SSAOp} {src : SSAVar}
    (reach : func.flow.Reach addr) (earlier : func.Earlier addr opIdx op) (used : src ∈ op.sources)
    (contains : func.Contains defining) (defines : defining.dst = some src) :
    func.Earlier addr opIdx defining := by
  obtain ⟨d, j, block, found, here, before⟩ := earlier
  have reachD : func.flow.Reach d := by
    rcases before with sdom | ⟨rfl, -⟩
    · exact sdom.1.reach reach
    · exact reach
  obtain ⟨d', j', block', found', here', before'⟩ :=
    ssa.earlier_of_use reachD found here used contains defines
  refine ⟨d', j', block', found', here', ?_⟩
  rcases before' with sdom' | ⟨rfl, below'⟩
  · rcases before with sdom | ⟨rfl, -⟩
    · refine .inl ⟨sdom'.1.trans sdom.1, ?_⟩
      rintro rfl
      exact sdom.2 (sdom.1.antisymm reachD sdom'.1)
    · exact .inl sdom'
  · rcases before with sdom | ⟨rfl, below⟩
    · exact .inl sdom
    · exact .inr ⟨rfl, below'.trans below⟩

include ssa in
private theorem not_redefined {op earlier : SSAOp}
    (reach : func.flow.Reach addr) (found : func.getBlock addr = some block)
    (here : block.ops[opIdx]? = some op) (isDst : op.dst = some dst)
    (before : func.Earlier addr opIdx earlier) :
    earlier.dst ≠ some dst ∧ dst ∉ earlier.sources := by
  have mem := mem_of_getElem? here
  have contains : func.Contains op := ⟨addr, block, found, mem⟩
  -- an operation that defines the same variable is not earlier than this one
  have notEarlier : ∀ other, other.dst = some dst → ¬ func.Earlier addr opIdx other := by
    rintro other definesToo ⟨d, j, holder, foundHolder, hereToo, place⟩
    obtain rfl := ssa.unique foundHolder found
      (mem_dsts (mem_of_getElem? hereToo) definesToo) (mem_dsts mem isDst)
    obtain rfl := some.inj (foundHolder.symm.trans found)
    rcases place with sdom | ⟨-, below⟩
    · exact sdom.2 rfl
    · have nodup := (nodup_append.mp (ssa.nodup found)).2.1
      exact absurd (index_of_dst nodup hereToo here definesToo isDst) (Nat.ne_of_lt below)
  exact ⟨fun defines => notEarlier earlier defines before,
    fun used => notEarlier op isDst (ssa.earlier_source reach before used contains isDst)⟩

include ssa in
private theorem not_redefined_by_phi {phi : PhiNode} {earlier : SSAOp}
    (reach : func.flow.Reach addr) (found : func.getBlock addr = some block)
    (isPhi : phi ∈ block.phis) (before : func.Earlier addr 0 earlier) :
    earlier.dst ≠ some phi.dst ∧ phi.dst ∉ earlier.sources := by
  obtain ⟨d, j, holder, foundHolder, here, sdom | ⟨-, below⟩⟩ := before
  swap
  · exact absurd below (Nat.not_lt_zero j)
  have mem := mem_of_getElem? here
  have defined : phi.dst ∈ block.dsts := mem_append_left _ (mem_map.mpr ⟨phi, isPhi, rfl⟩)
  refine ⟨fun defines => sdom.2 (ssa.unique foundHolder found (mem_dsts mem defines) defined),
    fun used => ?_⟩
  obtain ⟨inRange, isOp⟩ := List.getElem?_eq_some_iff.mp here
  have position : holder.ops = holder.ops.take j ++ earlier :: holder.ops.drop (j + 1) := by
    rw [← isOp, getElem_cons_drop, take_append_drop]
  have reachD := sdom.1.reach reach
  rcases ssa.strict.opUses reachD foundHolder position phi.dst used with
    predefined | isPhiToo | isEarly | ⟨above, dominator, sdomAbove, foundAbove, definedAbove⟩
  · exact ssa.not_predefined found defined predefined
  · exact sdom.2 (ssa.unique foundHolder found (mem_append_left _ isPhiToo) defined)
  · obtain ⟨other, isBefore, definesToo⟩ := mem_filterMap.mp isEarly
    exact sdom.2 (ssa.unique foundHolder found
      (mem_dsts (mem_of_mem_take isBefore) definesToo) defined)
  · obtain rfl := ssa.unique foundAbove found definedAbove defined
    exact sdom.2 (sdom.1.antisymm reachD sdomAbove.1)

end StrictSsa

end SSAFunction

/-! ## Executions -/

section Executions

variable {bigEndian : Bool} {func : SSAFunction} (ssa : func.StrictSsa)

/-- The point is reachable along edges, and what comes before it holds there. -/
structure Solved (func : SSAFunction) (point : Point) : Prop where
  reach : func.flow.Reach point.block
  holds : ∀ op, func.Earlier point.block point.opIdx op → point.machine.Holds op
  bounded : ∀ var, point.machine.env var < 2 ^ (var.size * 8)

include ssa in
theorem Solved.op {op : SSAOp} {before after : Machine}
    {wrote : Bool} (solved : Solved func ⟨addr, opIdx, before⟩)
    (found : func.getBlock addr = some block) (here : block.ops[opIdx]? = some op)
    (executes : before.Executes bigEndian op wrote after) :
    Solved func ⟨addr, opIdx + 1, after⟩ := by
  have apart : ∀ earlier, func.Earlier addr opIdx earlier → ∀ var,
      earlier.dst = some var ∨ var ∈ earlier.sources → after.env var = before.env var := by
    intro earlier isEarlier var among
    refine executes.frame var fun isDst => ?_
    obtain ⟨notDst, notSource⟩ := ssa.not_redefined solved.reach found here isDst isEarlier
    exact among.elim notDst notSource
  refine ⟨solved.reach, fun other isEarlier => ?_, fun var => ?_⟩
  · by_cases already : func.Earlier addr opIdx other
    · exact (solved.holds other already).congr
        (fun var isDst => apart other already var (.inl isDst))
        fun var used => apart other already var (.inr used)
    · -- the operation just executed
      obtain ⟨d, j, holder, foundHolder, hereToo, sdom | ⟨rfl, below⟩⟩ := isEarlier
      · exact absurd ⟨d, j, holder, foundHolder, hereToo, .inl sdom⟩ already
      obtain rfl := some.inj (foundHolder.symm.trans found)
      rcases Nat.lt_succ_iff_lt_or_eq.mp below with earlier | rfl
      · exact absurd ⟨d, j, holder, found, hereToo, .inr ⟨rfl, earlier⟩⟩ already
      obtain rfl := some.inj (hereToo.symm.trans here)
      intro dst r isDst computes
      have unread := (ssa.not_read_at solved.reach found here isDst)
      rw [SSAOp.result_congr fun src used => Machine.value_congr (executes.frame src fun isSrc =>
        unread (by rw [isDst] at isSrc; cases isSrc; exact used))] at computes
      exact executes.computed dst r isDst computes
  · by_cases isDst : op.dst = some var
    · exact executes.bounded var isDst
    · exact lt_of_eq_of_lt (executes.frame var isDst) (solved.bounded var)

include ssa in
theorem Solved.edge {target : Nat} {next : SSABlock} {before after : Machine}
    (solved : Solved func ⟨addr, block.ops.length, before⟩)
    (found : func.getBlock addr = some block) (foundNext : func.getBlock target = some next)
    (follows : Follows func addr block before target) (enters : Enters addr next before after) :
    Solved func ⟨target, 0, after⟩ := by
  have edge : func.flow.edge addr target := follows.1
  have reach : func.flow.Reach target := solved.reach.step edge
  refine ⟨reach, fun op isEarlier => ?_, fun var => ?_⟩
  · have apart : ∀ var, op.dst = some var ∨ var ∈ op.sources → after.env var = before.env var := by
      intro var among
      refine enters.frame var fun phi isPhi isDst => ?_
      obtain ⟨notDst, notSource⟩ := ssa.not_redefined_by_phi reach foundNext isPhi isEarlier
      rw [isDst] at notDst notSource
      exact among.elim notDst notSource
    have earlier : func.Earlier addr block.ops.length op := by
      obtain ⟨d, j, holder, foundHolder, here, sdom | ⟨-, below⟩⟩ := isEarlier
      swap
      · exact absurd below (Nat.not_lt_zero j)
      by_cases same : d = addr
      · subst same
        obtain rfl := some.inj (foundHolder.symm.trans found)
        exact ⟨d, j, holder, found, here, .inr ⟨rfl, (List.getElem?_eq_some_iff.mp here).1⟩⟩
      · exact ⟨d, j, holder, foundHolder, here, .inl ⟨sdom.dom_pred edge, same⟩⟩
    exact (solved.holds op earlier).congr (fun var isDst => apart var (.inl isDst))
      fun var used => apart var (.inr used)
  · by_cases isPhi : ∃ phi ∈ next.phis, phi.dst = var
    · obtain ⟨phi, mem, rfl⟩ := isPhi
      exact (enters.phis phi mem).1
    · exact lt_of_eq_of_lt
        (enters.frame var fun phi mem isDst => isPhi ⟨phi, mem, isDst⟩) (solved.bounded var)

theorem Solved.start {point : Point} (starts : Starts func point) : Solved func point := by
  obtain ⟨addr, opIdx, machine⟩ := point
  obtain rfl : addr = func.entry := starts.block
  obtain rfl : opIdx = 0 := starts.opIdx
  refine ⟨⟨_, .root⟩, fun op isEarlier => ?_, starts.bounded⟩
  obtain ⟨d, j, holder, foundHolder, here, sdom | ⟨-, below⟩⟩ := isEarlier
  · exact absurd (Graph.dom_root_iff.mp sdom.1) sdom.2
  · exact absurd below (Nat.not_lt_zero j)

include ssa in
/-- Every point of an execution solves the equations of what it has passed. -/
theorem solved_of_leads {start point : Point} (starts : Starts func start)
    (leads : Leads bigEndian func start point) : Solved func point := by
  induction leads with
  | refl => exact .start starts
  | tail _ step ih =>
    cases step with
    | op found here executes => exact ih.op ssa found here executes
    | edge found foundNext follows enters =>
      exact ih.edge ssa found foundNext follows enters

end Executions

end R2Sleigh.Ssa
