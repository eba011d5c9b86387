import R2Sleigh.Dec.Execution
import R2Sleigh.Ssa.StrictCheck

/-!
Contract: common subexpression elimination preserves meaning.

Owns `Expressions` and `Shares`.

Does not own: expressions of other blocks. The pass forgets them at the end of each
block, so what it copies was computed since the block was entered.
-/

namespace R2Sleigh.Ssa

open Il Flow Lib Dec List Option

/-! ## Interpretations -/

/-- P-code operations whose operands may be swapped. -/
def isCommutative : Il.BinaryOp → Bool
  | .IntAdd | .IntMult | .IntAnd | .IntOr | .IntXor | .IntCarry | .IntSCarry | .IntEqual
  | .IntNotEqual | .BoolAnd | .BoolOr | .BoolXor | .FloatAdd | .FloatMult | .FloatEqual
  | .FloatNotEqual => true
  | _ => false

/-- Results that depend on the operation, the sizes and the operand values. -/
structure Expressions {Val Mem : Type} (I : Interpretation Val Mem) where
  unary : Il.UnaryOp → Nat → Nat → Val → Val
  binary : Il.BinaryOp → Nat → Nat → Nat → Val → Val → Val
  exec_unary : ∀ op dst src v mem,
    I.exec (.unary op dst src) [v] mem = (unary op dst.size src.size v, mem)
  exec_binary : ∀ op dst a b u v mem,
    I.exec (.binary op dst a b) [u, v] mem = (binary op dst.size a.size b.size u v, mem)
  comm : ∀ op size sizeA sizeB u v, isCommutative op = true →
    binary op size sizeA sizeB u v = binary op size sizeB sizeA v u

/-! ## Keys -/

private theorem unaryName_injective {op op' : Il.UnaryOp} (same : unaryName op = unaryName op')
    (named : (unaryName op).isSome) : op = op' := by
  have table : ∀ i < 19, ∀ j < 19, unaryName (.ofNat i) = unaryName (.ofNat j) →
      (unaryName (.ofNat i)).isSome → i = j := by decide +kernel
  have bound : ∀ op : Il.UnaryOp, op.ctorIdx < 19 := fun op => by cases op <;> decide
  have index := table op.ctorIdx (bound op) op'.ctorIdx (bound op')
  rw [Il.UnaryOp.ofNat_ctorIdx, Il.UnaryOp.ofNat_ctorIdx] at index
  rw [← Il.UnaryOp.ofNat_ctorIdx op, index same named, Il.UnaryOp.ofNat_ctorIdx]

def binaryName (op : Il.BinaryOp) : Option String := (commutativeName op).or (orderedName op)

private theorem binaryName_injective {op op' : Il.BinaryOp} (same : binaryName op = binaryName op')
    (named : (binaryName op).isSome) : op = op' := by
  have table : ∀ i < 33, ∀ j < 33, binaryName (.ofNat i) = binaryName (.ofNat j) →
      (binaryName (.ofNat i)).isSome → i = j := by decide +kernel
  have bound : ∀ op : Il.BinaryOp, op.ctorIdx < 33 := fun op => by cases op <;> decide
  have index := table op.ctorIdx (bound op) op'.ctorIdx (bound op')
  rw [Il.BinaryOp.ofNat_ctorIdx, Il.BinaryOp.ofNat_ctorIdx] at index
  rw [← Il.BinaryOp.ofNat_ctorIdx op, index same named, Il.BinaryOp.ofNat_ctorIdx]

private theorem isCommutative_of_name {op : Il.BinaryOp} {name : String}
    (isName : commutativeName op = some name) : isCommutative op = true := by
  cases op <;> first | rfl | cases isName

private theorem sortedArgs_eq {a b c d : VarKey} (same : sortedArgs a b = sortedArgs c d) :
    (a = c ∧ b = d) ∨ (a = d ∧ b = c) := by
  unfold sortedArgs at same
  split at same <;> split at same <;> simp only [List.cons.injEq, and_true] at same
  · exact .inl same.symm
  · exact .inr ⟨same.2, same.1⟩
  · exact .inr same
  · exact .inl same

/-- What two operations with the same key have in common. -/
inductive SameExpression : SSAOp → SSAOp → Prop
  | unary (op : Il.UnaryOp) {dst dst' src : SSAVar} (size : dst.size = dst'.size) :
      SameExpression (.unary op dst src) (.unary op dst' src)
  | binary (op : Il.BinaryOp) {dst dst' a b : SSAVar} (size : dst.size = dst'.size) :
      SameExpression (.binary op dst a b) (.binary op dst' a b)
  | swapped (op : Il.BinaryOp) {dst dst' a b : SSAVar} (size : dst.size = dst'.size)
      (comm : isCommutative op = true) : SameExpression (.binary op dst a b) (.binary op dst' b a)

theorem exprKey_binary {op : Il.BinaryOp} {dst a b : SSAVar} {key : ExprKey}
    (isKey : exprKey (.binary op dst a b) = some key) :
    ∃ name, binaryName op = some name ∧ key.kind = .Binary name ∧ key.dstSize = dst.size ∧
      key.args = if (commutativeName op).isSome then sortedArgs (.fromVar a) (.fromVar b)
        else [.fromVar a, .fromVar b] := by
  simp only [exprKey] at isKey
  unfold binaryName
  split at isKey
  · rename_i name isName
    cases isKey
    exact ⟨name, by rw [isName]; rfl, rfl, rfl, by rw [isName]; rfl⟩
  · rename_i notName
    obtain ⟨name, isName, rfl⟩ := map_eq_some_iff.mp isKey
    exact ⟨name, by rw [notName, isName]; rfl, rfl, rfl, by rw [notName]; rfl⟩

theorem exprKey_unary {op : Il.UnaryOp} {dst src : SSAVar} {key : ExprKey}
    (isKey : exprKey (.unary op dst src) = some key) :
    ∃ name, unaryName op = some name ∧ key = ⟨.Unary name, dst.size, [.fromVar src]⟩ := by
  obtain ⟨name, isName, rfl⟩ := map_eq_some_iff.mp isKey
  exact ⟨name, isName, rfl⟩

theorem exprKey_cases {op : SSAOp} {key : ExprKey} (isKey : exprKey op = some key) :
    (∃ kind dst src, op = .unary kind dst src) ∨ ∃ kind dst a b, op = .binary kind dst a b := by
  unfold exprKey at isKey
  split at isKey
  · exact .inl ⟨_, _, _, rfl⟩
  · exact .inr ⟨_, _, _, _, rfl⟩
  · cases isKey

variable {op op' : SSAOp}

private theorem sameExpression_of_exprKey {key : ExprKey} (isKey : exprKey op = some key)
    (isKey' : exprKey op' = some key) : SameExpression op op' := by
  rcases exprKey_cases isKey with ⟨kind, dst, src, rfl⟩ | ⟨kind, dst, a, b, rfl⟩ <;>
    rcases exprKey_cases isKey' with ⟨kind', dst', src', rfl⟩ | ⟨kind', dst', a', b', rfl⟩
  · obtain ⟨name, isName, rfl⟩ := exprKey_unary isKey
    obtain ⟨name', isName', same⟩ := exprKey_unary isKey'
    simp only [ExprKey.mk.injEq, ExprKind.Unary.injEq, List.cons.injEq, and_true] at same
    obtain ⟨rfl, size, src⟩ := same
    obtain rfl := unaryName_injective (isName.trans isName'.symm) (by rw [isName]; rfl)
    obtain rfl := VarKey.fromVar_injective src
    exact .unary kind size
  · obtain ⟨name, -, rfl⟩ := exprKey_unary isKey
    obtain ⟨name', -, same, -⟩ := exprKey_binary isKey'
    cases same
  · obtain ⟨name, -, rfl⟩ := exprKey_unary isKey'
    obtain ⟨name', -, same, -⟩ := exprKey_binary isKey
    cases same
  · obtain ⟨name, isName, isKind, size, args⟩ := exprKey_binary isKey
    obtain ⟨name', isName', isKind', size', args'⟩ := exprKey_binary isKey'
    obtain rfl := ExprKind.Binary.inj (isKind.symm.trans isKind')
    obtain rfl := binaryName_injective (isName.trans isName'.symm) (by rw [isName]; rfl)
    have sameSize := size.symm.trans size'
    rw [args] at args'
    split at args'
    · rename_i sorts
      obtain ⟨_, isCommutativeName⟩ := isSome_iff_exists.mp sorts
      rcases sortedArgs_eq args' with ⟨first, second⟩ | ⟨first, second⟩
      · obtain rfl := VarKey.fromVar_injective first
        obtain rfl := VarKey.fromVar_injective second
        exact .binary kind sameSize
      · obtain rfl := VarKey.fromVar_injective first
        obtain rfl := VarKey.fromVar_injective second
        exact .swapped kind sameSize (isCommutative_of_name isCommutativeName)
    · simp only [List.cons.injEq, and_true] at args'
      obtain rfl := VarKey.fromVar_injective args'.1
      obtain rfl := VarKey.fromVar_injective args'.2
      exact .binary kind sameSize

theorem SameExpression.exec {Val Mem : Type} {I : Interpretation Val Mem} (meaning : Expressions I)
    (same : SameExpression op op') (σ : State Val Mem) (mem : Mem) :
    (I.exec op (reads σ op) mem).1 = (I.exec op' (reads σ op') σ.mem).1 ∧
      (I.exec op' (reads σ op') σ.mem).2 = σ.mem := by
  cases same with
  | unary kind size =>
    simp only [reads, SSAOp.sources, map_cons, map_nil, meaning.exec_unary, size, and_self]
  | binary kind size =>
    simp only [reads, SSAOp.sources, map_cons, map_nil, meaning.exec_binary, size, and_self]
  | swapped kind size comm =>
    simp only [reads, SSAOp.sources, map_cons, map_nil, meaning.exec_binary, size, and_true]
    exact meaning.comm _ _ _ _ _ _ comm

/-! ## The operations of a block -/

/-- An operation that stays, or copies the variable of an equal expression. -/
inductive SharedOp (before : List SSAOp) : SSAOp → SSAOp → Prop
  | stays (op : SSAOp) : SharedOp before op op
  | copies {op earlier : SSAOp} {dst existing : SSAVar} (member : earlier ∈ before)
      (isDst : op.dst = some dst) (isExisting : earlier.dst = some existing)
      (same : SameExpression earlier op) : SharedOp before op (.Copy dst existing)

inductive Shares : List SSAOp → List SSAOp → List SSAOp → Prop
  | nil (before : List SSAOp) : Shares before [] []
  | cons {before rest rest' : List SSAOp} {op op' : SSAOp} (head : SharedOp before op op')
      (tail : Shares (before ++ [op]) rest rest') : Shares before (op :: rest) (op' :: rest')

/-- The expressions available come from operations of the block. -/
def Available (before : List SSAOp) (available : HashMap ExprKey SSAVar) : Prop :=
  ∀ key existing, available.lookup key = some existing →
    ∃ earlier ∈ before, earlier.dst = some existing ∧ exprKey earlier = some key

section

variable {before : List SSAOp} {available : HashMap ExprKey SSAVar}
  (sound : Available before available)
include sound

theorem Available.later
    (op : SSAOp) : Available (before ++ [op]) available := by
  intro key existing found
  obtain ⟨earlier, member, rest⟩ := sound key existing found
  exact ⟨earlier, mem_append_left _ member, rest⟩

theorem Available.insert
    {op : SSAOp} {dst : SSAVar} {key : ExprKey}
    (isDst : op.dst = some dst) (isKey : exprKey op = some key) :
    Available (before ++ [op]) (available.insert key dst) := by
  intro other existing found
  by_cases same : other = key
  · subst same
    rw [AList.lookup_insert] at found
    cases found
    exact ⟨op, by simp, isDst, isKey⟩
  · rw [AList.lookup_insert_ne same] at found
    exact sound.later op other existing found

end

theorem shares_cseOps (ops : List SSAOp) : ∀ {before : List SSAOp} {available : HashMap ExprKey SSAVar},
    Available before available → Shares before ops (cseOps available ops) := by
  induction ops with
  | nil => exact fun _ => .nil _
  | cons op rest ih =>
    intro before available sound
    unfold cseOps
    split
    · rename_i dst key isDst isKey
      split
      · rename_i existing found
        obtain ⟨earlier, member, isExisting, isEarlierKey⟩ := sound key existing found
        refine .cons ?_ (ih (sound.later op))
        split
        · exact .copies member isDst isExisting (sameExpression_of_exprKey isEarlierKey isKey)
        · exact .stays op
      · exact .cons (.stays op) (ih (sound.insert isDst isKey))
    · exact .cons (.stays op) (ih (sound.later op))

theorem shares_cseBlock (block : SSABlock) : Shares [] block.ops (cseBlock block).ops :=
  shares_cseOps block.ops fun _ _ found => by cases found

theorem SameExpression.not_transfer {earlier op : SSAOp} (same : SameExpression earlier op) :
    transfersControl op = false := by
  cases same <;> rfl

variable {before : List SSAOp}

theorem SharedOp.dst (shared : SharedOp before op op') :
    op'.dst = op.dst := by
  cases shared with
  | stays => rfl
  | copies _ isDst _ _ => exact isDst.symm

theorem SharedOp.transfersControl
    (shared : SharedOp before op op') : transfersControl op' = transfersControl op := by
  cases shared with
  | stays => rfl
  | copies _ _ _ same => exact same.not_transfer.symm

/-- Unary and binary operations, the only ones a key can name. -/
def SSAOp.isExpression : SSAOp → Bool
  | .unary .. | .binary .. => true
  | _ => false

private theorem SharedOp.eq_of_not_expression
    (shared : SharedOp before op op') (other : op.isExpression = false) : op' = op := by
  cases shared with
  | stays => rfl
  | copies _ _ _ same => cases same <;> cases other

section

variable {before ops ops' : List SSAOp} (shares : Shares before ops ops')
include shares

theorem Shares.operation :
    ∀ (i : Nat) (op : SSAOp), ops[i]? = some op →
      ∃ pre op', ops'[i]? = some op' ∧ SharedOp pre op op' := by
  induction shares with
  | nil => intro i op found; simp at found
  | @cons before rest rest' op op' head tail ih =>
    intro i other found
    cases i with
    | zero =>
      cases found
      exact ⟨before, op', rfl, head⟩
    | succ i => exact ih i other found

theorem Shares.length :
    ops'.length = ops.length := by
  induction shares with
  | nil => rfl
  | cons _ _ ih => rw [length_cons, length_cons, ih]

theorem Shares.dsts :
    ops'.filterMap SSAOp.dst = ops.filterMap SSAOp.dst := by
  induction shares with
  | nil => rfl
  | cons head _ ih =>
    rw [filterMap_cons, filterMap_cons, ih, head.dst]

end

theorem Shares.split {pre ops ops' : List SSAOp} (shares : Shares pre ops ops') :
    ∀ {before' op' after'}, ops' = before' ++ op' :: after' → ∃ before op after,
      ops = before ++ op :: after ∧ SharedOp (pre ++ before) op op' ∧
        before'.filterMap SSAOp.dst = before.filterMap SSAOp.dst := by
  induction shares with
  | nil => intro before' op' after' position; cases before' <;> cases position
  | @cons pre rest rest' op op' head tail ih =>
    intro before' other' after' position
    cases before' with
    | nil =>
      obtain ⟨rfl, rfl⟩ := List.cons.inj position
      exact ⟨[], op, rest, rfl, by rwa [append_nil], rfl⟩
    | cons first before' =>
      obtain ⟨rfl, positionLater⟩ := List.cons.inj position
      obtain ⟨before, other, after, rfl, shared, same⟩ := ih positionLater
      refine ⟨op :: before, other, after, rfl, ?_, ?_⟩
      · rwa [append_assoc] at shared
      · rw [filterMap_cons, filterMap_cons, same, head.dst]

/-! ## Executing a block -/

/-- A variable is written before its block reads it, and once. -/
def WrittenFirst (ops : List SSAOp) : Prop :=
  ∀ before op after dst, ops = before ++ op :: after → op.dst = some dst →
    dst ∉ op.sources ∧ ∀ earlier ∈ before, dst ∉ earlier.sources ∧ earlier.dst ≠ some dst

section Executing

variable {Val Mem : Type} {I : Interpretation Val Mem}

/-- Variables of expressions have the values that the expressions have now. -/
def Computed (I : Interpretation Val Mem) (before : List SSAOp) (σ : State Val Mem) : Prop :=
  ∀ earlier ∈ before, ∀ dst op, earlier.dst = some dst → SameExpression earlier op →
    σ.env dst = (I.exec op (reads σ op) σ.mem).1

theorem reads_execOp {σ : State Val Mem} {op reader : SSAOp}
    (unread : ∀ dst, op.dst = some dst → dst ∉ reader.sources) :
    reads (execOp I σ op) reader = reads σ reader := by
  refine map_congr_left fun src member => if_neg fun isDst => ?_
  exact unread src isDst member

theorem Computed.execOp (meaning : Expressions I) {op : SSAOp}
    {σ : State Val Mem} (computed : Computed I before σ)
    (written : ∀ dst, op.dst = some dst →
      dst ∉ op.sources ∧ ∀ earlier ∈ before, dst ∉ earlier.sources ∧ earlier.dst ≠ some dst) :
    Computed I (before ++ [op]) (execOp I σ op) := by
  intro earlier member dst other isDst same
  -- the value of the expression, by the operation that computed it
  rw [← (same.exec meaning (Dec.execOp I σ op) σ.mem).1]
  rcases mem_append.mp member with isBefore | isLast
  · have unread : reads (Dec.execOp I σ op) earlier = reads σ earlier :=
      reads_execOp fun d isD => ((written d isD).2 earlier isBefore).1
    have kept : (Dec.execOp I σ op).env dst = σ.env dst :=
      if_neg fun isD => ((written dst isD).2 earlier isBefore).2 isDst
    rw [unread, kept, (same.exec meaning σ σ.mem).1]
    exact computed earlier isBefore dst other isDst same
  · obtain rfl := mem_singleton.mp isLast
    rw [reads_execOp fun d isD => (written d isD).1]
    exact if_pos isDst

theorem SharedOp.execOp (meaning : Expressions I)
    {σ : State Val Mem} (shared : SharedOp before op op') (computed : Computed I before σ) :
    execOp I σ op' = execOp I σ op := by
  cases shared with
  | stays => rfl
  | @copies earlier dst existing member isDst isExisting same =>
    rw [execOp_copy]
    simp only [Dec.execOp, isDst, Option.some.injEq,
      computed earlier member existing op isExisting same, (same.exec meaning σ σ.mem).2]

theorem Shares.execOps (meaning : Expressions I) {before ops ops' : List SSAOp}
    (shares : Shares before ops ops') (written : WrittenFirst (before ++ ops)) :
    ∀ {σ : State Val Mem}, Computed I before σ → ∀ k,
      execOps I (ops'.take k) σ = execOps I (ops.take k) σ := by
  induction shares with
  | nil => exact fun _ _ => rfl
  | @cons before rest rest' op op' head tail ih =>
    intro σ computed k
    cases k with
    | zero => rfl
    | succ k =>
      have writtenLater : WrittenFirst ((before ++ [op]) ++ rest) := by
        rwa [append_assoc, singleton_append]
      have next : Computed I (before ++ [op]) (Dec.execOp I σ op) :=
        computed.execOp meaning fun dst isDst => written before op rest dst rfl isDst
      rw [take_succ_cons, take_succ_cons, Dec.execOps, foldl_cons, head.execOp meaning computed]
      exact ih writtenLater next k

end Executing

/-! ## One pass -/

/-- The block after a pass: expressions may have become copies. -/
structure SameBlock (block after : SSABlock) : Prop where
  phis : after.phis = block.phis
  length : after.ops.length = block.ops.length
  operation : ∀ (i : Nat) (op : SSAOp), block.ops[i]? = some op →
    ∃ op', after.ops[i]? = some op' ∧ op'.dst = op.dst ∧ (op.isExpression = false → op' = op)

private theorem sameBlock_cseBlock (block : SSABlock) : SameBlock block (cseBlock block) := by
  have shares := shares_cseBlock block
  refine ⟨rfl, shares.length, fun i op found => ?_⟩
  obtain ⟨pre, op', found', shared⟩ := shares.operation i op found
  exact ⟨op', found', shared.dst, shared.eq_of_not_expression⟩

theorem SameBlock.trans {block middle after : SSABlock} (first : SameBlock block middle)
    (second : SameBlock middle after) : SameBlock block after := by
  refine ⟨second.phis.trans first.phis, second.length.trans first.length, fun i op found => ?_⟩
  obtain ⟨op', found', dst, same⟩ := first.operation i op found
  obtain ⟨op'', found'', dst', same'⟩ := second.operation i op' found'
  refine ⟨op'', found'', dst'.trans dst, fun other => ?_⟩
  obtain rfl := same other
  exact same' other

/-- The function after a pass: the same blocks and the same runs, through the same
states before each operation. -/
structure CsePreserves {Val Mem : Type} (I : Interpretation Val Mem) (func after : SSAFunction) :
    Prop where
  present : ∀ addr, (after.getBlock addr).isSome = (func.getBlock addr).isSome
  blocks : ∀ {addr block block'}, func.getBlock addr = some block →
    after.getBlock addr = some block' → SameBlock block block'
  follows : ∀ steps, Dec.Follows after after.entry steps ↔ Dec.Follows func func.entry steps
  runs : ∀ init steps, Dec.Follows func func.entry steps →
    runFrom I after init steps = runFrom I func init steps
  states : ∀ init steps, Dec.Follows func func.entry steps → ∀ block block',
    func.getBlock (runFrom I func init steps).1 = some block →
    after.getBlock (runFrom I func init steps).1 = some block' →
    ∀ k, execOps I (block'.ops.take k) (runFrom I func init steps).2 =
      execOps I (block.ops.take k) (runFrom I func init steps).2

theorem CsePreserves.refl {Val Mem : Type} (I : Interpretation Val Mem) (func : SSAFunction) :
    CsePreserves I func func where
  present _ := rfl
  blocks found found' := by
    obtain rfl := some.inj (found.symm.trans found')
    exact ⟨rfl, rfl, fun i op atIndex => ⟨op, atIndex, rfl, fun _ => rfl⟩⟩
  follows _ := Iff.rfl
  runs _ _ _ := rfl
  states _ _ _ block block' found found' _ := by
    obtain rfl := some.inj (found.symm.trans found')
    rfl

theorem CsePreserves.trans {Val Mem : Type} {I : Interpretation Val Mem}
    {func middle after : SSAFunction} (first : CsePreserves I func middle)
    (second : CsePreserves I middle after) : CsePreserves I func after where
  present addr := (second.present addr).trans (first.present addr)
  blocks {addr block block'} found found' := by
    have isSome := second.present addr
    rw [found', isSome_some] at isSome
    obtain ⟨between, foundBetween⟩ := isSome_iff_exists.mp isSome.symm
    exact (first.blocks found foundBetween).trans (second.blocks foundBetween found')
  follows steps := (second.follows steps).trans (first.follows steps)
  runs init steps follows :=
    (second.runs init steps ((first.follows steps).mpr follows)).trans (first.runs init steps follows)
  states init steps follows block block' found found' k := by
    have follows' := (first.follows steps).mpr follows
    have sameRun := first.runs init steps follows
    have isSome := second.present (runFrom I func init steps).1
    rw [found', isSome_some] at isSome
    obtain ⟨between, foundBetween⟩ := isSome_iff_exists.mp isSome.symm
    have later := second.states init steps follows' between block'
    rw [sameRun] at later
    exact (later foundBetween found' k).trans
      (first.states init steps follows block between found foundBetween k)

namespace SSAFunction.StrictSsa

variable {func : SSAFunction} (ssa : func.StrictSsa)
include ssa

private theorem writtenFirst {addr : Nat} {block : SSABlock} (reach : func.flow.Reach addr)
    (found : func.getBlock addr = some block) : WrittenFirst block.ops :=
  fun _ _ _ _ position isDst => ssa.not_read_before reach found position isDst

theorem commonSubexprElim : (commonSubexprElim func).1.StrictSsa := by
  refine ssa.update _ (fun _ _ _ => rfl) (fun _ block _ => (shares_cseBlock block).dsts) ?_
  intro addr block before' op' after' reach found position src used
  obtain ⟨before, op, after, isOps, shared, dsts⟩ := (shares_cseBlock block).split position
  rw [dsts]
  cases shared with
  | stays => exact ssa.strict.opUses reach found isOps src used
  | copies member _ isExisting _ =>
    obtain rfl := mem_singleton.mp used
    exact .inr (.inr (.inl (mem_filterMap.mpr ⟨_, member, isExisting⟩)))

theorem getBlock_cse (addr : Nat) :
    (Ssa.commonSubexprElim func).1.getBlock addr = (func.getBlock addr).map cseBlock :=
  ssa.getBlock_update _ addr

/-- Steps of the one function are steps of the other. -/
theorem follows_cse (steps : List Dec.Step) : ∀ p,
    Dec.Follows (Ssa.commonSubexprElim func).1 p steps ↔ Dec.Follows func p steps := by
  induction steps with
  | nil => exact fun _ => Iff.rfl
  | cons step rest ih =>
    intro p
    have successors : (Ssa.commonSubexprElim func).1.successors p = func.successors p :=
      congrFun (update_successors (fun _ => cseBlock) ssa.order) p
    have transfers : ∀ block : SSABlock, (∀ e, step.exit = some e →
        ∃ op, (cseBlock block).ops[e]? = some op ∧ transfersControl op) ↔
        ∀ e, step.exit = some e → ∃ op, block.ops[e]? = some op ∧ transfersControl op := by
      intro block
      refine forall₂_congr fun e _ => ⟨?_, ?_⟩
      · rintro ⟨op', found', transfer⟩
        have inside := (List.getElem?_eq_some_iff.mp found').1
        rw [(shares_cseBlock block).length] at inside
        obtain ⟨pre, other, foundOther, shared⟩ := (shares_cseBlock block).operation e _
          (List.getElem?_eq_getElem inside)
        obtain rfl := some.inj (foundOther.symm.trans found')
        exact ⟨_, List.getElem?_eq_getElem inside, by rwa [← shared.transfersControl]⟩
      · rintro ⟨op, found, transfer⟩
        obtain ⟨pre, op', found', shared⟩ := (shares_cseBlock block).operation e op found
        exact ⟨op', found', by rwa [shared.transfersControl]⟩
    simp only [Dec.Follows, ssa.getBlock_cse, successors, ih, map_eq_some_iff]
    constructor
    · rintro ⟨_, _, ⟨block, found, rfl⟩, ⟨target, foundTarget, rfl⟩, edge, exits, follows⟩
      exact ⟨block, target, found, foundTarget, edge, (transfers block).mp exits, follows⟩
    · rintro ⟨block, target, found, foundTarget, edge, exits, follows⟩
      exact ⟨_, _, ⟨block, found, rfl⟩, ⟨target, foundTarget, rfl⟩, edge,
        (transfers block).mpr exits, follows⟩

section Runs

variable {Val Mem : Type} {I : Interpretation Val Mem} (meaning : Expressions I)
include meaning

theorem execOps_cse {addr : Nat} {block : SSABlock} (reach : func.flow.Reach addr)
    (found : func.getBlock addr = some block) (σ : State Val Mem) (k : Nat) :
    execOps I ((cseBlock block).ops.take k) σ = execOps I (block.ops.take k) σ :=
  (shares_cseBlock block).execOps meaning (ssa.writtenFirst reach found)
    (fun _ member => absurd member not_mem_nil) k

theorem runSteps_cse (steps : List Dec.Step) : ∀ {p σ}, func.flow.Reach p → Dec.Follows func p steps →
    runSteps I (Ssa.commonSubexprElim func).1 p σ steps = runSteps I func p σ steps ∧
      func.flow.Reach (runSteps I func p σ steps).1 := by
  induction steps with
  | nil => exact fun reach _ => ⟨rfl, reach⟩
  | cons step rest ih =>
    rintro p σ reach ⟨block, target, found, foundTarget, edge, -, follows⟩
    have executedSame : execOps I (executed (cseBlock block).ops step.exit) σ =
        execOps I (executed block.ops step.exit) σ := by
      cases step.exit with
      | none =>
        have all := ssa.execOps_cse meaning reach found σ block.ops.length
        rwa [take_length, ← (shares_cseBlock block).length, take_length] at all
      | some e => exact ssa.execOps_cse meaning reach found σ (e + 1)
    simp only [runSteps, ssa.getBlock_cse, found, foundTarget, map_some, executedSame]
    exact ih (reach.step edge) follows

/-- Every run computes the same after the pass. -/
theorem preserves_cse : CsePreserves I func (Ssa.commonSubexprElim func).1 := by
  have entry : (Ssa.commonSubexprElim func).1.entry = func.entry := update_entry _ ssa.order
  have runs : ∀ init steps, Dec.Follows func func.entry steps →
      runFrom I (Ssa.commonSubexprElim func).1 init steps = runFrom I func init steps ∧
        func.flow.Reach (runFrom I func init steps).1 := by
    intro init steps follows
    rw [runFrom, runFrom, entry, ssa.getBlock_cse]
    cases func.getBlock func.entry with
    | none => exact ⟨rfl, Graph.Reach.root⟩
    | some block => exact ssa.runSteps_cse meaning steps Graph.Reach.root follows
  constructor
  · intro addr
    rw [ssa.getBlock_cse, isSome_map]
  · intro addr block block' found found'
    rw [ssa.getBlock_cse, found, map_some] at found'
    cases found'
    exact sameBlock_cseBlock block
  · intro steps
    rw [entry]
    exact ssa.follows_cse steps func.entry
  · exact fun init steps follows => (runs init steps follows).1
  · intro init steps follows block block' found found' k
    rw [ssa.getBlock_cse, found, map_some] at found'
    cases found'
    exact ssa.execOps_cse meaning (runs init steps follows).2 found _ k

end Runs

end SSAFunction.StrictSsa

/-- Any number of passes keeps every operation but expressions in place, gives every
variable the same value at each point of every run, and leaves strict SSA form. -/
theorem commonSubexprElim_preserves {Val Mem : Type} (I : Interpretation Val Mem)
    (meaning : Expressions I) {func : SSAFunction} (ssa : func.StrictSsa) (passes : Nat) :
    let after := (fun func => (commonSubexprElim func).1)^[passes] func
    after.StrictSsa ∧ CsePreserves I func after := by
  induction passes with
  | zero => exact ⟨ssa, CsePreserves.refl I func⟩
  | succ passes ih =>
    obtain ⟨before, preserved⟩ := ih
    rw [Function.iterate_succ_apply']
    exact ⟨before.commonSubexprElim, preserved.trans (before.preserves_cse meaning)⟩

/-! ## A sum computed twice -/

/-- The operands of the second sum are exchanged. -/
def sumTwice : SSAFunction :=
  (fromBlocksRaw [⟨0, 4, [.binary .IntAdd ⟨.Register, 0, 8⟩ ⟨.Register, 8, 8⟩ ⟨.Register, 16, 8⟩,
    .binary .IntAdd ⟨.Register, 24, 8⟩ ⟨.Register, 16, 8⟩ ⟨.Register, 8, 8⟩,
    .Return ⟨.Register, 32, 8⟩], none⟩] none).get (by decide +kernel)

private theorem sumTwice_strictSsa : sumTwice.StrictSsa :=
  SSAFunction.strictSsa_of_checksStrict (fun _ => [0]) (by decide +kernel)

/-- Sums of natural numbers, and nothing else of interest. -/
def summing : Interpretation Nat Unit where
  exec op values mem :=
    match op with
    | .Copy _ _ => (values.headD 0, mem)
    | .binary _ _ _ _ => (values.sum, mem)
    | _ => (0, mem)
  copy _ _ _ _ := rfl

def summingExpressions : Expressions summing where
  unary _ _ _ _ := 0
  binary _ _ _ _ u v := u + v
  exec_unary _ _ _ _ _ := rfl
  exec_binary _ _ _ _ _ _ _ := by simp [summing]
  comm _ _ _ _ u v _ := Nat.add_comm u v

theorem commonSubexprElim_preserves_sumTwice :
    (commonSubexprElim sumTwice).2 = true ∧
      let after := (fun func => (commonSubexprElim func).1)^[2] sumTwice
      after.StrictSsa ∧ CsePreserves summing sumTwice after :=
  ⟨by decide +kernel, commonSubexprElim_preserves summing summingExpressions sumTwice_strictSsa 2⟩

end R2Sleigh.Ssa
