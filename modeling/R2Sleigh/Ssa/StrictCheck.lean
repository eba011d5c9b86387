import R2Sleigh.Ssa.StrictForm

/-!
Contract: deciding strict SSA form, given dominators of each block.

Owns `ListsDominators` and `checksStrict`.
-/

namespace R2Sleigh.Ssa

open Il Flow Lib List

namespace SSAFunction

variable (func : SSAFunction) (doms : Nat → List Nat)

/-- The entry has no dominator but itself, and a dominator of another block is the
block or dominates each of its predecessors. -/
def ListsDominators : Prop :=
  func.entry ∈ func.blockOrder ∧ doms func.entry ⊆ [func.entry] ∧
    ∀ p ∈ func.blockOrder, ∀ b ∈ func.successors p,
      b ∈ func.blockOrder ∧ ∀ d ∈ doms b, d = b ∨ d ∈ doms p

instance : Decidable (func.ListsDominators doms) := by
  unfold ListsDominators
  infer_instance

def dstsAt (addr : Nat) : List SSAVar := ((func.getBlock addr).map SSABlock.dsts).getD []

/-- Operands are predefined, known in the block, or defined by a strict dominator. -/
def usesAreStrict (addr : Nat) : List SSAVar → List SSAOp → Bool
  | _, [] => true
  | known, op :: rest =>
    op.sources.all (fun src => Predefined src ∨ src ∈ known ∨
      ∃ d ∈ doms addr, d ≠ addr ∧ src ∈ func.dstsAt d) &&
    usesAreStrict addr (known ++ op.dst.toList) rest

def phiIsStrict (addr : Nat) (phi : PhiNode) : Bool :=
  phi.sources.all (fun source => Predefined source.2 ∨
    ∃ d ∈ doms source.1, source.2 ∈ func.dstsAt d) &&
  func.blockOrder.all fun pred => addr ∉ func.successors pred ∨ pred ∈ phi.sources.map Prod.fst

def blockIsStrict (addr : Nat) (block : SSABlock) : Bool :=
  func.usesAreStrict doms addr (block.phis.map PhiNode.dst) block.ops &&
    block.phis.all (func.phiIsStrict doms addr) &&
    block.dsts.all fun v => 0 < v.version ∧ v.isConst = false

def checksStrict : Bool :=
  func.ListsDominators doms ∧ func.blockOrder.Nodup ∧ (∀ addr ∈ func.blocks.keys, addr ∈ func.blockOrder) ∧
    (∀ addr ∈ func.blockOrder, (func.getBlock addr).any (func.blockIsStrict doms addr)) ∧
    (func.blockOrder.flatMap func.dstsAt).Nodup

variable {func doms}

theorem ListsDominators.path (lists : func.ListsDominators doms) {b : Nat} {l : List Nat}
    (path : func.flow.PathTo b l) : b ∈ func.blockOrder ∧ b ∈ l ∧ ∀ d ∈ doms b, d ∈ l := by
  obtain ⟨entry, root, edges⟩ := lists
  induction path with
  | root => exact ⟨entry, mem_singleton_self _, fun d mem => root mem⟩
  | @snoc p b l path edge ih =>
    obtain ⟨listed, _, dominated⟩ := ih
    obtain ⟨inOrder, closed⟩ := edges p listed b edge
    refine ⟨inOrder, mem_cons_self, fun d mem => ?_⟩
    rcases closed d mem with isBlock | isAbove
    · rw [isBlock]
      exact mem_cons_self
    · exact mem_cons_of_mem _ (dominated d isAbove)

theorem ListsDominators.dom (lists : func.ListsDominators doms) {d b : Nat} (mem : d ∈ doms b) :
    func.flow.Dom d b := fun _ path => (lists.path path).2.2 d mem

theorem getBlock_of_dstsAt {addr : Nat} {v : SSAVar} (defined : v ∈ func.dstsAt addr) :
    ∃ block, func.getBlock addr = some block ∧ v ∈ block.dsts := by
  unfold dstsAt at defined
  cases found : func.getBlock addr with
  | none => rw [found] at defined; exact absurd defined not_mem_nil
  | some block =>
    rw [found] at defined
    exact ⟨block, rfl, defined⟩

theorem usesAreStrict_spec (lists : func.ListsDominators doms) {addr : Nat} {after : List SSAOp}
    {op : SSAOp} {src : SSAVar} (used : src ∈ op.sources) {before : List SSAOp} :
    ∀ {known}, func.usesAreStrict doms addr known (before ++ op :: after) = true →
      Predefined src ∨ src ∈ known ∨ src ∈ before.filterMap SSAOp.dst ∨
        ∃ d dominator, func.flow.SDom d addr ∧ func.getBlock d = some dominator ∧
          src ∈ dominator.dsts := by
  induction before with
  | nil =>
    intro known uses
    rw [nil_append, usesAreStrict, Bool.and_eq_true, all_eq_true] at uses
    rcases of_decide_eq_true (uses.1 src used) with predefined | isKnown | ⟨d, above, other, defined⟩
    · exact .inl predefined
    · exact .inr (.inl isKnown)
    · obtain ⟨block, found, isDst⟩ := getBlock_of_dstsAt defined
      exact .inr (.inr (.inr ⟨d, block, ⟨lists.dom above, other⟩, found, isDst⟩))
  | cons head before ih =>
    intro known uses
    rw [cons_append, usesAreStrict, Bool.and_eq_true] at uses
    rcases ih uses.2 with predefined | isKnown | isEarly | above
    · exact .inl predefined
    · rcases mem_append.mp isKnown with isKnown | isHead
      · exact .inr (.inl isKnown)
      · refine .inr (.inr (.inl (mem_filterMap.mpr ⟨head, mem_cons_self, ?_⟩)))
        simpa using isHead
    · exact .inr (.inr (.inl ((sublist_cons_self head before).filterMap _ |>.subset isEarly)))
    · exact .inr (.inr (.inr above))

theorem strictSsa_of_checksStrict (doms : Nat → List Nat) (checks : func.checksStrict doms = true) : func.StrictSsa := by
  obtain ⟨lists, order, keys, blocks, nodup⟩ := of_decide_eq_true checks
  have listed : ∀ addr, (func.getBlock addr).isSome ↔ addr ∈ func.blockOrder := by
    intro addr
    constructor
    · intro present
      exact keys addr (AList.lookup_isSome.mp present)
    · intro mem
      cases found : func.getBlock addr with
      | none => simpa [found] using blocks addr mem
      | some block => rfl
  have checked : ∀ {addr block}, func.getBlock addr = some block →
      func.blockIsStrict doms addr block = true := by
    intro addr block found
    have mem := (listed addr).mp (by rw [found]; rfl)
    simpa [found] using blocks addr mem
  have dstsAt : ∀ {addr block}, func.getBlock addr = some block → func.dstsAt addr = block.dsts := by
    intro addr block found
    rw [SSAFunction.dstsAt, found]
    rfl
  obtain ⟨each, apart⟩ := nodup_flatMap.mp nodup
  constructor
  · constructor
    · intro addr block before op after _ found position src used
      have uses := checked found
      rw [blockIsStrict, Bool.and_eq_true, Bool.and_eq_true, position] at uses
      exact usesAreStrict_spec lists used uses.1.1
    · intro addr block phi source found mem used _ _
      have uses := checked found
      rw [blockIsStrict, Bool.and_eq_true, Bool.and_eq_true, all_eq_true] at uses
      have strict := uses.1.2 phi mem
      rw [phiIsStrict, Bool.and_eq_true, all_eq_true] at strict
      rcases of_decide_eq_true (strict.1 source used) with predefined | ⟨d, above, defined⟩
      · exact .inl predefined
      · obtain ⟨dominator, foundAbove, isDst⟩ := getBlock_of_dstsAt defined
        exact .inr ⟨d, dominator, lists.dom above, foundAbove, isDst⟩
    · intro addr block phi pred found mem reach edge
      obtain ⟨l, path⟩ := reach
      have uses := checked found
      rw [blockIsStrict, Bool.and_eq_true, Bool.and_eq_true, all_eq_true] at uses
      have strict := uses.1.2 phi mem
      rw [phiIsStrict, Bool.and_eq_true, all_eq_true, all_eq_true] at strict
      rcases of_decide_eq_true (strict.2 pred (lists.path path).1) with noEdge | isSource
      · exact absurd edge noEdge
      · exact mem_map.mp isSource
  · intro addr block found
    rw [← dstsAt found]
    exact each addr ((listed addr).mp (by rw [found]; rfl))
  · intro addr addr' block block' v found found' mem member'
    by_contra other
    rw [← dstsAt found] at mem
    rw [← dstsAt found'] at member'
    have inOrder := (listed addr).mp (by rw [found]; rfl)
    have inOrder' := (listed addr').mp (by rw [found']; rfl)
    have symm : Std.Symm (Function.onFun List.Disjoint func.dstsAt) := ⟨fun _ _ apart => apart.symm⟩
    exact apart.forall inOrder inOrder' other mem member'
  · intro addr block v found mem
    have uses := checked found
    rw [blockIsStrict, Bool.and_eq_true, all_eq_true] at uses
    exact of_decide_eq_true (uses.2 v mem)
  · exact order
  · exact listed

end SSAFunction

end R2Sleigh.Ssa
