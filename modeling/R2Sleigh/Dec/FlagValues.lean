import R2Sleigh.Lib.Saturate
import R2Sleigh.Ssa.Function

/-!
Contract: the values that only the flags of the CPU and branches need.

Owns `flagContextDsts` and `recomputeFlagOnlyValues`.
-/

namespace R2Sleigh.Dec

open Il Lib Ssa List Option

/-! ## Flags -/

def isCpuFlag (name : String) : Bool :=
  ["cf", "pf", "af", "zf", "sf", "of", "cy", "zr", "ng", "ov", "nf", "vf", "df", "tf", "if", "iopl",
      "nt", "rf", "vm", "ac", "vif", "vip", "id", "tmpcy", "tmpzr", "tmpng", "tmpov"].contains
    name ||
  ["cf_", "pf_", "af_", "zf_", "sf_", "of_", "cy_", "zr_", "ng_", "ov_", "nf_", "vf_", "tmpcy_",
      "tmpzr_", "tmpng_", "tmpov_"].any (startsWith name)

def opCanBeFlagGlue : SSAOp → Bool
  | .Copy _ _ => true
  | .binary op _ _ _ =>
    [.BoolAnd, .BoolOr, .BoolXor, .IntEqual, .IntNotEqual, .IntLess, .IntSLess, .IntLessEqual,
      .IntSLessEqual].contains op
  | .unary op _ _ => [.BoolNot, .IntZExt, .IntSExt, .Trunc, .Cast].contains op
  | _ => false

section Names

variable (toUppercase toLowercase : String → String)

def consumerIsFlagContext (context : Finset String) : SSAOp → Bool
  | .CBranch _ _ => true
  | op =>
    match op.dst with
    | some dst =>
      isCpuFlag (toLowercase dst.name) || decide (displayName toUppercase dst ∈ context)
    | none => false

section Blocks

variable (blocks : List SSABlock)

/-- The operations that read each name. -/
def consumers : HashMap String (List SSAOp) :=
  (blocks.flatMap fun block => block.ops.flatMap fun op => op.sources.map fun src =>
    (src, op)).foldl (fun uses use => uses.pushAt (displayName toUppercase use.1) use.2) ∅

def defs : HashMap String SSAOp :=
  (blocks.flatMap fun block => block.ops.filterMap fun op => op.dst.map fun dst =>
    (dst, op)).foldl (fun defs entry => defs.insert (displayName toUppercase entry.1) entry.2) ∅

/-- All that the loop asks before it takes up the name of a definition. -/
def JoinsFlagContext (context : Finset String) (entry : Σ _ : String, SSAOp) : Prop :=
  opCanBeFlagGlue entry.2 = true ∧ entry.2.sources ≠ [] ∧
    (∀ src ∈ entry.2.sources, src.isConst = true ∨ isCpuFlag (toLowercase src.name) = true ∨
      displayName toUppercase src ∈ context) ∧
    (consumers toUppercase blocks).listAt entry.1 ≠ [] ∧
    ∀ consumer ∈ (consumers toUppercase blocks).listAt entry.1,
      consumerIsFlagContext toUppercase toLowercase context consumer = true

instance (context : Finset String) (entry : Σ _ : String, SSAOp) :
    Decidable (JoinsFlagContext toUppercase toLowercase blocks context entry) :=
  inferInstanceAs (Decidable (_ ∧ _))

/-- The definitions are visited in any order, in each pass. -/
def flagContextDsts (order : Nat → List (Σ _ : String, SSAOp)) (fuel : Nat) :
    Option (Finset String) :=
  saturate Sigma.fst (JoinsFlagContext toUppercase toLowercase blocks) order fuel 0
    ((defs toUppercase blocks).keys.filter fun name => isCpuFlag (toLowercase name)).toFinset

def flagOnlyValues (context : Finset String) : Finset String :=
  ((consumers toUppercase blocks).keys.filter fun key =>
    (consumers toUppercase blocks).listAt key ≠ [] ∧ isCpuFlag (toLowercase key) = false ∧
      ∀ consumer ∈ (consumers toUppercase blocks).listAt key,
        consumerIsFlagContext toUppercase toLowercase context consumer = true).toFinset

def recomputeFlagOnlyValues (order : Nat → List (Σ _ : String, SSAOp)) (fuel : Nat) :
    Option (Finset String) :=
  (flagContextDsts toUppercase toLowercase blocks order fuel).map
    (flagOnlyValues toUppercase toLowercase blocks)

/-! ## What the values are for -/

/-- A name in every set that holds the flags defined and what joins it. -/
def InFlagContext (key : String) : Prop :=
  ∀ context : Finset String, (∀ entry ∈ (defs toUppercase blocks).entries,
    isCpuFlag (toLowercase entry.1) = true ∨
      JoinsFlagContext toUppercase toLowercase blocks context entry → entry.1 ∈ context) →
    key ∈ context

/-- A flag by its name, or by its name with the version. -/
def IsCpuFlag (var : SSAVar) : Prop :=
  isCpuFlag (toLowercase var.name) = true ∨
    isCpuFlag (toLowercase (displayName toUppercase var)) = true

/-- A conditional branch, or the computation of a flag or of a value in the flag context. -/
def ForFlags (op : SSAOp) : Prop :=
  (∃ target cond, op = .CBranch target cond) ∨ ∃ dst, op.dst = some dst ∧
    (IsCpuFlag toUppercase toLowercase dst ∨
      InFlagContext toUppercase toLowercase blocks (displayName toUppercase dst))

def OpUses (key : String) (op : SSAOp) : Prop :=
  ∃ block ∈ blocks, op ∈ block.ops ∧ ∃ src ∈ op.sources, displayName toUppercase src = key

def PhiUses (key : String) (op : SSAOp) : Prop :=
  ∃ block ∈ blocks, ∃ phi ∈ block.phis, op = .Phi phi.dst (phi.sources.map Prod.snd) ∧
    ∃ src ∈ op.sources, displayName toUppercase src = key

/-- The value is used, is no flag, and all its uses are for flags. -/
def FlagOnly (var : SSAVar) : Prop :=
  let uses := fun op => OpUses toUppercase blocks (displayName toUppercase var) op ∨
    PhiUses toUppercase blocks (displayName toUppercase var) op
  (∃ op, uses op) ∧ ¬ IsCpuFlag toUppercase toLowercase var ∧
    ∀ op, uses op → ForFlags toUppercase toLowercase blocks op

/-- The name with the version is a flag's; or some use by an operation is not for flags; or
there are such uses, the value is no flag and its uses by phis are for flags; or there are
none, and uses by phis, if any, are not all for flags or the value is a flag. -/
def PhisAgree (var : SSAVar) : Prop :=
  let opUses := OpUses toUppercase blocks (displayName toUppercase var)
  let phiUses := PhiUses toUppercase blocks (displayName toUppercase var)
  let forFlags := ForFlags toUppercase toLowercase blocks
  isCpuFlag (toLowercase (displayName toUppercase var)) = true ∨
    (∃ op, opUses op ∧ ¬ forFlags op) ∨
    ((∃ op, opUses op) ∧ ¬ IsCpuFlag toUppercase toLowercase var ∧ ∀ op, phiUses op → forFlags op) ∨
    (¬ ∃ op, opUses op) ∧ ((∃ op, phiUses op) → IsCpuFlag toUppercase toLowercase var ∨
      ∃ op, phiUses op ∧ ¬ forFlags op)

variable {toUppercase toLowercase blocks}

theorem mem_consumers {key : String} {op : SSAOp} :
    op ∈ (consumers toUppercase blocks).listAt key ↔ OpUses toUppercase blocks key op := by
  rw [consumers, HashMap.mem_listAt_foldl_pushAt, OpUses]
  constructor
  · rintro (absent | ⟨⟨src, op⟩, mem, isKey, rfl⟩)
    · cases absent
    · simp only [mem_flatMap, List.mem_map, Prod.mk.injEq] at mem
      obtain ⟨block, inBlocks, op, inOps, src, isSource, rfl, rfl⟩ := mem
      exact ⟨block, inBlocks, inOps, src, isSource, isKey⟩
  · rintro ⟨block, inBlocks, inOps, src, isSource, isKey⟩
    refine .inr ⟨(src, op), ?_, isKey, rfl⟩
    simp only [mem_flatMap, List.mem_map]
    exact ⟨block, inBlocks, op, inOps, src, isSource, rfl⟩

theorem mem_keys_defs {op : SSAOp} {dst : SSAVar} {block : SSABlock} (inBlocks : block ∈ blocks)
    (inOps : op ∈ block.ops) (isDst : op.dst = some dst) :
    displayName toUppercase dst ∈ (defs toUppercase blocks).keys := by
  refine HashMap.mem_iff_exists_lookup.mpr ?_
  rw [defs, HashMap.lookup_foldl_insert_last]
  refine isSome_iff_exists.mp ?_
  rw [isSome_or, isSome_map, Bool.or_eq_true, List.find?_isSome]
  refine .inl ⟨(dst, op), ?_, decide_eq_true rfl⟩
  rw [mem_reverse, mem_flatMap]
  exact ⟨block, inBlocks, mem_filterMap.mpr ⟨op, inOps, by rw [isDst, map_some]⟩⟩

theorem consumerIsFlagContext_mono {context context' : Finset String} (within : context ⊆ context')
    {op : SSAOp} (isContext : consumerIsFlagContext toUppercase toLowercase context op = true) :
    consumerIsFlagContext toUppercase toLowercase context' op = true := by
  unfold consumerIsFlagContext at isContext ⊢
  split at isContext
  · rfl
  · split at isContext
    · rw [Bool.or_eq_true, decide_eq_true_eq] at isContext ⊢
      exact isContext.imp_right fun mem => within mem
    · cases isContext

theorem joinsFlagContext_mono (context context' : Finset String) (entry : Σ _ : String, SSAOp)
    (within : context ⊆ context')
    (joins : JoinsFlagContext toUppercase toLowercase blocks context entry) :
    JoinsFlagContext toUppercase toLowercase blocks context' entry := by
  obtain ⟨glue, some, sources, used, uses⟩ := joins
  exact ⟨glue, some, fun src mem => (sources src mem).imp_right (Or.imp_right (within ·)),
    used, fun consumer mem => consumerIsFlagContext_mono within (uses consumer mem)⟩

/-- The loop ends with the least context, whatever the visiting orders. -/
theorem flagContextDsts_ends (toUppercase toLowercase : String → String)
    (blocks : List SSABlock) : ∃ context : Finset String,
    (∀ key, key ∈ context ↔ InFlagContext toUppercase toLowercase blocks key) ∧
      ∀ order : Nat → List (Σ _ : String, SSAOp),
        (∀ n, (order n).Perm (defs toUppercase blocks).entries) →
          ∀ fuel, (defs toUppercase blocks).entries.length < fuel →
            flagContextDsts toUppercase toLowercase blocks order fuel = some context := by
  have ends : ∀ order : Nat → List (Σ _ : String, SSAOp),
      (∀ n, (order n).Perm (defs toUppercase blocks).entries) →
        ∀ fuel, (defs toUppercase blocks).entries.length < fuel → ∃ context,
          flagContextDsts toUppercase toLowercase blocks order fuel = some context ∧
            ∀ key, key ∈ context ↔ InFlagContext toUppercase toLowercase blocks key := by
    intro order visits fuel enough
    obtain ⟨context, isContext, around, closed, least⟩ := saturate_least Sigma.fst
      joinsFlagContext_mono (fun n _ => (visits n).mem_iff) fuel 0
      ((defs toUppercase blocks).keys.filter fun name => isCpuFlag (toLowercase name)).toFinset
      (Nat.lt_of_le_of_lt ((Finset.card_le_card Finset.sdiff_subset).trans
        ((toFinset_card_le _).trans_eq (length_map _))) enough)
    refine ⟨context, isContext, fun key => ⟨fun mem other closedOther => ?_, fun all => ?_⟩⟩
    · refine least other (fun name flag => ?_) (fun entry inDefs joins =>
        closedOther entry inDefs (.inr joins)) mem
      obtain ⟨defined, isFlag⟩ := mem_filter.mp (List.mem_toFinset.mp flag)
      obtain ⟨entry, inDefs, rfl⟩ := List.mem_map.mp defined
      exact closedOther entry inDefs (.inl isFlag)
    · refine all context fun entry inDefs enters => ?_
      rcases enters with isFlag | joins
      · exact around (List.mem_toFinset.mpr (mem_filter.mpr ⟨List.mem_map_of_mem inDefs, isFlag⟩))
      · exact closed entry inDefs joins
  obtain ⟨context, -, isLeast⟩ :=
    ends (fun _ => (defs toUppercase blocks).entries) (fun _ => .rfl) _ (Nat.lt_succ_self _)
  refine ⟨context, isLeast, fun order visits fuel enough => ?_⟩
  obtain ⟨context', isContext, isLeast'⟩ := ends order visits fuel enough
  rw [isContext, Finset.ext fun key => (isLeast' key).trans (isLeast key).symm]

section

variable {context : Finset String}
  (isLeast : ∀ key, key ∈ context ↔ InFlagContext toUppercase toLowercase blocks key)
include isLeast

theorem consumerIsFlagContext_iff
    {key : String} {op : SSAOp} (uses : OpUses toUppercase blocks key op) :
    consumerIsFlagContext toUppercase toLowercase context op = true ↔
      ForFlags toUppercase toLowercase blocks op := by
  obtain ⟨block, inBlocks, inOps, -⟩ := uses
  unfold consumerIsFlagContext
  split
  · exact iff_of_true rfl (.inl ⟨_, _, rfl⟩)
  · rename_i notBranch
    have noBranch : ¬ ∃ target cond, op = .CBranch target cond := fun ⟨target, cond, same⟩ =>
      notBranch target cond same
    rw [ForFlags, or_iff_right noBranch]
    split
    · rename_i dst isDst
      rw [Bool.or_eq_true, decide_eq_true_eq, isLeast]
      constructor
      · exact fun isContext => ⟨dst, isDst, isContext.imp_left .inl⟩
      · rintro ⟨other, isOther, forFlags⟩
        obtain rfl : dst = other := some.inj (isDst.symm.trans isOther)
        rcases forFlags with (byName | byKey) | inContext
        · exact .inl byName
        · -- a flag by its versioned name is in the context from the start
          obtain ⟨entry, inDefs, isKey⟩ := List.mem_map.mp (mem_keys_defs inBlocks inOps isDst)
          refine .inr fun context closed => ?_
          rw [← isKey] at byKey ⊢
          exact closed entry inDefs (.inl byKey)
        · exact .inr inContext
    · rename_i noDst
      exact iff_of_false Bool.false_ne_true fun ⟨dst, isDst, _⟩ =>
        some_ne_none dst (isDst.symm.trans noDst)

private theorem mem_flagOnlyValues_iff
    (key : String) : key ∈ flagOnlyValues toUppercase toLowercase blocks context ↔
      (∃ op, OpUses toUppercase blocks key op) ∧ isCpuFlag (toLowercase key) = false ∧
        ∀ op, OpUses toUppercase blocks key op → ForFlags toUppercase toLowercase blocks op := by
  have used : (consumers toUppercase blocks).listAt key ≠ [] ↔
      ∃ op, OpUses toUppercase blocks key op :=
    ⟨fun some => (exists_mem_of_ne_nil _ some).imp fun _ => mem_consumers.mp,
      fun ⟨_, uses⟩ => ne_nil_of_mem (mem_consumers.mpr uses)⟩
  have isKey : (∃ op, OpUses toUppercase blocks key op) →
      key ∈ (consumers toUppercase blocks).keys := by
    rintro ⟨op, uses⟩
    have mem := mem_consumers.mpr uses
    refine HashMap.mem_iff_exists_lookup.mpr (isSome_iff_exists.mp ?_)
    unfold HashMap.listAt at mem
    cases found : (consumers toUppercase blocks).lookup key with
    | none =>
      rw [found] at mem
      cases mem
    | some _ => rfl
  rw [flagOnlyValues, List.mem_toFinset, mem_filter, decide_eq_true_eq, used]
  constructor
  · rintro ⟨-, some, noFlag, all⟩
    exact ⟨some, noFlag, fun op uses =>
      (consumerIsFlagContext_iff isLeast uses).mp (all op (mem_consumers.mpr uses))⟩
  · rintro ⟨some, noFlag, all⟩
    refine ⟨isKey some, some, noFlag, fun op mem => ?_⟩
    have uses := mem_consumers.mp mem
    exact (consumerIsFlagContext_iff isLeast uses).mpr (all op uses)

end

end Blocks

/-- The flag context is the same in all orders, and a value is classified right exactly if
its uses by phis make no difference. -/
theorem recomputeFlagOnlyValues_iff (blocks : List SSABlock) : ∃ context values : Finset String,
    (∀ key, key ∈ context ↔ InFlagContext toUppercase toLowercase blocks key) ∧
      (∀ order : Nat → List (Σ _ : String, SSAOp),
        (∀ n, (order n).Perm (defs toUppercase blocks).entries) →
          ∀ fuel, (defs toUppercase blocks).entries.length < fuel →
            flagContextDsts toUppercase toLowercase blocks order fuel = some context ∧
            recomputeFlagOnlyValues toUppercase toLowercase blocks order fuel = some values) ∧
      ∀ var, (displayName toUppercase var ∈ values ↔ FlagOnly toUppercase toLowercase blocks var) ↔
        PhisAgree toUppercase toLowercase blocks var := by
  obtain ⟨context, isLeast, ends⟩ := flagContextDsts_ends toUppercase toLowercase blocks
  refine ⟨context, _, isLeast, fun order visits fuel enough =>
    ⟨ends order visits fuel enough, by rw [recomputeFlagOnlyValues, ends order visits fuel enough,
      map_some]⟩, fun var => ?_⟩
  have notAll : ∀ uses : SSAOp → Prop,
      (∃ op, uses op ∧ ¬ ForFlags toUppercase toLowercase blocks op) ↔
      ¬ ∀ op, uses op → ForFlags toUppercase toLowercase blocks op := fun uses => by
    push Not
    rfl
  rw [mem_flagOnlyValues_iff isLeast, FlagOnly, PhisAgree, IsCpuFlag, notAll, notAll,
    ← Bool.not_eq_true]
  simp only [or_imp, forall_and, exists_or]
  tauto

end Names

/-- A condition that a phi merges too. -/
def conditionAndPhi : List SSABlock :=
  [⟨0x1000, 8, [.Copy ⟨"tmp:10", 1, 1⟩ (.constant 1 1),
      .CBranch ⟨"ram:2000", 0, 8⟩ ⟨"tmp:10", 1, 1⟩], []⟩,
    ⟨0x2000, 4, [.Return ⟨"tmp:20", 1, 1⟩],
      [⟨⟨"tmp:20", 1, 1⟩, [(0x1000, ⟨"tmp:10", 1, 1⟩), (0x1800, ⟨"tmp:18", 1, 1⟩)]⟩]⟩]

theorem conditionAndPhi_flagOnly :
    (∃ values, recomputeFlagOnlyValues id id conditionAndPhi
        (fun _ => (defs id conditionAndPhi).entries) 3 = some values ∧ "tmp:10_1" ∈ values) ∧
      ¬ FlagOnly id id conditionAndPhi ⟨"tmp:10", 1, 1⟩ := by
  refine ⟨⟨_, rfl, by decide +kernel⟩, fun ⟨_, _, all⟩ => ?_⟩
  rcases all (.Phi ⟨"tmp:20", 1, 1⟩ [⟨"tmp:10", 1, 1⟩, ⟨"tmp:18", 1, 1⟩])
      (.inr ⟨_, mem_cons_of_mem _ mem_cons_self, _, mem_cons_self, rfl, _,
        mem_cons_self, rfl⟩) with ⟨_, _, isBranch⟩ | ⟨dst, isDst, isFlag | inContext⟩
  · cases isBranch
  · cases isDst
    revert isFlag
    unfold IsCpuFlag
    decide +kernel
  · cases isDst
    have closed : ∀ entry ∈ (defs id conditionAndPhi).entries, entry.1 = "tmp:10_1" := by
      decide +kernel
    have mem := inContext {"tmp:10_1"} fun entry inDefs _ =>
      Finset.mem_singleton.mpr (closed entry inDefs)
    revert mem
    decide +kernel

end R2Sleigh.Dec
