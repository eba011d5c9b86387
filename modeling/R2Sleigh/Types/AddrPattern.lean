import R2Sleigh.Ssa.ConstDecode
import R2Sleigh.Ssa.Machine
import R2Sleigh.Types.Solver

/-!
Contract: addresses as a base with an offset or a stride.

Owns `detectAddrPattern`.
-/

namespace R2Sleigh.Types

open Il Lib Ssa Option BitVec

/-! ## Literals -/

/-- The number in a name, up to the first underscore: hexadecimal unless it is marked as
decimal. -/
def parseConstWord (var : SSAVar) : Option Word :=
  if var.isConst then
    (stripPrefix "const:" var.name).bind fun text =>
      match text.takeWhile (· ≠ '_') with
      | '0' :: 'x' :: hex | '0' :: 'X' :: hex => fromStrRadix 16 hex
      | '0' :: 'd' :: dec | '0' :: 'D' :: dec => fromStrRadix 10 dec
      | text => fromStrRadix 16 text
  else none

def likelyNegativeThreshold : Word := 0xffffffffffff0000

/-- `parse_const_offset`, an `i64`. -/
def parseConstOffset (var : SSAVar) : Option Int :=
  (parseConstWord var).map fun val =>
    if likelyNegativeThreshold < val then -(~~~val + 1).toInt else val.toInt

def parseConstU64 (var : SSAVar) : Option Nat :=
  (parseConstOffset var).bind fun offset => if 0 ≤ offset then some offset.toNat else none

/-! ## Definitions -/

/-- Operations by the display name of what they define, a later definition taking the
place of an earlier one; the phis of a block come after its operations. -/
def blockDefs (toUppercase : String → String) (block : SSABlock) : List (String × SSAOp) :=
  block.ops.filterMap (fun op => op.dst.map fun dst => (displayName toUppercase dst, op)) ++
    block.phis.map fun phi =>
      (displayName toUppercase phi.dst, .Phi phi.dst (phi.sources.map Prod.snd))

def buildDefMap (toUppercase : String → String) (func : SSAFunction) : HashMap String SSAOp :=
  func.blockList.foldl (fun defs block =>
    (blockDefs toUppercase block).foldl (fun defs entry => defs.insert entry.1 entry.2) defs) ∅

/-! ## Patterns -/

section Patterns

variable (toUppercase : String → String) (defs : HashMap String SSAOp)

/-- `1u32.checked_shl(shift as u32)`. -/
def checkedShlOne (shift : Nat) : Option Nat :=
  if shift % 2 ^ 32 < 32 then some (2 ^ (shift % 2 ^ 32)) else none

def matchBasePlusScaledIndex (base candidate : SSAVar) : Option (SSAVar × Nat) :=
  match defs.lookup (displayName toUppercase candidate) with
  | some (.binary .IntMult _ a b) =>
    match parseConstU64 a with
    | some scale => some (base, scale % 2 ^ 32)
    | none =>
      match parseConstU64 b with
      | some scale => some (base, scale % 2 ^ 32)
      | none => none
  | some (.binary .IntLeft _ _ b) =>
    (parseConstU64 b).bind fun shift => (checkedShlOne shift).map fun scale => (base, scale)
  | _ => none

/-- Base, offset and stride of an address. -/
def detectAddrPattern (addr : SSAVar) : Option (SSAVar × Nat × Option Nat) :=
  match defs.lookup (displayName toUppercase addr) with
  | some (.PtrAdd _ base _ elementSize) | some (.PtrSub _ base _ elementSize) =>
    some (base, 0, some elementSize)
  | some (.binary .IntAdd _ a b) =>
    match parseConstU64 a with
    | some offset => some (b, offset, none)
    | none =>
      match parseConstU64 b with
      | some offset => some (a, offset, none)
      | none =>
        match matchBasePlusScaledIndex toUppercase defs a b with
        | some (base, stride) => some (base, 0, some stride)
        | none =>
          (matchBasePlusScaledIndex toUppercase defs b a).map fun (base, stride) =>
            (base, 0, some stride)
  | some (.binary .IntSub _ a b) => (parseConstU64 b).map fun offset => (a, offset, none)
  | _ => none

end Patterns

/-! ## What the table holds -/

theorem lookup_buildDefMap {toUppercase : String → String} {func : SSAFunction} {key : String}
    {op : SSAOp} (found : (buildDefMap toUppercase func).lookup key = some op) :
    ∃ block ∈ func.blockList, (key, op) ∈ blockDefs toUppercase block := by
  have loop : ∀ (blocks : List SSABlock) (defs : HashMap String SSAOp),
      (blocks.foldl (fun defs block =>
        (blockDefs toUppercase block).foldl (fun defs entry => defs.insert entry.1 entry.2) defs)
        defs).lookup key = some op →
      defs.lookup key = some op ∨ ∃ block ∈ blocks, (key, op) ∈ blockDefs toUppercase block := by
    intro blocks
    induction blocks with
    | nil => exact fun defs held => .inl held
    | cons block rest ih =>
      intro defs held
      rcases ih _ held with here | ⟨other, among, isEntry⟩
      · rw [HashMap.lookup_foldl_insert_last] at here
        rcases or_eq_some_iff.mp here with inserted | ⟨-, before⟩
        · obtain ⟨entry, isFound, rfl⟩ := map_eq_some_iff.mp inserted
          refine .inr ⟨block, List.mem_cons_self, ?_⟩
          have isKey : entry.1 = key := by simpa using List.find?_some isFound
          rw [← isKey]
          exact List.mem_reverse.mp (List.mem_of_find?_eq_some isFound)
        · exact .inl before
      · exact .inr ⟨other, List.mem_cons_of_mem _ among, isEntry⟩
  rcases loop func.blockList ∅ found with absent | inBlock
  · cases absent
  · exact inBlock

theorem mem_blockDefs_iff {toUppercase : String → String} {block : SSABlock} {key : String}
    {op : SSAOp} (notPhi : ∀ dst sources, op ≠ .Phi dst sources) :
    (key, op) ∈ blockDefs toUppercase block ↔
      op ∈ block.ops ∧ ∃ dst, op.dst = some dst ∧ displayName toUppercase dst = key := by
  unfold blockDefs
  simp only [List.mem_append, List.mem_filterMap, List.mem_map, map_eq_some_iff, Prod.mk.injEq]
  constructor
  · rintro (⟨op', mem, dst, isDst, isKey, rfl⟩ | ⟨phi, -, -, isPhi⟩)
    · exact ⟨mem, dst, isDst, isKey⟩
    · exact absurd isPhi.symm (notPhi _ _)
  · rintro ⟨mem, dst, isDst, isKey⟩
    exact .inl ⟨op, mem, dst, isDst, isKey, rfl⟩

/-! ## What literals are read as -/

/-- A literal in the form that SSA construction gives it, whose size holds its value. -/
def Spelled (var : SSAVar) : Prop :=
  var.isConst = true → ∃ word : Word, var.name = (SSAVar.constant word.toNat var.size).name ∧
    word.toNat < 2 ^ (var.size * 8)

theorem parseConstWord_constant (word : Word) (size : Nat) :
    parseConstWord (.constant word.toNat size) = some word := by
  rw [parseConstWord, if_pos (SSAVar.isConst_constant ..), stripPrefix_constant, bind_some,
    takeWhile_toDigits]
  split
  all_goals first
    | exact absurd ‹_› (toDigits_ne_zero_cons word.toNat _ _)
    | rw [fromStrRadix_toDigits word.isLt, ofNat_toNat, setWidth_eq]

theorem parseConstU64_word {var : SSAVar} {k : Nat} (parses : parseConstU64 var = some k) :
    ∃ word : Word, parseConstWord var = some word ∧ word.toNat = k ∧ k < 2 ^ 63 := by
  obtain ⟨offset, isOffset, isNat⟩ := bind_eq_some_iff.mp parses
  obtain ⟨word, isWord, isValue⟩ := map_eq_some_iff.mp isOffset
  by_cases negative : likelyNegativeThreshold < word
  · -- what is likely negative is less than zero
    have above : likelyNegativeThreshold.toNat < word.toNat := lt_def.mp negative
    have threshold : likelyNegativeThreshold.toNat = 0xffffffffffff0000 := by decide
    have complement : (~~~word + 1).toNat = 2 ^ 64 - word.toNat := by
      have one : (1 : Word).toNat = 1 := rfl
      rw [toNat_add, toNat_not, one]
      omega
    have isNegative : offset < 0 := by
      rw [← isValue, if_pos negative, toInt_eq_toNat_cond, complement]
      split <;> omega
    rw [if_neg (Int.not_le.mpr isNegative)] at isNat
    cases isNat
  · rw [if_neg negative, toInt_eq_toNat_cond] at isValue
    split at isNat
    · obtain rfl := some.inj isNat
      refine ⟨word, isWord, ?_⟩
      split at isValue <;> omega
    · cases isNat

theorem Spelled.value {var : SSAVar} (spelled : Spelled var) (machine : Ssa.Machine) {k : Nat}
    (parses : parseConstU64 var = some k) : machine.value var = k ∧ k < 2 ^ 63 := by
  obtain ⟨word, isWord, rfl, small⟩ := parseConstU64_word parses
  have isConst : var.isConst = true := by
    unfold parseConstWord at isWord
    split at isWord
    · assumption
    · cases isWord
  obtain ⟨word', name, fits⟩ := spelled isConst
  have reads : parseConstWord var = some word' := by
    rw [← parseConstWord_constant word' var.size, parseConstWord, parseConstWord, SSAVar.isConst,
      SSAVar.isConst, name]
  obtain rfl := some.inj (isWord.symm.trans reads)
  have literal : constValue var = some word := by
    rw [← constValue_constant word var.size, constValue, constValue, SSAVar.isConst,
      SSAVar.isConst, name]
  refine ⟨?_, small⟩
  rw [Ssa.Machine.value, literal]
  exact Nat.mod_eq_of_lt fits

end R2Sleigh.Types
