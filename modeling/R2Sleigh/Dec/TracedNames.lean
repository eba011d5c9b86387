import R2Sleigh.Dec.TypeNames
import R2Sleigh.Ssa.Closed

/-!
Contract: the names under which the analyses record expressions.

Owns `formatTracedName` and `Clash`.
-/

namespace R2Sleigh.Dec

open Ssa Lib List
open Types (parseUnsigned)

/-- `str::rsplit_once`, at underscores. -/
def rsplitOnce (text : List Char) : Option (List Char × List Char) :=
  match text.reverse.dropWhile (· ≠ '_') with
  | [] => none
  | _ :: before => some (before.reverse, (text.reverse.takeWhile (· ≠ '_')).reverse)

/-- `str::trim_start_matches`, of `tmp:`. -/
def trimTmp : List Char → List Char
  | 't' :: 'm' :: 'p' :: ':' :: rest => trimTmp rest
  | text => text

/-- The name of a key, with `toLowercase` as `str::to_lowercase`. -/
def formatTracedName (toLowercase : String → String) (varAliases : HashMap String String)
    (key : String) : String :=
  match varAliases.lookup key with
  | some name => name
  | none =>
    if ¬ startsWith key "tmp:" ∧ ¬ startsWith key "const:" ∧ ¬ startsWith key "ram:" then
      match rsplitOnce key.toList with
      | some (base, version) =>
        if version = ['0'] then toLowercase (.ofList base)
        else toLowercase (.ofList base) ++ "_" ++ .ofList version
      | none => toLowercase key
    else if startsWith key "tmp:" then
      match rsplitOnce (trimTmp key.toList) with
      | some (base, version) =>
        match parseUnsigned 32 version with
        | some ver => if 0 < ver then "t" ++ .ofList base ++ "_" ++ decimal ver else "t0"
        | none => "t" ++ .ofList base
      | none => key
    else key

/-! ## Keys -/

theorem underscore_notMem_toDigits (n : Nat) : '_' ∉ Nat.toDigits 10 n := fun mem =>
  absurd (Nat.isDigit_of_mem_toDigits (by decide) (by decide) mem) (by decide)

theorem rsplitOnce_append {after : List Char} (before : List Char) (plain : '_' ∉ after) :
    rsplitOnce (before ++ '_' :: after) = some (before, after) := by
  have stops : ∀ c ∈ after.reverse, decide (c ≠ '_') = true := fun c mem =>
    decide_eq_true fun same => plain (same ▸ mem_reverse.mp mem)
  rw [rsplitOnce, reverse_append, reverse_cons, append_assoc, dropWhile_append_of_pos stops,
    takeWhile_append_of_pos stops]
  simp

private theorem trimTmp_append (text rest : List Char) :
    trimTmp (text ++ '_' :: rest) = trimTmp text ++ '_' :: rest := by
  fun_induction trimTmp text with
  | case1 text ih => exact ih
  | case2 text other =>
    unfold trimTmp
    split
    · rename_i tail same
      rcases text with _ | ⟨a, _ | ⟨b, _ | ⟨c, _ | ⟨d, text⟩⟩⟩⟩ <;> simp at same
      obtain ⟨rfl, rfl, rfl, rfl, -⟩ := same
      exact absurd rfl (other text)
    · rfl

private theorem suffixed_inj {text text' : String} {n m : Nat} :
    text ++ "_" ++ decimal n = text' ++ "_" ++ decimal m ↔ text = text' ∧ n = m := by
  refine ⟨fun same => ?_, fun ⟨sameText, sameNumber⟩ => by rw [sameText, sameNumber]⟩
  have split : ∀ (text : String) (n : Nat), rsplitOnce (text ++ "_" ++ decimal n).toList =
      some (text.toList, Nat.toDigits 10 n) := fun text n => by
    rw [← rsplitOnce_append _ (underscore_notMem_toDigits n)]
    simp [decimal]
  have both := split text n
  rw [same, split, Option.some.injEq, Prod.mk.injEq] at both
  have numbers := congrArg (Nat.ofDigitChars 10 · 0) both.2
  simp only [Nat.ofDigitChars_ten_toDigits] at numbers
  exact ⟨(String.toList_inj.mp both.1).symm, numbers.symm⟩

theorem isPrefixOf_append_underscore {pre : List Char} (plain : '_' ∉ pre) (rest : List Char) :
    ∀ text, pre.isPrefixOf (text ++ '_' :: rest) = pre.isPrefixOf text := by
  induction pre with
  | nil => exact fun _ => rfl
  | cons c pre ih =>
    rw [mem_cons, not_or] at plain
    rintro (_ | ⟨a, text⟩)
    · simp [isPrefixOf, Ne.symm plain.1]
    · rw [cons_append, isPrefixOf, isPrefixOf, ih plain.2]

section

variable (toUppercase : String → String) (var : SSAVar)

/-- The name in the key of a variable. -/
def shown : String :=
  if ["reg:", "tmp:", "const:", "ram:", "space"].any (startsWith var.name) then var.name
  else toUppercase var.name

theorem displayName_eq :
    displayName toUppercase var = shown toUppercase var ++ "_" ++ decimal var.version := rfl

theorem startsWith_displayName {pre : String} (plain : '_' ∉ pre.toList) :
    startsWith (displayName toUppercase var) pre = startsWith (shown toUppercase var) pre := by
  rw [displayName_eq, startsWith, String.toList_append, String.toList_append, append_assoc]
  exact isPrefixOf_append_underscore plain _ _

/-! ## Names -/

def IsTemp : Prop := startsWith (shown toUppercase var) "tmp:"

/-- The name is one that is kept as it is. -/
def IsKept : Prop :=
  startsWith (shown toUppercase var) "const:" ∨ startsWith (shown toUppercase var) "ram:"

/-- The name is one that is put into lower case. -/
def IsLowered : Prop := ¬ IsTemp toUppercase var ∧ ¬ IsKept toUppercase var

instance : Decidable (IsTemp toUppercase var) := inferInstanceAs (Decidable (_ = true))

instance : Decidable (IsKept toUppercase var) := inferInstanceAs (Decidable (_ ∨ _))

instance : Decidable (IsLowered toUppercase var) := inferInstanceAs (Decidable (_ ∧ _))

variable (toLowercase : String → String)

/-- The name of a variable without its version. -/
def spelling : String :=
  if IsTemp toUppercase var then "t" ++ .ofList (trimTmp (shown toUppercase var).toList)
  else if IsKept toUppercase var then shown toUppercase var
  else toLowercase (shown toUppercase var)

theorem formatTracedName_display {varAliases : HashMap String String}
    (noAlias : varAliases.lookup (displayName toUppercase var) = none)
    (fits : var.version < 2 ^ 32) :
    formatTracedName toLowercase varAliases (displayName toUppercase var) =
      if var.version = 0 ∧ IsTemp toUppercase var then "t0"
      else if var.version = 0 ∧ IsLowered toUppercase var then spelling toUppercase var toLowercase
      else spelling toUppercase var toLowercase ++ "_" ++ decimal var.version := by
  have chars : (displayName toUppercase var).toList =
      (shown toUppercase var).toList ++ '_' :: Nat.toDigits 10 var.version := by
    simp [displayName_eq, decimal]
  have splits := fun before => rsplitOnce_append before (underscore_notMem_toDigits var.version)
  rw [formatTracedName, noAlias]
  rw [startsWith_displayName _ _ (by decide), startsWith_displayName _ _ (by decide),
    startsWith_displayName _ _ (by decide), chars, trimTmp_append, splits, splits]
  dsimp only
  rw [show parseUnsigned 32 (Nat.toDigits 10 var.version) = _ from
    parseUnsigned_digits (by decide) fits]
  have zero : Nat.toDigits 10 var.version = ['0'] ↔ var.version = 0 := by
    refine ⟨fun same => ?_, fun same => by rw [same]; rfl⟩
    have number := congrArg (Nat.ofDigitChars 10 · 0) same
    rw [Nat.ofDigitChars_ten_toDigits] at number
    exact number
  by_cases temp : IsTemp toUppercase var
  · have isTemp : startsWith (shown toUppercase var) "tmp:" = true := temp
    have notLowered : ¬ IsLowered toUppercase var := fun lowered => lowered.1 temp
    rcases Nat.eq_zero_or_pos var.version with isZero | positive
    · simp [isTemp, temp, isZero]
    · simp [isTemp, temp, notLowered, positive, spelling, positive.ne']
  · have notTemp : startsWith (shown toUppercase var) "tmp:" = false := Bool.eq_false_iff.mpr temp
    by_cases kept : IsKept toUppercase var
    · have notLowered : ¬ IsLowered toUppercase var := fun lowered => lowered.2 kept
      rcases kept with const | ram
      · simp [notTemp, const, temp, notLowered, spelling, displayName_eq, IsKept]
      · simp [notTemp, ram, temp, notLowered, spelling, displayName_eq, IsKept]
    · have isLowered : IsLowered toUppercase var := ⟨temp, kept⟩
      obtain ⟨notConst, notRam⟩ := not_or.mp kept
      simp [notTemp, notConst, notRam, temp, isLowered, spelling, kept, zero, decimal]

end

/-! ## Clashes -/

section

variable (toUppercase toLowercase : String → String)

/-- A lower-case name without a version is the whole name of another key. -/
def Shadows (u v : SSAVar) : Prop :=
  IsLowered toUppercase u ∧ u.version = 0 ∧ ¬ (v.version = 0 ∧ IsLowered toUppercase v) ∧
    spelling toUppercase u toLowercase =
      if v.version = 0 ∧ IsTemp toUppercase v then "t0"
      else spelling toUppercase v toLowercase ++ "_" ++ decimal v.version

/-- Different keys with one name: temporaries of version 0; one spelling and version; or a
lower-case name that ends like another's version. -/
def Clash (u v : SSAVar) : Prop :=
  (IsTemp toUppercase u ∧ IsTemp toUppercase v ∧ u.version = 0 ∧ v.version = 0) ∨
  (u.version = v.version ∧ spelling toUppercase u toLowercase = spelling toUppercase v toLowercase ∧
    (u.version = 0 → IsLowered toUppercase u ∧ IsLowered toUppercase v)) ∨
  Shadows toUppercase toLowercase u v ∨ Shadows toUppercase toLowercase v u

theorem suffixed_ne_t0 (text : String) (n : Nat) : "t0" ≠ text ++ "_" ++ decimal n := fun same =>
  absurd (show '_' ∈ "t0".toList by rw [same]; simp) (by decide)

variable {toUppercase toLowercase}

/-- Names without an alias coincide exactly if the variables clash. -/
theorem formatTracedName_eq_iff {varAliases : HashMap String String} {u v : SSAVar}
    (uNone : varAliases.lookup (displayName toUppercase u) = none)
    (vNone : varAliases.lookup (displayName toUppercase v) = none)
    (uFits : u.version < 2 ^ 32) (vFits : v.version < 2 ^ 32)
    (differ : displayName toUppercase u ≠ displayName toUppercase v) :
    formatTracedName toLowercase varAliases (displayName toUppercase u) =
      formatTracedName toLowercase varAliases (displayName toUppercase v) ↔
    Clash toUppercase toLowercase u v := by
  rw [formatTracedName_display _ _ _ uNone uFits, formatTracedName_display _ _ _ vNone vFits, Clash,
    Shadows, Shadows]
  have keptEqual : u.version = 0 → v.version = 0 →
      spelling toUppercase u toLowercase = spelling toUppercase v toLowercase →
      ¬ IsTemp toUppercase u → ¬ IsTemp toUppercase v →
      ¬ IsLowered toUppercase u → ¬ IsLowered toUppercase v → False := by
    intro uZero vZero same uTemp vTemp uLowered vLowered
    have uKept : IsKept toUppercase u := Classical.not_not.mp fun kept => uLowered ⟨uTemp, kept⟩
    have vKept : IsKept toUppercase v := Classical.not_not.mp fun kept => vLowered ⟨vTemp, kept⟩
    rw [spelling, spelling, if_neg uTemp, if_neg vTemp, if_pos uKept, if_pos vKept] at same
    exact differ (by rw [displayName_eq, displayName_eq, same, uZero, vZero])
  have uApart : IsLowered toUppercase u → ¬ IsTemp toUppercase u := And.left
  have vApart : IsLowered toUppercase v → ¬ IsTemp toUppercase v := And.left
  all_goals grind [suffixed_inj, suffixed_ne_t0]

/-- A variable of a block, other than a constant. -/
def Occurs (blocks : List SSABlock) (var : SSAVar) : Prop :=
  var.isConst = false ∧ ∃ block ∈ blocks, var ∈ block.uses ∨ var ∈ block.dsts

/-- The variables of a function have names of their own exactly if their keys differ, and no two
that have no alias clash. -/
theorem tracedNames_differ_iff (toUppercase toLowercase : String → String) (blocks : List SSABlock)
    (varAliases : HashMap String String)
    (fits : ∀ var, Occurs blocks var → var.version < 2 ^ 32)
    (injective : ∀ key key' name, varAliases.lookup key = some name →
      varAliases.lookup key' = some name → key = key')
    (fresh : ∀ key name, varAliases.lookup key = some name → ∀ var, Occurs blocks var →
      name ≠ formatTracedName toLowercase ∅ (displayName toUppercase var)) :
    (∀ u v, Occurs blocks u → Occurs blocks v → u ≠ v →
      formatTracedName toLowercase varAliases (displayName toUppercase u) ≠
        formatTracedName toLowercase varAliases (displayName toUppercase v)) ↔
    ∀ u v, Occurs blocks u → Occurs blocks v → u ≠ v →
      displayName toUppercase u ≠ displayName toUppercase v ∧
      (varAliases.lookup (displayName toUppercase u) = none →
        varAliases.lookup (displayName toUppercase v) = none →
        ¬ Clash toUppercase toLowercase u v) := by
  refine forall₂_congr fun u v => imp_congr_right fun uOccurs => imp_congr_right fun vOccurs =>
    imp_congr_right fun _ => ?_
  by_cases same : displayName toUppercase u = displayName toUppercase v
  · rw [same]
    exact iff_of_false (fun differ => differ rfl) fun differ => differ.1 rfl
  rw [and_iff_right same]
  have aliased : ∀ {key name}, varAliases.lookup key = some name →
      formatTracedName toLowercase varAliases key = name := fun found => by
    rw [formatTracedName, found]
  have generated : ∀ {key}, varAliases.lookup key = none →
      formatTracedName toLowercase varAliases key = formatTracedName toLowercase ∅ key :=
    fun missing => by
      rw [formatTracedName, formatTracedName, missing, AList.lookup_empty]
  cases uFound : varAliases.lookup (displayName toUppercase u) with
  | some uName =>
    refine iff_of_true ?_ nofun
    cases vFound : varAliases.lookup (displayName toUppercase v) with
    | some vName =>
      rw [aliased uFound, aliased vFound]
      rintro rfl
      exact same (injective _ _ _ uFound vFound)
    | none =>
      rw [aliased uFound, generated vFound]
      exact fresh _ _ uFound v vOccurs
  | none =>
    cases vFound : varAliases.lookup (displayName toUppercase v) with
    | some vName =>
      refine iff_of_true ?_ nofun
      rw [generated uFound, aliased vFound]
      exact (fresh _ _ vFound u uOccurs).symm
    | none =>
      rw [Ne, formatTracedName_eq_iff uFound vFound (fits u uOccurs) (fits v vOccurs) same]
      exact ⟨fun apart _ _ => apart, fun apart => apart rfl rfl⟩

end

/-- Two copies of temporaries that nothing has written. -/
def undefinedTemps : List SSABlock :=
  [⟨0x1000, 8, [.Copy ⟨"RAX", 1, 8⟩ ⟨"tmp:10", 0, 8⟩, .Copy ⟨"RCX", 1, 8⟩ ⟨"tmp:18", 0, 8⟩], []⟩]

theorem undefinedTemps_share_name : ¬ ∀ u v, Occurs undefinedTemps u → Occurs undefinedTemps v →
    u ≠ v → formatTracedName toAsciiLowercase ∅ (displayName id u) ≠
      formatTracedName toAsciiLowercase ∅ (displayName id v) := fun differ =>
  differ ⟨"tmp:10", 0, 8⟩ ⟨"tmp:18", 0, 8⟩
    ⟨by decide, _, mem_cons_self, .inl (by decide)⟩ ⟨by decide, _, mem_cons_self, .inl (by decide)⟩
    (by decide) (by decide +kernel)

def definedTemp : List SSABlock := [⟨0x1000, 4, [.Copy ⟨"RAX", 1, 8⟩ ⟨"tmp:10", 1, 8⟩], []⟩]

theorem definedTemp_names_differ :
    formatTracedName toAsciiLowercase ∅ (displayName id ⟨"tmp:10", 1, 8⟩) ≠
      formatTracedName toAsciiLowercase ∅ (displayName id ⟨"RAX", 1, 8⟩) := by
  have only : ∀ var, Occurs definedTemp var → var = ⟨"tmp:10", 1, 8⟩ ∨ var = ⟨"RAX", 1, 8⟩ := by
    rintro var ⟨-, block, mem, used⟩
    obtain rfl := mem_singleton.mp mem
    simpa [SSABlock.uses, SSABlock.dsts, SSAOp.sources, SSAOp.dst] using used
  refine (tracedNames_differ_iff id toAsciiLowercase definedTemp ∅ (fun var occurs => ?_)
    (fun _ _ _ found => ?_) (fun _ _ found => ?_)).mpr (fun u v uOccurs vOccurs differ => ?_)
    ⟨"tmp:10", 1, 8⟩ ⟨"RAX", 1, 8⟩ ⟨by decide, _, mem_cons_self, .inl (by decide)⟩
    ⟨by decide, _, mem_cons_self, .inr (by decide)⟩ (by decide)
  · rcases only var occurs with rfl | rfl <;> decide
  · cases found
  · cases found
  · rcases only u uOccurs with rfl | rfl <;> rcases only v vOccurs with rfl | rfl
    · exact absurd rfl differ
    · unfold Clash Shadows
      decide +kernel
    · unfold Clash Shadows
      decide +kernel
    · exact absurd rfl differ

end R2Sleigh.Dec
