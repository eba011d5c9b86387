import R2Sleigh.Types.Model

/-!
Contract: the order on types, and joins and meets in a growing arena.

Owns `isSubtype`, `meet`, `join` and `Returns`.
-/

namespace R2Sleigh.Types

open Lib List

namespace TypeLattice

variable {merge inner : Nat → TypeArena → TypeId → TypeId → Option (TypeArena × TypeId)}
  {arena : TypeArena} {plan : MergePlan} {below : TypeId → TypeId → Prop} {a b : TypeId}
  {pair : TypeId × TypeId}

/-- A recursion with enough fuel gives this answer. -/
def Returns {A : Type} (run : Nat → Option A) (answer : A) : Prop :=
  ∃ bound, ∀ fuel, bound ≤ fuel → run fuel = some answer

def signBelow : Signedness → Signedness → Bool
  | .signed, .signed => true
  | .unsigned, .unsigned => true
  | _, .unknown => true
  | _, _ => false

def lenBelow : Option Nat → Option Nat → Bool
  | _, none => true
  | some x, some y => x == y
  | none, some _ => false

/-- What comparing two types by their constructors leaves to compare. -/
inductive Comparison where
  | answer (below : Bool)
  | inner (sub sup : TypeId)
  | fields (a b : BTreeMap Nat StructField)

def compareHeads : Ty → Ty → Comparison
  | _, .top => .answer true
  | .bottom, _ => .answer true
  | .bool, .int bits _ => .answer (decide (1 ≤ bits))
  | .int aBits aSign, .int bBits bSign =>
    .answer (decide (aBits ≤ bBits) && signBelow aSign bSign)
  | .float aBits, .float bBits => .answer (decide (aBits ≤ bBits))
  | .ptr aInner, .ptr bInner => .inner aInner bInner
  | .array aElem aLen _, .array bElem bLen _ =>
    if lenBelow aLen bLen then .inner aElem bElem else .answer false
  | .struct a, .struct b => .fields a.fields b.fields
  | _, _ => .answer false

def isSubtype : Nat → TypeArena → TypeId → TypeId → Option Bool
  | 0, _, _, _ => none
  | fuel + 1, arena, sub, sup =>
    if sub = sup then some true
    else
      match compareHeads (arena.get sub) (arena.get sup) with
      | .answer below => some below
      | .inner a b => isSubtype fuel arena a b
      | .fields a b =>
        b.entries.allM fun entry =>
          match a.get? entry.1 with
          | some aField => isSubtype fuel arena aField.ty entry.2.ty
          | none => some false

/-- What merging two types by their constructors leaves to merge. -/
inductive MergePlan where
  | existing (id : TypeId)
  | intern (ty : Ty)
  | ptr (a b : TypeId)
  | array (a b : TypeId) (len stride : Option Nat)
  | struct (a b : StructShape)
  | function (params : List (TypeId × TypeId)) (aRet bRet : TypeId) (variadic : Bool)

/-- The signedness of both sides, or unknown where they differ. -/
def mergeSign (a b : Signedness) : Signedness := if a = b then a else .unknown

def meetPlan (arena : TypeArena) : Ty → Ty → MergePlan
  | .top, other => .intern other
  | other, .top => .intern other
  | .bottom, _ => .existing arena.bottom
  | _, .bottom => .existing arena.bottom
  | .int aBits aSign, .int bBits bSign => .intern (.int (min aBits bBits) (mergeSign aSign bSign))
  | .ptr aInner, .ptr bInner => .ptr aInner bInner
  | .float aBits, .float bBits => .intern (.float (min aBits bBits))
  | _, _ => .existing arena.bottom

def joinPlan (arena : TypeArena) : Ty → Ty → MergePlan
  | .bottom, other => .intern other
  | other, .bottom => .intern other
  | .top, _ => .existing arena.top
  | _, .top => .existing arena.top
  | .bool, .bool => .existing arena.boolTy
  | .int aBits aSign, .int bBits bSign => .intern (.int (max aBits bBits) (mergeSign aSign bSign))
  | .bool, .int bits signedness => .intern (.int (max bits 1) signedness)
  | .int bits signedness, .bool => .intern (.int (max bits 1) signedness)
  | .float aBits, .float bBits => .intern (.float (max aBits bBits))
  | .ptr aInner, .ptr bInner => .ptr aInner bInner
  -- A pointer joined with an integer points to anything.
  | .ptr inner, .int _ _ => .ptr inner arena.top
  | .int _ _, .ptr inner => .ptr inner arena.top
  | .array aElem aLen aStride, .array bElem bLen bStride =>
    .array aElem bElem (if aLen = bLen then aLen else none)
      (if aStride = bStride then aStride else none)
  | .struct aShape, .struct bShape => .struct aShape bShape
  | .function aParams aRet aVar, .function bParams bRet bVar =>
    if aParams.length = bParams.length then
      .function (aParams.zip bParams) aRet bRet (aVar || bVar)
    else .existing arena.top
  | .unknownAlias aName, .unknownAlias bName =>
    if aName = bName then .intern (.unknownAlias aName) else .existing arena.top
  | _, _ => .existing arena.top

/-- The loop over the fields of the first structure. -/
def joinFields (join : TypeArena → TypeId → TypeId → Option (TypeArena × TypeId))
    (bFields : BTreeMap Nat StructField) (state : TypeArena × BTreeMap Nat StructField)
    (entry : Nat × StructField) : Option (TypeArena × BTreeMap Nat StructField) :=
  match bFields.get? entry.1 with
  | some bField => do
      let (arena, ty) ← join state.1 entry.2.ty bField.ty
      return (arena, state.2.insert entry.1 ⟨entry.2.name.or bField.name, ty⟩)
  | none => some (state.1, state.2.insert entry.1 entry.2)

/-- The parameters met in turn. -/
def meetParams (meet : TypeArena → TypeId → TypeId → Option (TypeArena × TypeId))
    (state : TypeArena × List TypeId) (pair : TypeId × TypeId) :
    Option (TypeArena × List TypeId) := do
  let (arena, param) ← meet state.1 pair.1 pair.2
  return (arena, state.2 ++ [param])

/-- Carry out a plan, joining and meeting components with the given functions. -/
def carryOut (merge meet : TypeArena → TypeId → TypeId → Option (TypeArena × TypeId))
    (arena : TypeArena) : MergePlan → Option (TypeArena × TypeId)
  | .existing id => some (arena, id)
  | .intern ty => some (arena.intern ty)
  | .ptr a b => do
      let (arena, inner) ← merge arena a b
      return arena.ptr inner
  | .array a b len stride => do
      let (arena, elem) ← merge arena a b
      return arena.array elem len stride
  | .struct aShape bShape => do
      let (arena, merged) ← aShape.fields.entries.foldlM
        (joinFields merge bShape.fields) (arena, .empty)
      let fields := bShape.fields.entries.foldl
        (fun merged entry => merged.orInsert entry.1 entry.2) merged
      return arena.intern (.struct ⟨aShape.name.or bShape.name, fields⟩)
  | .function pairs aRet bRet variadic => do
      let (arena, params) ← pairs.foldlM (meetParams meet) (arena, [])
      let (arena, ret) ← merge arena aRet bRet
      return arena.function params ret variadic

def meet : Nat → TypeArena → TypeId → TypeId → Option (TypeArena × TypeId)
  | 0, _, _, _ => none
  | fuel + 1, arena, a, b => do
      if ← isSubtype (fuel + 1) arena a b then return (arena, a)
      else if ← isSubtype (fuel + 1) arena b a then return (arena, b)
      else carryOut (meet fuel) (meet fuel) arena (meetPlan arena (arena.get a) (arena.get b))

def join : Nat → TypeArena → TypeId → TypeId → Option (TypeArena × TypeId)
  | 0, _, _, _ => none
  | fuel + 1, arena, a, b => do
      if ← isSubtype (fuel + 1) arena a b then return (arena, b)
      else if ← isSubtype (fuel + 1) arena b a then return (arena, a)
      else carryOut (join fuel) (meet fuel) arena (joinPlan arena (arena.get a) (arena.get b))

/-! ## Conjunctions over a list -/

theorem allM_cons_eq {A : Type} (holds : A → Option Bool) (x : A) (rest : List A) :
    (x :: rest).allM holds =
      (holds x).bind fun first => if first then rest.allM holds else some false := by
  rw [allM_cons]
  cases holds x with
  | none => rfl
  | some first => cases first <;> rfl

section

variable {A : Type} {items : List A}

private theorem allM_eq_true_iff {holds : A → Option Bool} :
    items.allM holds = some true ↔ ∀ item ∈ items, holds item = some true := by
  induction items with
  | nil => simp
  | cons x rest ih =>
    rw [allM_cons_eq, forall_mem_cons, ← ih]
    cases first : holds x with
    | none => simp
    | some answer => cases answer <;> simp

private theorem allM_congr {holds holds' : A → Option Bool}
    (same : ∀ item ∈ items, holds item = holds' item) : items.allM holds = items.allM holds' := by
  induction items with
  | nil => rfl
  | cons x rest ih =>
    obtain ⟨first, later⟩ := forall_mem_cons.mp same
    rw [allM_cons_eq, allM_cons_eq, first, ih later]

private theorem allM_settles {holds : Nat → A → Option Bool} {bound : Nat}
    (each : ∀ item ∈ items, ∃ answer, ∀ fuel, bound ≤ fuel → holds fuel item = some answer) :
    ∃ answer, ∀ fuel, bound ≤ fuel → items.allM (holds fuel) = some answer := by
  induction items with
  | nil => exact ⟨true, fun _ _ => rfl⟩
  | cons x rest ih =>
    obtain ⟨⟨first, firstSettles⟩, later⟩ := forall_mem_cons.mp each
    obtain ⟨others, othersSettle⟩ := ih later
    refine ⟨first && others, fun fuel enough => ?_⟩
    rw [allM_cons_eq, firstSettles fuel enough, othersSettle fuel enough]
    cases first <;> rfl

end

/-! ## The order -/

/-- What is left to compare, read with a relation between ids. -/
def Comparison.Holds (below : TypeId → TypeId → Prop) : Comparison → Prop
  | .answer r => r = true
  | .inner a b => below a b
  | .fields a b => ∀ entry ∈ b.entries, ∃ aField,
      a.get? entry.1 = some aField ∧ below aField.ty entry.2.ty

theorem isSubtype_eq_true_iff {fuel : Nat} {sub sup : TypeId} :
    isSubtype (fuel + 1) arena sub sup = some true ↔ sub = sup ∨
      (compareHeads (arena.get sub) (arena.get sup)).Holds
        fun a b => isSubtype fuel arena a b = some true := by
  rw [isSubtype]
  by_cases same : sub = sup
  · simp [same]
  · rw [if_neg same, or_iff_right same]
    cases compareHeads (arena.get sub) (arena.get sup) with
    | answer below => simp [Comparison.Holds]
    | inner a b => rfl
    | fields a b =>
      simp only [allM_eq_true_iff, Comparison.Holds]
      refine forall_congr' fun entry => imp_congr_right fun _ => ?_
      cases a.get? entry.1 <;> simp

private theorem signBelow_trans {a b c : Signedness} (first : signBelow a b = true)
    (second : signBelow b c = true) : signBelow a c = true := by
  cases a <;> cases b <;> cases c <;> first | rfl | simp [signBelow] at first second

private theorem lenBelow_trans {a b c : Option Nat} (first : lenBelow a b = true)
    (second : lenBelow b c = true) : lenBelow a c = true := by
  cases a <;> cases b <;> cases c <;> simp_all [lenBelow]

/-- The order on types whose components are ordered by `below`. -/
inductive HeadBelow (below : TypeId → TypeId → Prop) : Ty → Ty → Prop
  | top (x : Ty) : HeadBelow below x .top
  | bottom (y : Ty) : HeadBelow below .bottom y
  | bool {bits : Nat} (sign : Signedness) (positive : 1 ≤ bits) :
      HeadBelow below .bool (.int bits sign)
  | int {aBits bBits : Nat} {aSign bSign : Signedness} (narrower : aBits ≤ bBits)
      (sign : signBelow aSign bSign = true) : HeadBelow below (.int aBits aSign) (.int bBits bSign)
  | float {aBits bBits : Nat} (narrower : aBits ≤ bBits) :
      HeadBelow below (.float aBits) (.float bBits)
  | ptr {a b : TypeId} (inner : below a b) : HeadBelow below (.ptr a) (.ptr b)
  | array {a b : TypeId} {aLen bLen : Option Nat} (aStride bStride : Option Nat)
      (len : lenBelow aLen bLen = true) (elem : below a b) :
      HeadBelow below (.array a aLen aStride) (.array b bLen bStride)
  | struct {a b : StructShape} (fields : ∀ off bField, b.fields.get? off = some bField →
      ∃ aField, a.fields.get? off = some aField ∧ below aField.ty bField.ty) :
      HeadBelow below (.struct a) (.struct b)

theorem holds_fields_iff {a b : BTreeMap Nat StructField} :
    (Comparison.fields a b).Holds below ↔ ∀ off bField, b.get? off = some bField →
      ∃ aField, a.get? off = some aField ∧ below aField.ty bField.ty :=
  ⟨fun all _ _ found => all _ (BTreeMap.mem_of_get? found),
    fun all _ mem => all _ _ (BTreeMap.get?_of_mem mem)⟩

theorem compareHeads_holds_iff {x y : Ty} :
    (compareHeads x y).Holds below ↔ HeadBelow below x y := by
  constructor
  · intro holds
    unfold compareHeads at holds
    split at holds
    · exact .top _
    · exact .bottom _
    · exact .bool _ (by simpa [Comparison.Holds] using holds)
    · obtain ⟨narrower, sign⟩ : _ ∧ _ := by simpa [Comparison.Holds] using holds
      exact .int narrower sign
    · exact .float (by simpa [Comparison.Holds] using holds)
    · exact .ptr holds
    · split at holds
      · rename_i len
        exact .array _ _ len holds
      · simp [Comparison.Holds] at holds
    · exact .struct (holds_fields_iff.mp holds)
    · simp [Comparison.Holds] at holds
  · intro head
    cases head with
    | top => cases x <;> rfl
    | bottom => cases y <;> rfl
    | bool sign positive => simpa [compareHeads, Comparison.Holds] using positive
    | int narrower sign => simp [compareHeads, Comparison.Holds, narrower, sign]
    | float narrower => simpa [compareHeads, Comparison.Holds] using narrower
    | ptr inner => exact inner
    | array aStride bStride len elem => simpa [compareHeads, len, Comparison.Holds] using elem
    | struct fields => exact holds_fields_iff.mpr fields

theorem HeadBelow.trans {x y z : Ty} (first : HeadBelow below x y) (second : HeadBelow below y z)
    (belowTrans : ∀ {a b c}, below a b → below b c → below a c) : HeadBelow below x z := by
  cases first with
  | top =>
    cases second with
    | top => exact .top _
  | bottom => exact .bottom _
  | bool sign positive =>
    cases second with
    | top => exact .top _
    | int narrower _ => exact .bool _ (Nat.le_trans positive narrower)
  | int narrower sign =>
    cases second with
    | top => exact .top _
    | int narrower' sign' => exact .int (Nat.le_trans narrower narrower') (signBelow_trans sign sign')
  | float narrower =>
    cases second with
    | top => exact .top _
    | float narrower' => exact .float (Nat.le_trans narrower narrower')
  | ptr inner =>
    cases second with
    | top => exact .top _
    | ptr inner' => exact .ptr (belowTrans inner inner')
  | array aStride bStride len elem =>
    cases second with
    | top => exact .top _
    | array _ _ len' elem' =>
      exact .array _ _ (lenBelow_trans len len') (belowTrans elem elem')
  | struct fields =>
    cases second with
    | top => exact .top _
    | struct fields' =>
      refine .struct fun off cField found => ?_
      obtain ⟨bField, bFound, bBelow⟩ := fields' off cField found
      obtain ⟨aField, aFound, aBelow⟩ := fields off bField bFound
      exact ⟨aField, aFound, belowTrans aBelow bBelow⟩

theorem isSubtype_refl (fuel : Nat) (arena : TypeArena) (id : TypeId) :
    isSubtype (fuel + 1) arena id id = some true :=
  isSubtype_eq_true_iff.mpr (Or.inl rfl)

/-- Transitivity holds at every depth of the comparison. -/
theorem isSubtype_trans (fuel : Nat) : ∀ {a b c : TypeId},
    isSubtype fuel arena a b = some true → isSubtype fuel arena b c = some true →
      isSubtype fuel arena a c = some true := by
  induction fuel with
  | zero => simp [isSubtype]
  | succ fuel ih =>
    intro a b c first second
    rcases isSubtype_eq_true_iff.mp first with rfl | aHead
    · exact second
    rcases isSubtype_eq_true_iff.mp second with rfl | bHead
    · exact first
    refine isSubtype_eq_true_iff.mpr (Or.inr (compareHeads_holds_iff.mpr ?_))
    exact (compareHeads_holds_iff.mp aHead).trans (compareHeads_holds_iff.mp bHead) ih

/-! ## Termination of the order -/

/-- The pairs of ids left to compare. -/
def Comparison.pairs : Comparison → List (TypeId × TypeId)
  | .answer _ => []
  | .inner a b => [(a, b)]
  | .fields a b => b.entries.filterMap fun entry =>
    (a.get? entry.1).map fun aField => (aField.ty, entry.2.ty)

theorem field_mem_components {shape : StructShape} {entry : Nat × StructField}
    (mem : entry ∈ shape.fields.entries) : entry.2.ty ∈ (Ty.struct shape).components :=
  mem_map_of_mem mem

theorem compareHeads_pairs {x y : Ty} (mem : pair ∈ (compareHeads x y).pairs) :
    pair.1 ∈ x.components ∧ pair.2 ∈ y.components := by
  unfold compareHeads at mem
  split at mem
  case h_6 a b =>
    obtain rfl := mem_singleton.mp mem
    simp [Ty.components]
  case h_7 =>
    split at mem
    · obtain rfl := mem_singleton.mp mem
      simp [Ty.components]
    · simp [Comparison.pairs] at mem
  case h_8 a b =>
    obtain ⟨entry, inB, paired⟩ := mem_filterMap.mp mem
    obtain ⟨aField, found, rfl⟩ := Option.map_eq_some_iff.mp paired
    exact ⟨field_mem_components (BTreeMap.mem_of_get? found), field_mem_components inB⟩
  all_goals simp [Comparison.pairs] at mem

theorem isSubtype_succ (fuel : Nat) (arena : TypeArena) (sub sup : TypeId) :
    isSubtype (fuel + 1) arena sub sup =
      if sub = sup then some true
      else
        match compareHeads (arena.get sub) (arena.get sup) with
        | .answer below => some below
        | .inner a b => isSubtype fuel arena a b
        | .fields a b =>
          b.entries.allM fun entry =>
            match a.get? entry.1 with
            | some aField => isSubtype fuel arena aField.ty entry.2.ty
            | none => some false := rfl

theorem mem_pairs_fields {a b : BTreeMap Nat StructField} {entry : Nat × StructField}
    {aField : StructField} (mem : entry ∈ b.entries) (found : a.get? entry.1 = some aField) :
    (aField.ty, entry.2.ty) ∈ (Comparison.fields a b).pairs :=
  mem_filterMap.mpr ⟨entry, mem, by rw [found]; rfl⟩

/-- Each comparison ends: its recursion follows components, which come before
the types that use them. -/
theorem isSubtype_settles (wellFormed : arena.WellFormed) (bound : Nat) :
    ∀ sub sup, sub < bound →
      ∃ answer, ∀ fuel, bound ≤ fuel → isSubtype fuel arena sub sup = some answer := by
  induction bound with
  | zero => exact fun sub sup none => absurd none (Nat.not_lt_zero sub)
  | succ bound ih =>
    intro sub sup below
    have smaller : ∀ pair ∈ (compareHeads (arena.get sub) (arena.get sup)).pairs,
        ∃ answer, ∀ fuel, bound ≤ fuel → isSubtype fuel arena pair.1 pair.2 = some answer :=
      fun pair mem => ih pair.1 pair.2
        (Nat.lt_of_lt_of_le (wellFormed.component_lt (compareHeads_pairs mem).1)
          (Nat.le_of_lt_succ below))
    suffices ∃ answer, ∀ fuel, bound ≤ fuel →
        isSubtype (fuel + 1) arena sub sup = some answer by
      obtain ⟨answer, settles⟩ := this
      refine ⟨answer, fun fuel enough => ?_⟩
      obtain ⟨fuel, rfl⟩ := Nat.exists_eq_add_of_le' (Nat.le_trans (Nat.le_add_left 1 bound) enough)
      exact settles fuel (Nat.le_of_succ_le_succ enough)
    simp only [isSubtype_succ]
    by_cases same : sub = sup
    · exact ⟨true, fun fuel _ => if_pos same⟩
    simp only [if_neg same]
    revert smaller
    cases compareHeads (arena.get sub) (arena.get sup) with
    | answer below => exact fun _ => ⟨below, fun _ _ => rfl⟩
    | inner a b => exact fun smaller => smaller (a, b) mem_cons_self
    | fields a b =>
      intro smaller
      refine allM_settles fun entry mem => ?_
      cases found : a.get? entry.1 with
      | none => exact ⟨false, fun _ _ => rfl⟩
      | some aField => exact smaller _ (mem_pairs_fields mem found)

theorem isSubtype_extends {arena' : TypeArena} (wellFormed : arena.WellFormed)
    (keeps : arena.Extends arena') (fuel : Nat) : ∀ {sub sup : TypeId},
      arena.Present sub → arena.Present sup →
        isSubtype fuel arena' sub sup = isSubtype fuel arena sub sup := by
  induction fuel with
  | zero => exact fun _ _ => rfl
  | succ fuel ih =>
    intro sub sup subPresent supPresent
    rw [isSubtype_succ, isSubtype_succ, keeps.get subPresent, keeps.get supPresent]
    have components : ∀ pair ∈ (compareHeads (arena.get sub) (arena.get sup)).pairs,
        isSubtype fuel arena' pair.1 pair.2 = isSubtype fuel arena pair.1 pair.2 :=
      fun pair mem => ih
        (wellFormed.component_present (compareHeads_pairs mem).1)
        (wellFormed.component_present (compareHeads_pairs mem).2)
    congr 1
    revert components
    cases compareHeads (arena.get sub) (arena.get sup) with
    | answer below => exact fun _ => rfl
    | inner a b => exact fun components => components (a, b) mem_cons_self
    | fields a b =>
      intro components
      refine allM_congr fun entry mem => ?_
      cases found : a.get? entry.1 with
      | none => rfl
      | some aField => exact components _ (mem_pairs_fields mem found)

/-! ## Joins and meets -/

/-- With enough fuel the merge of two ids gives one id of a grown arena. -/
def Settles (merge : Nat → TypeArena → TypeId → TypeId → Option (TypeArena × TypeId))
    (bound : Nat) (arena : TypeArena) (a b : TypeId) : Prop :=
  ∃ result, (∀ fuel, bound ≤ fuel → merge fuel arena a b = some result) ∧ arena.Grows result

namespace MergePlan

/-- The pairs of components to be merged. -/
def merges : MergePlan → List (TypeId × TypeId)
  | .ptr a b => [(a, b)]
  | .array a b _ _ => [(a, b)]
  | .struct a b => a.fields.entries.filterMap fun entry =>
    (b.fields.get? entry.1).map fun bField => (entry.2.ty, bField.ty)
  | .function _ aRet bRet _ => [(aRet, bRet)]
  | _ => []

/-- The pairs of parameters to be met. -/
def meets : MergePlan → List (TypeId × TypeId)
  | .function pairs _ _ _ => pairs
  | _ => []

/-- The ids that are used as they are. -/
def parts : MergePlan → List TypeId
  | .existing id => [id]
  | .intern ty => ty.components
  | .struct a b => (Ty.struct a).components ++ (Ty.struct b).components
  | _ => []

end MergePlan

section Settling

variable {merge meet : Nat → TypeArena → TypeId → TypeId → Option (TypeArena × TypeId)}
variable {bound : Nat} {arena : TypeArena}

/-- The fields' types exist. -/
def FieldsPresent (arena : TypeArena) (fields : BTreeMap Nat StructField) : Prop :=
  ∀ entry ∈ fields.entries, arena.Present entry.2.ty

section

variable {fields : BTreeMap Nat StructField} (present : FieldsPresent arena fields)
include present

theorem FieldsPresent.extends {arena' : TypeArena} (keeps : arena.Extends arena') :
    FieldsPresent arena' fields :=
  fun entry mem => keeps.present (present entry mem)

theorem FieldsPresent.insert
    (off : Nat) {field : StructField}
    (fieldPresent : arena.Present field.ty) : FieldsPresent arena (fields.insert off field) := by
  intro entry mem
  rcases BTreeMap.mem_insert mem with rfl | old
  · exact fieldPresent
  · exact present entry old

end

theorem FieldsPresent.foldl_orInsert {entries : List (Nat × StructField)} :
    ∀ {fields : BTreeMap Nat StructField}, FieldsPresent arena fields →
      (∀ entry ∈ entries, arena.Present entry.2.ty) →
      FieldsPresent arena
        (entries.foldl (fun merged entry => merged.orInsert entry.1 entry.2) fields) := by
  induction entries with
  | nil => exact fun present _ => present
  | cons entry rest ih =>
    intro fields present added
    obtain ⟨first, later⟩ := forall_mem_cons.mp added
    refine ih (fun old mem => ?_) later
    rcases BTreeMap.mem_orInsert mem with rfl | old
    · exact first
    · exact present _ old

private theorem foldlM_joinFields_settles {bFields : BTreeMap Nat StructField}
    {entries : List (Nat × StructField)} :
    ∀ {arena : TypeArena} {merged : BTreeMap Nat StructField}, arena.Built →
      FieldsPresent arena merged → (∀ entry ∈ entries, arena.Present entry.2.ty) →
      (∀ arena', arena'.Built → arena.Extends arena' → ∀ entry ∈ entries, ∀ bField,
        bFields.get? entry.1 = some bField → Settles merge bound arena' entry.2.ty bField.ty) →
      ∃ state : TypeArena × BTreeMap Nat StructField,
        (∀ fuel, bound ≤ fuel →
          entries.foldlM (joinFields (merge fuel) bFields) (arena, merged) = some state) ∧
        state.1.Built ∧ arena.Extends state.1 ∧ FieldsPresent state.1 state.2 := by
  induction entries with
  | nil =>
    exact fun built present _ _ => ⟨_, fun _ _ => rfl, built, .refl _, present⟩
  | cons entry rest ih =>
    intro arena merged built present added settles
    obtain ⟨entryPresent, restPresent⟩ := forall_mem_cons.mp added
    -- One step of the loop.
    have step : ∃ state : TypeArena × BTreeMap Nat StructField,
        (∀ fuel, bound ≤ fuel → joinFields (merge fuel) bFields (arena, merged) entry = some state) ∧
        state.1.Built ∧ arena.Extends state.1 ∧ FieldsPresent state.1 state.2 := by
      cases found : bFields.get? entry.1 with
      | none =>
        refine ⟨(arena, merged.insert entry.1 entry.2), fun fuel _ => ?_, built, .refl _,
          present.insert entry.1 entryPresent⟩
        simp [joinFields, found]
      | some bField =>
        obtain ⟨result, run, grows⟩ :=
          settles arena built (.refl _) entry mem_cons_self bField found
        refine ⟨(result.1, merged.insert entry.1 ⟨entry.2.name.or bField.name, result.2⟩),
          fun fuel enough => ?_, grows.built, grows.keeps,
          (present.extends grows.keeps).insert entry.1 grows.present⟩
        simp [joinFields, found, run fuel enough]
    obtain ⟨⟨next, nextMerged⟩, first, nextBuilt, nextKeeps, nextPresent⟩ := step
    obtain ⟨state, run, stateBuilt, stateKeeps, statePresent⟩ :=
      ih nextBuilt nextPresent
        (fun entry mem => nextKeeps.present (restPresent entry mem))
        (fun arena' built' keeps' entry mem => settles arena' built' (nextKeeps.trans keeps')
          entry (mem_cons_of_mem _ mem))
    refine ⟨state, fun fuel enough => ?_, stateBuilt, nextKeeps.trans stateKeeps, statePresent⟩
    rw [foldlM_cons, first fuel enough]
    exact run fuel enough

private theorem foldlM_meetParams_settles {pairs : List (TypeId × TypeId)} :
    ∀ {arena : TypeArena} {params : List TypeId}, arena.Built →
      (∀ param ∈ params, arena.Present param) →
      (∀ arena', arena'.Built → arena.Extends arena' → ∀ pair ∈ pairs,
        Settles meet bound arena' pair.1 pair.2) →
      ∃ state : TypeArena × List TypeId,
        (∀ fuel, bound ≤ fuel →
          pairs.foldlM (meetParams (meet fuel)) (arena, params) = some state) ∧
        state.1.Built ∧ arena.Extends state.1 ∧ ∀ param ∈ state.2, state.1.Present param := by
  induction pairs with
  | nil => exact fun built present _ => ⟨_, fun _ _ => rfl, built, .refl _, present⟩
  | cons pair rest ih =>
    intro arena params built present settles
    obtain ⟨result, first, grows⟩ := settles arena built (.refl _) pair mem_cons_self
    have nextPresent : ∀ param ∈ params ++ [result.2], result.1.Present param := by
      intro param mem
      rcases mem_append.mp mem with old | new
      · exact grows.keeps.present (present param old)
      · obtain rfl := mem_singleton.mp new
        exact grows.present
    obtain ⟨state, run, stateBuilt, stateKeeps, statePresent⟩ :=
      ih grows.built nextPresent
        (fun arena' built' keeps' pair mem => settles arena' built' (grows.keeps.trans keeps')
          pair (mem_cons_of_mem _ mem))
    refine ⟨state, fun fuel enough => ?_, stateBuilt, grows.keeps.trans stateKeeps, statePresent⟩
    rw [foldlM_cons, meetParams, first fuel enough]
    exact run fuel enough

/-- A plan settles when the merges and meets it asks for do, in whatever arena
they are asked for. -/
theorem carryOut_settles (built : arena.Built) (parts : ∀ id ∈ plan.parts, arena.Present id)
    (merges : ∀ arena', arena'.Built → arena.Extends arena' → ∀ pair ∈ plan.merges,
      Settles merge bound arena' pair.1 pair.2)
    (meets : ∀ arena', arena'.Built → arena.Extends arena' → ∀ pair ∈ plan.meets,
      Settles meet bound arena' pair.1 pair.2) :
    ∃ result, (∀ fuel, bound ≤ fuel → carryOut (merge fuel) (meet fuel) arena plan = some result) ∧
      arena.Grows result := by
  cases plan with
  | existing id =>
    exact ⟨_, fun _ _ => rfl, built.grows_self (parts id mem_cons_self)⟩
  | intern ty => exact ⟨_, fun _ _ => rfl, built.grows_intern parts⟩
  | ptr a b =>
    obtain ⟨result, run, grows⟩ := merges arena built (.refl _) (a, b) mem_cons_self
    have last : result.1.Grows (result.1.ptr result.2) :=
      grows.built.grows_intern (by simpa [Ty.components] using grows.present)
    refine ⟨result.1.ptr result.2, fun fuel enough => ?_, grows.trans last⟩
    simp [carryOut, run fuel enough]
  | array a b len stride =>
    obtain ⟨result, run, grows⟩ := merges arena built (.refl _) (a, b) mem_cons_self
    have last : result.1.Grows (result.1.array result.2 len stride) :=
      grows.built.grows_intern (by simpa [Ty.components] using grows.present)
    refine ⟨result.1.array result.2 len stride, fun fuel enough => ?_, grows.trans last⟩
    simp [carryOut, run fuel enough]
  | struct a b =>
    have aPresent : ∀ entry ∈ a.fields.entries, arena.Present entry.2.ty := fun entry mem =>
      parts _ (mem_append_left _ (field_mem_components mem))
    have bPresent : ∀ entry ∈ b.fields.entries, arena.Present entry.2.ty := fun entry mem =>
      parts _ (mem_append_right _ (field_mem_components mem))
    have noFields : FieldsPresent arena .empty := by simp [FieldsPresent, BTreeMap.empty]
    obtain ⟨⟨next, merged⟩, run, nextBuilt, keeps, mergedPresent⟩ :=
      foldlM_joinFields_settles built noFields aPresent
        fun arena' built' keeps' entry mem bField found =>
          merges arena' built' keeps' (entry.2.ty, bField.ty)
            (mem_filterMap.mpr ⟨entry, mem, by rw [found]; rfl⟩)
    let fields := b.fields.entries.foldl
      (fun merged entry => merged.orInsert entry.1 entry.2) merged
    have fieldsPresent : FieldsPresent next fields :=
      mergedPresent.foldl_orInsert fun entry mem => keeps.present (bPresent entry mem)
    have last : next.Grows (next.intern (.struct ⟨a.name.or b.name, fields⟩)) := by
      refine nextBuilt.grows_intern fun part component => ?_
      obtain ⟨entry, mem, rfl⟩ := mem_map.mp component
      exact fieldsPresent entry mem
    refine ⟨next.intern (.struct ⟨a.name.or b.name, fields⟩), fun fuel enough => ?_,
      last.built, keeps.trans last.keeps, last.present⟩
    simp [carryOut, run fuel enough, fields]
  | function pairs aRet bRet variadic =>
    have settled : ∀ arena', arena'.Built → arena.Extends arena' → ∀ pair ∈ pairs,
        Settles meet bound arena' pair.1 pair.2 := meets
    have noParams : ∀ param ∈ ([] : List TypeId), arena.Present param := by simp
    obtain ⟨⟨next, params⟩, run, nextBuilt, keeps, paramsPresent⟩ :=
      foldlM_meetParams_settles built noParams settled
    obtain ⟨result, retRun, grows⟩ := merges next nextBuilt keeps (aRet, bRet) mem_cons_self
    have last : result.1.Grows (result.1.function params result.2 variadic) := by
      refine grows.built.grows_intern fun part component => ?_
      rcases mem_append.mp component with param | ret
      · exact grows.keeps.present (paramsPresent part param)
      · obtain rfl := mem_singleton.mp ret
        exact grows.present
    refine ⟨result.1.function params result.2 variadic, fun fuel enough => ?_,
      last.built, keeps.trans (grows.keeps.trans last.keeps), last.present⟩
    simp [carryOut, run fuel enough, retRun fuel enough]

end Settling

/-- A plan for two types uses their components, in pairs across the two or with
`Top`, and the arena's own types. -/
structure MergePlan.For (arena : TypeArena) (x y : Ty) (plan : MergePlan) : Prop where
  parts : ∀ id ∈ plan.parts, id ∈ x.components ∨ id ∈ y.components ∨
    id = arena.top ∨ id = arena.bottom ∨ id = arena.boolTy
  merges : ∀ pair ∈ plan.merges, (pair.1 ∈ x.components ∧ pair.2 ∈ y.components) ∨
    ((pair.1 ∈ x.components ∨ pair.1 ∈ y.components) ∧ pair.2 = arena.top)
  meets : ∀ pair ∈ plan.meets, pair.1 ∈ x.components ∧ pair.2 ∈ y.components

theorem meetPlan_for (arena : TypeArena) (x y : Ty) : (meetPlan arena x y).For arena x y := by
  unfold meetPlan
  split <;> constructor <;>
    simp +contextual [MergePlan.parts, MergePlan.merges, MergePlan.meets, Ty.components]

theorem joinPlan_for (arena : TypeArena) (x y : Ty) : (joinPlan arena x y).For arena x y := by
  unfold joinPlan
  split
  case h_14 aShape bShape =>
    refine ⟨fun id part => ?_, fun pair mem => ?_, by simp [MergePlan.meets]⟩
    · rcases mem_append.mp part with inA | inB
      · exact Or.inl inA
      · exact Or.inr (Or.inl inB)
    · obtain ⟨entry, inA, paired⟩ := mem_filterMap.mp mem
      obtain ⟨bField, found, rfl⟩ := Option.map_eq_some_iff.mp paired
      exact Or.inl ⟨field_mem_components inA, field_mem_components (BTreeMap.mem_of_get? found)⟩
  case h_15 aParams aRet aVar bParams bRet bVar =>
    split
    · refine ⟨by simp [MergePlan.parts], by simp [MergePlan.merges, Ty.components],
        fun pair mem => ?_⟩
      obtain ⟨inA, inB⟩ := of_mem_zip mem
      exact ⟨mem_append_left _ inA, mem_append_left _ inB⟩
    · constructor <;> simp [MergePlan.parts, MergePlan.merges, MergePlan.meets]
  case h_16 =>
    split <;> constructor <;>
      simp [MergePlan.parts, MergePlan.merges, MergePlan.meets, Ty.components]
  all_goals
    constructor <;>
      simp +contextual [MergePlan.parts, MergePlan.merges, MergePlan.meets, Ty.components]

theorem MergePlan.For.parts_present
    (forTypes : plan.For arena (arena.get a) (arena.get b)) (wellFormed : arena.WellFormed) :
    ∀ id ∈ plan.parts, arena.Present id := by
  intro id part
  rcases forTypes.parts id part with inA | inB | rfl | rfl | rfl
  · exact wellFormed.component_present inA
  · exact wellFormed.component_present inB
  · exact TypeArena.present_of_getElem? wellFormed.top
  · exact TypeArena.present_of_getElem? wellFormed.bottom
  · exact TypeArena.present_of_getElem? wellFormed.boolTy

theorem isSubtype_top {sup : TypeId} (isTop : arena.get sup = .top)
    (fuel : Nat) (sub : TypeId) : isSubtype (fuel + 1) arena sub sup = some true :=
  isSubtype_eq_true_iff.mpr
    (Or.inr (compareHeads_holds_iff.mpr (by rw [isTop]; exact HeadBelow.top _)))

/-- The merge compares its arguments, and carries out the plan when neither is
below the other. -/
def Follows (merge inner meets : Nat → TypeArena → TypeId → TypeId → Option (TypeArena × TypeId))
    (arena : TypeArena) (a b first second : TypeId) (plan : MergePlan) : Prop :=
  ∀ fuel, merge (fuel + 1) arena a b = (isSubtype (fuel + 1) arena a b).bind
    fun below => if below then some (arena, first)
      else (isSubtype (fuel + 1) arena b a).bind fun above =>
        if above then some (arena, second) else carryOut (inner fuel) (meets fuel) arena plan

theorem meet_follows (arena : TypeArena) (a b : TypeId) :
    Follows meet meet meet arena a b a b (meetPlan arena (arena.get a) (arena.get b)) :=
  fun _ => rfl

theorem join_follows (arena : TypeArena) (a b : TypeId) :
    Follows join join meet arena a b b a (joinPlan arena (arena.get a) (arena.get b)) :=
  fun _ => rfl

variable {meets : Nat → TypeArena → TypeId → TypeId → Option (TypeArena × TypeId)}

theorem settles_of_plan
    {first second : TypeId} {bound : Nat}
    (follows : Follows merge inner meets arena a b first second plan)
    (built : arena.Built) (firstPresent : arena.Present first)
    (secondPresent : arena.Present second) (aBelow : a < bound + 1) (bBelow : b < bound + 1)
    (planned : ∃ result, (∀ fuel, bound ≤ fuel →
      carryOut (inner fuel) (meets fuel) arena plan = some result) ∧ arena.Grows result) :
    Settles merge (bound + 1) arena a b := by
  obtain ⟨below, belowSettles⟩ := isSubtype_settles built.wellFormed _ a b aBelow
  obtain ⟨above, aboveSettles⟩ := isSubtype_settles built.wellFormed _ b a bBelow
  obtain ⟨result, run, grows⟩ := planned
  have step : ∀ fuel, bound + 1 ≤ fuel → merge fuel arena a b =
      some (if below then (arena, first) else if above then (arena, second) else result) := by
    intro fuel enough
    obtain ⟨fuel, rfl⟩ := Nat.exists_eq_add_of_le' (Nat.le_trans (Nat.le_add_left 1 bound) enough)
    rw [follows, belowSettles _ enough, aboveSettles _ enough, run fuel (Nat.le_of_succ_le_succ enough)]
    cases below <;> cases above <;> rfl
  refine ⟨_, step, ?_⟩
  cases below with
  | true => exact built.grows_self firstPresent
  | false =>
    cases above with
    | true => exact built.grows_self secondPresent
    | false => exact grows

section Components

variable {merge : Nat → TypeArena → TypeId → TypeId → Option (TypeArena × TypeId)} {bound : Nat}
variable {arena arena' : TypeArena}

theorem component_in_reach {id part : TypeId} (wellFormed : arena.WellFormed)
    (keeps : arena.Extends arena') (below : id < bound + 1)
    (component : part ∈ (arena.get id).components) : arena'.Present part ∧ part < bound :=
  ⟨keeps.present (wellFormed.component_present component),
    Nat.lt_of_lt_of_le (wellFormed.component_lt component) (Nat.le_of_lt_succ below)⟩

def SettlesBelow (merge : Nat → TypeArena → TypeId → TypeId → Option (TypeArena × TypeId))
    (bound : Nat) : Prop :=
  ∀ {arena : TypeArena} {a b : TypeId}, arena.Built → arena.Present a → arena.Present b →
    a < bound → b < bound → Settles merge bound arena a b

section

variable (forTypes : plan.For arena (arena.get a) (arena.get b)) (wellFormed : arena.WellFormed)
  (aBelow : a < bound + 1) (bBelow : b < bound + 1) (smaller : SettlesBelow merge bound)
include forTypes wellFormed aBelow bBelow smaller

theorem MergePlan.For.meets_settle
    (built : arena'.Built) (keeps : arena.Extends arena')
    (mem : pair ∈ plan.meets) : Settles merge bound arena' pair.1 pair.2 := by
  obtain ⟨inA, inB⟩ := forTypes.meets pair mem
  obtain ⟨aPresent, aSmaller⟩ := component_in_reach wellFormed keeps aBelow inA
  obtain ⟨bPresent, bSmaller⟩ := component_in_reach wellFormed keeps bBelow inB
  exact smaller built aPresent bPresent aSmaller bSmaller

/-- The merges of a plan settle when merges of smaller ids do, and a merge below
`Top` returns one of its arguments at once. -/
theorem MergePlan.For.merges_settle
    (atOnce : ∀ x y, ∃ result, (result = x ∨ result = y) ∧
      ∀ fuel, isSubtype (fuel + 1) arena' x y = some true →
        merge (fuel + 1) arena' x y = some (arena', result))
    (built : arena'.Built) (keeps : arena.Extends arena')
    (mem : pair ∈ plan.merges) : Settles merge bound arena' pair.1 pair.2 := by
  rcases forTypes.merges pair mem with ⟨inA, inB⟩ | ⟨inOne, isTop⟩
  · obtain ⟨aPresent, aSmaller⟩ := component_in_reach wellFormed keeps aBelow inA
    obtain ⟨bPresent, bSmaller⟩ := component_in_reach wellFormed keeps bBelow inB
    exact smaller built aPresent bPresent aSmaller bSmaller
  · obtain ⟨present, small⟩ : arena'.Present pair.1 ∧ pair.1 < bound :=
      inOne.elim (component_in_reach wellFormed keeps aBelow)
        (component_in_reach wellFormed keeps bBelow)
    have topPresent := TypeArena.present_of_getElem? wellFormed.top
    have topSame : arena'.get pair.2 = .top := by
      rw [isTop, keeps.get topPresent]
      exact TypeArena.get_of_getElem? wellFormed.top
    have pairPresent : arena'.Present pair.2 := isTop ▸ keeps.present topPresent
    obtain ⟨result, oneOf, run⟩ := atOnce pair.1 pair.2
    refine ⟨(arena', result), fun fuel enough => ?_, built.grows_self ?_⟩
    · obtain ⟨fuel, rfl⟩ := Nat.exists_eq_add_of_le'
        (Nat.le_trans (Nat.succ_le_of_lt (Nat.zero_lt_of_lt small)) enough)
      exact run fuel (isSubtype_top topSame fuel pair.1)
    · rcases oneOf with rfl | rfl
      · exact present
      · exact pairPresent

end

end Components

theorem meet_settles (bound : Nat) : SettlesBelow meet bound := by
  induction bound with
  | zero => exact fun _ _ _ none => absurd none (Nat.not_lt_zero _)
  | succ bound ih =>
    intro arena a b built aPresent bPresent aBelow bBelow
    have forTypes := meetPlan_for arena (arena.get a) (arena.get b)
    refine settles_of_plan (meet_follows arena a b) built aPresent bPresent aBelow bBelow
      (carryOut_settles built (forTypes.parts_present built.wellFormed)
        (fun arena' built' keeps' pair mem => ?_) fun arena' built' keeps' pair mem => ?_)
    · refine forTypes.merges_settle built.wellFormed aBelow bBelow ih
        (fun x y => ⟨x, Or.inl rfl, fun fuel below => ?_⟩) built' keeps' mem
      rw [meet_follows, below]
      rfl
    · exact forTypes.meets_settle built.wellFormed aBelow bBelow ih built' keeps' mem

theorem join_settles (bound : Nat) : SettlesBelow join bound := by
  induction bound with
  | zero => exact fun _ _ _ none => absurd none (Nat.not_lt_zero _)
  | succ bound ih =>
    intro arena a b built aPresent bPresent aBelow bBelow
    have forTypes := joinPlan_for arena (arena.get a) (arena.get b)
    refine settles_of_plan (join_follows arena a b) built bPresent aPresent aBelow bBelow
      (carryOut_settles built (forTypes.parts_present built.wellFormed)
        (fun arena' built' keeps' pair mem => ?_) fun arena' built' keeps' pair mem => ?_)
    · refine forTypes.merges_settle built.wellFormed aBelow bBelow ih
        (fun x y => ⟨y, Or.inr rfl, fun fuel below => ?_⟩) built' keeps' mem
      rw [join_follows, below]
      rfl
    · exact forTypes.meets_settle built.wellFormed aBelow bBelow (meet_settles bound) built'
        keeps' mem

/-! ## Every answer, over every id -/

/-- An id outside the arena reads as `Top`, so that one of the two comparisons
holds and nothing is merged. -/
theorem returns_of_absent
    {first second : TypeId} (follows : Follows merge inner meets arena a b first second plan)
    (built : arena.Built) (absent : ¬ (arena.Present a ∧ arena.Present b)) :
    ∃ id, Returns (merge · arena a b) (arena, id) := by
  obtain ⟨below, belowSettles⟩ := isSubtype_settles built.wellFormed _ a b (Nat.lt_succ_self a)
  have covered : below = true ∨ ∀ fuel, isSubtype (fuel + 1) arena b a = some true := by
    by_cases bPresent : arena.Present b
    · refine Or.inr fun fuel => isSubtype_top (TypeArena.get_of_not_present ?_) fuel b
      exact fun aPresent => absent ⟨aPresent, bPresent⟩
    · have above := isSubtype_top (TypeArena.get_of_not_present bPresent) a a
      exact Or.inl (Option.some.inj ((belowSettles _ le_rfl).symm.trans above))
  refine ⟨if below then first else second, a + 1, fun fuel enough => ?_⟩
  have compared := belowSettles fuel enough
  obtain ⟨fuel, rfl⟩ := Nat.exists_eq_add_of_le' (Nat.le_trans (Nat.le_add_left 1 a) enough)
  dsimp only
  rw [follows, compared]
  rcases covered with rfl | above
  · rfl
  · rw [above]
    cases below <;> rfl

/-- What joins and meets do at any two ids. -/
structure KeepsTypes (arena : TypeArena) (a b : TypeId) (result : TypeArena × TypeId) : Prop where
  built : result.1.Built
  present : arena.Present a → arena.Present b → result.1.Present result.2
  get : ∀ old, arena.Present old → result.1.get old = arena.get old
  isSubtype : ∀ sub sup, arena.Present sub → arena.Present sup → ∀ answer,
    Returns (isSubtype · result.1 sub sup) answer ↔ Returns (isSubtype · arena sub sup) answer

theorem keepsTypes_of_extends {result : TypeArena × TypeId}
    (built : arena.Built) (builtAfter : result.1.Built) (keeps : arena.Extends result.1)
    (present : arena.Present a → arena.Present b → result.1.Present result.2) :
    KeepsTypes arena a b result := by
  refine ⟨builtAfter, present, fun old oldPresent => keeps.get oldPresent,
    fun sub sup subPresent supPresent answer => ?_⟩
  have same : ∀ fuel, TypeLattice.isSubtype fuel result.1 sub sup =
      TypeLattice.isSubtype fuel arena sub sup := fun fuel =>
    isSubtype_extends built.wellFormed keeps fuel subPresent supPresent
  simp only [Returns, same]

/-- A merge that settles returns on every arena that was built. -/
theorem returns_of_settles
    {first second : TypeId} (follows : Follows merge inner meets arena a b first second plan)
    (settles : ∀ bound, SettlesBelow merge bound) (built : arena.Built) :
    ∃ result, Returns (merge · arena a b) result ∧ KeepsTypes arena a b result := by
  by_cases both : arena.Present a ∧ arena.Present b
  · obtain ⟨result, run, grows⟩ := settles (max a b + 1) built both.1 both.2
      (Nat.lt_succ_of_le (le_max_left a b)) (Nat.lt_succ_of_le (le_max_right a b))
    exact ⟨result, ⟨_, run⟩,
      keepsTypes_of_extends built grows.built grows.keeps fun _ _ => grows.present⟩
  · obtain ⟨id, returns⟩ := returns_of_absent follows built both
    exact ⟨(arena, id), returns, keepsTypes_of_extends built built (.refl _)
      fun aPresent bPresent => absurd ⟨aPresent, bPresent⟩ both⟩

/-- The order on the ids of an arena ends, is reflexive and transitive; joins and
meets end, give an id of the arena and change nothing about the ids before. -/
theorem isSubtype_preorder {arena : TypeArena} (built : arena.Built) :
    (∀ sub sup, ∃ answer, Returns (isSubtype · arena sub sup) answer) ∧
      (∀ id, Returns (isSubtype · arena id id) true) ∧
      (∀ a b c, Returns (isSubtype · arena a b) true → Returns (isSubtype · arena b c) true →
        Returns (isSubtype · arena a c) true) ∧
      (∀ a b, ∃ result, Returns (join · arena a b) result ∧ KeepsTypes arena a b result) ∧
      ∀ a b, ∃ result, Returns (meet · arena a b) result ∧ KeepsTypes arena a b result := by
  refine ⟨fun sub sup => ?_, fun id => ⟨1, fun fuel enough => ?_⟩, fun a b c first second => ?_,
    fun a b => returns_of_settles (join_follows arena a b) join_settles built,
    fun a b => returns_of_settles (meet_follows arena a b) meet_settles built⟩
  · obtain ⟨answer, settles⟩ := isSubtype_settles built.wellFormed _ sub sup (Nat.lt_succ_self sub)
    exact ⟨answer, _, settles⟩
  · obtain ⟨fuel, rfl⟩ := Nat.exists_eq_add_of_le' enough
    exact isSubtype_refl fuel arena id
  · obtain ⟨bound, settles⟩ := first
    obtain ⟨bound', settles'⟩ := second
    exact ⟨max bound bound', fun fuel enough => isSubtype_trans fuel
      (settles fuel (le_trans (le_max_left _ _) enough))
      (settles' fuel (le_trans (le_max_right _ _) enough))⟩

def twoPointers : TypeArena :=
  [.int 32 .signed, .int 32 .unsigned, .ptr 3, .ptr 4].foldl
    (fun arena call => (arena.construct call).1) TypeArena.default

theorem isSubtype_preorder_twoPointers :
    ∃ result, Returns (join · twoPointers 5 6) result ∧ KeepsTypes twoPointers 5 6 result := by
  have built : twoPointers.Built := by
    refine .construct (.ptr 4) (.construct (.ptr 3) (.construct (.int 32 .unsigned)
      (.construct (.int 32 .signed) .default ?_) ?_) ?_) ?_ <;> decide +kernel
  exact (isSubtype_preorder built).2.2.2.1 5 6

end TypeLattice

end R2Sleigh.Types
