import R2Sleigh.Types.Solver

/-!
Contract: when joins and meets are bounds.

Owns `Meetable` and `Joinable`.
-/

namespace R2Sleigh.Types

open Lib Option

namespace TypeLattice

variable {x y : Ty} {a b : TypeId} {arena : TypeArena}
  {head : TypeArena → (TypeId → TypeId → TypeId → Prop) → Ty → Ty → Ty → Prop}
  {pick : TypeId → TypeId → TypeId}

/-- A pair of which neither is a subtype of the other. -/
def Incomparable (arena : TypeArena) (a b : TypeId) : Prop := ¬ Below arena a b ∧ ¬ Below arena b a

/-- The meet does not come to two incomparable integers. -/
inductive Meetable (arena : TypeArena) : TypeId → TypeId → Prop
  | comparable {a b : TypeId} (either : Below arena a b ∨ Below arena b a) : Meetable arena a b
  | apart {a b : TypeId} (noRule : meetsInside (arena.get a) (arena.get b) = false) :
      Meetable arena a b
  | ptr {a b x y : TypeId} (aPtr : arena.get a = .ptr x) (bPtr : arena.get b = .ptr y)
      (inner : Meetable arena x y) : Meetable arena a b

/-- A boolean or an integer. -/
def Ty.isWord : Ty → Bool
  | .bool => true
  | .int _ _ => true
  | _ => false

/-- The join does not come to a pointer with an integer, nor to two incomparable
structures with fields at different offsets. -/
inductive Joinable (arena : TypeArena) : TypeId → TypeId → Prop
  | comparable {a b : TypeId} (either : Below arena a b ∨ Below arena b a) : Joinable arena a b
  | apart {a b : TypeId} (noRule : joinsInside (arena.get a) (arena.get b) = false) :
      Joinable arena a b
  | words {a b : TypeId} (aWord : Ty.isWord (arena.get a) = true)
      (bWord : Ty.isWord (arena.get b) = true) : Joinable arena a b
  | ptr {a b x y : TypeId} (aPtr : arena.get a = .ptr x) (bPtr : arena.get b = .ptr y)
      (inner : Joinable arena x y) : Joinable arena a b
  | array {a b x y : TypeId} {aLen bLen aStride bStride : Option Nat}
      (aArray : arena.get a = .array x aLen aStride) (bArray : arena.get b = .array y bLen bStride)
      (elem : Joinable arena x y) : Joinable arena a b
  | struct {a b : TypeId} {s t : StructShape} (aStruct : arena.get a = .struct s)
      (bStruct : arena.get b = .struct t)
      (offsets : ∀ off, (s.fields.get? off).isSome = (t.fields.get? off).isSome)
      (fields : ∀ off f g, s.fields.get? off = some f → t.fields.get? off = some g →
        Joinable arena f.ty g.ty) : Joinable arena a b

/-- What incomparable types need to be joinable. -/
def JoinableParts (arena : TypeArena) : Ty → Ty → Prop
  | .ptr x, .ptr y | .array x _ _, .array y _ _ => Joinable arena x y
  | .struct s, .struct t =>
    (∀ off, (s.fields.get? off).isSome = (t.fields.get? off).isSome) ∧
      ∀ off f g, s.fields.get? off = some f → t.fields.get? off = some g → Joinable arena f.ty g.ty
  | x, y => joinsInside x y = false ∨ (Ty.isWord x = true ∧ Ty.isWord y = true)

theorem Joinable.parts (joinable : Joinable arena a b) (incomparable : Incomparable arena a b) :
    JoinableParts arena (arena.get a) (arena.get b) := by
  cases joinable with
  | comparable either => exact (either.elim incomparable.1 incomparable.2).elim
  | apart noRule =>
    generalize arena.get a = x at noRule ⊢
    generalize arena.get b = y at noRule ⊢
    unfold JoinableParts
    split <;> first | cases noRule | exact .inl noRule
  | words aWord bWord =>
    generalize arena.get a = x at aWord ⊢
    unfold JoinableParts
    split <;> first | cases aWord | exact .inr ⟨aWord, bWord⟩
  | ptr aPtr bPtr inner =>
    rw [aPtr, bPtr]
    exact inner
  | array aArray bArray elem =>
    rw [aArray, bArray]
    exact elem
  | struct aStruct bStruct offsets fields =>
    rw [aStruct, bStruct]
    exact ⟨offsets, fields⟩

inductive JoinsParts : Ty → Ty → TypeId → TypeId → Prop
  | ptr (x y : TypeId) : JoinsParts (.ptr x) (.ptr y) x y
  | array (x y : TypeId) (aLen bLen aStride bStride : Option Nat) :
      JoinsParts (.array x aLen aStride) (.array y bLen bStride) x y
  | struct {s t : StructShape} {off : Nat} {f g : StructField}
      (inFirst : s.fields.get? off = some f) (inSecond : t.fields.get? off = some g) :
      JoinsParts (.struct s) (.struct t) f.ty g.ty

theorem JoinsParts.components {p q : TypeId} (parts : JoinsParts x y p q) :
    p ∈ x.components ∧ q ∈ y.components := by
  cases parts with
  | ptr | array => simp [Ty.components]
  | struct inFirst inSecond =>
    exact ⟨field_mem_components (BTreeMap.mem_of_get? inFirst),
      field_mem_components (BTreeMap.mem_of_get? inSecond)⟩

/-- The join comes to two different functions with as many parameters. -/
inductive MergesFunctions (arena : TypeArena) : TypeId → TypeId → Prop
  | function {a b : TypeId} {aParams bParams : List TypeId} {aRet bRet : TypeId} {aVar bVar : Bool}
      (aFunction : arena.get a = .function aParams aRet aVar)
      (bFunction : arena.get b = .function bParams bRet bVar)
      (sameArity : aParams.length = bParams.length) (differ : a ≠ b) : MergesFunctions arena a b
  | inside {a b x y : TypeId} (incomparable : Incomparable arena a b)
      (parts : JoinsParts (arena.get a) (arena.get b) x y) (inner : MergesFunctions arena x y) :
      MergesFunctions arena a b

/-! ## The order by constructors -/

theorem signBelow_refl (sign : Signedness) : signBelow sign sign = true := by
  cases sign <;> rfl

theorem signBelow_mergeSign (a b : Signedness) : signBelow a (mergeSign a b) = true := by
  cases a <;> cases b <;> rfl

theorem mergeSign_comm (a b : Signedness) : mergeSign a b = mergeSign b a := by
  cases a <;> cases b <;> rfl

theorem eq_of_mergeSign_below {a b : Signedness} (first : signBelow (mergeSign a b) a = true)
    (second : signBelow (mergeSign a b) b = true) : a = b := by
  cases a <;> cases b <;> first | rfl | simp [mergeSign, signBelow] at first second

section Order

variable {arena : TypeArena} (wellFormed : arena.WellFormed) {a b : TypeId}
include wellFormed

theorem below_int_iff {aBits bBits : Nat} {aSign bSign : Signedness}
    (aInt : arena.get a = .int aBits aSign) (bInt : arena.get b = .int bBits bSign) :
    Below arena a b ↔ aBits ≤ bBits ∧ signBelow aSign bSign = true := by
  rw [below_iff wellFormed, aInt, bInt]
  constructor
  · intro below
    rcases below with rfl | head
    · obtain ⟨rfl, rfl⟩ := Ty.int.inj (aInt.symm.trans bInt)
      exact ⟨Nat.le_refl aBits, signBelow_refl aSign⟩
    · cases head with
      | int narrower sign => exact ⟨narrower, sign⟩
  · exact fun ⟨narrower, sign⟩ => Or.inr (.int narrower sign)

theorem below_ptr_iff {x y : TypeId} (aPtr : arena.get a = .ptr x) (bPtr : arena.get b = .ptr y) :
    Below arena a b ↔ Below arena x y := by
  rw [below_iff wellFormed, aPtr, bPtr]
  constructor
  · intro below
    rcases below with rfl | head
    · obtain rfl := Ty.ptr.inj (aPtr.symm.trans bPtr)
      exact Below.refl arena x
    · cases head with
      | ptr inner => exact inner
  · exact fun inner => Or.inr (.ptr inner)

theorem below_array_iff {x y : TypeId} {aLen bLen aStride bStride : Option Nat}
    (aArray : arena.get a = .array x aLen aStride)
    (bArray : arena.get b = .array y bLen bStride) :
    Below arena a b ↔ lenBelow aLen bLen = true ∧ Below arena x y := by
  rw [below_iff wellFormed, aArray, bArray]
  constructor
  · intro below
    rcases below with rfl | head
    · obtain ⟨rfl, rfl, _⟩ := Ty.array.inj (aArray.symm.trans bArray)
      refine ⟨?_, Below.refl arena x⟩
      cases aLen <;> simp [lenBelow]
    · cases head with
      | array _ _ len elem => exact ⟨len, elem⟩
  · rintro ⟨len, elem⟩
    exact Or.inr (.array _ _ len elem)

theorem below_struct_iff {s t : StructShape} (aStruct : arena.get a = .struct s)
    (bStruct : arena.get b = .struct t) :
    Below arena a b ↔ ∀ off g, t.fields.get? off = some g →
      ∃ f, s.fields.get? off = some f ∧ Below arena f.ty g.ty := by
  rw [below_iff wellFormed, aStruct, bStruct]
  constructor
  · intro below
    rcases below with rfl | head
    · obtain rfl := Ty.struct.inj (aStruct.symm.trans bStruct)
      exact fun off g found => ⟨g, found, Below.refl arena g.ty⟩
    · cases head with
      | struct fields => exact fields
  · exact fun fields => Or.inr (.struct fields)

end Order

/-! ## Meets -/

section Bounds

variable {arena arena' : TypeArena} (wellFormed : arena.WellFormed)
variable (wellFormed' : arena'.WellFormed) (keeps : arena.Extends arena')

include wellFormed keeps in
theorem incomparable_before (aPresent : arena.Present a) (bPresent : arena.Present b)
    (notBelow : ¬ Below arena' a b) (notAbove : ¬ Below arena' b a) : Incomparable arena a b :=
  ⟨fun below => notBelow ((Below.extends wellFormed keeps aPresent bPresent).mpr below),
    fun above => notAbove ((Below.extends wellFormed keeps bPresent aPresent).mpr above)⟩

include wellFormed wellFormed' keeps in
/-- A meet, seen in the grown arena, is below both types exactly when they are
meetable. -/
theorem meet_bound_iff (fuel : Nat) : ∀ {a b id : TypeId}, arena.Present a → arena.Present b →
    Merged MeetHead (fun a _ => a) arena' fuel a b id →
      (Below arena' id a ∧ Below arena' id b ↔ Meetable arena a b) := by
  induction fuel with
  | zero => exact fun _ _ none => none.elim
  | succ fuel ih =>
    intro a b id aPresent bPresent merged
    rcases merged with ⟨below, rfl⟩ | ⟨_, above, rfl⟩ | ⟨notBelow, notAbove, head⟩
    · exact iff_of_true ⟨Below.refl arena' _, below⟩
        (.comparable (Or.inl ((Below.extends wellFormed keeps aPresent bPresent).mp below)))
    · exact iff_of_true ⟨above, Below.refl arena' _⟩
        (.comparable (Or.inr ((Below.extends wellFormed keeps bPresent aPresent).mp above)))
    have incomparable := incomparable_before wellFormed keeps aPresent bPresent notBelow notAbove
    rw [keeps.get aPresent, keeps.get bPresent] at head
    generalize ofA : arena.get a = x at head
    generalize ofB : arena.get b = y at head
    generalize ofId : arena'.get id = z at head
    have ofA' := (keeps.get aPresent).trans ofA
    have ofB' := (keeps.get bPresent).trans ofB
    cases head with
    | int aBits bBits aSign bSign =>
      refine iff_of_false (fun ⟨first, second⟩ => ?_) fun meetable => ?_
      · -- The two signs agree, and then the widths compare the two.
        obtain ⟨_, firstSign⟩ := (below_int_iff wellFormed' ofId ofA').mp first
        obtain ⟨_, secondSign⟩ := (below_int_iff wellFormed' ofId ofB').mp second
        obtain rfl := eq_of_mergeSign_below firstSign secondSign
        rcases Nat.le_total aBits bBits with narrower | wider
        · exact notBelow ((below_int_iff wellFormed' ofA' ofB').mpr
            ⟨narrower, signBelow_refl aSign⟩)
        · exact notAbove ((below_int_iff wellFormed' ofB' ofA').mpr ⟨wider, signBelow_refl aSign⟩)
      · cases meetable with
        | comparable either => exact either.elim incomparable.1 incomparable.2
        | apart noRule =>
          rw [ofA, ofB] at noRule
          cases noRule
        | ptr aPtr _ _ => cases ofA.symm.trans aPtr
    | @ptr x y c inner =>
      have xPresent : arena.Present x := wellFormed.part_present ofA (by simp [Ty.components])
      have yPresent : arena.Present y := wellFormed.part_present ofB (by simp [Ty.components])
      rw [below_ptr_iff wellFormed' ofId ofA', below_ptr_iff wellFormed' ofId ofB',
        ih xPresent yPresent inner]
      refine ⟨.ptr ofA ofB, fun meetable => ?_⟩
      cases meetable with
      | comparable either => exact (either.elim incomparable.1 incomparable.2).elim
      | apart noRule =>
        rw [ofA, ofB] at noRule
        cases noRule
      | ptr aPtr bPtr inside =>
        obtain rfl := Ty.ptr.inj (ofA.symm.trans aPtr)
        obtain rfl := Ty.ptr.inj (ofB.symm.trans bPtr)
        exact inside
    | bottom apart =>
      exact iff_of_true ⟨below_bottom wellFormed' ofId, below_bottom wellFormed' ofId⟩
        (.apart (by rw [ofA, ofB]; exact apart))

end Bounds

/-! ## Joins -/

section Bounds

variable {arena arena' : TypeArena} (wellFormed : arena.WellFormed)
variable (wellFormed' : arena'.WellFormed) (keeps : arena.Extends arena')

theorem noFunctions_inside {x y : TypeId} (noFunctions : ¬ MergesFunctions arena a b)
    (incomparable : Incomparable arena a b)
    (parts : JoinsParts (arena.get a) (arena.get b) x y) : ¬ MergesFunctions arena x y :=
  fun inner => noFunctions (.inside incomparable parts inner)

include wellFormed' in
private theorem struct_join_bound_iff {id : TypeId} {s t u : StructShape}
    {joined : TypeId → TypeId → TypeId → Prop} (incomparable : Incomparable arena a b)
    (ofA : arena.get a = .struct s) (ofB : arena.get b = .struct t)
    (ofA' : arena'.get a = .struct s) (ofB' : arena'.get b = .struct t)
    (ofId : arena'.get id = .struct u)
    (smaller : ∀ {off : Nat} {f g : StructField} {h : TypeId}, s.fields.get? off = some f →
      t.fields.get? off = some g → joined f.ty g.ty h →
        (Below arena' f.ty h ∧ Below arena' g.ty h ↔ Joinable arena f.ty g.ty))
    (both : ∀ off f g, s.fields.get? off = some f → t.fields.get? off = some g →
      ∃ h, u.fields.get? off = some h ∧ joined f.ty g.ty h.ty)
    (first : ∀ off f, s.fields.get? off = some f → t.fields.get? off = none →
      u.fields.get? off = some f)
    (second : ∀ off, s.fields.get? off = none → u.fields.get? off = t.fields.get? off) :
    Below arena' a id ∧ Below arena' b id ↔ Joinable arena a b := by
  rw [below_struct_iff wellFormed' ofA' ofId, below_struct_iff wellFormed' ofB' ofId]
  constructor
  · intro ⟨aBelow, bBelow⟩
    refine .struct ofA ofB (fun off => ?_) fun off f g inA inB => ?_
    · cases inA : s.fields.get? off with
      | none =>
        cases inB : t.fields.get? off with
        | none => rfl
        | some g =>
          obtain ⟨f, found, _⟩ := aBelow off g ((second off inA).trans inB)
          cases inA.symm.trans found
      | some f =>
        cases inB : t.fields.get? off with
        | none =>
          obtain ⟨g, found, _⟩ := bBelow off f (first off f inA inB)
          cases inB.symm.trans found
        | some g => rfl
    · obtain ⟨h, found, joins⟩ := both off f g inA inB
      obtain ⟨f', inA', fBelow⟩ := aBelow off h found
      obtain ⟨g', inB', gBelow⟩ := bBelow off h found
      obtain rfl := some.inj (inA.symm.trans inA')
      obtain rfl := some.inj (inB.symm.trans inB')
      exact (smaller inA inB joins).mp ⟨fBelow, gBelow⟩
  · intro joinable
    have parts := joinable.parts incomparable
    rw [ofA, ofB] at parts
    obtain ⟨offsets, fields⟩ := parts
    -- A field of the join is a field of both.
    have split : ∀ off h, u.fields.get? off = some h → ∃ f g, s.fields.get? off = some f ∧
        t.fields.get? off = some g ∧ Below arena' f.ty h.ty ∧ Below arena' g.ty h.ty := by
      intro off h found
      have same := offsets off
      cases inA : s.fields.get? off with
      | none =>
        cases inB : t.fields.get? off with
        | none => cases ((second off inA).trans inB).symm.trans found
        | some g =>
          rw [inA, inB] at same
          cases same
      | some f =>
        cases inB : t.fields.get? off with
        | none =>
          rw [inA, inB] at same
          cases same
        | some g =>
          obtain ⟨h', found', joins⟩ := both off f g inA inB
          obtain rfl := some.inj (found.symm.trans found')
          exact ⟨f, g, rfl, rfl, (smaller inA inB joins).mpr (fields off f g inA inB)⟩
    refine ⟨fun off h found => ?_, fun off h found => ?_⟩
    · obtain ⟨f, g, inA, _, fBelow, _⟩ := split off h found
      exact ⟨f, inA, fBelow⟩
    · obtain ⟨f, g, _, inB, _, gBelow⟩ := split off h found
      exact ⟨g, inB, gBelow⟩

include wellFormed wellFormed' keeps in
/-- A join that merges no functions, seen in the grown arena, is above both types
exactly when they are joinable. -/
theorem join_bound_iff (fuel : Nat) : ∀ {a b id : TypeId}, arena.Present a → arena.Present b →
    ¬ MergesFunctions arena a b → Merged JoinHead (fun _ b => b) arena' fuel a b id →
      (Below arena' a id ∧ Below arena' b id ↔ Joinable arena a b) := by
  induction fuel with
  | zero => exact fun _ _ _ none => none.elim
  | succ fuel ih =>
    intro a b id aPresent bPresent noFunctions merged
    rcases merged with ⟨below, rfl⟩ | ⟨_, above, rfl⟩ | ⟨notBelow, notAbove, head⟩
    · exact iff_of_true ⟨below, Below.refl arena' _⟩
        (.comparable (Or.inl ((Below.extends wellFormed keeps aPresent bPresent).mp below)))
    · exact iff_of_true ⟨Below.refl arena' _, above⟩
        (.comparable (Or.inr ((Below.extends wellFormed keeps bPresent aPresent).mp above)))
    have incomparable := incomparable_before wellFormed keeps aPresent bPresent notBelow notAbove
    have inside := fun {x y : TypeId} => noFunctions_inside (x := x) (y := y) noFunctions incomparable
    have parts := fun joinable : Joinable arena a b => joinable.parts incomparable
    rw [keeps.get aPresent, keeps.get bPresent] at head
    generalize ofA : arena.get a = x at head inside parts
    generalize ofB : arena.get b = y at head inside parts
    generalize ofId : arena'.get id = z at head
    have ofA' := (keeps.get aPresent).trans ofA
    have ofB' := (keeps.get bPresent).trans ofB
    have words : Ty.isWord x = true → Ty.isWord y = true → Joinable arena a b :=
      fun aWord bWord => .words (by rw [ofA]; exact aWord) (by rw [ofB]; exact bWord)
    cases head with
    | int aBits bBits aSign bSign =>
      refine iff_of_true ⟨?_, ?_⟩ (words rfl rfl)
      · exact (below_int_iff wellFormed' ofA' ofId).mpr
          ⟨Nat.le_max_left _ _, signBelow_mergeSign aSign bSign⟩
      · rw [mergeSign_comm] at ofId
        exact (below_int_iff wellFormed' ofB' ofId).mpr
          ⟨Nat.le_max_right _ _, signBelow_mergeSign bSign aSign⟩
    | boolInt bits sign =>
      refine iff_of_true ⟨below_of_head wellFormed' ?_, ?_⟩ (words rfl rfl)
      · rw [ofA', ofId]
        exact .bool sign (Nat.le_max_right bits 1)
      · exact (below_int_iff wellFormed' ofB' ofId).mpr ⟨Nat.le_max_left _ _, signBelow_refl sign⟩
    | intBool bits sign =>
      refine iff_of_true ⟨?_, below_of_head wellFormed' ?_⟩ (words rfl rfl)
      · exact (below_int_iff wellFormed' ofA' ofId).mpr ⟨Nat.le_max_left _ _, signBelow_refl sign⟩
      · rw [ofB', ofId]
        exact .bool sign (Nat.le_max_right bits 1)
    | @ptr p q c inner =>
      have pPresent : arena.Present p := wellFormed.part_present ofA (by simp [Ty.components])
      have qPresent : arena.Present q := wellFormed.part_present ofB (by simp [Ty.components])
      rw [below_ptr_iff wellFormed' ofA' ofId, below_ptr_iff wellFormed' ofB' ofId,
        ih pPresent qPresent (inside (.ptr p q)) inner]
      exact ⟨.ptr ofA ofB, parts⟩
    | ptrInt p bits sign toTop =>
      refine iff_of_false (fun both => ?_) fun joinable => ?_
      · rcases (below_iff wellFormed').mp both.2 with rfl | bad
        · cases ofB'.symm.trans ofId
        · rw [ofB', ofId] at bad
          cases bad
      · rcases parts joinable with inner | ⟨isWord, -⟩
        · cases inner
        · cases isWord
    | intPtr bits sign q toTop =>
      refine iff_of_false (fun both => ?_) fun joinable => ?_
      · rcases (below_iff wellFormed').mp both.1 with rfl | bad
        · cases ofA'.symm.trans ofId
        · rw [ofA', ofId] at bad
          cases bad
      · rcases parts joinable with inner | ⟨-, isWord⟩
        · cases inner
        · cases isWord
    | @array p q c aLen bLen aStride bStride elem =>
      have pPresent : arena.Present p := wellFormed.part_present ofA (by simp [Ty.components])
      have qPresent : arena.Present q := wellFormed.part_present ofB (by simp [Ty.components])
      have aFits : lenBelow aLen (if aLen = bLen then aLen else none) = true := by
        split
        · cases aLen <;> simp [lenBelow]
        · simp [lenBelow]
      have bFits : lenBelow bLen (if aLen = bLen then aLen else none) = true := by
        split
        · rename_i same
          subst same
          cases aLen <;> simp [lenBelow]
        · simp [lenBelow]
      rw [below_array_iff wellFormed' ofA' ofId, below_array_iff wellFormed' ofB' ofId,
        and_iff_right aFits, and_iff_right bFits,
        ih pPresent qPresent (inside (.array p q _ _ _ _)) elem]
      exact ⟨.array ofA ofB, parts⟩
    | struct both first second =>
      refine struct_join_bound_iff wellFormed' incomparable ofA ofB ofA' ofB'
        ofId (fun inA inB joins => ?_) both first second
      exact ih
        (wellFormed.part_present ofA (field_mem_components (BTreeMap.mem_of_get? inA)))
        (wellFormed.part_present ofB (field_mem_components (BTreeMap.mem_of_get? inB)))
        (inside (.struct inA inB)) joins
    | function aRet bRet aVar bVar _ sameArity =>
      refine (noFunctions (.function ofA ofB sameArity fun same => ?_)).elim
      exact incomparable.1 (same ▸ Below.refl arena a)
    | top apart =>
      exact iff_of_true ⟨below_top ofId, below_top ofId⟩ (.apart (by rw [ofA, ofB]; exact apart))

end Bounds

/-! ## The two orders of the arguments -/

/-- Each is a subtype of the other. -/
def Mutual (arena : TypeArena) (a b : TypeId) : Prop := Below arena a b ∧ Below arena b a

theorem Mutual.refl (arena : TypeArena) (a : TypeId) : Mutual arena a a :=
  ⟨Below.refl arena a, Below.refl arena a⟩

theorem Mutual.trans {c : TypeId} (first : Mutual arena a b)
    (second : Mutual arena b c) : Mutual arena a c :=
  ⟨first.1.trans second.1, second.2.trans first.2⟩

private theorem meetHead_mutual {met met' : TypeId → TypeId → TypeId → Prop}
    {z w : Ty} (first : MeetHead arena met x y z) (second : MeetHead arena met' y x w)
    (smaller : ∀ {p q c d}, met p q c → met' q p d → Mutual arena c d) :
    HeadBelow (Below arena) z w ∧ HeadBelow (Below arena) w z := by
  cases first with
  | int aBits bBits aSign bSign =>
    cases second with
    | int =>
      rw [Nat.min_comm bBits aBits, mergeSign_comm bSign aSign]
      exact ⟨.int (Nat.le_refl _) (signBelow_refl _), .int (Nat.le_refl _) (signBelow_refl _)⟩
    | bottom apart => cases apart
  | ptr inner =>
    cases second with
    | ptr inner' => exact (smaller inner inner').imp HeadBelow.ptr HeadBelow.ptr
    | bottom apart => cases apart
  | bottom apart =>
    cases second with
    | int | ptr => cases apart
    | bottom => exact ⟨.bottom _, .bottom _⟩

private theorem joinHead_mutual {joined joined' : TypeId → TypeId → TypeId → Prop}
    {z w : Ty} (first : JoinHead arena joined x y z) (second : JoinHead arena joined' y x w)
    (noFunctions : ∀ aParams aRet aVar bParams bRet bVar, x = .function aParams aRet aVar →
      y = .function bParams bRet bVar → aParams.length ≠ bParams.length)
    (smaller : ∀ {p q c d}, JoinsParts x y p q → joined p q c → joined' q p d → Mutual arena c d) :
    HeadBelow (Below arena) z w ∧ HeadBelow (Below arena) w z := by
  have toTops : ∀ {c d : TypeId}, arena.get c = .top → arena.get d = .top →
      HeadBelow (Below arena) (.ptr c) (.ptr d) ∧ HeadBelow (Below arena) (.ptr d) (.ptr c) :=
    fun cTop dTop => ⟨.ptr (below_top dTop), .ptr (below_top cTop)⟩
  have sameInt : ∀ {bits : Nat} {sign : Signedness},
      HeadBelow (Below arena) (.int bits sign) (.int bits sign) ∧
        HeadBelow (Below arena) (.int bits sign) (.int bits sign) :=
    ⟨.int (Nat.le_refl _) (signBelow_refl _), .int (Nat.le_refl _) (signBelow_refl _)⟩
  cases first with
  | int aBits bBits aSign bSign =>
    cases second with
    | int =>
      rw [Nat.max_comm bBits aBits, mergeSign_comm bSign aSign]
      exact sameInt
    | top apart => cases apart
  | boolInt bits sign =>
    cases second with
    | intBool => exact sameInt
    | top apart => cases apart
  | intBool bits sign =>
    cases second with
    | boolInt => exact sameInt
    | top apart => cases apart
  | ptr inner =>
    cases second with
    | ptr inner' => exact (smaller (.ptr _ _) inner inner').imp HeadBelow.ptr HeadBelow.ptr
    | top apart => cases apart
  | ptrInt a bits sign cTop =>
    cases second with
    | intPtr _ _ _ dTop => exact toTops cTop dTop
    | top apart => cases apart
  | intPtr bits sign b cTop =>
    cases second with
    | ptrInt _ _ _ dTop => exact toTops cTop dTop
    | top apart => cases apart
  | array aLen bLen aStride bStride elem =>
    cases second with
    | array _ _ _ _ elem' =>
      obtain ⟨below, above⟩ := smaller (.array _ _ _ _ _ _) elem elem'
      have sameLen : (if bLen = aLen then bLen else none) = if aLen = bLen then aLen else none := by
        by_cases same : aLen = bLen
        · simp [same]
        · simp [same, Ne.symm same]
      rw [sameLen]
      have fits : ∀ len : Option Nat, lenBelow len len = true := fun len => by
        cases len <;> simp [lenBelow]
      exact ⟨.array _ _ (fits _) below, .array _ _ (fits _) above⟩
    | top apart => cases apart
  | @struct s t u both onlyFirst onlySecond =>
    cases second with
    | @struct _ _ u' both' onlyFirst' onlySecond' =>
      -- At every offset the two results have the same field, or joins of one pair.
      have field : ∀ off, u.fields.get? off = u'.fields.get? off ∨
          ∃ h h', u.fields.get? off = some h ∧ u'.fields.get? off = some h' ∧
            Mutual arena h.ty h'.ty := by
        intro off
        cases inA : s.fields.get? off with
        | none =>
          cases inB : t.fields.get? off with
          | none =>
            exact Or.inl (((onlySecond off inA).trans inB).trans
              ((onlySecond' off inB).trans inA).symm)
          | some g =>
            exact Or.inl (((onlySecond off inA).trans inB).trans (onlyFirst' off g inB inA).symm)
        | some f =>
          cases inB : t.fields.get? off with
          | none =>
            exact Or.inl ((onlyFirst off f inA inB).trans ((onlySecond' off inB).trans inA).symm)
          | some g =>
            obtain ⟨h, found, joins⟩ := both off f g inA inB
            obtain ⟨h', found', joins'⟩ := both' off g f inB inA
            exact Or.inr ⟨h, h', found, found', smaller (.struct inA inB) joins joins'⟩
      refine ⟨.struct fun off g found => ?_, .struct fun off g found => ?_⟩
      · rcases field off with same | ⟨h, h', inU, inU', below, _⟩
        · exact ⟨g, same.trans found, Below.refl arena g.ty⟩
        · obtain rfl := some.inj (inU'.symm.trans found)
          exact ⟨h, inU, below⟩
      · rcases field off with same | ⟨h, h', inU, inU', _, above⟩
        · exact ⟨g, same.symm.trans found, Below.refl arena g.ty⟩
        · obtain rfl := some.inj (inU.symm.trans found)
          exact ⟨h', inU', above⟩
    | top apart => cases apart
  | function aRet bRet aVar bVar _ sameArity =>
    exact absurd sameArity (noFunctions _ _ _ _ _ _ rfl rfl)
  | top apart =>
    cases second with
    | top => exact ⟨.top _, .top _⟩
    | function _ _ _ _ _ sameArity =>
      exact absurd sameArity.symm (noFunctions _ _ _ _ _ _ rfl rfl)
    | _ => cases apart

/-- Merges in the two orders are mutual subtypes when those of incomparable types
are. -/
theorem merged_mutual_of_heads (pickOne : ∀ a b, pick a b = a ∨ pick a b = b)
    {fuel fuel' : Nat} {c d : TypeId}
    (first : Merged head pick arena fuel a b c) (second : Merged head pick arena fuel' b a d)
    (heads : ∀ smaller smaller', fuel = smaller + 1 → fuel' = smaller' + 1 →
      Incomparable arena a b →
      head arena (Merged head pick arena smaller) (arena.get a) (arena.get b) (arena.get c) →
      head arena (Merged head pick arena smaller') (arena.get b) (arena.get a) (arena.get d) →
      Mutual arena c d) : Mutual arena c d := by
  have oneOf : ∀ {x y : TypeId}, Below arena a b → Below arena b a → (x = a ∨ x = b) →
      (y = a ∨ y = b) → Mutual arena x y := by
    intro x y below above xOne yOne
    rcases xOne with rfl | rfl
    · rcases yOne with rfl | rfl
      · exact Mutual.refl arena _
      · exact ⟨below, above⟩
    · rcases yOne with rfl | rfl
      · exact ⟨above, below⟩
      · exact Mutual.refl arena _
  cases fuel with
  | zero => exact first.elim
  | succ smaller =>
    cases fuel' with
    | zero => exact second.elim
    | succ smaller' =>
      rcases first with ⟨below, rfl⟩ | ⟨notBelow, above, rfl⟩ | ⟨notBelow, notAbove, made⟩
      · rcases second with ⟨above, rfl⟩ | ⟨_, _, rfl⟩ | ⟨_, notBelow, _⟩
        · exact oneOf below above (pickOne a b) (pickOne b a).symm
        · exact Mutual.refl arena _
        · exact absurd below notBelow
      · rcases second with ⟨_, rfl⟩ | ⟨notAbove, _, _⟩ | ⟨notAbove, _, _⟩
        · exact Mutual.refl arena _
        · exact absurd above notAbove
        · exact absurd above notAbove
      · rcases second with ⟨above, _⟩ | ⟨_, below, _⟩ | ⟨_, _, made'⟩
        · exact absurd above notAbove
        · exact absurd below notBelow
        · exact heads smaller smaller' rfl rfl ⟨notBelow, notAbove⟩ made made'

theorem meet_mutual (wellFormed : arena.WellFormed) (fuel : Nat) :
    ∀ {fuel' : Nat} {a b c d : TypeId}, Merged MeetHead (fun a _ => a) arena fuel a b c →
      Merged MeetHead (fun a _ => a) arena fuel' b a d → Mutual arena c d := by
  induction fuel with
  | zero => exact fun none => none.elim
  | succ fuel ih =>
    intro fuel' a b c d first second
    refine merged_mutual_of_heads (fun _ _ => Or.inl rfl) first second
      fun smaller smaller' same _ _ made made' => ?_
    obtain rfl := Nat.succ.inj same
    have heads := meetHead_mutual made made' fun inner inner' => ih inner inner'
    exact heads.imp (below_of_head wellFormed) (below_of_head wellFormed)

theorem join_mutual {arena' : TypeArena} (wellFormed : arena.WellFormed)
    (wellFormed' : arena'.WellFormed) (keeps : arena.Extends arena') (fuel : Nat) :
    ∀ {fuel' : Nat} {a b c d : TypeId}, arena.Present a → arena.Present b →
      ¬ MergesFunctions arena a b → Merged JoinHead (fun _ b => b) arena' fuel a b c →
      Merged JoinHead (fun _ b => b) arena' fuel' b a d → Mutual arena' c d := by
  induction fuel with
  | zero => exact fun _ _ _ none => none.elim
  | succ fuel ih =>
    intro fuel' a b c d aPresent bPresent noFunctions first second
    refine merged_mutual_of_heads (fun _ _ => Or.inr rfl) first second
      fun smaller smaller' same _ apart made made' => ?_
    obtain rfl := Nat.succ.inj same
    have incomparable := incomparable_before wellFormed keeps aPresent bPresent apart.1 apart.2
    rw [keeps.get aPresent, keeps.get bPresent] at made made'
    have heads := joinHead_mutual made made'
      (fun _ _ _ _ _ _ ofA ofB sameArity =>
        noFunctions (.function ofA ofB sameArity fun same =>
          incomparable.1 (same ▸ Below.refl arena a)))
      fun parts inner inner' => ?_
    · exact heads.imp (below_of_head wellFormed') (below_of_head wellFormed')
    · obtain ⟨inA, inB⟩ := parts.components
      exact ih (wellFormed.component_present inA)
        (wellFormed.component_present inB)
        (noFunctions_inside noFunctions incomparable parts) inner inner'

/-! ## Every pair of ids -/

theorem joinTypes_spec (built : arena.Built)
    (aPresent : arena.Present a) (bPresent : arena.Present b) :
    Returns (join · arena a b) (joinTypes arena a b) ∧
      JoinSpec (max a b + 1) arena a b (joinTypes arena a b) := by
  obtain ⟨result, run, _⟩ := join_settles (max a b + 1) built aPresent bPresent
    (Nat.lt_succ_of_le (le_max_left a b)) (Nat.lt_succ_of_le (le_max_right a b))
  have same : joinTypes arena a b = result := by
    rw [joinTypes, run _ le_rfl]
    rfl
  rw [same]
  exact ⟨⟨_, run⟩, join_spec _ built aPresent bPresent (run _ le_rfl)⟩

theorem meetTypes_spec (built : arena.Built)
    (aPresent : arena.Present a) (bPresent : arena.Present b) :
    Returns (meet · arena a b) (meetTypes arena a b) ∧
      MeetSpec (max a b + 1) arena a b (meetTypes arena a b) := by
  obtain ⟨result, run, _⟩ := meet_settles (max a b + 1) built aPresent bPresent
    (Nat.lt_succ_of_le (le_max_left a b)) (Nat.lt_succ_of_le (le_max_right a b))
  have same : meetTypes arena a b = result := by
    rw [meetTypes, run _ le_rfl]
    rfl
  rw [same]
  exact ⟨⟨_, run⟩, meet_spec _ built aPresent bPresent (run _ le_rfl)⟩

theorem comparable_of_absent
    (absent : ¬ (arena.Present a ∧ arena.Present b)) : Below arena a b ∨ Below arena b a := by
  by_cases bPresent : arena.Present b
  · refine Or.inr (below_top (TypeArena.get_of_not_present fun aPresent => ?_))
    exact absent ⟨aPresent, bPresent⟩
  · exact Or.inl (below_top (TypeArena.get_of_not_present bPresent))

section

variable {merge inner meets : Nat → TypeArena → TypeId → TypeId → Option (TypeArena × TypeId)}

/-- What the merge of any two ids gives: a comparable pair one of its members,
ids of the arena what `Merged` says. -/
theorem merged_of_returns
    {plan : MergePlan}
    {result : TypeArena × TypeId}
    (follows : Follows merge inner meets arena a b (pick a b) (pick b a) plan)
    (spec : ∀ fuel, arena.Present a → arena.Present b → merge fuel arena a b = some result →
      MergeSpec head pick fuel arena a b result)
    (returns : Returns (merge · arena a b) result) :
    arena.Extends result.1 ∧ (∃ fuel, Merged head pick result.1 fuel a b result.2) ∧
      ((arena.Present a ∧ arena.Present b) ∨ result.1 = arena) := by
  obtain ⟨bound, settles⟩ := returns
  have run : merge (bound + 1) arena a b = some result := settles (bound + 1) (Nat.le_succ bound)
  by_cases both : arena.Present a ∧ arena.Present b
  · have specified := spec (bound + 1) both.1 both.2 run
    exact ⟨specified.grows.keeps, ⟨_, specified.merged⟩, Or.inl both⟩
  · have either := comparable_of_absent both
    rcases follows_cases follows run with
      ⟨below, rfl⟩ | ⟨notBelow, above, rfl⟩ | ⟨notBelow, notAbove, _⟩
    · exact ⟨.refl _, ⟨1, Or.inl ⟨below, rfl⟩⟩, Or.inr rfl⟩
    · exact ⟨.refl _, ⟨1, Or.inr (Or.inl ⟨notBelow, above, rfl⟩)⟩, Or.inr rfl⟩
    · exact (either.elim notBelow notAbove).elim

/-- Merging in the one order and then in the other, seen in the last arena. -/
theorem merged_twice
    (looksInside : LooksInside head)
    {plan : TypeArena → TypeId → TypeId → MergePlan}
    (follows : ∀ arena a b, Follows merge inner meets arena a b (pick a b) (pick b a)
      (plan arena a b))
    (spec : ∀ fuel {arena a b result}, arena.Built → arena.Present a → arena.Present b →
      merge fuel arena a b = some result → MergeSpec head pick fuel arena a b result)
    {first second : TypeArena × TypeId} (built : arena.Built)
    (firstBuilt : first.1.Built)
    (firstReturns : Returns (merge · arena a b) first)
    (secondReturns : Returns (merge · first.1 b a) second) :
    arena.Extends second.1 ∧ (∃ fuel, Merged head pick second.1 fuel a b first.2) ∧
      (∃ fuel, Merged head pick second.1 fuel b a second.2) ∧
      ((arena.Present a ∧ arena.Present b) ∨ second.1 = arena) := by
  obtain ⟨firstKeeps, ⟨fuel, firstMerged⟩, _⟩ :=
    merged_of_returns (follows arena a b) (fun fuel => spec fuel built) firstReturns
  obtain ⟨secondKeeps, secondMerged, unchanged⟩ :=
    merged_of_returns (follows first.1 b a) (fun fuel => spec fuel firstBuilt) secondReturns
  by_cases both : arena.Present a ∧ arena.Present b
  · obtain ⟨bound, settles⟩ := firstReturns
    have grows := (spec bound built both.1 both.2 (settles bound le_rfl)).grows
    have kept := firstMerged.extends looksInside firstBuilt.wellFormed secondKeeps fuel
      (firstKeeps.present both.1) (firstKeeps.present both.2) grows.present
    exact ⟨firstKeeps.trans secondKeeps, ⟨fuel, kept⟩, secondMerged, Or.inl both⟩
  · have sameArena : first.1 = arena :=
      (merged_of_returns (follows arena a b) (fun fuel => spec fuel built) firstReturns).2.2.resolve_left
        both
    have still : second.1 = first.1 := unchanged.resolve_left fun present =>
      both (sameArena ▸ present.symm)
    have kept : Merged head pick second.1 fuel a b first.2 := by
      rw [still]
      exact firstMerged
    exact ⟨firstKeeps.trans secondKeeps, ⟨fuel, kept⟩, secondMerged, Or.inr (still.trans sameArena)⟩

end

/-- Meets of any two types. -/
theorem meets_of_any (built : arena.Built) (a b : TypeId) :
    ∃ met back, Returns (meet · arena a b) met ∧ Returns (meet · met.1 b a) back ∧
      Mutual back.1 met.2 back.2 ∧
      (Below met.1 met.2 a ∧ Below met.1 met.2 b ↔ Meetable arena a b) := by
  obtain ⟨met, returns, kept⟩ := returns_of_settles (meet_follows arena a b) meet_settles built
  obtain ⟨back, returnsBack, keptBack⟩ :=
    returns_of_settles (meet_follows met.1 b a) meet_settles kept.built
  obtain ⟨_, ⟨fuel, merged⟩, ⟨fuel', mergedBack⟩, _⟩ :=
    merged_twice meetHead_looksInside meet_follows meet_spec built kept.built returns returnsBack
  obtain ⟨keeps, ⟨fuel'', made⟩, present⟩ := merged_of_returns (meet_follows arena a b)
    (fun fuel => meet_spec fuel built) returns
  refine ⟨met, back, returns, returnsBack,
    meet_mutual keptBack.built.wellFormed fuel merged mergedBack, ?_⟩
  by_cases both : arena.Present a ∧ arena.Present b
  · exact meet_bound_iff built.wellFormed kept.built.wellFormed keeps fuel'' both.1 both.2 made
  · have sameArena := present.resolve_left both
    rw [sameArena] at made ⊢
    have either := comparable_of_absent both
    refine iff_of_true ?_ (.comparable either)
    cases fuel'' with
    | zero => exact made.elim
    | succ _ =>
      rcases made with ⟨below, same⟩ | ⟨_, above, same⟩ | ⟨notBelow, notAbove, _⟩
      · exact same ▸ ⟨Below.refl arena a, below⟩
      · exact same ▸ ⟨above, Below.refl arena b⟩
      · exact (either.elim notBelow notAbove).elim

/-- Joins of any two types. -/
theorem joins_of_any (built : arena.Built) (a b : TypeId) :
    ∃ joined back, Returns (join · arena a b) joined ∧ Returns (join · joined.1 b a) back ∧
      (¬ MergesFunctions arena a b → Mutual back.1 joined.2 back.2 ∧
        (Below joined.1 a joined.2 ∧ Below joined.1 b joined.2 ↔ Joinable arena a b)) := by
  obtain ⟨joined, returns, kept⟩ := returns_of_settles (join_follows arena a b) join_settles built
  obtain ⟨back, returnsBack, keptBack⟩ :=
    returns_of_settles (join_follows joined.1 b a) join_settles kept.built
  obtain ⟨whole, ⟨fuel, merged⟩, ⟨fuel', mergedBack⟩, unchanged⟩ :=
    merged_twice joinHead_looksInside join_follows join_spec built kept.built returns returnsBack
  obtain ⟨keeps, ⟨fuel'', made⟩, present⟩ := merged_of_returns (join_follows arena a b)
    (fun fuel => join_spec fuel built) returns
  refine ⟨joined, back, returns, returnsBack, fun noFunctions => ?_⟩
  by_cases both : arena.Present a ∧ arena.Present b
  · exact ⟨join_mutual built.wellFormed keptBack.built.wellFormed whole fuel both.1 both.2 noFunctions
      merged mergedBack,
      join_bound_iff built.wellFormed kept.built.wellFormed keeps fuel'' both.1 both.2 noFunctions
        made⟩
  · have sameArena := present.resolve_left both
    have either := comparable_of_absent both
    rw [unchanged.resolve_left both] at merged mergedBack ⊢
    rw [sameArena] at made ⊢
    refine ⟨merged_mutual_of_heads (fun _ _ => Or.inr rfl) merged mergedBack
      fun _ _ _ _ apart => (either.elim apart.1 apart.2).elim, iff_of_true ?_ (.comparable either)⟩
    cases fuel'' with
    | zero => exact made.elim
    | succ _ =>
      rcases made with ⟨below, same⟩ | ⟨_, above, same⟩ | ⟨notBelow, notAbove, _⟩
      · exact same ▸ ⟨below, Below.refl arena b⟩
      · exact same ▸ ⟨Below.refl arena a, above⟩
      · exact (either.elim notBelow notAbove).elim

end TypeLattice

end R2Sleigh.Types
