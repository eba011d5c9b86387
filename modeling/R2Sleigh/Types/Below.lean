import R2Sleigh.Types.Lattice

/-!
Contract: the order and the merges of an arena as relations between ids.

Owns `Below` and `Merged`.
-/

namespace R2Sleigh.Types

open Lib List Option

namespace TypeLattice

variable {arena : TypeArena} {sub sup a b : TypeId} {fuel : Nat}
  {head : TypeArena → (TypeId → TypeId → TypeId → Prop) → Ty → Ty → Ty → Prop}
  {pick : TypeId → TypeId → TypeId} {result : TypeArena × TypeId}

/-! ## The order without fuel -/

theorem allM_keeps {A : Type} {holds holds' : A → Option Bool} {items : List A} {answer : Bool}
    (keeps : ∀ item ∈ items, ∀ r, holds item = some r → holds' item = some r)
    (found : items.allM holds = some answer) : items.allM holds' = some answer := by
  induction items with
  | nil => exact found
  | cons x rest ih =>
    obtain ⟨first, later⟩ := forall_mem_cons.mp keeps
    rw [allM_cons_eq] at found ⊢
    obtain ⟨r, decided, others⟩ := bind_eq_some_iff.mp found
    rw [first r decided]
    cases r with
    | false => exact others
    | true => exact ih later others

private theorem isSubtype_succ_of_eq_some (fuel : Nat) :
    ∀ {sub sup : TypeId} {answer : Bool}, isSubtype fuel arena sub sup = some answer →
      isSubtype (fuel + 1) arena sub sup = some answer := by
  induction fuel with
  | zero => simp [isSubtype]
  | succ fuel ih =>
    intro sub sup answer found
    rw [isSubtype_succ] at found ⊢
    by_cases same : sub = sup
    · rw [if_pos same] at found ⊢
      exact found
    rw [if_neg same] at found ⊢
    revert found
    cases compareHeads (arena.get sub) (arena.get sup) with
    | answer below => exact id
    | inner a b => exact fun found => ih found
    | fields a b =>
      refine allM_keeps fun entry _ r => ?_
      cases a.get? entry.1 with
      | none => exact id
      | some aField => exact fun found => ih found

theorem isSubtype_of_le {answer : Bool} {fuel' : Nat}
    (enough : fuel ≤ fuel') (found : isSubtype fuel arena sub sup = some answer) :
    isSubtype fuel' arena sub sup = some answer := by
  induction enough with
  | refl => exact found
  | step _ ih => exact isSubtype_succ_of_eq_some _ ih

/-- The order says yes. -/
def Below (arena : TypeArena) (sub sup : TypeId) : Prop := Returns (isSubtype · arena sub sup) true

theorem below_of_isSubtype
    (found : isSubtype fuel arena sub sup = some true) : Below arena sub sup :=
  ⟨fuel, fun _ enough => isSubtype_of_le enough found⟩

theorem not_below_of_isSubtype
    (found : isSubtype fuel arena sub sup = some false) : ¬ Below arena sub sup := by
  intro ⟨bound, settles⟩
  have yes : isSubtype (max bound fuel) arena sub sup = some true :=
    settles (max bound fuel) (le_max_left _ _)
  have no := isSubtype_of_le (le_max_right bound fuel) found
  rw [no] at yes
  exact Bool.false_ne_true (some.inj yes)

theorem below_iff_isSubtype (wellFormed : arena.WellFormed) (enough : sub < fuel) :
    Below arena sub sup ↔ isSubtype fuel arena sub sup = some true := by
  refine ⟨fun below => ?_, below_of_isSubtype⟩
  obtain ⟨answer, settles⟩ := isSubtype_settles wellFormed fuel sub sup enough
  have found := settles fuel le_rfl
  cases answer with
  | true => exact found
  | false => exact absurd below (not_below_of_isSubtype found)

theorem Below.refl (arena : TypeArena) (id : TypeId) : Below arena id id :=
  below_of_isSubtype (isSubtype_refl 0 arena id)

theorem Below.trans {c : TypeId} (first : Below arena a b)
    (second : Below arena b c) : Below arena a c := by
  obtain ⟨bound, settles⟩ := first
  obtain ⟨bound', settles'⟩ := second
  exact below_of_isSubtype (isSubtype_trans (max bound bound') (settles _ (le_max_left _ _))
    (settles' _ (le_max_right _ _)))

theorem HeadBelow.mono {below below' : TypeId → TypeId → Prop} {x y : Ty}
    (head : HeadBelow below x y)
    (keeps : ∀ a ∈ x.components, ∀ b ∈ y.components, below a b → below' a b) :
    HeadBelow below' x y := by
  cases head with
  | top => exact .top _
  | bottom => exact .bottom _
  | bool sign positive => exact .bool sign positive
  | int narrower sign => exact .int narrower sign
  | float narrower => exact .float narrower
  | ptr inner => exact .ptr (keeps _ (by simp [Ty.components]) _ (by simp [Ty.components]) inner)
  | array aStride bStride len elem =>
    exact .array _ _ len (keeps _ (by simp [Ty.components]) _ (by simp [Ty.components]) elem)
  | struct fields =>
    refine .struct fun off bField found => ?_
    obtain ⟨aField, aFound, below⟩ := fields off bField found
    exact ⟨aField, aFound, keeps _ (field_mem_components (BTreeMap.mem_of_get? aFound)) _
      (field_mem_components (BTreeMap.mem_of_get? found)) below⟩

theorem below_iff (wellFormed : arena.WellFormed) :
    Below arena sub sup ↔
      sub = sup ∨ HeadBelow (Below arena) (arena.get sub) (arena.get sup) := by
  rw [below_iff_isSubtype wellFormed (Nat.lt_succ_self sub), isSubtype_eq_true_iff,
    compareHeads_holds_iff]
  have same : ∀ a ∈ (arena.get sub).components, ∀ b,
      isSubtype sub arena a b = some true ↔ Below arena a b := fun a component b =>
    (below_iff_isSubtype wellFormed (wellFormed.component_lt component)).symm
  refine or_congr_right ⟨fun head => head.mono fun a inSub b _ => (same a inSub b).mp,
    fun head => head.mono fun a inSub b _ => (same a inSub b).mpr⟩

theorem below_of_head (wellFormed : arena.WellFormed)
    (head : HeadBelow (Below arena) (arena.get sub) (arena.get sup)) : Below arena sub sup :=
  (below_iff wellFormed).mpr (Or.inr head)

theorem Below.extends {arena' : TypeArena} (wellFormed : arena.WellFormed)
    (keeps : arena.Extends arena') (subPresent : arena.Present sub)
    (supPresent : arena.Present sup) : Below arena' sub sup ↔ Below arena sub sup := by
  have same : ∀ fuel, isSubtype fuel arena' sub sup = isSubtype fuel arena sub sup := fun fuel =>
    isSubtype_extends wellFormed keeps fuel subPresent supPresent
  simp only [Below, Returns, same]

/-! ## Different ids are different types -/

theorem intern_indexes {ty : Ty}
    (complete : ∀ (id : TypeId) (stored : Ty), arena.types[id]? = some stored →
      arena.internIndex.lookup stored = some id) :
    ∀ (id : TypeId) (stored : Ty), (arena.intern ty).1.types[id]? = some stored →
      (arena.intern ty).1.internIndex.lookup stored = some id := by
  unfold TypeArena.intern
  split
  · exact complete
  · rename_i fresh
    intro id stored found
    rw [List.getElem?_append] at found
    split at found
    · have old := complete id stored found
      have differ : stored ≠ ty := fun same => by
        rw [same, fresh] at old
        cases old
      rw [AList.lookup_insert_ne differ]
      exact old
    · rename_i outside
      obtain ⟨inside, equal⟩ := List.getElem?_eq_some_iff.mp found
      rw [getElem_singleton] at equal
      have last : id = arena.types.length :=
        Nat.le_antisymm (Nat.sub_eq_zero_iff_le.mp (Nat.lt_one_iff.mp inside)) (not_lt.mp outside)
      rw [← equal, AList.lookup_insert, last]

private theorem structNamed_or_intern (call : TypeArena.Construction) :
    (arena.construct call).1 = arena ∨ ∃ ty, (arena.construct call).1 = (arena.intern ty).1 := by
  cases call with
  | structNamedOrExisting name =>
    unfold TypeArena.construct TypeArena.structNamedOrExisting
    dsimp only
    split
    · exact Or.inl rfl
    · exact Or.inr ⟨_, rfl⟩
  | _ => exact Or.inr ⟨_, rfl⟩

theorem indexed_of_built (built : arena.Built) :
    ∀ (id : TypeId) (stored : Ty), arena.types[id]? = some stored →
      arena.internIndex.lookup stored = some id := by
  induction built with
  | default =>
    have one := @intern_indexes ⟨[], ∅, 0, 0, 0⟩ .top (by simp)
    have two := @intern_indexes _ .bottom one
    exact @intern_indexes _ .bool two
  | construct call _ _ ih =>
    rcases structNamed_or_intern call with same | ⟨ty, interned⟩
    · rw [same]
      exact ih
    · rw [interned]
      exact intern_indexes ih

theorem eq_of_get_eq (built : arena.Built) (aPresent : arena.Present a) (bPresent : arena.Present b)
    (same : arena.get a = arena.get b) : a = b := by
  have first := indexed_of_built built a _ aPresent.getElem?
  have second := indexed_of_built built b _ bPresent.getElem?
  rw [same, second] at first
  exact (some.inj first).symm

/-! ## How a merge comes about -/

/-- Pairs of constructors whose meet is not `Bottom`. -/
def meetsInside : Ty → Ty → Bool
  | .int _ _, .int _ _ => true
  | .ptr _, .ptr _ => true
  | _, _ => false

/-- Pairs of constructors whose join is not `Top`. -/
def joinsInside : Ty → Ty → Bool
  | .bool, .int _ _ => true
  | .int _ _, .bool => true
  | .int _ _, .int _ _ => true
  | .ptr _, .ptr _ => true
  | .ptr _, .int _ _ => true
  | .int _ _, .ptr _ => true
  | .array _ _ _, .array _ _ _ => true
  | .struct _, .struct _ => true
  | .function aParams _ _, .function bParams _ _ => aParams.length == bParams.length
  | _, _ => false

/-- The types that a meet of two incomparable types makes. -/
inductive MeetHead (_ : TypeArena) (met : TypeId → TypeId → TypeId → Prop) : Ty → Ty → Ty → Prop
  | int (aBits bBits : Nat) (aSign bSign : Signedness) : MeetHead _ met (.int aBits aSign)
      (.int bBits bSign) (.int (min aBits bBits) (mergeSign aSign bSign))
  | ptr {a b c : TypeId} (inner : met a b c) : MeetHead _ met (.ptr a) (.ptr b) (.ptr c)
  | bottom {x y : Ty} (apart : meetsInside x y = false) : MeetHead _ met x y .bottom

/-- The types that a join of two incomparable types makes. Of a joined function
nothing is said. -/
inductive JoinHead (arena : TypeArena) (joined : TypeId → TypeId → TypeId → Prop) :
    Ty → Ty → Ty → Prop
  | int (aBits bBits : Nat) (aSign bSign : Signedness) : JoinHead arena joined (.int aBits aSign)
      (.int bBits bSign) (.int (max aBits bBits) (mergeSign aSign bSign))
  | boolInt (bits : Nat) (sign : Signedness) :
      JoinHead arena joined .bool (.int bits sign) (.int (max bits 1) sign)
  | intBool (bits : Nat) (sign : Signedness) :
      JoinHead arena joined (.int bits sign) .bool (.int (max bits 1) sign)
  | ptr {a b c : TypeId} (inner : joined a b c) : JoinHead arena joined (.ptr a) (.ptr b) (.ptr c)
  | ptrInt (a : TypeId) {c : TypeId} (bits : Nat) (sign : Signedness) (toTop : arena.get c = .top) :
      JoinHead arena joined (.ptr a) (.int bits sign) (.ptr c)
  | intPtr (bits : Nat) (sign : Signedness) (b : TypeId) {c : TypeId} (toTop : arena.get c = .top) :
      JoinHead arena joined (.int bits sign) (.ptr b) (.ptr c)
  | array {a b c : TypeId} (aLen bLen aStride bStride : Option Nat) (elem : joined a b c) :
      JoinHead arena joined (.array a aLen aStride) (.array b bLen bStride)
        (.array c (if aLen = bLen then aLen else none) (if aStride = bStride then aStride else none))
  | struct {a b c : StructShape}
      (both : ∀ off f g, a.fields.get? off = some f → b.fields.get? off = some g →
        ∃ h, c.fields.get? off = some h ∧ joined f.ty g.ty h.ty)
      (first : ∀ off f, a.fields.get? off = some f → b.fields.get? off = none →
        c.fields.get? off = some f)
      (second : ∀ off, a.fields.get? off = none → c.fields.get? off = b.fields.get? off) :
      JoinHead arena joined (.struct a) (.struct b) (.struct c)
  | function {aParams bParams : List TypeId} (aRet bRet : TypeId) (aVar bVar : Bool) (z : Ty)
      (sameArity : aParams.length = bParams.length) :
      JoinHead arena joined (.function aParams aRet aVar) (.function bParams bRet bVar) z
  | top {x y : Ty} (apart : joinsInside x y = false) : JoinHead arena joined x y .top

/-- The ids of this arena that a merge may return for two ids: one of them where
they are comparable, else an id whose type the rule `head` makes. -/
def Merged (head : TypeArena → (TypeId → TypeId → TypeId → Prop) → Ty → Ty → Ty → Prop)
    (pick : TypeId → TypeId → TypeId) (arena : TypeArena) : Nat → TypeId → TypeId → TypeId → Prop
  | 0, _, _, _ => False
  | fuel + 1, a, b, id =>
    (Below arena a b ∧ id = pick a b) ∨ (¬ Below arena a b ∧ Below arena b a ∧ id = pick b a) ∨
      (¬ Below arena a b ∧ ¬ Below arena b a ∧
        head arena (Merged head pick arena fuel) (arena.get a) (arena.get b) (arena.get id))

/-- A rule that only looks at components. -/
def LooksInside
    (head : TypeArena → (TypeId → TypeId → TypeId → Prop) → Ty → Ty → Ty → Prop) : Prop :=
  ∀ {arena arena' : TypeArena} {merged merged' : TypeId → TypeId → TypeId → Prop} {x y z : Ty},
    arena.Extends arena' → (∀ c ∈ z.components, arena.Present c) →
      (∀ a ∈ x.components, ∀ b ∈ y.components, ∀ c ∈ z.components,
        merged a b c → merged' a b c) → head arena merged x y z → head arena' merged' x y z

theorem meetHead_looksInside : LooksInside MeetHead := by
  intro arena arena' merged merged' x y z _ _ keeps head
  cases head with
  | int aBits bBits aSign bSign => exact .int _ _ _ _
  | ptr inner =>
    exact .ptr (keeps _ (by simp [Ty.components]) _ (by simp [Ty.components]) _
      (by simp [Ty.components]) inner)
  | bottom apart => exact .bottom apart

theorem joinHead_looksInside : LooksInside JoinHead := by
  intro arena arena' merged merged' x y z extension present keeps head
  cases head with
  | int aBits bBits aSign bSign => exact .int _ _ _ _
  | boolInt bits sign => exact .boolInt _ _
  | intBool bits sign => exact .intBool _ _
  | ptr inner =>
    exact .ptr (keeps _ (by simp [Ty.components]) _ (by simp [Ty.components]) _
      (by simp [Ty.components]) inner)
  | ptrInt a bits sign toTop =>
    exact .ptrInt a bits sign ((extension.get (present _ (by simp [Ty.components]))).trans toTop)
  | intPtr bits sign b toTop =>
    exact .intPtr bits sign b ((extension.get (present _ (by simp [Ty.components]))).trans toTop)
  | array aLen bLen aStride bStride elem =>
    exact .array _ _ _ _ (keeps _ (by simp [Ty.components]) _ (by simp [Ty.components]) _
      (by simp [Ty.components]) elem)
  | struct both first second =>
    refine .struct (fun off f g inA inB => ?_) first second
    obtain ⟨h, found, joined⟩ := both off f g inA inB
    exact ⟨h, found, keeps _ (field_mem_components (BTreeMap.mem_of_get? inA)) _
      (field_mem_components (BTreeMap.mem_of_get? inB)) _
      (field_mem_components (BTreeMap.mem_of_get? found)) joined⟩
  | function aRet bRet aVar bVar _ sameArity => exact .function _ _ _ _ _ sameArity
  | top apart => exact .top apart

theorem Merged.extends (looksInside : LooksInside head) {arena' : TypeArena}
    (wellFormed : arena.WellFormed) (keeps : arena.Extends arena') (fuel : Nat) :
    ∀ {a b id : TypeId}, arena.Present a → arena.Present b → arena.Present id →
      Merged head pick arena fuel a b id → Merged head pick arena' fuel a b id := by
  induction fuel with
  | zero => exact fun _ _ _ none => none
  | succ fuel ih =>
    intro a b id aPresent bPresent idPresent merged
    have forward := Below.extends wellFormed keeps aPresent bPresent
    have backward := Below.extends wellFormed keeps bPresent aPresent
    unfold Merged at merged ⊢
    rw [forward, backward, keeps.get aPresent, keeps.get bPresent, keeps.get idPresent]
    refine merged.imp_right (Or.imp_right fun made => ⟨made.1, made.2.1, ?_⟩)
    refine looksInside keeps (fun c => wellFormed.component_present) ?_ made.2.2
    intro x inA y inB z inId inner
    exact ih (wellFormed.component_present inA)
      (wellFormed.component_present inB) (wellFormed.component_present inId) inner

/-! ## Runs -/

theorem get_intern (wellFormed : arena.WellFormed) (ty : Ty) :
    (arena.intern ty).1.get (arena.intern ty).2 = ty := by
  unfold TypeArena.intern
  split
  · rename_i idx found
    exact TypeArena.get_of_getElem? (wellFormed.indexed ty idx found)
  · exact TypeArena.get_of_getElem? (by simp)

theorem below_top (isTop : arena.get sup = .top) : Below arena sub sup :=
  below_of_isSubtype (isSubtype_top isTop 0 sub)

theorem below_bottom (wellFormed : arena.WellFormed)
    (isBottom : arena.get sub = .bottom) : Below arena sub sup :=
  below_of_head wellFormed (by rw [isBottom]; exact .bottom _)

theorem follows_cases
    {merge inner meets : Nat → TypeArena → TypeId → TypeId → Option (TypeArena × TypeId)}
    {first second : TypeId} {plan : MergePlan}
    (follows : Follows merge inner meets arena a b first second plan)
    (found : merge (fuel + 1) arena a b = some result) :
    (Below arena a b ∧ result = (arena, first)) ∨
      (¬ Below arena a b ∧ Below arena b a ∧ result = (arena, second)) ∨
        (¬ Below arena a b ∧ ¬ Below arena b a ∧
          carryOut (inner fuel) (meets fuel) arena plan = some result) := by
  rw [follows] at found
  obtain ⟨below, compared, found⟩ := bind_eq_some_iff.mp found
  cases below with
  | true => exact Or.inl ⟨below_of_isSubtype compared, (some.inj found).symm⟩
  | false =>
    obtain ⟨above, comparedBack, found⟩ := bind_eq_some_iff.mp found
    have notBelow := not_below_of_isSubtype compared
    cases above with
    | true =>
      exact Or.inr (Or.inl ⟨notBelow, below_of_isSubtype comparedBack, (some.inj found).symm⟩)
    | false =>
      exact Or.inr (Or.inr ⟨notBelow, not_below_of_isSubtype comparedBack, found⟩)

theorem floats_comparable (wellFormed : arena.WellFormed)
    {aBits bBits : Nat} (aFloat : arena.get a = .float aBits) (bFloat : arena.get b = .float bBits) :
    Below arena a b ∨ Below arena b a := by
  rcases Nat.le_total aBits bBits with narrower | wider
  · exact Or.inl (below_of_head wellFormed (by rw [aFloat, bFloat]; exact .float narrower))
  · exact Or.inr (below_of_head wellFormed (by rw [aFloat, bFloat]; exact .float wider))

/-- What a run of a merge gives. -/
structure MergeSpec (head : TypeArena → (TypeId → TypeId → TypeId → Prop) → Ty → Ty → Ty → Prop)
    (pick : TypeId → TypeId → TypeId) (fuel : Nat) (arena : TypeArena) (a b : TypeId)
    (result : TypeArena × TypeId) : Prop where
  grows : arena.Grows result
  merged : Merged head pick result.1 fuel a b result.2

theorem MergeSpec.of_intern {next : TypeArena} {ty : Ty}
    (looksInside : LooksInside head) (built : arena.Built) (nextBuilt : next.Built)
    (keeps : arena.Extends next)
    (aPresent : arena.Present a) (bPresent : arena.Present b) (notBelow : ¬ Below arena a b)
    (notAbove : ¬ Below arena b a) (parts : ∀ part ∈ ty.components, next.Present part)
    (made : head next (Merged head pick next fuel) (arena.get a) (arena.get b) ty) :
    MergeSpec head pick (fuel + 1) arena a b (next.intern ty) := by
  have grown := nextBuilt.grows_intern parts
  have whole := keeps.trans grown.keeps
  refine ⟨⟨grown.built, whole, grown.present⟩, Or.inr (Or.inr ⟨?_, ?_, ?_⟩)⟩
  · rw [Below.extends built.wellFormed whole aPresent bPresent]
    exact notBelow
  · rw [Below.extends built.wellFormed whole bPresent aPresent]
    exact notAbove
  · rw [whole.get aPresent, whole.get bPresent, get_intern nextBuilt.wellFormed]
    refine looksInside grown.keeps parts (fun x inA y inB z inTy inner => ?_) made
    exact inner.extends looksInside nextBuilt.wellFormed grown.keeps fuel
      (keeps.present (built.wellFormed.component_present inA))
      (keeps.present (built.wellFormed.component_present inB)) (parts z inTy)

theorem MergeSpec.of_existing {id : TypeId}
    (built : arena.Built) (present : arena.Present id) (notBelow : ¬ Below arena a b)
    (notAbove : ¬ Below arena b a)
    (made : head arena (Merged head pick arena fuel) (arena.get a) (arena.get b) (arena.get id)) :
    MergeSpec head pick (fuel + 1) arena a b (arena, id) :=
  ⟨built.grows_self present, Or.inr (Or.inr ⟨notBelow, notAbove, made⟩)⟩

theorem MergeSpec.of_comparable {id : TypeId} (built : arena.Built) (present : arena.Present id)
    (compared : (Below arena a b ∧ id = pick a b) ∨
      (¬ Below arena a b ∧ Below arena b a ∧ id = pick b a)) :
    MergeSpec head pick (fuel + 1) arena a b (arena, id) :=
  ⟨built.grows_self present, compared.elim Or.inl fun above => Or.inr (Or.inl above)⟩

abbrev MeetSpec := MergeSpec MeetHead fun a _ => a

abbrev JoinSpec := MergeSpec JoinHead fun _ b => b

theorem meet_spec (fuel : Nat) : ∀ {arena : TypeArena} {a b : TypeId} {result : TypeArena × TypeId},
    arena.Built → arena.Present a → arena.Present b → meet fuel arena a b = some result →
      MeetSpec fuel arena a b result := by
  induction fuel with
  | zero =>
    intro arena a b result _ _ _ found
    cases found
  | succ fuel ih =>
    intro arena a b result built aPresent bPresent found
    have wellFormed := built.wellFormed
    rcases follows_cases (meet_follows arena a b) found with
      ⟨below, rfl⟩ | ⟨notBelow, above, rfl⟩ | ⟨notBelow, notAbove, carried⟩
    · exact .of_comparable built aPresent (Or.inl ⟨below, rfl⟩)
    · exact .of_comparable built bPresent (Or.inr ⟨notBelow, above, rfl⟩)
    have bottomPresent := TypeArena.present_of_getElem? wellFormed.bottom
    have isBottom : arena.get arena.bottom = .bottom := TypeArena.get_of_getElem? wellFormed.bottom
    unfold meetPlan at carried
    split at carried
    · exact absurd (below_top ‹arena.get a = .top›) notAbove
    · exact absurd (below_top ‹arena.get b = .top›) notBelow
    · exact absurd (below_bottom wellFormed ‹arena.get a = .bottom›) notBelow
    · exact absurd (below_bottom wellFormed ‹arena.get b = .bottom›) notAbove
    · rename_i aBits aSign bBits bSign aInt bInt
      cases carried
      refine .of_intern meetHead_looksInside built built (.refl _) aPresent bPresent notBelow
        notAbove (by simp [Ty.components]) ?_
      rw [aInt, bInt]
      exact .int _ _ _ _
    · rename_i aInner bInner aPtr bPtr
      obtain ⟨mid, inner, rest⟩ := bind_eq_some_iff.mp carried
      cases rest
      have innerSpec := ih built
        (wellFormed.part_present aPtr (by simp [Ty.components]))
        (wellFormed.part_present bPtr (by simp [Ty.components])) inner
      refine .of_intern meetHead_looksInside built innerSpec.grows.built innerSpec.grows.keeps
        aPresent bPresent notBelow notAbove ?_ ?_
      · simpa [Ty.components] using innerSpec.grows.present
      · rw [aPtr, bPtr]
        exact .ptr innerSpec.merged
    · rename_i aFloat bFloat
      exact ((floats_comparable wellFormed aFloat bFloat).elim notBelow notAbove).elim
    · obtain rfl := some.inj carried
      refine .of_existing built bottomPresent notBelow notAbove ?_
      rw [isBottom]
      refine .bottom ?_
      unfold meetsInside
      split <;> first | rfl | (exfalso; solve_by_elim)

/-- What the loop over the first structure's fields leaves. -/
structure FieldsJoined (fuel : Nat) (bFields : BTreeMap Nat StructField)
    (entries : List (Nat × StructField)) (arena : TypeArena) (merged : BTreeMap Nat StructField)
    (state : TypeArena × BTreeMap Nat StructField) : Prop where
  built : state.1.Built
  keeps : arena.Extends state.1
  present : FieldsPresent state.1 state.2
  others : ∀ off, (∀ entry ∈ entries, entry.1 ≠ off) → state.2.get? off = merged.get? off
  joined : ∀ entry ∈ entries, ∃ field, state.2.get? entry.1 = some field ∧
    (∀ bField, bFields.get? entry.1 = some bField →
      Merged JoinHead (fun _ b => b) state.1 fuel entry.2.ty bField.ty field.ty) ∧
    (bFields.get? entry.1 = none → field = entry.2)

/-- The join of smaller ids does what it should. -/
def JoinsRightly (fuel : Nat) : Prop :=
  ∀ {arena : TypeArena} {a b : TypeId} {result : TypeArena × TypeId}, arena.Built →
    arena.Present a → arena.Present b → join fuel arena a b = some result →
      JoinSpec fuel arena a b result

private theorem joinFields_spec (smaller : JoinsRightly fuel)
    {bFields : BTreeMap Nat StructField} {merged : BTreeMap Nat StructField}
    {entry : Nat × StructField} {state : TypeArena × BTreeMap Nat StructField}
    (built : arena.Built) (present : FieldsPresent arena merged)
    (entryPresent : arena.Present entry.2.ty) (bPresent : FieldsPresent arena bFields)
    (step : joinFields (join fuel) bFields (arena, merged) entry = some state) :
    FieldsJoined fuel bFields [entry] arena merged state := by
  unfold joinFields at step
  cases inB : bFields.get? entry.1 with
  | none =>
    rw [inB] at step
    cases step
    refine ⟨built, .refl _, present.insert entry.1 entryPresent, fun off others => ?_,
      fun other mem => ?_⟩
    · have differ : off ≠ entry.1 := (others entry mem_cons_self).symm
      simp [BTreeMap.get?_insert, differ]
    · obtain rfl := mem_singleton.mp mem
      refine ⟨other.2, by simp [BTreeMap.get?_insert], fun bField found => ?_, fun _ => rfl⟩
      rw [inB] at found
      cases found
  | some bField =>
    rw [inB] at step
    obtain ⟨mid, inner, rest⟩ := bind_eq_some_iff.mp step
    cases rest
    have innerSpec := smaller built entryPresent (bPresent _ (BTreeMap.mem_of_get? inB)) inner
    have midPresent : FieldsPresent mid.1
        (merged.insert entry.1 ⟨entry.2.name.or bField.name, mid.2⟩) :=
      (present.extends innerSpec.grows.keeps).insert entry.1 innerSpec.grows.present
    refine ⟨innerSpec.grows.built, innerSpec.grows.keeps, midPresent, fun off others => ?_,
      fun other mem => ?_⟩
    · have differ : off ≠ entry.1 := (others entry mem_cons_self).symm
      simp [BTreeMap.get?_insert, differ]
    · obtain rfl := mem_singleton.mp mem
      refine ⟨_, by rw [BTreeMap.get?_insert, if_pos rfl], fun bField' found => ?_, fun none => ?_⟩
      · obtain rfl := some.inj (inB.symm.trans found)
        exact innerSpec.merged
      · rw [none] at inB
        cases inB

private theorem foldlM_joinFields_spec (smaller : JoinsRightly fuel)
    {bFields : BTreeMap Nat StructField} {entries : List (Nat × StructField)} :
    entries.Pairwise (·.1 < ·.1) →
    ∀ {arena : TypeArena} {merged : BTreeMap Nat StructField}
      {state : TypeArena × BTreeMap Nat StructField}, arena.Built → FieldsPresent arena merged →
      (∀ entry ∈ entries, arena.Present entry.2.ty) → FieldsPresent arena bFields →
      entries.foldlM (joinFields (join fuel) bFields) (arena, merged) = some state →
      FieldsJoined fuel bFields entries arena merged state := by
  induction entries with
  | nil =>
    intro _ arena merged state built present _ _ run
    cases run
    exact ⟨built, .refl _, present, fun _ _ => rfl, by simp⟩
  | cons entry rest ih =>
    intro sorted arena merged state built present added bPresent run
    obtain ⟨firstBelow, restSorted⟩ := pairwise_cons.mp sorted
    obtain ⟨entryPresent, restPresent⟩ := forall_mem_cons.mp added
    obtain ⟨mid, step, later⟩ := bind_eq_some_iff.mp run
    have first := joinFields_spec smaller built present entryPresent bPresent step
    have final := ih restSorted first.built first.present
      (fun other mem => first.keeps.present (restPresent other mem))
      (bPresent.extends first.keeps) later
    refine ⟨final.built, first.keeps.trans final.keeps, final.present, fun off others => ?_,
      fun other mem => ?_⟩
    · obtain ⟨notFirst, notRest⟩ := forall_mem_cons.mp others
      rw [final.others off notRest, first.others off (by simpa using notFirst)]
    · rcases mem_cons.mp mem with rfl | inRest
      · obtain ⟨field, found, both, alone⟩ := first.joined other mem_cons_self
        refine ⟨field, ?_, fun bField inB => ?_, alone⟩
        · rw [final.others other.1 fun later inRest => (ne_of_lt (firstBelow later inRest)).symm]
          exact found
        · exact (both bField inB).extends joinHead_looksInside first.built.wellFormed final.keeps
            fuel (first.keeps.present entryPresent)
            (first.keeps.present (bPresent _ (BTreeMap.mem_of_get? inB)))
            (first.present _ (BTreeMap.mem_of_get? found))
      · exact final.joined other inRest

private theorem join_structs_spec (smaller : JoinsRightly fuel) {aShape bShape : StructShape}
    (built : arena.Built) (aPresent : arena.Present a) (bPresent : arena.Present b)
    (notBelow : ¬ Below arena a b) (notAbove : ¬ Below arena b a)
    (aStruct : arena.get a = .struct aShape) (bStruct : arena.get b = .struct bShape)
    (carried : carryOut (join fuel) (meet fuel) arena (.struct aShape bShape) = some result) :
    JoinSpec (fuel + 1) arena a b result := by
  obtain ⟨⟨next, merged⟩, run, rest⟩ := bind_eq_some_iff.mp carried
  cases rest
  have aFields : FieldsPresent arena aShape.fields := fun entry mem =>
    built.wellFormed.part_present aStruct (field_mem_components mem)
  have bFields : FieldsPresent arena bShape.fields := fun entry mem =>
    built.wellFormed.part_present bStruct (field_mem_components mem)
  have noFields : FieldsPresent arena .empty := by simp [FieldsPresent, BTreeMap.empty]
  have loop := foldlM_joinFields_spec smaller aShape.fields.sorted built noFields aFields bFields run
  have fieldsPresent := loop.present.foldl_orInsert fun entry mem =>
    loop.keeps.present (bFields entry mem)
  refine .of_intern joinHead_looksInside built loop.built loop.keeps aPresent bPresent notBelow
    notAbove (fun part component => ?_) ?_
  · obtain ⟨entry, mem, rfl⟩ := mem_map.mp component
    exact fieldsPresent entry mem
  · rw [aStruct, bStruct]
    -- A field of the result is the loop's, or else the second structure's.
    have fields : ∀ off, (bShape.fields.entries.foldl
        (fun merged entry => merged.orInsert entry.1 entry.2) merged).get? off =
          (merged.get? off).or (bShape.fields.get? off) := fun off =>
      BTreeMap.get?_foldl_orInsert bShape.fields.entries off merged
    refine .struct (fun off f g inA inB => ?_) (fun off f inA notB => ?_) fun off notA => ?_
    · obtain ⟨h, found, both, _⟩ := loop.joined (off, f) (BTreeMap.mem_of_get? inA)
      refine ⟨h, ?_, both g inB⟩
      rw [fields, found]
      rfl
    · obtain ⟨h, found, _, alone⟩ := loop.joined (off, f) (BTreeMap.mem_of_get? inA)
      rw [fields, found, alone notB]
      rfl
    · have untouched : merged.get? off = none := by
        refine (loop.others off fun entry mem same => ?_).trans rfl
        have found := BTreeMap.get?_of_mem (k := entry.1) (v := entry.2) mem
        rw [same, notA] at found
        cases found
      rw [fields, untouched]
      rfl

private theorem foldlM_meetParams_grows {pairs : List (TypeId × TypeId)} :
    ∀ {arena : TypeArena} {params : List TypeId} {state : TypeArena × List TypeId}, arena.Built →
      (∀ param ∈ params, arena.Present param) →
      (∀ pair ∈ pairs, arena.Present pair.1 ∧ arena.Present pair.2) →
      pairs.foldlM (meetParams (meet fuel)) (arena, params) = some state →
      state.1.Built ∧ arena.Extends state.1 ∧ ∀ param ∈ state.2, state.1.Present param := by
  induction pairs with
  | nil =>
    intro arena params state built present _ run
    cases run
    exact ⟨built, .refl _, present⟩
  | cons pair rest ih =>
    intro arena params state built present added run
    obtain ⟨pairPresent, restPresent⟩ := forall_mem_cons.mp added
    obtain ⟨mid, step, later⟩ := bind_eq_some_iff.mp run
    obtain ⟨result, met, rfl⟩ : ∃ result, meet fuel arena pair.1 pair.2 = some result ∧
        (result.1, params ++ [result.2]) = mid := by
      obtain ⟨result, met, same⟩ := bind_eq_some_iff.mp step
      exact ⟨result, met, some.inj same⟩
    have grows := (meet_spec fuel built pairPresent.1 pairPresent.2 met).grows
    have nextPresent : ∀ param ∈ params ++ [result.2], result.1.Present param := by
      intro param mem
      rcases mem_append.mp mem with old | new
      · exact grows.keeps.present (present param old)
      · rw [mem_singleton.mp new]
        exact grows.present
    obtain ⟨stateBuilt, stateKeeps, statePresent⟩ :=
      ih grows.built nextPresent
        (fun other mem => (restPresent other mem).imp grows.keeps.present grows.keeps.present)
        later
    exact ⟨stateBuilt, grows.keeps.trans stateKeeps, statePresent⟩

private theorem join_functions_spec (smaller : JoinsRightly fuel)
    {aParams bParams : List TypeId} {aRet bRet : TypeId} {aVar bVar variadic : Bool}
    (built : arena.Built) (aPresent : arena.Present a)
    (bPresent : arena.Present b) (notBelow : ¬ Below arena a b) (notAbove : ¬ Below arena b a)
    (aFunction : arena.get a = .function aParams aRet aVar)
    (bFunction : arena.get b = .function bParams bRet bVar)
    (sameArity : aParams.length = bParams.length)
    (carried : carryOut (join fuel) (meet fuel) arena
      (.function (aParams.zip bParams) aRet bRet variadic) = some result) :
    JoinSpec (fuel + 1) arena a b result := by
  have wellFormed := built.wellFormed
  obtain ⟨⟨next, params⟩, run, rest⟩ := bind_eq_some_iff.mp carried
  obtain ⟨mid, ret, rest⟩ := bind_eq_some_iff.mp rest
  cases rest
  obtain ⟨nextBuilt, nextKeeps, paramsPresent⟩ :=
    foldlM_meetParams_grows built (by simp) (fun pair mem => by
      obtain ⟨inA, inB⟩ := of_mem_zip mem
      exact ⟨wellFormed.part_present aFunction (mem_append_left _ inA),
        wellFormed.part_present bFunction (mem_append_left _ inB)⟩) run
  have retSpec := smaller nextBuilt
    (nextKeeps.present (wellFormed.part_present aFunction (by simp [Ty.components])))
    (nextKeeps.present (wellFormed.part_present bFunction (by simp [Ty.components]))) ret
  refine .of_intern joinHead_looksInside built retSpec.grows.built
    (nextKeeps.trans retSpec.grows.keeps) aPresent bPresent notBelow notAbove ?_ ?_
  · intro part component
    rcases mem_append.mp component with param | isRet
    · exact retSpec.grows.keeps.present (paramsPresent part param)
    · rw [mem_singleton.mp isRet]
      exact retSpec.grows.present
  · rw [aFunction, bFunction]
    exact .function _ _ _ _ _ sameArity

theorem join_spec (fuel : Nat) : JoinsRightly fuel := by
  induction fuel with
  | zero =>
    intro arena a b result _ _ _ found
    cases found
  | succ fuel ih =>
    intro arena a b result built aPresent bPresent found
    have wellFormed := built.wellFormed
    rcases follows_cases (join_follows arena a b) found with
      ⟨below, rfl⟩ | ⟨notBelow, above, rfl⟩ | ⟨notBelow, notAbove, carried⟩
    · exact .of_comparable built bPresent (Or.inl ⟨below, rfl⟩)
    · exact .of_comparable built aPresent (Or.inr ⟨notBelow, above, rfl⟩)
    have topPresent := TypeArena.present_of_getElem? wellFormed.top
    have isTop : arena.get arena.top = .top := TypeArena.get_of_getElem? wellFormed.top
    have notSame : arena.get a ≠ arena.get b := fun same =>
      notBelow (eq_of_get_eq built aPresent bPresent same ▸ Below.refl arena a)
    -- Below `Top` a join answers `Top`.
    have withTop : ∀ {inner : TypeId} {result : TypeArena × TypeId},
        join fuel arena inner arena.top = some result → result = (arena, arena.top) := by
      intro inner result found
      cases fuel with
      | zero => cases found
      | succ fuel =>
        rcases follows_cases (join_follows arena inner arena.top) found with
          ⟨_, rfl⟩ | ⟨notTop, _⟩ | ⟨notTop, _⟩
        · rfl
        · exact absurd (below_top isTop) notTop
        · exact absurd (below_top isTop) notTop
    have interned : ∀ {next : TypeArena} {ty : Ty}, next.Built → arena.Extends next →
        (∀ part ∈ ty.components, next.Present part) →
        JoinHead next (Merged JoinHead (fun _ b => b) next fuel) (arena.get a) (arena.get b) ty →
          JoinSpec (fuel + 1) arena a b (next.intern ty) := fun nextBuilt keeps =>
      .of_intern joinHead_looksInside built nextBuilt keeps aPresent bPresent notBelow notAbove
    have alone {ty : Ty} (noParts : ty.components = []) := @interned arena ty built (.refl _)
      (by simp [noParts])
    have atTop : joinsInside (arena.get a) (arena.get b) = false →
        JoinSpec (fuel + 1) arena a b (arena, arena.top) := fun apart =>
      .of_existing built topPresent notBelow notAbove (by rw [isTop]; exact .top apart)
    unfold joinPlan at carried
    split at carried
    · exact absurd (below_bottom wellFormed ‹arena.get a = .bottom›) notBelow
    · exact absurd (below_bottom wellFormed ‹arena.get b = .bottom›) notAbove
    · exact absurd (below_top ‹arena.get a = .top›) notAbove
    · exact absurd (below_top ‹arena.get b = .top›) notBelow
    · rename_i aBool bBool
      exact absurd (aBool.trans bBool.symm) notSame
    · rename_i aInt bInt
      cases carried
      exact alone rfl (by rw [aInt, bInt]; exact .int _ _ _ _)
    · rename_i aBool bInt
      cases carried
      exact alone rfl (by rw [aBool, bInt]; exact .boolInt _ _)
    · rename_i aInt bBool
      cases carried
      exact alone rfl (by rw [aInt, bBool]; exact .intBool _ _)
    · rename_i aFloat bFloat
      exact ((floats_comparable wellFormed aFloat bFloat).elim notBelow notAbove).elim
    · rename_i aPtr bPtr
      obtain ⟨mid, inner, rest⟩ := bind_eq_some_iff.mp carried
      cases rest
      have innerSpec := ih built
        (wellFormed.part_present aPtr (by simp [Ty.components]))
        (wellFormed.part_present bPtr (by simp [Ty.components])) inner
      exact interned innerSpec.grows.built innerSpec.grows.keeps
        (by simpa [Ty.components] using innerSpec.grows.present)
        (by rw [aPtr, bPtr]; exact .ptr innerSpec.merged)
    · rename_i aPtr bInt
      obtain ⟨mid, inner, rest⟩ := bind_eq_some_iff.mp carried
      cases rest
      obtain rfl := withTop inner
      exact interned built (.refl _) (by simpa [Ty.components] using topPresent)
        (by rw [aPtr, bInt]; exact .ptrInt _ _ _ isTop)
    · rename_i aInt bPtr
      obtain ⟨mid, inner, rest⟩ := bind_eq_some_iff.mp carried
      cases rest
      obtain rfl := withTop inner
      exact interned built (.refl _) (by simpa [Ty.components] using topPresent)
        (by rw [aInt, bPtr]; exact .intPtr _ _ _ isTop)
    · rename_i aArray bArray
      obtain ⟨mid, inner, rest⟩ := bind_eq_some_iff.mp carried
      cases rest
      have innerSpec := ih built
        (wellFormed.part_present aArray (by simp [Ty.components]))
        (wellFormed.part_present bArray (by simp [Ty.components])) inner
      exact interned innerSpec.grows.built innerSpec.grows.keeps
        (by simpa [Ty.components] using innerSpec.grows.present)
        (by rw [aArray, bArray]; exact .array _ _ _ _ innerSpec.merged)
    · rename_i aStruct bStruct
      exact join_structs_spec ih built aPresent bPresent notBelow notAbove aStruct bStruct carried
    · rename_i aParams aRet aVar bParams bRet bVar aFunction bFunction
      split at carried
      · rename_i sameArity
        exact join_functions_spec ih built aPresent bPresent notBelow notAbove
          aFunction bFunction sameArity carried
      · rename_i differ
        cases carried
        exact atTop (by rw [aFunction, bFunction]; simpa [joinsInside] using differ)
    · rename_i aAlias bAlias
      split at carried
      · rename_i sameName
        exact absurd (by rw [aAlias, bAlias, sameName]) notSame
      · obtain rfl := some.inj carried
        exact atTop (by rw [aAlias, bAlias]; rfl)
    · obtain rfl := some.inj carried
      refine atTop ?_
      -- The plan has a case of its own for each pair that joins inside.
      unfold joinsInside
      split <;> first | rfl | (exfalso; solve_by_elim)

end TypeLattice

end R2Sleigh.Types
