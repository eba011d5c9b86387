import R2Sleigh.Types.Offers

/-!
Contract: the type that a user gives to a class of variables.

Owns `Absorbed` and `Widens`.
-/

namespace R2Sleigh.Types

open Lib Ssa TypeLattice List Option SolverState

variable {arena : TypeArena} {ty joined wide other met : TypeId}

/-- The type is the other one, or strictly below it. -/
def Absorbed (arena : TypeArena) (ty upper : TypeId) : Prop :=
  ty = upper ∨ (Below arena ty upper ∧ ¬ Below arena upper ty)

/-- A merge computed in either order. -/
def JoinsTo (arena : TypeArena) (a b ty : TypeId) : Prop :=
  ∃ fuel, Merged JoinHead (fun _ b => b) arena fuel a b ty ∨
    Merged JoinHead (fun _ b => b) arena fuel b a ty

theorem JoinsTo.cases {a b : TypeId} (joins : JoinsTo arena a b ty)
    (notBelow : ¬ Below arena b a) : (Below arena a b ∧ ty = b) ∨ ∃ fuel,
      JoinHead arena (Merged JoinHead (fun _ b => b) arena fuel) (arena.get a) (arena.get b)
          (arena.get ty) ∨
        JoinHead arena (Merged JoinHead (fun _ b => b) arena fuel) (arena.get b) (arena.get a)
          (arena.get ty) := by
  obtain ⟨fuel, sameOrder | otherOrder⟩ := joins
  · cases fuel with
    | zero => exact sameOrder.elim
    | succ fuel =>
      rcases sameOrder with ⟨below, picked⟩ | ⟨_, above, _⟩ | ⟨_, _, head⟩
      · exact .inl ⟨below, picked⟩
      · exact absurd above notBelow
      · exact .inr ⟨fuel, .inl head⟩
  · cases fuel with
    | zero => exact otherOrder.elim
    | succ fuel =>
      rcases otherOrder with ⟨above, _⟩ | ⟨_, below, picked⟩ | ⟨_, _, head⟩
      · exact absurd above notBelow
      · exact .inl ⟨below, picked⟩
      · exact .inr ⟨fuel, .inr head⟩

theorem Absorbed.extends_iff {arena' : TypeArena} {upper : TypeId}
    (wellFormed : arena.WellFormed) (keeps : arena.Extends arena') (tyPresent : arena.Present ty)
    (upperPresent : arena.Present upper) :
    Absorbed arena' ty upper ↔ Absorbed arena ty upper := by
  rw [Absorbed, Absorbed, Below.extends wellFormed keeps tyPresent upperPresent,
    Below.extends wellFormed keeps upperPresent tyPresent]

theorem Absorbed.join {upper : TypeId}
    (absorbed : Absorbed arena ty upper) (joins : JoinedAs arena upper ty joined) :
    joined = upper := by
  obtain ⟨_, _, _, fuel, merged⟩ := joins
  cases fuel with
  | zero => exact merged.elim False.elim False.elim
  | succ fuel =>
    rcases absorbed with rfl | ⟨below, notAbove⟩
    · have same := Below.refl arena ty
      rcases merged with merged | merged <;> rcases merged with ⟨_, picked⟩ | ⟨not, _⟩ | ⟨not, _⟩
      · exact picked
      · exact absurd same not
      · exact absurd same not
      · exact picked
      · exact absurd same not
      · exact absurd same not
    · rcases merged with merged | merged
      · rcases merged with ⟨above, _⟩ | ⟨_, _, picked⟩ | ⟨_, notBelow, _⟩
        · exact absurd above notAbove
        · exact picked
        · exact absurd below notBelow
      · rcases merged with ⟨_, picked⟩ | ⟨notBelow, _⟩ | ⟨notBelow, _⟩
        · exact picked
        · exact absurd below notBelow
        · exact absurd below notBelow

/-! ## Widened integers -/

/-- An integer with a sign, or a pointer to one, against the same without a sign. -/
inductive Widens (arena : TypeArena) : TypeId → TypeId → Prop
  | int {ty wide : TypeId} {bits : Nat} {sign : Signedness} (isInt : arena.get ty = .int bits sign)
      (signed : sign ≠ .unknown) (isWide : arena.get wide = .int bits .unknown) : Widens arena ty wide
  | ptr {ty wide inner wideInner : TypeId} (isPtr : arena.get ty = .ptr inner)
      (isWide : arena.get wide = .ptr wideInner) (inside : Widens arena inner wideInner) :
      Widens arena ty wide

section Widening

variable {arena : TypeArena}

theorem present_of_get_ne_top {id : TypeId} (notTop : arena.get id ≠ .top) : arena.Present id := by
  by_contra absent
  exact notTop (TypeArena.get_of_not_present absent)

theorem Widens.extends {arena' : TypeArena} (keeps : arena.Extends arena')
    (widens : Widens arena ty wide) : Widens arena' ty wide := by
  have get : ∀ {id : TypeId} {x : Ty}, arena.get id = x → x ≠ .top → arena'.get id = x :=
    fun is notTop => (keeps.get (present_of_get_ne_top (is ▸ notTop))).trans is
  induction widens with
  | int isInt signed isWide => exact .int (get isInt nofun) signed (get isWide nofun)
  | ptr isPtr isWide _ inside => exact .ptr (get isPtr nofun) (get isWide nofun) inside

theorem Widens.strict (wellFormed : arena.WellFormed) (widens : Widens arena ty wide) :
    Below arena ty wide ∧ ¬ Below arena wide ty := by
  induction widens with
  | @int ty wide bits sign isInt signed isWide =>
    rw [below_int_iff wellFormed isInt isWide, below_int_iff wellFormed isWide isInt]
    cases sign with
    | unknown => exact absurd rfl signed
    | signed | unsigned => simp [signBelow]
  | ptr isPtr isWide _ inside =>
    rw [below_ptr_iff wellFormed isPtr isWide, below_ptr_iff wellFormed isWide isPtr]
    exact inside

theorem Widens.present (widens : Widens arena ty wide) :
    arena.Present ty ∧ arena.Present wide := by
  cases widens with
  | int isInt _ isWide =>
    exact ⟨present_of_get_ne_top (isInt ▸ nofun), present_of_get_ne_top (isWide ▸ nofun)⟩
  | ptr isPtr isWide _ =>
    exact ⟨present_of_get_ne_top (isPtr ▸ nofun), present_of_get_ne_top (isWide ▸ nofun)⟩

/-- Nothing else is a subtype of a widened type in both directions. -/
theorem Widens.eq_of_mutual (built : arena.Built)
    (widens : Widens arena ty wide) (below : Below arena other wide) (above : Below arena wide other) :
    other = wide := by
  have wellFormed := built.wellFormed
  induction widens generalizing other with
  | @int ty wide bits sign _ _ isWide =>
    rcases (below_iff wellFormed).mp below with same | head
    · exact same
    rcases (below_iff wellFormed).mp above with same | back
    · exact same.symm
    rw [isWide] at head back
    generalize isOther : arena.get other = x at head back
    cases head with
    | bottom | bool => cases back
    | @int _ _ otherSign _ narrower _ =>
      cases back with
      | int wider signs =>
        obtain rfl := Nat.le_antisymm narrower wider
        have unknown : otherSign = .unknown := by
          cases otherSign <;> first | rfl | cases signs
        rw [unknown] at isOther
        exact eq_of_get_eq built (present_of_get_ne_top (isOther ▸ nofun))
          (present_of_get_ne_top (isWide ▸ nofun)) (isOther.trans isWide.symm)
  | ptr _ isWide _ inside =>
    rcases (below_iff wellFormed).mp below with same | head
    · exact same
    rcases (below_iff wellFormed).mp above with same | back
    · exact same.symm
    rw [isWide] at head back
    generalize isOther : arena.get other = x at head back
    cases head with
    | bottom _ => cases back
    | ptr inner =>
      cases back with
      | ptr outer =>
        rw [inside inner outer] at isOther
        exact eq_of_get_eq built (present_of_get_ne_top (isOther ▸ nofun))
          (present_of_get_ne_top (isWide ▸ nofun)) (isOther.trans isWide.symm)

theorem meetHead_either {meets : TypeId → TypeId → TypeId → Prop} {x y z : Ty}
    (head : MeetHead arena meets x y z ∨ MeetHead arena meets y x z) :
    MeetHead arena (fun a b c => meets a b c ∨ meets b a c) x y z := by
  rcases head with head | head
  · cases head with
    | int => exact .int _ _ _ _
    | ptr inner => exact .ptr (.inl inner)
    | bottom apart => exact .bottom apart
  · cases head with
    | int =>
      rw [Nat.min_comm, mergeSign_comm]
      exact .int _ _ _ _
    | ptr inner => exact .ptr (.inr inner)
    | bottom apart => exact .bottom (by cases x <;> cases y <;> first | rfl | cases apart)

/-- A meet in either order is below a type, or one step makes it of the two. -/
theorem meets_cases {fuel : Nat}
    (merged : Merged MeetHead (fun a _ => a) arena fuel ty other met ∨
      Merged MeetHead (fun a _ => a) arena fuel other ty met) :
    Below arena met ty ∨ ∃ fuel, MeetHead arena
      (fun a b c => Merged MeetHead (fun a _ => a) arena fuel a b c ∨
        Merged MeetHead (fun a _ => a) arena fuel b a c)
      (arena.get ty) (arena.get other) (arena.get met) := by
  cases fuel with
  | zero => exact merged.elim False.elim False.elim
  | succ fuel =>
    rcases merged with merged | merged
    · rcases merged with ⟨_, rfl⟩ | ⟨_, below, rfl⟩ | ⟨_, _, head⟩
      · exact .inl (Below.refl arena _)
      · exact .inl below
      · exact .inr ⟨fuel, meetHead_either (.inl head)⟩
    · rcases merged with ⟨below, rfl⟩ | ⟨_, _, rfl⟩ | ⟨_, _, head⟩
      · exact .inl below
      · exact .inl (Below.refl arena _)
      · exact .inr ⟨fuel, meetHead_either (.inr head)⟩

section

variable (wellFormed : arena.WellFormed)
include wellFormed

private theorem Widens.meet_below (widens : Widens arena ty wide) : ∀ {fuel : Nat},
    (Merged MeetHead (fun a _ => a) arena fuel wide other met ∨
      Merged MeetHead (fun a _ => a) arena fuel other wide met) → Below arena met wide := by
  induction widens generalizing other met with
  | int _ _ isWide =>
    intro fuel merged
    rcases meets_cases merged with below | ⟨_, head⟩
    · exact below
    rw [isWide] at head
    generalize arena.get other = y at head
    generalize isMet : arena.get met = z at head
    cases head with
    | int _ _ _ otherSign =>
      have unknown : mergeSign .unknown otherSign = .unknown := by cases otherSign <;> rfl
      rw [unknown] at isMet
      exact (below_int_iff wellFormed isMet isWide).mpr ⟨min_le_left _ _, rfl⟩
    | bottom _ => exact below_bottom wellFormed isMet
  | ptr _ isWide _ inside =>
    intro fuel merged
    rcases meets_cases merged with below | ⟨_, head⟩
    · exact below
    rw [isWide] at head
    generalize arena.get other = y at head
    generalize isMet : arena.get met = z at head
    cases head with
    | ptr inner => exact (below_ptr_iff wellFormed isMet isWide).mpr (inside inner)
    | bottom _ => exact below_bottom wellFormed isMet

/-- An integer joined with one that is at most as wide, and not below it. -/
theorem widens_of_int {bits metBits : Nat}
    {sign metSign otherSign : Signedness} (isInt : arena.get ty = .int bits sign)
    (isMet : arena.get met = .int metBits metSign) (narrower : metBits ≤ bits)
    (merged : metSign = mergeSign sign otherSign) (notBelow : ¬ Below arena met ty)
    (joins : JoinsTo arena ty met joined) : Widens arena ty joined := by
  have signs : sign ≠ .unknown ∧ metSign = .unknown := by
    rw [below_int_iff wellFormed isMet isInt, merged] at notBelow
    cases sign <;> cases otherSign <;> simp_all [mergeSign, signBelow]
  obtain ⟨signed, rfl⟩ := signs
  have merges : mergeSign sign .unknown = .unknown ∧ mergeSign .unknown sign = .unknown := by
    cases sign <;> exact ⟨rfl, rfl⟩
  rcases joins.cases notBelow with ⟨below, rfl⟩ | ⟨fuel, head | head⟩
  · have wider := ((below_int_iff wellFormed isInt isMet).mp below).1
    obtain rfl := Nat.le_antisymm narrower wider
    exact .int isInt signed isMet
  · rw [isInt, isMet] at head
    generalize isJoined : arena.get joined = z at head
    cases head with
    | int _ _ _ _ =>
      rw [merges.1, max_eq_left narrower] at isJoined
      exact .int isInt signed isJoined
    | top apart => cases apart
  · rw [isInt, isMet] at head
    generalize isJoined : arena.get joined = z at head
    cases head with
    | int _ _ _ _ =>
      rw [merges.2, max_eq_right narrower] at isJoined
      exact .int isInt signed isJoined
    | top apart => cases apart

theorem widens_of_ptr {inner metInner : TypeId}
    (isPtr : arena.get ty = .ptr inner)
    (isMet : arena.get met = .ptr metInner) (notBelow : ¬ Below arena met ty)
    (inside : ∀ joined, JoinsTo arena inner metInner joined → Widens arena inner joined)
    (joins : JoinsTo arena ty met joined) : Widens arena ty joined := by
  rcases joins.cases notBelow with ⟨below, rfl⟩ | ⟨fuel, head | head⟩
  · refine .ptr isPtr isMet (inside metInner ⟨1, .inl (.inl ⟨?_, rfl⟩)⟩)
    exact (below_ptr_iff wellFormed isPtr isMet).mp below
  · rw [isPtr, isMet] at head
    generalize isJoined : arena.get joined = z at head
    cases head with
    | ptr merged => exact .ptr isPtr isJoined (inside _ ⟨fuel, .inl merged⟩)
    | top apart => cases apart
  · rw [isPtr, isMet] at head
    generalize isJoined : arena.get joined = z at head
    cases head with
    | ptr merged => exact .ptr isPtr isJoined (inside _ ⟨fuel, .inr merged⟩)
    | top apart => cases apart

/-- A meet that is not below one of its types is an integer without the sign of that
type, so that their join widens it. -/
theorem widens_of_met (fuel : Nat) : ∀ {a b met : TypeId},
    Merged MeetHead (fun a _ => a) arena fuel a b met →
      (¬ Below arena met a → ∀ joined, JoinsTo arena a met joined → Widens arena a joined) ∧
      (¬ Below arena met b → ∀ joined, JoinsTo arena b met joined → Widens arena b joined) := by
  induction fuel with
  | zero => exact fun none => none.elim
  | succ fuel ih =>
    intro a b met merged
    rcases merged with ⟨below, rfl⟩ | ⟨_, above, rfl⟩ | ⟨_, _, head⟩
    · exact ⟨fun not => absurd (Below.refl arena _) not, fun not => absurd below not⟩
    · exact ⟨fun not => absurd above not, fun not => absurd (Below.refl arena _) not⟩
    generalize ofA : arena.get a = x at head
    generalize ofB : arena.get b = y at head
    generalize ofMet : arena.get met = z at head
    cases head with
    | int aBits bBits aSign bSign =>
      refine ⟨fun not joined joins => ?_, fun not joined joins => ?_⟩
      · exact widens_of_int wellFormed ofA ofMet (min_le_left _ _) rfl not joins
      · exact widens_of_int wellFormed ofB ofMet (min_le_right _ _) (mergeSign_comm _ _) not joins
    | ptr inner =>
      obtain ⟨first, second⟩ := ih inner
      refine ⟨fun not joined joins => ?_, fun not joined joins => ?_⟩
      · exact widens_of_ptr wellFormed ofA ofMet not
          (first fun below => not ((below_ptr_iff wellFormed ofMet ofA).mpr below)) joins
      · exact widens_of_ptr wellFormed ofB ofMet not
          (second fun below => not ((below_ptr_iff wellFormed ofMet ofB).mpr below)) joins
    | bottom _ =>
      exact ⟨fun not => absurd (below_bottom wellFormed ofMet) not,
        fun not => absurd (below_bottom wellFormed ofMet) not⟩

end

/-- A meet of two incomparable types is never mutual with one of them and different. -/
theorem met_eq_of_mutual (built : arena.Built) (fuel : Nat) : ∀ {a b met : TypeId},
    arena.Present a → arena.Present b → arena.Present met → ¬ Below arena a b → ¬ Below arena b a →
    Merged MeetHead (fun a _ => a) arena fuel a b met →
      (Below arena met a → Below arena a met → met = a) ∧
      (Below arena met b → Below arena b met → met = b) := by
  have wellFormed := built.wellFormed
  have noBottom : ∀ {id met : TypeId}, arena.get met = .bottom → arena.Present id →
      arena.Present met → Below arena id met → met = id := by
    intro id met isBottom idPresent metPresent below
    rcases (below_iff wellFormed).mp below with same | head
    · exact same.symm
    rw [isBottom] at head
    generalize isId : arena.get id = x at head
    cases head with
    | bottom => exact eq_of_get_eq built metPresent idPresent (isBottom.trans isId.symm)
  have sameInt : ∀ {id met : TypeId} {bits metBits : Nat} {sign metSign : Signedness},
      arena.get id = .int bits sign → arena.get met = .int metBits metSign →
      Below arena met id → Below arena id met → met = id := by
    intro id met bits metBits sign metSign isId isMet below above
    obtain ⟨narrower, signs⟩ := (below_int_iff wellFormed isMet isId).mp below
    obtain ⟨wider, signs'⟩ := (below_int_iff wellFormed isId isMet).mp above
    obtain rfl := Nat.le_antisymm narrower wider
    have same : metSign = sign := by
      cases sign <;> cases metSign <;> simp [signBelow] at signs signs' ⊢
    rw [same] at isMet
    exact eq_of_get_eq built (present_of_get_ne_top (by simp [isMet]))
      (present_of_get_ne_top (by simp [isId])) (isMet.trans isId.symm)
  induction fuel with
  | zero => exact fun _ _ _ _ _ none => none.elim
  | succ fuel ih =>
    intro a b met aPresent bPresent metPresent notBelow notAbove merged
    rcases merged with ⟨below, _⟩ | ⟨_, above, _⟩ | ⟨_, _, head⟩
    · exact absurd below notBelow
    · exact absurd above notAbove
    generalize ofA : arena.get a = x at head
    generalize ofB : arena.get b = y at head
    generalize ofMet : arena.get met = z at head
    cases head with
    | int aBits bBits aSign bSign => exact ⟨sameInt ofA ofMet, sameInt ofB ofMet⟩
    | @ptr x y c inner =>
      obtain ⟨first, second⟩ := ih
        (wellFormed.part_present ofA (by simp [Ty.components]))
        (wellFormed.part_present ofB (by simp [Ty.components]))
        (wellFormed.part_present ofMet (by simp [Ty.components]))
        (fun below => notBelow ((below_ptr_iff wellFormed ofA ofB).mpr below))
        (fun above => notAbove ((below_ptr_iff wellFormed ofB ofA).mpr above)) inner
      refine ⟨fun below above => ?_, fun below above => ?_⟩
      · have same := first ((below_ptr_iff wellFormed ofMet ofA).mp below)
          ((below_ptr_iff wellFormed ofA ofMet).mp above)
        rw [same] at ofMet
        exact eq_of_get_eq built metPresent aPresent (ofMet.trans ofA.symm)
      · have same := second ((below_ptr_iff wellFormed ofMet ofB).mp below)
          ((below_ptr_iff wellFormed ofB ofMet).mp above)
        rw [same] at ofMet
        exact eq_of_get_eq built metPresent bPresent (ofMet.trans ofB.symm)
    | bottom _ =>
      exact ⟨fun _ above => noBottom ofMet aPresent metPresent above,
        fun _ above => noBottom ofMet bPresent metPresent above⟩

/-- A cached meet is absorbed, or the join with it widens, unless the two types are
mutual subtypes and different. -/
theorem met_absorbed_or_widens (built : arena.Built)
    (meets : MetAs arena ty other met) (noTwins : Below arena ty other → Below arena other ty → other = ty) :
    Absorbed arena met ty ∨ (¬ Below arena met ty ∧
      ∀ joined, JoinedAs arena ty met joined → Widens arena ty joined) := by
  have wellFormed := built.wellFormed
  obtain ⟨tyPresent, otherPresent, metPresent, fuel, merged⟩ := meets
  by_cases below : Below arena met ty
  · left
    by_cases above : Below arena ty met
    · left
      by_cases comparable : Below arena ty other ∨ Below arena other ty
      · -- The meet is one of the two types.
        cases fuel with
        | zero => exact merged.elim False.elim False.elim
        | succ fuel =>
          have isTwin : met = other → met = ty := by
            rintro rfl
            exact noTwins above below
          rcases merged with merged | merged
          · rcases merged with ⟨_, picked⟩ | ⟨_, _, picked⟩ | ⟨not, not', _⟩
            · exact picked
            · exact isTwin picked
            · exact (comparable.elim not not').elim
          · rcases merged with ⟨_, picked⟩ | ⟨_, _, picked⟩ | ⟨not, not', _⟩
            · exact isTwin picked
            · exact picked
            · exact (comparable.elim not' not).elim
      · obtain ⟨notBelow, notAbove⟩ := not_or.mp comparable
        rcases merged with merged | merged
        · exact (met_eq_of_mutual built fuel tyPresent otherPresent metPresent notBelow notAbove
            merged).1 below above
        · exact (met_eq_of_mutual built fuel otherPresent tyPresent metPresent notAbove notBelow
            merged).2 below above
    · exact .inr ⟨below, above⟩
  · right
    refine ⟨below, fun joined joins => ?_⟩
    obtain ⟨_, _, _, fuel', joins⟩ := joins
    rcases merged with merged | merged
    · exact (widens_of_met wellFormed fuel merged).1 below joined ⟨fuel', joins⟩
    · exact (widens_of_met wellFormed fuel merged).2 below joined ⟨fuel', joins⟩

end Widening

/-! ## One application -/

/-- The assignment that an external constraint gives. -/
def pin (ty : TypeId) : Assignment := ⟨ty, ConstraintSource.external.priority⟩

theorem Offered.pinned {pinned : TypeId} {priority : Nat} {new : Assignment}
    (offered : Offered arena ty priority (some (pin pinned)) new)
    (yields : priority < 3 ∨ (priority = 3 ∧ Absorbed arena ty pinned)) : new = pin pinned := by
  have isThree : (pin pinned).priority = 3 := rfl
  cases offered with
  | kept _ => rfl
  | taken lower =>
    have below := lower (pin pinned) rfl
    omega
  | joined equal joins =>
    rcases yields with less | ⟨rfl, absorbed⟩
    · omega
    · exact congrArg (Assignment.mk · 3) (absorbed.join joins)

namespace SolverState

theorem meetCached_bookkeeping (state : SolverState) (diagnostics : SolverDiagnostics)
    (changedVars : List VarId) (a b : TypeId) :
    (({ state with diagnostics, changedVars } : SolverState).meetCached a b).2 =
        (state.meetCached a b).2 ∧
      (({ state with diagnostics, changedVars } : SolverState).meetCached a b).1.arena =
        (state.meetCached a b).1.arena := by
  cases hit : state.meetCache.lookup (normalizePair a b) with
  | some ty =>
    rw [meetCached_hit hit, @meetCached_hit _ _ _ { state with diagnostics, changedVars } hit]
    exact ⟨rfl, rfl⟩
  | none =>
    rw [meetCached_miss hit, @meetCached_miss _ _ { state with diagnostics, changedVars } hit]
    exact ⟨rfl, rfl⟩

section Pinned

variable {state : SolverState} {constraint : CompactConstraint} {rep : VarId} {ty pinned : TypeId}

def OnlyExternal (rep : VarId) (ty : TypeId) (constraint : CompactConstraint) : Prop :=
  constraint.source = .external → rep ∈ constraint.assigned → constraint = .setType rep ty .external

section

variable (sound : state.Sound) (present : ∀ id ∈ constraint.types, state.arena.Present id)
  (inside : rep < state.assignments.length)
include sound present inside

/-- A pinned variable stays so when the external type and the meets of its subtype
constraints are absorbed. -/
theorem applyConstraint_pinned
    (isPinned : state.assignment rep = some (pin pinned))
    (external : OnlyExternal rep ty constraint)
    (absorbs : Absorbed (state.applyConstraint constraint).1.arena ty pinned)
    (tightens : ∀ other source, constraint = .subtype rep other source →
      Absorbed (state.applyConstraint constraint).1.arena (state.meetCached pinned other).2 pinned) :
    (state.applyConstraint constraint).1.assignment rep = some (pin pinned) := by
  refine @applyConstraint_moves _ _ _ sound present inside
    (fun assigned => assigned = some (pin pinned)) isPinned ?_ ?_
  · rintro offer priority handed _ new rfl offered
    refine congrArg some (offered.pinned ?_)
    have isAssigned := handed.assigned
    rcases constraint.source.priority_cases with lower | isExternal
    · cases handed with
      | setType | unassigned | pointer | argument | field => exact .inl lower
      | @met existing other source assigned =>
        obtain rfl := some.inj (isPinned.symm.trans assigned)
        refine .inr ⟨max_eq_right (Nat.le_of_lt lower), tightens other source rfl⟩
    · have isSet := external isExternal isAssigned
      subst isSet
      cases handed
      exact .inr ⟨rfl, absorbs⟩
  · intro offer priority rewrites
    have isAssigned := rewrites.assigned
    cases rewrites with
    | field source missing assigned equal =>
      obtain rfl := some.inj (isPinned.symm.trans assigned)
      rcases source.priority_cases with lower | isExternal
      · have isThree : (pin pinned).priority = 3 := rfl
        omega
      · cases external isExternal isAssigned

/-- An unpinned variable keeps lower priorities or is pinned to the external type. -/
theorem applyConstraint_unpinned
    (lower : ∀ existing, state.assignment rep = some existing → existing.priority < 3)
    (external : OnlyExternal rep ty constraint) :
    ∀ existing, (state.applyConstraint constraint).1.assignment rep = some existing →
      existing.priority < 3 ∨ existing = pin ty := by
  refine @applyConstraint_moves _ _ _ sound present inside (fun assigned =>
    ∀ existing, assigned = some existing → existing.priority < 3 ∨ existing = pin ty)
    (fun existing assigned => .inl (lower existing assigned)) ?_ ?_
  · intro offer priority handed old new holds offered existing isNew
    cases isNew
    have isAssigned := handed.assigned
    have yields : priority < 3 ∨ (priority = 3 ∧ offer = ty) := by
      rcases constraint.source.priority_cases with less | isExternal
      · left
        cases handed with
        | met other source assigned => exact max_lt less (lower _ assigned)
        | _ => exact less
      · have isSet := external isExternal isAssigned
        subst isSet
        cases handed
        exact .inr ⟨rfl, rfl⟩
    cases offered with
    | kept higher => exact holds _ rfl
    | taken _ =>
      refine yields.imp_right ?_
      rintro ⟨rfl, rfl⟩
      rfl
    | @joined existing joined equal joins =>
      rcases yields with less | ⟨rfl, rfl⟩
      · exact .inl less
      · right
        rcases holds _ rfl with less | rfl
        · omega
        · exact congrArg (Assignment.mk · 3) (Absorbed.join (.inl rfl) joins)
  · intro offer priority rewrites existing isNew
    cases isNew
    have isAssigned := rewrites.assigned
    cases rewrites with
    | field source missing assigned equal =>
      rcases source.priority_cases with less | isExternal
      · exact .inl less
      · cases external isExternal isAssigned

end

private theorem applyConstraint_pins (sound : state.Sound) (present : state.arena.Present ty)
    (inside : rep < state.assignments.length)
    (lower : ∀ existing, state.assignment rep = some existing →
      existing.priority < 3 ∨ existing = pin ty) :
    (state.applyConstraint (.setType rep ty .external)).1.assignment rep = some (pin ty) := by
  obtain ⟨new, assigned, offered⟩ := assign_offered sound inside 3 present
  refine Eq.trans assigned (congrArg some ?_)
  generalize isOld : state.assignment rep = old at offered
  cases offered with
  | kept higher =>
    rcases lower _ isOld with less | same
    · omega
    · exact same
  | taken _ => rfl
  | joined equal joins =>
    rcases lower _ isOld with less | rfl
    · omega
    · exact congrArg (Assignment.mk · 3) (Absorbed.join (.inl rfl) joins)

end Pinned

end SolverState

/-! ## Runs -/

namespace Worklist

/-- Before a subtype constraint of the pinned variable is applied, its meet with the
pinned type is that type or strictly below it. -/
def Spares (constraints : List CompactConstraint) (rep : VarId) (pinned : TypeId)
    (work : Worklist) : Prop :=
  ∀ (index : ConstraintIdx) (queue : List ConstraintIdx) (other : TypeId) (source : ConstraintSource),
    work.queue = index :: queue → constraints[index]? = some (.subtype rep other source) →
    work.state.assignment rep = some (pin pinned) →
    Absorbed (work.state.meetCached pinned other).1.arena (work.state.meetCached pinned other).2 pinned

section Runs

variable {arena : TypeArena} {constraints : List CompactConstraint}
variable {adjacency : List (List ConstraintIdx)} {vars : List SSAVar} {rep : VarId}
variable {ty pinned : TypeId} {work : Worklist}

/-- A run over constraints of which the external ones set one type. -/
structure Externals (constraints : List CompactConstraint) (vars : List SSAVar) (rep : VarId)
    (ty : TypeId) : Prop where
  inside : rep < vars.length
  only : ∀ constraint ∈ constraints, SolverState.OnlyExternal rep ty constraint
  listed : .setType rep ty .external ∈ constraints

theorem Regular.ty_present (regular : Regular arena constraints vars work.state)
    (externals : Externals constraints vars rep ty) : work.state.arena.Present ty :=
  regular.present _ externals.listed ty (by simp [CompactConstraint.types])

section

variable (externals : Externals constraints vars rep ty)
include externals

section

variable (regular : Regular arena constraints vars work.state)
include regular

theorem pop_pinned
    (isPinned : work.state.assignment rep = some (pin pinned))
    (absorbs : Absorbed work.state.arena ty pinned) (spares : work.Spares constraints rep pinned) :
    (work.pop constraints adjacency).state.assignment rep = some (pin pinned) := by
  refine pop_keeps (fun state => state.assignment rep = some (pin pinned))
    (fun _ _ _ holds => holds) isPinned fun index queue constraint listed isQueue found => ?_
  have start := regular.popping
  have present := start.present constraint listed
  obtain ⟨touches, _⟩ := applyConstraint_touches start.sound constraint present
  have pinnedPresent := regular.sound.assigned _ _ isPinned
  refine applyConstraint_pinned start.sound present
    (start.length.symm ▸ externals.inside) isPinned (externals.only constraint listed)
    ((Absorbed.extends_iff regular.sound.built.wellFormed touches.keeps
      (regular.ty_present externals) pinnedPresent).mpr absorbs) ?_
  rintro other source rfl
  have absorbed := spares index queue other source isQueue found isPinned
  have metSame := work.state.meetCached_bookkeeping work.popping.diagnostics [] pinned other
  have metAdvances := meetCached_advances start.sound pinnedPresent
    (present other (by simp [CompactConstraint.types]))
  rw [← metSame.1, ← metSame.2] at absorbed
  have assigned : work.popping.assignment rep = some (pin pinned) := isPinned
  have keeps : (work.popping.meetCached pinned other).1.arena.Extends
      (work.popping.applyConstraint (.subtype rep other source)).1.arena := by
    rw [applyConstraint, applySubtype, assigned]
    exact (assign_touches metAdvances.1.sound rep _ metAdvances.2.answer).1.keeps
  exact (Absorbed.extends_iff metAdvances.1.sound.built.wellFormed keeps
    metAdvances.2.answer (metAdvances.1.keeps.present pinnedPresent)).mpr absorbed

private theorem pop_unpinned
    (lower : ∀ existing, work.state.assignment rep = some existing → existing.priority < 3) :
    ∀ existing, (work.pop constraints adjacency).state.assignment rep = some existing →
      existing.priority < 3 ∨ existing = pin ty := by
  refine pop_keeps (fun state => ∀ existing, state.assignment rep = some existing →
    existing.priority < 3 ∨ existing = pin ty) (fun _ _ _ holds => holds)
    (fun existing assigned => .inl (lower existing assigned))
    fun index queue constraint listed _ _ => ?_
  have start := regular.popping
  exact applyConstraint_unpinned start.sound (start.present constraint listed)
    (start.length.symm ▸ externals.inside) lower (externals.only constraint listed)

private theorem pop_pins
    {index : ConstraintIdx}
    {queue : List ConstraintIdx} (isQueue : work.queue = index :: queue)
    (found : constraints[index]? = some (.setType rep ty .external))
    (lower : ∀ existing, work.state.assignment rep = some existing →
      existing.priority < 3 ∨ existing = pin ty) :
    (work.pop constraints adjacency).state.assignment rep = some (pin ty) := by
  obtain ⟨diagnostics, same⟩ := @pop_cons_state constraints adjacency _ _ _ isQueue
  rw [same]
  have start := regular.popping
  have holds : (applied constraints work index).assignment rep = some (pin ty) := by
    unfold applied
    rw [found]
    exact applyConstraint_pins start.sound (regular.ty_present externals)
      (start.length.symm ▸ externals.inside) lower
  exact holds

end

end

section

variable (covers : Covers adjacency constraints)
include covers

section

variable (externals : Externals constraints vars rep ty)
include externals

/-- As long as every subtype constraint spares the pinned type, the variable has no
type of external priority but that one. -/
theorem Inv.pop_unpinned_or
    (spares : work.Spares constraints rep ty)
    (holds : Inv arena constraints vars work ∧ ∀ existing,
      work.state.assignment rep = some existing → existing.priority < 3 ∨ existing = pin ty) :
    Inv arena constraints vars (work.pop constraints adjacency) ∧ ∀ existing,
      (work.pop constraints adjacency).state.assignment rep = some existing →
        existing.priority < 3 ∨ existing = pin ty := by
  obtain ⟨inv, assigned⟩ := holds
  refine ⟨inv.pop covers, ?_⟩
  by_cases isPinned : work.state.assignment rep = some (pin ty)
  · intro existing isExisting
    rw [pop_pinned externals inv.regular isPinned (.inl rfl) spares] at isExisting
    exact .inr (some.inj isExisting).symm
  · refine pop_unpinned externals inv.regular fun existing isExisting => ?_
    refine (assigned existing isExisting).resolve_right ?_
    rintro rfl
    exact isPinned isExisting

/-- A type pinned in the first wave stays. -/
theorem waves_pinned
    {remaining : Nat}
    (ordered : work.queue = List.range constraints.length) (inv : Inv arena constraints vars work)
    (unassigned : work.state.assignment rep = none)
    (spares : ∀ visited ∈ history constraints adjacency (remaining + 1) work,
      visited.Spares constraints rep ty) :
    (work.waves constraints adjacency (remaining + 1)).state.assignment rep = some (pin ty) := by
  have before := @history_along constraints adjacency
    (fun work => Inv arena constraints vars work ∧ ∀ existing,
      work.state.assignment rep = some existing → existing.priority < 3 ∨ existing = pin ty)
    (fun _ holds => ⟨holds.1.counted, holds.2⟩) (remaining + 1) work
    (fun visited listed => Inv.pop_unpinned_or covers externals (spares visited listed))
    ⟨inv, fun existing assigned => by rw [unassigned] at assigned; cases assigned⟩
  obtain ⟨index, found⟩ := mem_iff_getElem?.mp externals.listed
  have holds := @established constraints adjacency
    (fun work => Inv arena constraints vars work ∧ work.state.assignment rep = some (pin ty)) remaining
    work index constraints.length ordered (List.getElem?_eq_some_iff.mp found).1
    (fun _ holds => ⟨holds.1.counted, holds.2⟩)
    (fun visited listed queue isQueue => ⟨(before visited listed).1.pop covers,
      pop_pins externals (before visited listed).1.regular isQueue found (before visited listed).2⟩)
    (fun visited listed holds => ⟨holds.1.pop covers,
      pop_pinned externals holds.1.regular holds.2 (.inl rfl) (spares visited listed)⟩)
  exact holds.2

private theorem Inv.pop_widened
    (holds : Inv arena constraints vars work ∧ ∃ wide, Widens work.state.arena ty wide ∧
      work.state.assignment rep = some (pin wide)) :
    Inv arena constraints vars (work.pop constraints adjacency) ∧ ∃ wide,
      Widens (work.pop constraints adjacency).state.arena ty wide ∧
        (work.pop constraints adjacency).state.assignment rep = some (pin wide) := by
  obtain ⟨inv, wide, widens, isPinned⟩ := holds
  have wellFormed := inv.regular.sound.built.wellFormed
  have fromHere : Regular work.state.arena constraints vars work.state :=
    { inv.regular with grown := .refl _ }
  have grown := (@Kept.pop constraints adjacency _ (regular_kept vars) _ fromHere).grown
  refine ⟨inv.pop covers, wide, widens.extends grown, ?_⟩
  refine pop_pinned externals inv.regular isPinned (.inr (widens.strict wellFormed)) ?_
  intro index queue other source _ found _
  have listed := mem_of_getElem? found
  obtain ⟨advances, meets⟩ := meetCached_advances inv.regular.sound
    widens.present.2 (inv.regular.present _ listed other (by simp [CompactConstraint.types]))
  have later := widens.extends advances.keeps
  obtain ⟨fuel, merged⟩ := meets.merged
  have below := later.meet_below advances.sound.built.wellFormed merged
  by_cases above : Below (work.state.meetCached wide other).1.arena wide
      (work.state.meetCached wide other).2
  · exact .inl (later.eq_of_mutual advances.sound.built below above)
  · exact .inr ⟨below, above⟩

end

end

/-- A subtype constraint that does not spare the external type widens it, unless its
type and the external one are mutual subtypes. -/
theorem pop_widens (externals : Externals constraints vars rep ty)
    (regular : Regular arena constraints vars work.state)
    (noTwins : ∀ other source, .subtype rep other source ∈ constraints → Below arena ty other →
      Below arena other ty → other = ty) (tyPresent : arena.Present ty)
    (othersPresent : ∀ constraint ∈ constraints, ∀ id ∈ constraint.types, arena.Present id)
    (wellFormed : arena.WellFormed) (spoils : ¬ work.Spares constraints rep ty) :
    ∃ wide, Widens (work.pop constraints adjacency).state.arena ty wide ∧
      (work.pop constraints adjacency).state.assignment rep = some (pin wide) := by
  unfold Spares at spoils
  push Not at spoils
  obtain ⟨index, queue, other, source, isQueue, found, isPinned, notAbsorbed⟩ := spoils
  obtain ⟨diagnostics, same⟩ := @pop_cons_state constraints adjacency _ _ _ isQueue
  have start := regular.popping
  have listed := mem_of_getElem? found
  have otherPresent : arena.Present other :=
    othersPresent _ listed other (by simp [CompactConstraint.types])
  have metSame := work.state.meetCached_bookkeeping work.popping.diagnostics [] ty other
  have tyHere := regular.ty_present externals
  obtain ⟨metAdvances, meets⟩ := meetCached_advances start.sound tyHere
    (start.grown.present otherPresent)
  obtain ⟨quiet, _⟩ := meetCached_touches start.sound tyHere (start.grown.present otherPresent) []
  rw [← metSame.1, ← metSame.2] at notAbsorbed
  have assigned : work.popping.assignment rep = some (pin ty) := isPinned
  have lowPriority : source.priority < 3 := by
    refine source.priority_cases.resolve_right ?_
    rintro rfl
    cases externals.only _ listed rfl (mem_singleton.mpr rfl)
  have unfolded : applied constraints work index =
      ((work.popping.meetCached ty other).1.assign rep (work.popping.meetCached ty other).2 3).1 := by
    unfold applied
    rw [found]
    dsimp only
    rw [applyConstraint, applySubtype, assigned]
    have most : max source.priority (pin ty).priority = 3 := max_eq_right (Nat.le_of_lt lowPriority)
    exact congrArg (fun priority => ((work.popping.meetCached ty other).1.assign rep
      (work.popping.meetCached ty other).2 priority).1) most
  have insideMet : rep < (work.popping.meetCached ty other).1.assignments.length := by
    rw [quiet.length, start.length]
    exact externals.inside
  obtain ⟨new, written, offered⟩ := assign_offered metAdvances.sound insideMet 3 meets.answer
  have oldPinned : (work.popping.meetCached ty other).1.assignment rep = some (pin ty) := by
    exact (quiet.outside rep not_mem_nil).trans assigned
  have grows := (assign_touches metAdvances.sound rep 3 meets.answer).1.keeps
  have builtAfter := (assign_touches metAdvances.sound rep 3 meets.answer).1.sound.built
  rw [← unfolded] at written offered grows builtAfter
  rw [oldPinned] at offered
  have widens : ∃ wide, Widens (applied constraints work index).arena ty wide ∧
      (applied constraints work index).assignment rep = some (pin wide) := by
    have later := meets.extends meetHead_looksInside metAdvances.sound.built.wellFormed grows
    have grown := start.grown.trans (metAdvances.keeps.trans grows)
    rcases met_absorbed_or_widens builtAfter later (fun below above => noTwins other source listed
        ((Below.extends wellFormed grown tyPresent otherPresent).mp below)
        ((Below.extends wellFormed grown otherPresent tyPresent).mp above)) with absorbed | ⟨_, widens⟩
    · exact absurd ((Absorbed.extends_iff metAdvances.sound.built.wellFormed grows meets.answer
        meets.first).mp absorbed) notAbsorbed
    · have isThree : (pin ty).priority = 3 := rfl
      cases offered with
      | kept higher => omega
      | taken lower =>
        have less := lower (pin ty) rfl
        omega
      | joined equal joins => exact ⟨_, widens _ joins, written⟩
  obtain ⟨wide, isWide, isAssigned⟩ := widens
  refine ⟨wide, ?_, ?_⟩
  · rw [same]
    exact isWide
  · rw [same]
    exact isAssigned

/-- A run with a subtype constraint that does not spare the external type ends with a
widened one. -/
theorem waves_widened (covers : Covers adjacency constraints)
    (externals : Externals constraints vars rep ty)
    (noTwins : ∀ other source, .subtype rep other source ∈ constraints → Below arena ty other →
      Below arena other ty → other = ty) (tyPresent : arena.Present ty)
    (othersPresent : ∀ constraint ∈ constraints, ∀ id ∈ constraint.types, arena.Present id)
    (wellFormed : arena.WellFormed) (inv : Inv arena constraints vars work) {maxIterations : Nat}
    (spoils : ∃ visited ∈ history constraints adjacency maxIterations work,
      ¬ visited.Spares constraints rep ty) :
    ∃ wide, Widens (work.waves constraints adjacency maxIterations).state.arena ty wide ∧
      (work.waves constraints adjacency maxIterations).state.assignment rep = some (pin wide) := by
  obtain ⟨visited, listed, spoils⟩ := spoils
  have before := @history_along constraints adjacency (Inv arena constraints vars)
    (fun _ inv => inv.counted) maxIterations work (fun _ _ inv => inv.pop covers) inv visited listed
  have widened := @pop_widens arena constraints adjacency vars rep ty visited externals before.regular
    noTwins tyPresent othersPresent wellFormed spoils
  exact (@waves_after constraints adjacency (fun work => Inv arena constraints vars work ∧
      ∃ wide, Widens work.state.arena ty wide ∧ work.state.assignment rep = some (pin wide))
    (fun _ holds => ⟨holds.1.counted, holds.2⟩) maxIterations work
    (fun _ _ => Inv.pop_widened covers externals) ⟨visited, listed, before.pop covers, widened⟩).2

end Runs

end Worklist

/-! ## Solutions -/

section Solutions

variable {arena : TypeArena} {constraints : List Constraint} {var : SSAVar} {ty : TypeId}

structure ExternalType (constraints : List Constraint) (var : SSAVar) (ty : TypeId) : Prop where
  isSet : ∃ mem, Constraint.setType mem ty .external ∈ constraints ∧ Connected constraints mem var
  only : ∀ constraint ∈ constraints, constraint.source = .external → ∀ mem ∈ constraint.assigned,
    Connected constraints mem var → ∃ other, constraint = .setType other ty .external

theorem ExternalType.mentioned (external : ExternalType constraints var ty) :
    var ∈ mentioned constraints := by
  obtain ⟨mem, listed, connected⟩ := external.isSet
  rcases connected_mentioned connected with rfl | ⟨_, isMentioned⟩
  · exact mem_flatMap.mpr ⟨_, listed, mem_singleton.mpr rfl⟩
  · exact isMentioned

theorem ExternalType.externals (external : ExternalType constraints var ty) :
    Worklist.Externals (rewriteEqualConstraints constraints).constraints (interned constraints).vars
      (representative constraints var) ty := by
  have isMentioned := external.mentioned
  refine ⟨representative_lt isMentioned, fun compacted listed isExternal isAssigned => ?_, ?_⟩
  · obtain ⟨constraint, mem, isCompact⟩ := mem_rewritten.mp listed
    obtain ⟨sameSource, assigns⟩ := Constraint.compactBy_assigned isCompact
    rw [assigns] at isAssigned
    obtain ⟨other, inConstraint, sameRep⟩ := List.mem_map.mp isAssigned
    have otherMentioned : other ∈ R2Sleigh.Types.mentioned constraints :=
      mem_flatMap.mpr ⟨constraint, mem, Constraint.assigned_subset other inConstraint⟩
    obtain ⟨set, rfl⟩ := external.only constraint mem (sameSource ▸ isExternal) other inConstraint
      ((representative_eq_iff otherMentioned isMentioned).mp sameRep)
    obtain rfl := mem_singleton.mp inConstraint
    rw [← some.inj isCompact, sameRep]
  · obtain ⟨mem, listed, connected⟩ := external.isSet
    have memberMentioned : mem ∈ R2Sleigh.Types.mentioned constraints :=
      mem_flatMap.mpr ⟨_, listed, mem_singleton.mpr rfl⟩
    refine mem_rewritten.mpr ⟨_, listed, ?_⟩
    rw [← (representative_eq_iff memberMentioned isMentioned).mpr connected]
    rfl

/-- An external type is the solved type of its class when, in the run, every subtype
constraint applied to the class has with it a meet that is this type or strictly below
it; and only then, if no subtype constraint on the class names a different type that
is a subtype of the external one and above it. -/
theorem solveWorklist_external (built : arena.Built)
    (present : ∀ constraint ∈ constraints, ∀ id ∈ constraint.types, arena.Present id)
    (external : ExternalType constraints var ty) {maxIterations : Nat} (positive : 1 ≤ maxIterations) :
    ((∀ visited ∈ solverHistory arena constraints maxIterations,
        visited.Spares (rewriteEqualConstraints constraints).constraints
          (representative constraints var) ty) →
      ∀ mem, Connected constraints mem var →
        (solveWorklist arena constraints maxIterations).varTypes.lookup mem = some ty) ∧
    ((∀ mem other source, Constraint.subtype mem other source ∈ constraints →
        Connected constraints mem var → Below arena ty other → Below arena other ty → other = ty) →
      (∀ mem, Connected constraints mem var →
        (solveWorklist arena constraints maxIterations).varTypes.lookup mem = some ty) →
      ∀ visited ∈ solverHistory arena constraints maxIterations,
        visited.Spares (rewriteEqualConstraints constraints).constraints
          (representative constraints var) ty) := by
  obtain ⟨remaining, rfl⟩ : ∃ remaining, maxIterations = remaining + 1 :=
    ⟨maxIterations - 1, by omega⟩
  have isMentioned := external.mentioned
  have externals := external.externals
  have inv := startWorklist_inv built present
  constructor
  · intro spares mem connected
    have memberLookup := (solveWorklist_fixpoint built present (remaining + 1)).2.1 mem var connected
    rw [memberLookup, solveWorklist_lookup built present, if_pos isMentioned]
    have assigned := Worklist.waves_pinned rewritten_covers externals rfl inv
      (startWorklist_unassigned _ _ _) spares
    have final : (finalWorklist arena constraints (remaining + 1)).state.assignment
        (representative constraints var) = some (pin ty) := assigned
    rw [final]
    rfl
  · intro noTwins solved visited listed
    by_contra spoils
    have tyPresent : arena.Present ty := by
      obtain ⟨mem, isListed, _⟩ := external.isSet
      exact present _ isListed ty (mem_singleton.mpr rfl)
    have othersPresent : ∀ compacted ∈ (rewriteEqualConstraints constraints).constraints,
        ∀ id ∈ compacted.types, arena.Present id := by
      intro compacted isListed id named
      obtain ⟨constraint, mem, isCompact⟩ := mem_rewritten.mp isListed
      exact present constraint mem id (compactBy_types isCompact ▸ named)
    have noTwins' : ∀ other source, .subtype (representative constraints var) other source ∈
        (rewriteEqualConstraints constraints).constraints → Below arena ty other →
        Below arena other ty → other = ty := by
      intro other source isListed below above
      obtain ⟨constraint, mem, isCompact⟩ := mem_rewritten.mp isListed
      cases constraint with
      | subtype subject subjectTy subjectSource =>
        obtain ⟨sameRep, rfl, rfl⟩ := CompactConstraint.subtype.inj (some.inj isCompact)
        have subjectMentioned : subject ∈ R2Sleigh.Types.mentioned constraints :=
          mem_flatMap.mpr ⟨_, mem, mem_singleton.mpr rfl⟩
        exact noTwins subject _ _ mem
          ((representative_eq_iff subjectMentioned isMentioned).mp sameRep) below above
      | _ => cases isCompact
    obtain ⟨wide, widens, final⟩ := Worklist.waves_widened rewritten_covers externals noTwins' tyPresent
      othersPresent built.wellFormed inv ⟨visited, listed, spoils⟩
    have lookup := solved var (.refl var)
    rw [solveWorklist_lookup built present, if_pos isMentioned] at lookup
    have assigned : (finalWorklist arena constraints (remaining + 1)).state.assignment
        (representative constraints var) = some (pin wide) := final
    rw [assigned] at lookup
    have same : wide = ty := some.inj lookup
    have strict := widens.strict (finalWorklist_inv built present (remaining + 1)).regular.sound.built.wellFormed
    rw [same] at strict
    exact strict.2 strict.1

/-- A signed integer of 32 bits, given by the user, and an unsigned upper bound of 64. -/
def widening : List Constraint :=
  [.setType ⟨"rax", 1, 8⟩ 3 .external, .subtype ⟨"rax", 1, 8⟩ 4 .inferred]

theorem widening_present :
    ∀ constraint ∈ widening, ∀ id ∈ constraint.types, twoStructs.Present id := by
  decide +kernel

theorem widening_external : ExternalType widening ⟨"rax", 1, 8⟩ 3 := by
  refine ⟨⟨⟨"rax", 1, 8⟩, by decide, .refl _⟩, fun constraint listed isExternal mem inClass _ => ?_⟩
  rcases mem_cons.mp listed with rfl | listed
  · exact ⟨⟨"rax", 1, 8⟩, rfl⟩
  · obtain rfl := mem_singleton.mp listed
    cases isExternal

/-- The integer without a sign replaces the user's type. -/
theorem widening_loses : twoStructs.Built ∧
    (∀ constraint ∈ widening, ∀ id ∈ constraint.types, twoStructs.Present id) ∧
    ExternalType widening ⟨"rax", 1, 8⟩ 3 ∧
    (solveWorklist twoStructs widening 64).diagnostics.converged = true ∧
    (solveWorklist twoStructs widening 64).varTypes.lookup ⟨"rax", 1, 8⟩ ≠ some 3 := by
  refine ⟨twoStructs_built, widening_present, widening_external, ?_, ?_⟩ <;> decide +kernel

theorem solveWorklist_external_widening :
    ¬ ∀ visited ∈ solverHistory twoStructs widening 64,
      visited.Spares (rewriteEqualConstraints widening).constraints
        (representative widening ⟨"rax", 1, 8⟩) 3 := by
  intro spares
  have keeps := (solveWorklist_external twoStructs_built widening_present widening_external
    (by decide : 1 ≤ 64)).1 spares ⟨"rax", 1, 8⟩ (.refl _)
  have loses : (solveWorklist twoStructs widening 64).varTypes.lookup ⟨"rax", 1, 8⟩ ≠ some 3 := by
    decide +kernel
  exact loses keeps

end Solutions

end R2Sleigh.Types
