import R2Sleigh.Lib.Chains
import R2Sleigh.Types.Solver

/-!
Contract: the rewriting of equal variables.

Owns `Connected` and `representative`.
-/

namespace R2Sleigh.Types

open Lib Ssa List

variable {dsu dsu' : VarDsu} {interner : VarInterner} {v u : VarId}

/-- A chain of equality constraints leads from one variable to the other. -/
def Connected (constraints : List Constraint) : SSAVar → SSAVar → Prop :=
  Relation.EqvGen fun a b => ∃ source, Constraint.equal a b source ∈ constraints

private theorem eqvGen_insert {V : Type} {r : V → V → Prop} {a b u v : V} :
    Relation.EqvGen (fun x y => r x y ∨ (x = a ∧ y = b)) u v ↔ Relation.EqvGen r u v ∨
      (Relation.EqvGen r u a ∧ Relation.EqvGen r v b) ∨
      (Relation.EqvGen r u b ∧ Relation.EqvGen r v a) := by
  have flip : ∀ {x y}, Relation.EqvGen r x y → Relation.EqvGen r y x := .symm _ _
  have glue : ∀ {x y z}, Relation.EqvGen r x y → Relation.EqvGen r y z → Relation.EqvGen r x z :=
    .trans _ _ _
  constructor
  · intro joined
    induction joined with
    | rel x y pair =>
      rcases pair with old | ⟨rfl, rfl⟩
      · exact .inl (.rel _ _ old)
      · exact .inr (.inl ⟨.refl _, .refl _⟩)
    | refl x => exact .inl (.refl x)
    | symm x y _ ih => grind
    | trans x y z _ _ one other => grind
  · have keep : ∀ {x y}, Relation.EqvGen r x y →
        Relation.EqvGen (fun x y => r x y ∨ (x = a ∧ y = b)) x y :=
      fun old => old.mono fun _ _ pair => .inl pair
    have pair : Relation.EqvGen (fun x y => r x y ∨ (x = a ∧ y = b)) a b := .rel _ _ (.inr ⟨rfl, rfl⟩)
    rintro (old | ⟨first, second⟩ | ⟨first, second⟩)
    · exact keep old
    · exact ((keep first).trans _ _ _ pair).trans _ _ _ (keep second).symm
    · exact ((keep first).trans _ _ _ pair.symm).trans _ _ _ (keep second).symm

/-! ## The union-find structure -/

namespace VarDsu

/-- The parent of a variable that is not a root. -/
def next (dsu : VarDsu) (v : VarId) : Option VarId :=
  if dsu.parentOf v = v then none else some (dsu.parentOf v)

/-- Every climb ends, at a variable of the structure if it starts at one. -/
structure Forest (dsu : VarDsu) : Prop where
  ends : ∀ v, ∃ root, Ends dsu.next v root
  inside : ∀ v root, v < dsu.parent.length → Ends dsu.next v root → root < dsu.parent.length

/-- Another structure with the same roots. -/
structure Alike (dsu dsu' : VarDsu) : Prop where
  length : dsu'.parent.length = dsu.parent.length
  roots : ∀ v root, Ends dsu'.next v root ↔ Ends dsu.next v root

def SameRoot (dsu : VarDsu) (u v : VarId) : Prop := ∃ root, Ends dsu.next u root ∧ Ends dsu.next v root

theorem Alike.refl (dsu : VarDsu) : dsu.Alike dsu := ⟨rfl, fun _ _ => Iff.rfl⟩

theorem Alike.trans {dsu'' : VarDsu} (first : dsu.Alike dsu') (second : dsu'.Alike dsu'') :
    dsu.Alike dsu'' :=
  ⟨second.length.trans first.length, fun v root => (second.roots v root).trans (first.roots v root)⟩

theorem Forest.alike (forest : dsu.Forest) (alike : dsu.Alike dsu') :
    dsu'.Forest := by
  refine ⟨fun v => ?_, fun v root inside ends => ?_⟩
  · obtain ⟨root, ends⟩ := forest.ends v
    exact ⟨root, (alike.roots v root).mpr ends⟩
  · rw [alike.length] at inside ⊢
    exact forest.inside v root inside ((alike.roots v root).mp ends)

theorem Alike.sameRoot (alike : dsu.Alike dsu') :
    dsu'.SameRoot u v ↔ dsu.SameRoot u v := by
  simp only [SameRoot, alike.roots]

theorem next_eq_some {w : VarId} (step : dsu.next v = some w) :
    dsu.parentOf v = w ∧ w ≠ v ∧ v < dsu.parent.length := by
  unfold next at step
  split at step
  · cases step
  · rename_i notRoot
    cases step
    refine ⟨rfl, notRoot, ?_⟩
    by_contra outside
    exact notRoot (by simp [parentOf, List.getD, not_lt.mp outside])

theorem next_eq_none : dsu.next v = none ↔ dsu.parentOf v = v := by
  unfold next
  split <;> simp_all

theorem next_set {root : VarId} {rank : List Nat} (inside : v < dsu.parent.length)
    (apart : root ≠ v) : (VarDsu.mk (dsu.parent.set v root) rank).next v = some root ∧
      ∀ u, u ≠ v → (VarDsu.mk (dsu.parent.set v root) rank).next u = dsu.next u := by
  constructor
  · have parent : (VarDsu.mk (dsu.parent.set v root) rank).parentOf v = root := by
      simp [parentOf, List.getD, inside]
    rw [next, parent, if_neg apart]
  · intro u other
    have parent : (VarDsu.mk (dsu.parent.set v root) rank).parentOf u = dsu.parentOf u := by
      simp [parentOf, List.getD, List.getElem?_set_ne other.symm]
    rw [next, next, parent]

/-- The climb finds the end of the chain and leads its members straight there. -/
theorem findIn_spec {n : Nat} {root : VarId} (chain : EndsIn dsu.next n v root) :
    ∀ fuel, n ≤ fuel → (findIn fuel dsu v).2 = root ∧ dsu.Alike (findIn fuel dsu v).1 := by
  induction chain with
  | @stop v undefined =>
    intro fuel _
    cases fuel with
    | zero => exact ⟨rfl, .refl dsu⟩
    | succ fuel =>
      rw [findIn, next_eq_none.mp undefined]
      rw [if_pos rfl]
      exact ⟨rfl, .refl dsu⟩
  | @step n v w root step rest ih =>
    intro fuel enough
    obtain ⟨fuel, rfl⟩ : ∃ less, fuel = less + 1 := ⟨fuel - 1, by omega⟩
    obtain ⟨parent, apart, inside⟩ := next_eq_some step
    obtain ⟨found, alike⟩ := ih fuel (by omega)
    have ends : Ends dsu.next v root := ⟨_, .step step rest⟩
    have notRoot : root ≠ v := by
      rintro rfl
      rw [ends.next_eq_none] at step
      cases step
    have unfolded : findIn (fuel + 1) dsu v =
        (⟨(findIn fuel dsu w).1.parent.set v root, (findIn fuel dsu w).1.rank⟩, root) := by
      rw [findIn]
      dsimp only
      rw [parent, if_neg apart, found]
    rw [unfolded]
    refine ⟨rfl, alike.trans ⟨by simp, ?_⟩⟩
    have after := (alike.roots v root).mpr ends
    obtain ⟨w', step', rest'⟩ : ∃ w', (findIn fuel dsu w).1.next v = some w' ∧
        Ends (findIn fuel dsu w).1.next w' root := by
      obtain ⟨k, chain⟩ := after
      cases chain with
      | stop _ => exact absurd rfl notRoot
      | step step' rest' => exact ⟨_, step', ⟨_, rest'⟩⟩
    obtain ⟨shortcut, others⟩ := @next_set (findIn fuel dsu w).1 v root
      (findIn fuel dsu w).1.rank (alike.length ▸ inside) notRoot
    exact ends_shortcut step' rest' shortcut others

theorem Forest.find_spec (forest : dsu.Forest) (v : VarId) :
    Ends dsu.next v (dsu.find v).2 ∧ dsu.Alike (dsu.find v).1 := by
  obtain ⟨root, n, chain⟩ := forest.ends v
  have short : n ≤ dsu.parent.length := by
    have listed := chain.le_length (List.range dsu.parent.length) fun u isSome => by
      obtain ⟨w, step⟩ := Option.isSome_iff_exists.mp isSome
      exact mem_range.mpr (next_eq_some step).2.2
    rwa [length_range] at listed
  obtain ⟨found, alike⟩ := findIn_spec chain dsu.parent.length short
  rw [find, found]
  exact ⟨⟨n, chain⟩, alike⟩

theorem Forest.find_eq (forest : dsu.Forest) {root : VarId}
    (ends : Ends dsu.next v root) : (dsu.find v).2 = root :=
  (forest.find_spec v).1.unique ends

private theorem new_forest (size : Nat) : (VarDsu.new size).Forest ∧
    ∀ u v, (VarDsu.new size).SameRoot u v ↔ u = v := by
  have undefined : ∀ v, (VarDsu.new size).next v = none := fun v => by
    rw [next_eq_none, parentOf, VarDsu.new, List.getD]
    by_cases inside : v < size
    · simp [inside]
    · simp [not_lt.mp inside]
  have ends : ∀ {v root}, Ends (VarDsu.new size).next v root → v = root :=
    fun ends => (ends_of_undefined (undefined _)).unique ends
  refine ⟨⟨fun v => ⟨v, ends_of_undefined (undefined v)⟩, fun v root inside found => ?_⟩, fun u v => ?_⟩
  · rwa [← ends found]
  · constructor
    · rintro ⟨root, first, second⟩
      exact (ends first).trans (ends second).symm
    · rintro rfl
      exact ⟨u, ends_of_undefined (undefined u), ends_of_undefined (undefined u)⟩

theorem Forest.link (forest : dsu.Forest) {ra rb : VarId} {rank : List Nat}
    (apart : ra ≠ rb) (aEnd : dsu.next ra = none) (bEnd : dsu.next rb = none)
    (aInside : ra < dsu.parent.length) (bInside : rb < dsu.parent.length) :
    (VarDsu.mk (dsu.parent.set rb ra) rank).Forest ∧
      ∀ u v, (VarDsu.mk (dsu.parent.set rb ra) rank).SameRoot u v ↔ dsu.SameRoot u v ∨
        (Ends dsu.next u ra ∧ Ends dsu.next v rb) ∨ (Ends dsu.next u rb ∧ Ends dsu.next v ra) := by
  obtain ⟨linked, others⟩ := @next_set dsu rb ra rank bInside apart
  have roots := ends_link apart aEnd bEnd linked others
  refine ⟨⟨fun v => ?_, fun v root inside ends => ?_⟩, fun u v => ?_⟩
  · obtain ⟨root, ends⟩ := forest.ends v
    by_cases isB : root = rb
    · subst isB
      exact ⟨ra, (roots v ra).mpr (.inr ⟨ends, rfl⟩)⟩
    · exact ⟨root, (roots v root).mpr (.inl ⟨ends, isB⟩)⟩
  · rw [length_set] at inside ⊢
    rcases (roots v root).mp ends with ⟨old, _⟩ | ⟨_, rfl⟩
    · exact forest.inside v root inside old
    · exact aInside
  · constructor
    · rintro ⟨root, first, second⟩
      rcases (roots u root).mp first with ⟨uEnds, notB⟩ | ⟨uEnds, rfl⟩ <;>
        rcases (roots v _).mp second with ⟨vEnds, notB'⟩ | ⟨vEnds, same⟩
      · exact .inl ⟨root, uEnds, vEnds⟩
      · subst same
        exact .inr (.inl ⟨uEnds, vEnds⟩)
      · exact .inr (.inr ⟨uEnds, vEnds⟩)
      · exact .inl ⟨rb, uEnds, vEnds⟩
    · rintro (⟨root, first, second⟩ | ⟨first, second⟩ | ⟨first, second⟩)
      · by_cases isB : root = rb
        · subst isB
          exact ⟨ra, (roots u ra).mpr (.inr ⟨first, rfl⟩), (roots v ra).mpr (.inr ⟨second, rfl⟩)⟩
        · exact ⟨root, (roots u root).mpr (.inl ⟨first, isB⟩), (roots v root).mpr (.inl ⟨second, isB⟩)⟩
      · exact ⟨ra, (roots u ra).mpr (.inl ⟨first, apart⟩), (roots v ra).mpr (.inr ⟨second, rfl⟩)⟩
      · exact ⟨ra, (roots u ra).mpr (.inr ⟨first, rfl⟩), (roots v ra).mpr (.inl ⟨second, apart⟩)⟩

theorem sameRoot_iff {root : VarId} (ends : Ends dsu.next v root) :
    Ends dsu.next u root ↔ dsu.SameRoot u v := by
  constructor
  · exact fun uEnds => ⟨root, uEnds, ends⟩
  · rintro ⟨other, uEnds, vEnds⟩
    rwa [ends.unique vEnds]

theorem Forest.union (forest : dsu.Forest) {a b : VarId}
    (aInside : a < dsu.parent.length) (bInside : b < dsu.parent.length) :
    (dsu.union a b).Forest ∧ (dsu.union a b).parent.length = dsu.parent.length ∧
      ∀ u v, (dsu.union a b).SameRoot u v ↔ dsu.SameRoot u v ∨
        (dsu.SameRoot u a ∧ dsu.SameRoot v b) ∨ (dsu.SameRoot u b ∧ dsu.SameRoot v a) := by
  obtain ⟨aEnds, firstAlike⟩ := forest.find_spec a
  have forest' := forest.alike firstAlike
  obtain ⟨bEnds, secondAlike⟩ := forest'.find_spec b
  have alike := firstAlike.trans secondAlike
  have bothForest := forest.alike alike
  have aRoot := (alike.roots a _).mpr aEnds
  have bRoot := (secondAlike.roots b _).mpr bEnds
  have bEnds' := (firstAlike.roots b _).mp bEnds
  have aIn := forest.inside a _ aInside aEnds
  have bIn := forest.inside b _ bInside bEnds'
  rw [← alike.length] at aIn bIn
  have classA : ∀ u, Ends ((dsu.find a).1.find b).1.next u (dsu.find a).2 ↔ dsu.SameRoot u a :=
    fun u => (sameRoot_iff aRoot).trans alike.sameRoot
  have classB : ∀ u, Ends ((dsu.find a).1.find b).1.next u ((dsu.find a).1.find b).2 ↔
      dsu.SameRoot u b := fun u => (sameRoot_iff bRoot).trans alike.sameRoot
  unfold VarDsu.union
  dsimp only
  split
  · rename_i same
    refine ⟨bothForest, alike.length, fun u v => alike.sameRoot.trans ⟨.inl, ?_⟩⟩
    have together : dsu.SameRoot a b := ⟨_, aEnds, same ▸ bEnds'⟩
    have joins : ∀ {x y z w}, dsu.SameRoot x y → dsu.SameRoot y z → dsu.SameRoot w z → dsu.SameRoot x w := by
      rintro x y z w ⟨r, xr, yr⟩ ⟨s, ys, zs⟩ ⟨t, wt, zt⟩
      obtain rfl := yr.unique ys
      obtain rfl := zs.unique zt
      exact ⟨r, xr, wt⟩
    rintro (old | ⟨first, second⟩ | ⟨first, second⟩)
    · exact old
    · exact joins first together second
    · obtain ⟨r, ar, br⟩ := together
      exact joins first ⟨r, br, ar⟩ second
  · rename_i apart
    split
    · obtain ⟨linked, classes⟩ := @Forest.link _ bothForest _ _
        (if ((dsu.find a).1.find b).1.rankOf ((dsu.find a).1.find b).2 =
            ((dsu.find a).1.find b).1.rankOf (dsu.find a).2 then
          ((dsu.find a).1.find b).1.rank.set ((dsu.find a).1.find b).2
            (min (((dsu.find a).1.find b).1.rankOf ((dsu.find a).1.find b).2 + 1) (2 ^ 16 - 1))
          else ((dsu.find a).1.find b).1.rank)
        (Ne.symm apart) bRoot.next_eq_none aRoot.next_eq_none bIn aIn
      refine ⟨linked, by simpa using alike.length, fun u v => (classes u v).trans ?_⟩
      rw [alike.sameRoot, classA, classA, classB, classB]
      exact or_congr_right Or.comm
    · obtain ⟨linked, classes⟩ := @Forest.link _ bothForest _ _
        (if ((dsu.find a).1.find b).1.rankOf (dsu.find a).2 =
            ((dsu.find a).1.find b).1.rankOf ((dsu.find a).1.find b).2 then
          ((dsu.find a).1.find b).1.rank.set (dsu.find a).2
            (min (((dsu.find a).1.find b).1.rankOf (dsu.find a).2 + 1) (2 ^ 16 - 1))
          else ((dsu.find a).1.find b).1.rank)
        apart aRoot.next_eq_none bRoot.next_eq_none aIn bIn
      refine ⟨linked, by simpa using alike.length, fun u v => (classes u v).trans ?_⟩
      rw [alike.sameRoot, classA, classA, classB, classB]

/-- The union of the pairs that the equalities name. -/
def uniteAll (dsu : VarDsu) (raws : List RawConstraint) : VarDsu :=
  raws.foldl (fun dsu constraint =>
    match constraint with
    | .equal a b _ => dsu.union a b
    | _ => dsu) dsu

/-- The pairs of variables that the equalities of a list name. -/
def Equated (raws : List RawConstraint) (a b : VarId) : Prop := ∃ source, RawConstraint.equal a b source ∈ raws

/-- Its roots are the classes of the equalities so far. -/
theorem Forest.uniteAll {raws : List RawConstraint} : ∀ {dsu : VarDsu} {r : VarId → VarId → Prop},
    dsu.Forest → (∀ a b, Equated raws a b → a < dsu.parent.length ∧ b < dsu.parent.length) →
    (∀ u v, dsu.SameRoot u v ↔ Relation.EqvGen r u v) →
    (dsu.uniteAll raws).Forest ∧ (dsu.uniteAll raws).parent.length = dsu.parent.length ∧
      ∀ u v, (dsu.uniteAll raws).SameRoot u v ↔
        Relation.EqvGen (fun x y => r x y ∨ Equated raws x y) u v := by
  induction raws with
  | nil =>
    intro dsu r forest _ classes
    refine ⟨forest, rfl, fun u v => (classes u v).trans ?_⟩
    simp [Equated]
  | cons raw rest ih =>
    intro dsu r forest inside classes
    have restInside : ∀ a b, Equated rest a b → a < dsu.parent.length ∧ b < dsu.parent.length :=
      fun a b ⟨source, mem⟩ => inside a b ⟨source, mem_cons_of_mem _ mem⟩
    have skip : (∀ a b source, raw ≠ .equal a b source) →
        ∀ x y, Equated (raw :: rest) x y ↔ Equated rest x y := by
      intro other x y
      simp only [Equated, mem_cons]
      exact exists_congr fun source => or_iff_right (other x y source).symm
    cases raw with
    | equal a b source =>
      obtain ⟨aInside, bInside⟩ := inside a b ⟨source, mem_cons_self⟩
      obtain ⟨joined, length, joins⟩ := forest.union aInside bInside
      have classes' : ∀ u v, (dsu.union a b).SameRoot u v ↔
          Relation.EqvGen (fun x y => r x y ∨ (x = a ∧ y = b)) u v := by
        intro u v
        rw [joins, eqvGen_insert]
        simp only [classes]
      obtain ⟨united, lengthAll, all⟩ := ih joined
        (fun a b pair => length.symm ▸ restInside a b pair) classes'
      refine ⟨united, lengthAll.trans length, fun u v => (all u v).trans ?_⟩
      have pairs : ∀ x y, ((r x y ∨ (x = a ∧ y = b)) ∨ Equated rest x y) ↔
          (r x y ∨ Equated (.equal a b source :: rest) x y) := by
        intro x y
        rw [or_assoc]
        refine or_congr_right ⟨?_, ?_⟩
        · rintro (⟨rfl, rfl⟩ | ⟨source', mem⟩)
          · exact ⟨source, mem_cons_self⟩
          · exact ⟨source', mem_cons_of_mem _ mem⟩
        · rintro ⟨source', mem⟩
          rcases mem_cons.mp mem with same | mem
          · cases same
            exact .inl ⟨rfl, rfl⟩
          · exact .inr ⟨source', mem⟩
      simp only [pairs]
    | setType | subtype | hasCapability | callSig | fieldAccess =>
      simp only [skip nofun] at *
      exact ih forest restInside classes

end VarDsu

/-! ## Constraints over ids and representatives -/

namespace Constraint

/-- The variables that a constraint mentions. -/
def vars : Constraint → List SSAVar
  | .setType var _ _ => [var]
  | .equal a b _ => [a, b]
  | .subtype var _ _ => [var]
  | .hasCapability ptr _ _ _ => [ptr]
  | .callSig target args _ ret _ => target :: args ++ (ret.map Prod.fst).toList
  | .fieldAccess basePtr _ _ _ _ => [basePtr]

/-- The constraint over the ids that a table gives. -/
def rawBy (idOf : SSAVar → VarId) : Constraint → RawConstraint
  | .setType var ty source => .setType (idOf var) ty source
  | .equal a b source => .equal (idOf a) (idOf b) source
  | .subtype var ty source => .subtype (idOf var) ty source
  | .hasCapability ptr _ elemTy source => .hasCapability (idOf ptr) elemTy source
  | .callSig target args params ret source =>
    .callSig (idOf target) (args.map idOf) params (ret.map fun r => (idOf r.1, r.2)) source
  | .fieldAccess basePtr offset fieldTy fieldName source =>
    .fieldAccess (idOf basePtr) offset fieldTy fieldName source

/-- The constraint over representatives, an equality being none. -/
def compactBy (rep : SSAVar → VarId) : Constraint → Option CompactConstraint
  | .setType var ty source => some (.setType (rep var) ty source)
  | .equal _ _ _ => none
  | .subtype var ty source => some (.subtype (rep var) ty source)
  | .hasCapability ptr _ elemTy source => some (.hasCapability (rep ptr) elemTy source)
  | .callSig target args params ret source =>
    some (.callSig (rep target) (args.map rep) params (ret.map fun r => (rep r.1, r.2)) source)
  | .fieldAccess basePtr offset fieldTy fieldName source =>
    some (.fieldAccess (rep basePtr) offset fieldTy fieldName source)

end Constraint

/-- The variables of a list of constraints. -/
def mentioned (constraints : List Constraint) : List SSAVar := constraints.flatMap Constraint.vars

namespace VarInterner

/-- Ids are places in the list of variables. -/
def Consistent (interner : VarInterner) : Prop :=
  ∀ var id, interner.ids.lookup var = some id ↔ interner.vars[id]? = some var

/-- Interning keeps ids and adds the given variables. -/
structure Grows (interner interner' : VarInterner) (added : List SSAVar) : Prop where
  consistent : interner'.Consistent
  keeps : ∀ var id, interner.ids.lookup var = some id → interner'.ids.lookup var = some id
  vars : ∀ var, var ∈ interner'.vars ↔ var ∈ interner.vars ∨ var ∈ added

/-- A table that gives the ids of an interner. -/
def Reads (idOf : SSAVar → VarId) (interner : VarInterner) : Prop :=
  ∀ var id, interner.ids.lookup var = some id → idOf var = id

theorem Grows.reads {idOf : SSAVar → VarId} {interner' : VarInterner} {added : List SSAVar}
    (grows : interner.Grows interner' added) (reads : Reads idOf interner') : Reads idOf interner :=
  fun var id found => reads var id (grows.keeps var id found)

theorem Grows.trans {interner' interner'' : VarInterner} {added added' : List SSAVar}
    (first : interner.Grows interner' added) (second : interner'.Grows interner'' added') :
    interner.Grows interner'' (added ++ added') :=
  ⟨second.consistent, fun var id found => second.keeps var id (first.keeps var id found),
    fun var => by rw [second.vars, first.vars, mem_append, or_assoc]⟩

theorem default_consistent : VarInterner.default.Consistent := by
  intro var id
  constructor
  · intro found
    cases found
  · intro found
    cases found

theorem Consistent.intern (consistent : interner.Consistent) (var : SSAVar) :
    interner.Grows (interner.intern var).1 [var] ∧
      (interner.intern var).1.ids.lookup var = some (interner.intern var).2 := by
  unfold VarInterner.intern
  split
  · rename_i id found
    refine ⟨⟨consistent, fun _ _ known => known, fun other => ?_⟩, found⟩
    have known : var ∈ interner.vars := mem_of_getElem? ((consistent var id).mp found)
    simp only [mem_singleton]
    exact ⟨.inl, fun either => either.elim (·) fun same => same ▸ known⟩
  · rename_i fresh
    have absent : ∀ id : VarId, interner.vars[id]? ≠ some var := by
      intro id found
      rw [(consistent var id).mpr found] at fresh
      cases fresh
    refine ⟨⟨fun other id => ?_, fun other id found => ?_, fun other => ?_⟩, AList.lookup_insert _⟩
    · by_cases same : other = var
      · subst same
        rw [AList.lookup_insert, List.getElem?_append]
        split
        · constructor
          · intro isNew
            have equal : interner.vars.length = id := Option.some.inj isNew
            omega
          · exact fun found => absurd found (absent id)
        · rename_i outside
          constructor
          · intro isNew
            rw [← Option.some.inj isNew, Nat.sub_self]
            rfl
          · intro found
            obtain ⟨position, _⟩ := List.getElem?_eq_some_iff.mp found
            have outside : Nat.le interner.vars.length id := not_lt.mp outside
            exact congrArg some (show interner.vars.length = id from
              Nat.le_antisymm outside (Nat.le_of_sub_eq_zero (Nat.lt_one_iff.mp position)))
      · rw [AList.lookup_insert_ne same, consistent, List.getElem?_append]
        split
        · rfl
        · rename_i outside
          rw [List.getElem?_eq_none (not_lt.mp outside)]
          refine ⟨nofun, fun found => ?_⟩
          have isVar := mem_of_getElem? found
          exact absurd (mem_singleton.mp isVar) same
    · have differs : other ≠ var := by
        rintro rfl
        rw [fresh] at found
        cases found
      exact (AList.lookup_insert_ne differs).trans found
    · simp

theorem Consistent.internAll {vars : List SSAVar} : ∀ {interner : VarInterner}, interner.Consistent →
    interner.Grows (interner.internAll vars).1 vars ∧
      ∀ idOf, Reads idOf (interner.internAll vars).1 → (interner.internAll vars).2 = vars.map idOf := by
  induction vars with
  | nil =>
    intro interner consistent
    exact ⟨⟨consistent, fun _ _ known => known, by simp [VarInterner.internAll]⟩, fun _ _ => rfl⟩
  | cons var rest ih =>
    intro interner consistent
    obtain ⟨first, found⟩ := consistent.intern var
    obtain ⟨others, ids⟩ := ih first.consistent
    refine ⟨first.trans others, fun idOf reads => ?_⟩
    have id := reads var _ (others.keeps var _ found)
    rw [VarInterner.internAll, map_cons, id]
    exact congrArg _ (ids idOf reads)

theorem Consistent.internConstraint (consistent : interner.Consistent) (constraint : Constraint) :
    interner.Grows (interner.internConstraint constraint).1 constraint.vars ∧
      ∀ idOf, Reads idOf (interner.internConstraint constraint).1 →
        (interner.internConstraint constraint).2 = constraint.rawBy idOf := by
  cases constraint with
  | setType var ty source | subtype var ty source =>
    obtain ⟨grows, found⟩ := consistent.intern var
    exact ⟨grows, fun idOf reads => by rw [Constraint.rawBy, reads _ _ found]; rfl⟩
  | equal a b source =>
    obtain ⟨first, foundA⟩ := consistent.intern a
    obtain ⟨second, foundB⟩ := first.consistent.intern b
    exact ⟨first.trans second, fun idOf reads => by
      rw [Constraint.rawBy, reads _ _ foundB, reads _ _ (second.keeps _ _ foundA)]; rfl⟩
  | hasCapability ptr capability elemTy source =>
    obtain ⟨grows, found⟩ := consistent.intern ptr
    exact ⟨grows, fun idOf reads => by rw [Constraint.rawBy, reads _ _ found]; rfl⟩
  | fieldAccess basePtr offset fieldTy fieldName source =>
    obtain ⟨grows, found⟩ := consistent.intern basePtr
    exact ⟨grows, fun idOf reads => by rw [Constraint.rawBy, reads _ _ found]; rfl⟩
  | callSig target args params ret source =>
    obtain ⟨first, foundTarget⟩ := consistent.intern target
    obtain ⟨second, ids⟩ := @Consistent.internAll args _ first.consistent
    cases ret with
    | none =>
      have same : (interner.internConstraint (.callSig target args params none source)).1 =
          ((interner.intern target).1.internAll args).1 := rfl
      have third : VarInterner.Grows ((interner.intern target).1.internAll args).1
          ((interner.intern target).1.internAll args).1 [] :=
        ⟨second.consistent, fun _ _ known => known, by simp⟩
      refine ⟨(first.trans second).trans third, ?_⟩
      intro idOf reads
      rw [Constraint.rawBy, reads _ _ (second.keeps _ _ foundTarget), ← ids idOf reads]
      rfl
    | some ret =>
      obtain ⟨third, foundRet⟩ := second.consistent.intern ret.1
      refine ⟨(first.trans second).trans third, fun idOf reads => ?_⟩
      rw [Constraint.rawBy, reads _ _ (third.keeps _ _ (second.keeps _ _ foundTarget)),
        ← ids idOf (third.reads reads)]
      simp only [VarInterner.internConstraint, Option.map_some, reads _ _ foundRet]

theorem Consistent.internConstraints {constraints : List Constraint} :
    ∀ {interner : VarInterner}, interner.Consistent →
      interner.Grows (interner.internConstraints constraints).1 (mentioned constraints) ∧
        ∀ idOf, Reads idOf (interner.internConstraints constraints).1 →
          (interner.internConstraints constraints).2 = constraints.map (·.rawBy idOf) := by
  induction constraints with
  | nil =>
    intro interner consistent
    exact ⟨⟨consistent, fun _ _ known => known, by simp [VarInterner.internConstraints, mentioned]⟩,
      fun _ _ => rfl⟩
  | cons constraint rest ih =>
    intro interner consistent
    obtain ⟨first, raw⟩ := consistent.internConstraint constraint
    obtain ⟨others, raws⟩ := ih first.consistent
    refine ⟨first.trans others, fun idOf reads => ?_⟩
    rw [VarInterner.internConstraints, map_cons, ← raw idOf (others.reads reads), ← raws idOf reads]

end VarInterner

/-! ## Representatives -/

namespace VarDsu

/-- The root that the structure gives a variable. -/
def root (dsu : VarDsu) (v : VarId) : VarId := (dsu.find v).2

section

variable (forest : dsu.Forest)
include forest

theorem Forest.root_ends (v : VarId) : Ends dsu.next v (dsu.root v) :=
  (forest.find_spec v).1

private theorem Forest.root_eq_iff :
    dsu.root u = dsu.root v ↔ dsu.SameRoot u v := by
  constructor
  · intro same
    exact ⟨dsu.root u, forest.root_ends u, same ▸ forest.root_ends v⟩
  · rintro ⟨root, uEnds, vEnds⟩
    exact (forest.find_eq uEnds).trans (forest.find_eq vEnds).symm

theorem Forest.root_root (v : VarId) : dsu.root (dsu.root v) = dsu.root v :=
  forest.find_eq (ends_of_undefined (forest.root_ends v).next_eq_none)

theorem Forest.find_alike (alike : dsu.Alike dsu')
    (v : VarId) : (dsu'.find v).2 = dsu.root v ∧ dsu.Alike (dsu'.find v).1 := by
  obtain ⟨ends, shorter⟩ := (forest.alike alike).find_spec v
  exact ⟨((alike.roots v _).mp ends).unique (forest.root_ends v), alike.trans shorter⟩

theorem Forest.findAll {ids : List VarId} :
    ∀ {dsu' : VarDsu}, dsu.Alike dsu' →
      (dsu'.findAll ids).2 = ids.map dsu.root ∧ dsu.Alike (dsu'.findAll ids).1 := by
  induction ids with
  | nil => exact fun alike => ⟨rfl, alike⟩
  | cons id rest ih =>
    intro dsu' alike
    obtain ⟨found, shorter⟩ := forest.find_alike alike id
    obtain ⟨others, shortest⟩ := ih shorter
    exact ⟨by rw [VarDsu.findAll, map_cons, ← found, ← others], shortest⟩

theorem Forest.compact (alike : dsu.Alike dsu')
    (idOf : SSAVar → VarId) (constraint : Constraint) :
    (dsu'.compact (constraint.rawBy idOf)).2 = constraint.compactBy (fun var => dsu.root (idOf var)) ∧
      dsu.Alike (dsu'.compact (constraint.rawBy idOf)).1 := by
  cases constraint with
  | equal a b source => exact ⟨rfl, alike⟩
  | setType var ty source | subtype var ty source =>
    obtain ⟨found, shorter⟩ := forest.find_alike alike (idOf var)
    exact ⟨by rw [Constraint.compactBy, ← found]; rfl, shorter⟩
  | hasCapability ptr capability elemTy source =>
    obtain ⟨found, shorter⟩ := forest.find_alike alike (idOf ptr)
    exact ⟨by rw [Constraint.compactBy, ← found]; rfl, shorter⟩
  | fieldAccess basePtr offset fieldTy fieldName source =>
    obtain ⟨found, shorter⟩ := forest.find_alike alike (idOf basePtr)
    exact ⟨by rw [Constraint.compactBy, ← found]; rfl, shorter⟩
  | callSig target args params ret source =>
    obtain ⟨foundTarget, first⟩ := forest.find_alike alike (idOf target)
    obtain ⟨found, second⟩ := @Forest.findAll dsu forest (args.map idOf) _ first
    rw [map_map] at found
    cases ret with
    | none =>
      refine ⟨?_, second⟩
      rw [Constraint.compactBy, ← foundTarget]
      exact congrArg (fun args => some (CompactConstraint.callSig _ args params none source)) found
    | some ret =>
      obtain ⟨foundRet, third⟩ := forest.find_alike second (idOf ret.1)
      refine ⟨?_, third⟩
      rw [Constraint.compactBy, ← foundTarget, Option.map_some, ← foundRet]
      exact congrArg (fun args => some (CompactConstraint.callSig _ args params _ source)) found

theorem Forest.compactAll (idOf : SSAVar → VarId)
    {constraints : List Constraint} : ∀ {dsu' : VarDsu}, dsu.Alike dsu' →
      dsu'.compactAll (constraints.map (·.rawBy idOf)) =
        constraints.filterMap (·.compactBy fun var => dsu.root (idOf var)) := by
  induction constraints with
  | nil => exact fun _ => rfl
  | cons constraint rest ih =>
    intro dsu' alike
    obtain ⟨compacted, shorter⟩ := forest.compact alike idOf constraint
    have others := ih shorter
    rw [map_cons, VarDsu.compactAll, filterMap_cons]
    dsimp only
    rw [compacted, others]
    cases constraint.compactBy fun var => dsu.root (idOf var) <;> rfl

end

/-- Gathering the ids of each root. -/
def gather (dsu : VarDsu) (members : List (List VarId)) (ids : List VarId) :
    VarDsu × List (List VarId) :=
  ids.foldl (fun (dsu, members) id =>
    let (dsu, rep) := VarDsu.find dsu id
    (dsu, members.modify rep (· ++ [id]))) (dsu, members)

theorem Forest.gather (forest : dsu.Forest) {ids : List VarId} :
    ∀ {dsu' : VarDsu} {members : List (List VarId)}, dsu.Alike dsu' →
      dsu.Alike (dsu'.gather members ids).1 ∧
      (dsu'.gather members ids).2.length = members.length ∧
      ∀ rep < members.length, (dsu'.gather members ids).2.getD rep [] =
        members.getD rep [] ++ ids.filter fun id => dsu.root id = rep := by
  induction ids with
  | nil => exact fun alike => ⟨alike, rfl, fun rep _ => (append_nil _).symm⟩
  | cons id rest ih =>
    intro dsu' members alike
    obtain ⟨found, shorter⟩ := forest.find_alike alike id
    obtain ⟨shortest, length, gathered⟩ := @ih (dsu'.find id).1
      (members.modify (dsu'.find id).2 (· ++ [id])) shorter
    rw [length_modify] at length gathered
    refine ⟨shortest, length, fun rep inside => (gathered rep inside).trans ?_⟩
    rw [found]
    by_cases same : dsu.root id = rep
    · rw [filter_cons, if_pos (decide_eq_true same), same]
      simp [List.getD, inside]
    · simp [List.getD, same]

end VarDsu

def interned (constraints : List Constraint) : VarInterner :=
  (VarInterner.default.internConstraints constraints).1

def idOf (constraints : List Constraint) (var : SSAVar) : VarId :=
  ((interned constraints).ids.lookup var).getD 0

/-- The classes of the equalities. -/
def united (constraints : List Constraint) : VarDsu :=
  (VarDsu.new (interned constraints).vars.length).uniteAll
    (constraints.map (·.rawBy (idOf constraints)))

/-- The variable that stands for the class of a variable. -/
def representative (constraints : List Constraint) (var : SSAVar) : VarId :=
  (united constraints).root (idOf constraints var)

section Rewriting

variable {constraints : List Constraint}

theorem interned_grows : VarInterner.default.Grows (interned constraints) (mentioned constraints) :=
  (@VarInterner.Consistent.internConstraints constraints _ VarInterner.default_consistent).1

theorem reads_idOf : VarInterner.Reads (idOf constraints) (interned constraints) :=
  fun var id found => by rw [idOf, found, Option.getD_some]

private theorem raw_eq : (VarInterner.default.internConstraints constraints).2 =
    constraints.map (·.rawBy (idOf constraints)) :=
  (@VarInterner.Consistent.internConstraints constraints _ VarInterner.default_consistent).2 _ reads_idOf

theorem mem_interned {var : SSAVar} : var ∈ (interned constraints).vars ↔ var ∈ mentioned constraints := by
  rw [interned_grows.vars]
  simp [VarInterner.default]

theorem getElem?_idOf {var : SSAVar} (isMentioned : var ∈ mentioned constraints) :
    (interned constraints).vars[idOf constraints var]? = some var := by
  obtain ⟨id, found⟩ := mem_iff_getElem?.mp (mem_interned.mpr isMentioned)
  have known := (interned_grows.consistent var id).mpr found
  rwa [reads_idOf var id known]

private theorem idOf_eq_of_getElem? {var : SSAVar} {id : VarId}
    (found : (interned constraints).vars[id]? = some var) : idOf constraints var = id :=
  reads_idOf var id ((interned_grows.consistent var id).mpr found)

theorem idOf_lt {var : SSAVar} (isMentioned : var ∈ mentioned constraints) :
    idOf constraints var < (interned constraints).vars.length :=
  (List.getElem?_eq_some_iff.mp (getElem?_idOf isMentioned)).1

theorem equated_iff {a b : VarId} :
    VarDsu.Equated (constraints.map (·.rawBy (idOf constraints))) a b ↔
      ∃ x y source, Constraint.equal x y source ∈ constraints ∧ idOf constraints x = a ∧
        idOf constraints y = b := by
  constructor
  · rintro ⟨source, mem⟩
    obtain ⟨constraint, listed, same⟩ := mem_map.mp mem
    cases constraint with
    | equal x y source' =>
      cases same
      exact ⟨x, y, source, listed, rfl, rfl⟩
    | setType | subtype | hasCapability | callSig | fieldAccess => cases same
  · rintro ⟨x, y, source, listed, rfl, rfl⟩
    exact ⟨source, mem_map.mpr ⟨_, listed, rfl⟩⟩

theorem mentioned_of_equal {x y : SSAVar} {source : ConstraintSource}
    (listed : Constraint.equal x y source ∈ constraints) :
    x ∈ mentioned constraints ∧ y ∈ mentioned constraints :=
  ⟨mem_flatMap.mpr ⟨_, listed, by simp [Constraint.vars]⟩,
    mem_flatMap.mpr ⟨_, listed, by simp [Constraint.vars]⟩⟩

theorem united_spec : (united constraints).Forest ∧
    (united constraints).parent.length = (interned constraints).vars.length ∧
    ∀ u v, (united constraints).SameRoot u v ↔ Relation.EqvGen
      (VarDsu.Equated (constraints.map (·.rawBy (idOf constraints)))) u v := by
  obtain ⟨forest, classes⟩ := VarDsu.new_forest (interned constraints).vars.length
  have size : (VarDsu.new (interned constraints).vars.length).parent.length =
      (interned constraints).vars.length := length_range
  have inside : ∀ a b, VarDsu.Equated (constraints.map (·.rawBy (idOf constraints))) a b →
      a < (VarDsu.new (interned constraints).vars.length).parent.length ∧
        b < (VarDsu.new (interned constraints).vars.length).parent.length := by
    intro a b pair
    obtain ⟨x, y, source, listed, rfl, rfl⟩ := equated_iff.mp pair
    obtain ⟨xMentioned, yMentioned⟩ := mentioned_of_equal listed
    rw [size]
    exact ⟨idOf_lt xMentioned, idOf_lt yMentioned⟩
  have discrete : ∀ u v, (VarDsu.new (interned constraints).vars.length).SameRoot u v ↔
      Relation.EqvGen (fun _ _ => False) u v := by
    intro u v
    rw [classes]
    constructor
    · rintro rfl
      exact .refl u
    · intro joined
      induction joined with
      | rel _ _ pair => exact pair.elim
      | refl _ => rfl
      | symm _ _ _ same => exact same.symm
      | trans _ _ _ _ _ one other => exact one.trans other
  obtain ⟨united, length, joins⟩ := forest.uniteAll inside discrete
  refine ⟨united, length.trans size, fun u v => (joins u v).trans ?_⟩
  simp only [false_or]

/-- Variables have one representative exactly when equalities connect them. -/
theorem representative_eq_iff {a b : SSAVar} (aMentioned : a ∈ mentioned constraints)
    (bMentioned : b ∈ mentioned constraints) :
    representative constraints a = representative constraints b ↔ Connected constraints a b := by
  obtain ⟨forest, _, classes⟩ := @united_spec constraints
  rw [representative, representative, forest.root_eq_iff, classes]
  constructor
  · intro joined
    have back : ∀ {u v}, Relation.EqvGen
        (VarDsu.Equated (constraints.map (·.rawBy (idOf constraints)))) u v →
        Connected constraints ((interned constraints).vars.getD u a)
          ((interned constraints).vars.getD v a) := by
      intro u v joined
      induction joined with
      | rel u v pair =>
        obtain ⟨x, y, source, listed, rfl, rfl⟩ := equated_iff.mp pair
        obtain ⟨xMentioned, yMentioned⟩ := mentioned_of_equal listed
        rw [List.getD, List.getD, getElem?_idOf xMentioned, getElem?_idOf yMentioned]
        exact .rel _ _ ⟨source, listed⟩
      | refl u => exact .refl _
      | symm _ _ _ ih => exact ih.symm
      | trans _ _ _ _ _ one other => exact one.trans _ _ _ other
    have connected := back joined
    rwa [List.getD, List.getD, getElem?_idOf aMentioned, getElem?_idOf bMentioned] at connected
  · intro connected
    clear aMentioned bMentioned
    induction connected with
    | rel x y pair =>
      obtain ⟨source, listed⟩ := pair
      exact .rel _ _ (equated_iff.mpr ⟨x, y, source, listed, rfl, rfl⟩)
    | refl x => exact .refl _
    | symm _ _ _ ih => exact ih.symm
    | trans _ _ _ _ _ one other => exact one.trans _ _ _ other

theorem representative_lt {var : SSAVar} (isMentioned : var ∈ mentioned constraints) :
    representative constraints var < (interned constraints).vars.length := by
  obtain ⟨forest, length, _⟩ := @united_spec constraints
  rw [← length]
  exact forest.inside _ _ (length ▸ idOf_lt isMentioned) (forest.root_ends _)

/-- The rewritten constraints are those over representatives, and the members of a
class are the variables of that representative. -/
theorem rewriteEqualConstraints_spec :
    (rewriteEqualConstraints constraints).constraints =
      constraints.filterMap (·.compactBy (representative constraints)) ∧
    (rewriteEqualConstraints constraints).vars = (interned constraints).vars ∧
    ∀ rep < (interned constraints).vars.length,
      (rewriteEqualConstraints constraints).classMembers.getD rep [] =
        (List.range (interned constraints).vars.length).filter
          fun id => (united constraints).root id = rep := by
  obtain ⟨forest, _, _⟩ := @united_spec constraints
  obtain ⟨alike, _, gathered⟩ := @VarDsu.Forest.gather _ forest
    (List.range (interned constraints).vars.length) _
    (List.replicate (interned constraints).vars.length []) (.refl _)
  have unfolded : rewriteEqualConstraints constraints =
      ⟨(((united constraints).gather (List.replicate (interned constraints).vars.length [])
          (List.range (interned constraints).vars.length)).1).compactAll
          (constraints.map (·.rawBy (idOf constraints))),
        ((united constraints).gather (List.replicate (interned constraints).vars.length [])
          (List.range (interned constraints).vars.length)).2, (interned constraints).vars⟩ := by
    rw [united, ← raw_eq]
    rfl
  rw [unfolded]
  refine ⟨forest.compactAll _ alike, rfl, fun rep inside => ?_⟩
  rw [gathered rep (by simpa using inside)]
  simp [List.getD, inside]

theorem connected_mentioned {a b : SSAVar} (connected : Connected constraints a b) :
    a = b ∨ (a ∈ mentioned constraints ∧ b ∈ mentioned constraints) := by
  induction connected with
  | rel x y pair =>
    obtain ⟨source, listed⟩ := pair
    exact .inr (mentioned_of_equal listed)
  | refl x => exact .inl rfl
  | symm x y _ ih =>
    exact ih.imp Eq.symm And.symm
  | trans x y z _ _ one other =>
    rcases one with rfl | ⟨xMentioned, _⟩
    · exact other
    · rcases other with rfl | ⟨_, zMentioned⟩
      · exact .inr ⟨xMentioned, by assumption⟩
      · exact .inr ⟨xMentioned, zMentioned⟩

theorem foldl_members_lookup (vars : List SSAVar) (ty : TypeId) (var : SSAVar) {members : List VarId} :
    ∀ varTypes : HashMap SSAVar TypeId,
      (members.foldl (fun varTypes mem =>
        match vars[mem]? with
        | some var => varTypes.insert var ty
        | none => varTypes) varTypes).lookup var =
      if ∃ mem ∈ members, vars[mem]? = some var then some ty else varTypes.lookup var := by
  induction members with
  | nil => simp
  | cons mem rest ih =>
    intro varTypes
    rw [foldl_cons, ih]
    simp only [exists_mem_cons_iff]
    by_cases later : ∃ mem ∈ rest, vars[mem]? = some var
    · rw [if_pos later, if_pos (.inr later)]
    · cases found : vars[mem]? with
      | none => simp [later]
      | some other =>
        by_cases same : other = var
        · subst same
          simp [AList.lookup_insert]
        · simp [later, same, AList.lookup_insert_ne (Ne.symm same)]

/-- The classes written one after the other, those with the variable all giving the
one type. -/
theorem foldl_classes_lookup {A : Type} {write : HashMap SSAVar TypeId → A → HashMap SSAVar TypeId}
    {hits : A → Option TypeId} {var : SSAVar} {answer : Option TypeId} {entries : List A} :
    (∀ entry ∈ entries, ∀ varTypes, (write varTypes entry).lookup var =
      (hits entry).or (varTypes.lookup var)) →
    (∀ entry ∈ entries, ∀ ty, hits entry = some ty → answer = some ty) →
    ∀ varTypes, (entries.foldl write varTypes).lookup var =
      if ∃ entry ∈ entries, (hits entry).isSome then answer else varTypes.lookup var := by
  induction entries with
  | nil => simp
  | cons entry rest ih =>
    intro writes agrees varTypes
    obtain ⟨writesFirst, writesRest⟩ := forall_mem_cons.mp writes
    obtain ⟨agreesFirst, agreesRest⟩ := forall_mem_cons.mp agrees
    rw [foldl_cons, ih writesRest agreesRest, writesFirst]
    simp only [exists_mem_cons_iff]
    by_cases later : ∃ entry ∈ rest, (hits entry).isSome
    · rw [if_pos later, if_pos (.inr later)]
    · cases hit : hits entry with
      | none => simp [later]
      | some ty => simp [agreesFirst ty hit]

/-- A solution gives each variable the type of its representative. -/
theorem materializeSolution_lookup {state : SolverState}
    (length : state.assignments.length = (interned constraints).vars.length)
    (vars : state.vars = (interned constraints).vars)
    (onlyRoots : ∀ id assignment, state.assignment id = some assignment →
      (united constraints).root id = id) (var : SSAVar) :
    (materializeSolution state (rewriteEqualConstraints constraints).classMembers).varTypes.lookup var =
      if var ∈ mentioned constraints then
        (state.assignment (representative constraints var)).map Assignment.ty
      else none := by
  obtain ⟨_, _, members⟩ := @rewriteEqualConstraints_spec constraints
  have read : ∀ entry ∈ state.assignments.zipIdx,
      state.assignment entry.2 = entry.1 ∧ entry.2 < (interned constraints).vars.length := by
    intro entry listed
    have stored := mem_zipIdx_iff_getElem?.mp listed
    refine ⟨by rw [SolverState.assignment, List.getD, stored, Option.getD_some], ?_⟩
    exact length ▸ (List.getElem?_eq_some_iff.mp stored).1
  have hasMember : ∀ id, (∃ mem ∈ (List.range (interned constraints).vars.length).filter
      (fun other => (united constraints).root other = id), state.vars[mem]? = some var) ↔
      var ∈ mentioned constraints ∧ representative constraints var = id := by
    intro id
    constructor
    · rintro ⟨mem, inClass, found⟩
      rw [vars] at found
      have place := idOf_eq_of_getElem? found
      refine ⟨mem_interned.mp (mem_of_getElem? found), ?_⟩
      rw [representative, place]
      simpa using (mem_filter.mp inClass).2
    · rintro ⟨isMentioned, same⟩
      refine ⟨idOf constraints var, mem_filter.mpr ⟨mem_range.mpr (idOf_lt isMentioned), ?_⟩,
        vars ▸ getElem?_idOf isMentioned⟩
      exact decide_eq_true same
  unfold materializeSolution
  rw [@foldl_classes_lookup _ _ (fun entry => if var ∈ mentioned constraints ∧
      representative constraints var = entry.2 then entry.1.map Assignment.ty else none) var
    ((state.assignment (representative constraints var)).map Assignment.ty)]
  · by_cases isMentioned : var ∈ mentioned constraints
    · rw [if_pos isMentioned]
      cases assigned : state.assignment (representative constraints var) with
      | none =>
        split
        · rfl
        · rfl
      | some assignment =>
        rw [if_pos]
        refine ⟨(some assignment, representative constraints var), ?_, by simp [isMentioned]⟩
        rw [mem_zipIdx_iff_getElem?]
        have inside : representative constraints var < state.assignments.length :=
          length ▸ representative_lt isMentioned
        rw [SolverState.assignment, List.getD, List.getElem?_eq_getElem inside] at assigned
        rw [List.getElem?_eq_getElem inside]
        exact congrArg some assigned
    · rw [if_neg isMentioned, if_neg]
      · rfl
      · simp [isMentioned]
  · intro entry listed varTypes
    obtain ⟨stored, inside⟩ := read entry listed
    obtain ⟨assigned, id⟩ := entry
    cases assigned with
    | none => simp
    | some assignment =>
      have nonempty : (List.range (interned constraints).vars.length).filter
          (fun other => (united constraints).root other = id) ≠ [] :=
        ne_nil_of_mem (mem_filter.mpr ⟨mem_range.mpr inside, by
          simpa using onlyRoots id assignment stored⟩)
      dsimp only
      rw [members id inside, if_neg nonempty]
      refine (foldl_members_lookup _ _ _ _).trans ?_
      simp only [hasMember]
      split <;> rfl
  · intro entry listed ty hit
    obtain ⟨stored, inside⟩ := read entry listed
    split at hit
    · rename_i same
      rw [same.2, stored, hit]
    · cases hit

end Rewriting

end R2Sleigh.Types
