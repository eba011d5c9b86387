import Mathlib.Data.Finset.Max
import Mathlib.Data.Set.Finite.Lattice

/-!
Contract: sequences that stop changing, and dependencies among them.

Owns `Settles`.
-/

namespace R2Sleigh.Lib

open List

variable {A B V : Type}

theorem exists_common_bound {P : A → Nat → Prop} (l : List A)
    (each : ∀ a ∈ l, ∃ bound, ∀ n, bound ≤ n → P a n) :
    ∃ bound, ∀ a ∈ l, ∀ n, bound ≤ n → P a n := by
  choose! bound holds using each
  obtain ⟨most, below⟩ := ((l.finite_toSet).image bound).bddAbove
  exact ⟨most, fun a mem n large => holds a mem n (le_trans (below ⟨a, mem, rfl⟩) large)⟩

/-- From some index on, the sequence does not change. -/
def Settles (run : Nat → A) : Prop := ∃ bound, ∀ n, bound ≤ n → run n = run bound

namespace Settles

theorem after {run : Nat → A} (settles : Settles run) :
    ∃ bound, ∀ n m, bound ≤ n → bound ≤ m → run n = run m := by
  obtain ⟨bound, constant⟩ := settles
  exact ⟨bound, fun n m large large' => (constant n large).trans (constant m large').symm⟩

theorem of_eventually_eq {run run' : Nat → A} (settles : Settles run') (bound : Nat)
    (same : ∀ n, bound ≤ n → run n = run' n) : Settles run := by
  obtain ⟨last, constant⟩ := settles.after
  refine ⟨max bound last, fun n large => ?_⟩
  rw [same n (by omega), same (max bound last) (by omega)]
  exact constant n _ (by omega) (by omega)

theorem of_eq {run : Nat → A} {a : A} (bound : Nat) (same : ∀ n, bound ≤ n → run n = a) :
    Settles run :=
  ⟨bound, fun n large => (same n large).trans (same bound le_rfl).symm⟩

theorem of_step {run : Nat → A} (bound : Nat) (same : ∀ n, bound ≤ n → run (n + 1) = run n) :
    Settles run := by
  refine ⟨bound, fun n large => ?_⟩
  induction n, large using Nat.le_induction with
  | base => rfl
  | succ n large ih => exact (same n large).trans ih

/-- A sequence that from some index on stays, or is set to the one value that can
be set. -/
theorem of_updates {run : Nat → A} (bound : Nat) (value : A → Prop)
    (unique : ∀ a b, value a → value b → a = b)
    (updates : ∀ n, bound ≤ n → run (n + 1) = run n ∨ value (run (n + 1))) : Settles run := by
  by_cases never : ∀ n, bound ≤ n → run (n + 1) = run n
  · exact of_step bound never
  · push Not at never
    obtain ⟨first, large, changed⟩ := never
    have isSet : ∀ n, first < n → value (run n) := by
      intro n later
      induction n, later using Nat.le_induction with
      | base => exact (updates first large).resolve_left changed
      | succ n later ih =>
        rcases updates n (by omega) with same | isSet
        · rw [same]
          exact ih
        · exact isSet
    exact of_step (first + 1) fun n later =>
      unique _ _ (isSet (n + 1) (by omega)) (isSet n later)

theorem of_monotone {holds : Nat → Prop} (kept : ∀ n, holds n → holds (n + 1)) : Settles holds := by
  by_cases never : ∀ n, ¬ holds n
  · exact of_eq 0 fun n _ => eq_false (never n)
  · push Not at never
    obtain ⟨first, here⟩ := never
    exact of_eq first fun n large => eq_true (Nat.le_induction here (fun n _ => kept n) n large)

theorem of_kept {run : Nat → Option A} (kept : ∀ n a, run n = some a → run (n + 1) = some a) :
    Settles run := by
  by_cases never : ∀ n a, run n ≠ some a
  · exact of_eq 0 fun n _ => Option.eq_none_iff_forall_ne_some.mpr (never n)
  · push Not at never
    obtain ⟨first, a, here⟩ := never
    exact of_eq first (Nat.le_induction here fun n _ => kept n a)

theorem pair {run : Nat → A} {run' : Nat → B} (first : Settles run) (second : Settles run') :
    Settles fun n => (run n, run' n) := by
  obtain ⟨bound, constant⟩ := first.after
  obtain ⟨bound', constant'⟩ := second.after
  refine ⟨max bound bound', fun n large => Prod.ext ?_ ?_⟩
  · exact constant n (max bound bound') (by omega) (by omega)
  · exact constant' n (max bound bound') (by omega) (by omega)

theorem map {run : Nat → A} (f : A → B) (settles : Settles run) : Settles fun n => f (run n) :=
  let ⟨bound, constant⟩ := settles
  ⟨bound, fun n large => congrArg f (constant n large)⟩

theorem together (run : B → Nat → A) (l : List B) (settles : ∀ b ∈ l, Settles (run b)) :
    ∃ bound, ∀ b ∈ l, ∀ n m, bound ≤ n → bound ≤ m → run b n = run b m := by
  obtain ⟨bound, constant⟩ := exists_common_bound (P := fun b n => ∀ m, n ≤ m → run b m = run b n)
    l fun b mem => by
      obtain ⟨bound, constant⟩ := (settles b mem).after
      exact ⟨bound, fun n large m later => constant m n (le_trans large later) large⟩
  exact ⟨bound, fun b mem n m large large' => (constant b mem bound le_rfl n large).trans
    (constant b mem bound le_rfl m large').symm⟩

end Settles

/-! ## Passes over a list -/

section Passes

variable {State Item Key Entry : Type} (step : State → Item → State) (key : Item → Option Key)
  (read : State → Key → Entry) (holds : State → Prop)

theorem foldl_frame (items : List Item) :
    (∀ state, holds state → ∀ item ∈ items, holds (step state item)) →
    (∀ state, holds state → ∀ item ∈ items, ∀ k, key item ≠ some k →
      read (step state item) k = read state k) →
    ∀ state, holds state → holds (items.foldl step state) ∧
      ∀ k ∉ items.filterMap key, read (items.foldl step state) k = read state k := by
  induction items with
  | nil => exact fun _ _ state holdsState => ⟨holdsState, fun _ _ => rfl⟩
  | cons item rest ih =>
    intro kept frame state holdsState
    obtain ⟨holdsAfter, outside⟩ := ih
      (fun s h i m => kept s h i (mem_cons_of_mem _ m))
      (fun s h i m => frame s h i (mem_cons_of_mem _ m)) (step state item)
      (kept state holdsState item mem_cons_self)
    refine ⟨holdsAfter, fun k absent => ?_⟩
    have notHere : key item ≠ some k := fun isKey =>
      absent (mem_filterMap.mpr ⟨item, mem_cons_self, isKey⟩)
    have notRest : k ∉ rest.filterMap key := fun mem => by
      obtain ⟨item', inRest, isKey⟩ := mem_filterMap.mp mem
      exact absent (mem_filterMap.mpr ⟨item', mem_cons_of_mem _ inRest, isKey⟩)
    exact (outside k notRest).trans (frame state holdsState item mem_cons_self k notHere)

section

variable {before after : List Item} {item : Item} {state : State}
  (kept : ∀ state, holds state → ∀ i ∈ before ++ item :: after, holds (step state i))
  (frame : ∀ state, holds state → ∀ i ∈ before ++ item :: after, ∀ k, key i ≠ some k → read (step state i) k = read state k)
  (nodup : ((before ++ item :: after).filterMap key).Nodup) (holdsState : holds state)
include kept frame nodup holdsState

/-- In a pass whose items each write the entry of their own key, and no two the
same, an item is met in a state whose entries are final for the items before it, and
as they were for all others; what it writes is final. -/
theorem foldl_mixed :
    let mixed := before.foldl step state
    let final := (before ++ item :: after).foldl step state
    holds mixed ∧ (∀ k ∈ before.filterMap key, read mixed k = read final k) ∧
      (∀ k ∉ before.filterMap key, read mixed k = read state k) ∧
      ∀ k, key item = some k → k ∉ before.filterMap key ∧
        read final k = read (step mixed item) k := by
  intro mixed final
  have inBefore : ∀ i ∈ before, i ∈ before ++ item :: after := fun i m => mem_append_left _ m
  have inLater : ∀ i ∈ item :: after, i ∈ before ++ item :: after := fun i m =>
    mem_append_right _ m
  have inAfter : ∀ i ∈ after, i ∈ before ++ item :: after := fun i m =>
    inLater i (mem_cons_of_mem _ m)
  obtain ⟨holdsMixed, early⟩ := foldl_frame step key read holds before
    (fun s h i m => kept s h i (inBefore i m)) (fun s h i m => frame s h i (inBefore i m))
    state holdsState
  obtain ⟨-, late⟩ := foldl_frame step key read holds (item :: after)
    (fun s h i m => kept s h i (inLater i m)) (fun s h i m => frame s h i (inLater i m))
    mixed holdsMixed
  obtain ⟨-, last⟩ := foldl_frame step key read holds after
    (fun s h i m => kept s h i (inAfter i m)) (fun s h i m => frame s h i (inAfter i m))
    (step mixed item) (kept mixed holdsMixed item (inLater item mem_cons_self))
  have isFinal : final = (item :: after).foldl step mixed := foldl_append
  rw [filterMap_append] at nodup
  have apart : ∀ k ∈ before.filterMap key, k ∉ (item :: after).filterMap key :=
    disjoint_left.mp (disjoint_of_nodup_append nodup)
  refine ⟨holdsMixed, fun k written => ?_, early, fun k isKey => ⟨fun written => ?_, ?_⟩⟩
  · rw [isFinal]
    exact (late k (apart k written)).symm
  · exact apart k written (mem_filterMap.mpr ⟨item, mem_cons_self, isKey⟩)
  · rw [isFinal, foldl_cons]
    refine last k ?_
    have nodupLater := (nodup_append.mp nodup).2.1
    rw [filterMap_cons_some isKey] at nodupLater
    exact (nodup_cons.mp nodupLater).1

end

theorem foldl_raised (raised : State → Bool) (items : List Item) :
    ∀ state, raised (items.foldl step state) = true → raised state = true ∨
      ∃ before item after, items = before ++ item :: after ∧
        raised (before.foldl step state) = false ∧
        raised (step (before.foldl step state) item) = true := by
  induction items with
  | nil => exact fun _ isRaised => .inl isRaised
  | cons item rest ih =>
    intro state isRaised
    cases wasRaised : raised state with
    | true => exact .inl rfl
    | false =>
      rcases ih (step state item) isRaised with here | ⟨before, item', after, rfl, low, raises⟩
      · exact .inr ⟨[], item, rest, rfl, wasRaised, here⟩
      · exact .inr ⟨item :: before, item', after, rfl, low, raises⟩

theorem foldl_low (raised : State → Bool)
    (up : ∀ state item, raised state = true → raised (step state item) = true) (items : List Item) :
    ∀ state, raised (items.foldl step state) = false → raised state = false := by
  induction items with
  | nil => exact fun _ low => low
  | cons item rest ih =>
    intro state low
    have next := ih (step state item) low
    cases wasRaised : raised state with
    | false => rfl
    | true => exact absurd (up state item wasRaised) (by rw [next]; exact Bool.false_ne_true)

end Passes

theorem eq_of_filterMap_nodup {f : A → Option B} {l : List A}
    (nodup : (l.filterMap f).Nodup) {a b : A} {c : B} (memberA : a ∈ l) (memberB : b ∈ l)
    (yieldsA : f a = some c) (yieldsB : f b = some c) : a = b := by
  have pairs : l.Pairwise fun x y => f x = some c → f y ≠ some c :=
    (pairwise_filterMap.mp nodup).imp fun differ yields yields' => differ c yields c yields' rfl
  have symmetric : Std.Symm fun x y => f x = some c → f y ≠ some c :=
    ⟨fun _ _ differ yields yields' => differ yields' yields⟩
  by_contra apart
  exact pairs.forall memberA memberB apart yieldsA yieldsB

/-! ## Taking turns -/

section Turns

variable {State Item : Type} (step : State → Item → State) (items : List Item) (start : State)

/-- The states when the items of a list take turns. -/
def turns : Nat → State
  | 0 => start
  | t + 1 => (items[t % items.length]?).elim (turns t) (step (turns t))

theorem turns_succ (t : Nat) : turns step items start (t + 1) = turns step items start t ∨
    ∃ item ∈ items, turns step items start (t + 1) = step (turns step items start t) item := by
  rw [turns]
  cases found : items[t % items.length]? with
  | none => exact .inl rfl
  | some item => exact .inr ⟨item, mem_of_getElem? found, rfl⟩

theorem foldl_take_turns (n : Nat) {k : Nat} (small : k ≤ items.length) :
    (items.take k).foldl step (turns step items start (n * items.length)) =
      turns step items start (n * items.length + k) := by
  induction k with
  | zero => rfl
  | succ k ih =>
    have inside : k < items.length := small
    have turn : (n * items.length + k) % items.length = k := by
      rw [Nat.mul_comm, Nat.mul_add_mod, Nat.mod_eq_of_lt inside]
    rw [take_add_one, foldl_append, ih (Nat.le_of_lt inside), getElem?_eq_getElem inside,
      ← Nat.add_assoc, turns, turn, getElem?_eq_getElem inside]
    rfl

/-- A pass over the list is one turn of each item. -/
theorem foldl_turns (n : Nat) : items.foldl step (turns step items start (n * items.length)) =
    turns step items start ((n + 1) * items.length) := by
  have pass := foldl_take_turns step items start n (Nat.le_refl _)
  rw [take_length] at pass
  rw [pass, Nat.add_mul, Nat.one_mul]

end Turns

theorem exists_iterate_lt {f : A → A} {a : A} {m n : Nat} (earlier : m < n)
    (comesBack : f^[n] a = f^[m] a) (k : Nat) : ∃ i < n, f^[k] a = f^[i] a := by
  induction k with
  | zero => exact ⟨0, Nat.lt_of_le_of_lt (Nat.zero_le m) earlier, rfl⟩
  | succ k ih =>
    obtain ⟨i, small, same⟩ := ih
    have next : f^[k + 1] a = f^[i + 1] a := by
      rw [Function.iterate_succ_apply', Function.iterate_succ_apply', same]
    by_cases last : i + 1 = n
    · exact ⟨m, earlier, next.trans (last ▸ comesBack)⟩
    · exact ⟨i + 1, by omega, next⟩

/-- A loop that returns after a round that changes nothing returns exactly if some
round changes nothing. -/
theorem returns_iff_of_rounds {loop : Nat → A → Option A} {round : A → A × Bool}
    (zero : ∀ a, loop 0 a = none)
    (succ : ∀ fuel a, loop (fuel + 1) a =
      if (round a).2 then loop fuel (round a).1 else some (round a).1) (start : A) :
    (∃ fuel, (loop fuel start).isSome) ↔
      ∃ n, (round ((fun a => (round a).1)^[n] start)).2 = false := by
  constructor
  · rintro ⟨fuel, returns⟩
    induction fuel generalizing start with
    | zero =>
      rw [zero] at returns
      cases returns
    | succ fuel ih =>
      rw [succ] at returns
      cases changed : (round start).2 with
      | false => exact ⟨0, changed⟩
      | true =>
        rw [if_pos changed] at returns
        obtain ⟨n, unchanged⟩ := ih (round start).1 returns
        exact ⟨n + 1, unchanged⟩
  · rintro ⟨n, unchanged⟩
    induction n generalizing start with
    | zero =>
      refine ⟨1, ?_⟩
      rw [succ, if_neg (by rw [show (round start).2 = false from unchanged]; exact nofun)]
      rfl
    | succ n ih =>
      cases changed : (round start).2 with
      | false =>
        refine ⟨1, ?_⟩
        rw [succ, if_neg (by rw [changed]; exact nofun)]
        rfl
      | true =>
        obtain ⟨fuel, returns⟩ := ih (round start).1 unchanged
        refine ⟨fuel + 1, ?_⟩
        rw [succ, if_pos changed]
        exact returns

/-! ## Circles -/

/-- Among finitely many members that all have another of them behind them, some
member comes back to itself. -/
theorem exists_circle {l : List V} (behind : V → V → Prop) {v : V} (mem : v ∈ l)
    (never : ∀ v ∈ l, ∃ u ∈ l, behind u v) :
    ∃ v ∈ l, Relation.TransGen (fun u v => u ∈ l ∧ behind u v) v v := by
  by_contra circleFree
  push Not at circleFree
  let above (u v : {v // v ∈ l}) : Prop :=
    Relation.TransGen (fun u v => u ∈ l ∧ behind u v) u.1 v.1
  have irreflexive : Std.Irrefl above := ⟨fun v => circleFree v.1 v.2⟩
  have finite : Finite {v // v ∈ l} := l.finite_toSet
  have wellFounded : WellFounded above := Finite.wellFounded_of_trans_of_irrefl above
  obtain ⟨⟨least, isMember⟩, -, isLeast⟩ := wellFounded.has_min Set.univ ⟨⟨v, mem⟩, trivial⟩
  obtain ⟨u, memberU, isBehind⟩ := never least isMember
  exact isLeast ⟨u, memberU⟩ trivial (.single ⟨memberU, isBehind⟩)

/-- If every sequence settles once those it depends on do, one that does not
settle depends on a circle of sequences that do not. -/
theorem exists_unsettled_circle {run : V → Nat → A} {behind : V → V → Prop} {l : List V}
    (cover : ∀ v, v ∉ l → Settles (run v))
    (follows : ∀ v, (∀ u, behind u v → Settles (run u)) → Settles (run v))
    {v : V} (unsettled : ¬ Settles (run v)) :
    ∃ v, ¬ Settles (run v) ∧
      Relation.TransGen (fun u v => ¬ Settles (run u) ∧ behind u v) v v := by
  classical
  have covered : ∀ {v}, ¬ Settles (run v) → v ∈ l.filter fun v => ¬ Settles (run v) := by
    intro v unsettled
    refine mem_filter.mpr ⟨?_, decide_eq_true unsettled⟩
    by_contra outside
    exact unsettled (cover v outside)
  obtain ⟨v, mem, circle⟩ := exists_circle behind (covered unsettled) fun v mem => by
    by_contra none
    push Not at none
    refine of_decide_eq_true (mem_filter.mp mem).2 (follows v fun u isBehind => ?_)
    by_contra unsettledU
    exact none u (covered unsettledU) isBehind
  refine ⟨v, of_decide_eq_true (mem_filter.mp mem).2,
    Relation.TransGen.mono (fun u v step => ?_) _ _ circle⟩
  exact ⟨of_decide_eq_true (mem_filter.mp step.1).2, step.2⟩

end R2Sleigh.Lib
