import Mathlib.Order.Lattice.Nat
import R2Sleigh.Lib.Bisect
import R2Sleigh.Sym.Arith
import R2Sleigh.Sym.State

/-!
Contract: the least and the greatest value of an expression.

Owns `minimize`, `maximize` and `Optimizes`.

The search is a binary one on words whose bounds saturate, so that it never ends where
a bound would have to leave the words.
-/

namespace R2Sleigh.Sym

open Lib Lib.Bisect Ssa List BitVec SymValue

namespace SymSolver

variable {BV Formula Model : Type}

/-- The scopes of assertions, innermost first. -/
abbrev Scopes (Formula : Type) := List (List Formula)

def push (scopes : Scopes Formula) : Scopes Formula := [] :: scopes

def pop (scopes : Scopes Formula) : Scopes Formula := scopes.tail

def assertAll (scopes : Scopes Formula) (constraints : List Formula) : Scopes Formula :=
  match scopes with
  | [] => [constraints]
  | scope :: outer => (scope ++ constraints) :: outer

def assertions (scopes : Scopes Formula) : List Formula := scopes.flatten

def saturatingSub (word : Word) : Word := if word = 0 then 0 else word - 1

def saturatingAdd (word : Word) : Word := if word = BitVec.allOnes 64 then word else word + 1

/-- Which of the two searches. -/
inductive Extreme where
  | least | greatest
deriving DecidableEq, Repr

structure Search where
  lo : Word
  hi : Word
  result : Option Word
  fresh : Nat

namespace Search

def mid (search : Search) : Word := search.lo + (search.hi - search.lo) / 2

/-- The bound that moves past the middle. -/
def narrow (search : Search) : Extreme → Bool → Search
  | .least, true | .greatest, false => { search with hi := saturatingSub search.mid }
  | .least, false | .greatest, true => { search with lo := saturatingAdd search.mid }

def window (search : Search) : Window := ⟨search.lo.toNat, search.hi.toNat⟩

end Search

section Definitions

variable [Z3Arith BV Formula Model]

/-- `bv.bvule(mid)`, or `bv.bvuge(mid)`. -/
def Extreme.bound : Extreme → BV → BV → Formula
  | .least, bv, mid => Z3Arith.compare .bvule bv mid
  | .greatest, bv, mid => Z3Arith.compare .bvule mid bv

/-- The value in a model, unless it is no `u64`. -/
def eval (m : Model) (value : SymValue BV) (fresh : Nat) : Option Word :=
  if Z3.value m (value.toBv fresh) < 2 ^ 64 then
    some (BitVec.ofNat 64 (Z3.value m (value.toBv fresh)))
  else none

/-- One turn of the loop. -/
def step (solve : List Formula → Option Model) (extreme : Extreme) (value : SymValue BV) (bv : BV)
    (search : Search) (scopes : Scopes Formula) : Search × Scopes Formula :=
  let midBv := Z3.fromU64 search.mid value.bits
  let scopes := assertAll (push scopes) [extreme.bound bv midBv]
  match solve (assertions scopes) with
  | some m => ({ search.narrow extreme true with
      result := eval m value search.fresh
      fresh := search.fresh + 1 }, pop scopes)
  | none => (search.narrow extreme false, pop scopes)

def loop (solve : List Formula → Option Model) (extreme : Extreme) (value : SymValue BV) (bv : BV) :
    Nat → Search → Scopes Formula → Option (Option Word × Scopes Formula)
  | 0, _, _ => none
  | fuel + 1, search, scopes =>
    if search.lo ≤ search.hi then
      let (search, scopes) := step solve extreme value bv search scopes
      -- The source's guard against an endless loop.
      if search.lo = 0 ∧ search.hi = BitVec.allOnes 64 then some (search.result, pop scopes)
      else loop solve extreme value bv fuel search scopes
    else some (search.result, pop scopes)

def start (bits fresh : Nat) : Search where
  lo := 0
  hi := if 64 ≤ bits then BitVec.allOnes 64 else BitVec.ofNat 64 (2 ^ bits - 1)
  result := none
  fresh := fresh

def optimize (extreme : Extreme) (solve : List Formula → Option Model) (scopes : Scopes Formula)
    (state : SymState BV Formula) (value : SymValue BV) (fresh fuel : Nat) :
    Option (Option Word × Scopes Formula) :=
  loop solve extreme value (value.toBv fresh) fuel (start value.bits (fresh + 1))
    (assertAll (push scopes) state.constraints)

def minimize (solve : List Formula → Option Model) (scopes : Scopes Formula)
    (state : SymState BV Formula) (value : SymValue BV) (fresh fuel : Nat) :
    Option (Option Word × Scopes Formula) :=
  optimize .least solve scopes state value fresh fuel

def maximize (solve : List Formula → Option Model) (scopes : Scopes Formula)
    (state : SymState BV Formula) (value : SymValue BV) (fresh fuel : Nat) :
    Option (Option Word × Scopes Formula) :=
  optimize .greatest solve scopes state value fresh fuel

/-! ## What is asked of a search -/

variable (BV) in
structure Decides (solve : List Formula → Option Model) : Prop where
  sound : ∀ formulas m, solve formulas = some m → ∀ c ∈ formulas, Z3.holds BV m c
  complete : ∀ formulas, solve formulas = none → ¬ ∃ m : Model, ∀ c ∈ formulas, Z3.holds BV m c

/-- All that is asserted while the search runs, its own bounds apart. -/
def asserted (scopes : Scopes Formula) (state : SymState BV Formula) : List Formula :=
  assertions (assertAll (push scopes) state.constraints)

/-- The values of the expression in a model. An unknown value may be any of its width. -/
def Attains (m : Model) (value : SymValue BV) (x : Nat) : Prop :=
  match value.denote m with
  | some y => x = y
  | none => x < 2 ^ value.bits

/-- The values over all models of the path constraints and of what the solver holds. -/
def attained (scopes : Scopes Formula) (state : SymState BV Formula) (value : SymValue BV) :
    Set Nat :=
  {x | ∃ m : Model, (∀ c ∈ asserted scopes state, Z3.holds BV m c) ∧ Attains m value x}

/-- The extreme value of a set, or that it is empty. -/
def Extreme.IsAnswer (extreme : Extreme) (values : Set Nat) : Option Word → Prop
  | some x => x.toNat ∈ values ∧ ∀ y ∈ values,
      match extreme with
      | .least => x.toNat ≤ y
      | .greatest => y ≤ x.toNat
  | none => values = ∅

/-- With every oracle that decides formulas, the search returns the answer after
finitely many turns and leaves the scopes as they were. -/
def Optimizes (search : (List Formula → Option Model) → Scopes Formula → SymState BV Formula →
      SymValue BV → Nat → Nat → Option (Option Word × Scopes Formula))
    (extreme : Extreme) (scopes : Scopes Formula) (state : SymState BV Formula)
    (value : SymValue BV) (fresh : Nat) : Prop :=
  ∀ solve, Decides BV solve → ∃ fuel result,
    search solve scopes state value fresh fuel = some (result, scopes) ∧
      extreme.IsAnswer (attained scopes state value) result

variable (BV) in
/-- Constants numbered from here on occur in no formula: they may take any values. -/
def Unused (formulas : List Formula) (fresh : Nat) : Prop :=
  ∀ m : Model, (∀ c ∈ formulas, Z3.holds BV m c) → ∀ values : Nat → Nat, ∃ m' : Model,
    (∀ c ∈ formulas, Z3.holds BV m' c) ∧
      ∀ n name bits, fresh ≤ n → Z3.value m' (Z3.freshConst n name bits : BV) = values n % 2 ^ bits

end Definitions

/-! ## One turn -/

section Windows

variable {search : Search}

theorem toNat_saturatingSub (word : Word) : (saturatingSub word).toNat = word.toNat - 1 := by
  unfold saturatingSub
  split_ifs with isZero
  · rw [isZero]
    rfl
  · have positive : word.toNat ≠ 0 := fun zero => isZero (eq_of_toNat_eq zero)
    rw [toNat_sub, show (1 : Word).toNat = 1 from rfl,
      show 2 ^ 64 - 1 + word.toNat = 2 ^ 64 + (word.toNat - 1) by omega, Nat.add_mod_left,
      Nat.mod_eq_of_lt (by omega)]

theorem toNat_saturatingAdd (word : Word) :
    (saturatingAdd word).toNat = min (word.toNat + 1) (2 ^ 64 - 1) := by
  unfold saturatingAdd
  split_ifs with isLast
  · rw [isLast]
    decide
  · have notLast : word.toNat ≠ 2 ^ 64 - 1 := fun last => isLast (eq_of_toNat_eq last)
    rw [toNat_add, show (1 : Word).toNat = 1 from rfl, Nat.mod_eq_of_lt (by omega)]
    omega

theorem toNat_mid (isOpen : search.lo ≤ search.hi) : search.mid.toNat = search.window.mid := by
  have half : ((search.hi - search.lo) / 2).toNat = (search.hi.toNat - search.lo.toNat) / 2 := by
    rw [toNat_udiv, toNat_sub_of_le isOpen]
    rfl
  rw [Search.mid, toNat_add, half, Nat.mod_eq_of_lt (by omega)]
  rfl

/-- Whether the upper bound moves. -/
def Extreme.down (extreme : Extreme) (found : Bool) : Bool :=
  match extreme with
  | .least => found
  | .greatest => !found

theorem window_narrow (isOpen : search.lo ≤ search.hi) (extreme : Extreme) (found : Bool) :
    (search.narrow extreme found).window =
      search.window.next (2 ^ 64 - 1) (extreme.down found) := by
  have low : ({ search with hi := saturatingSub search.mid } : Search).window =
      search.window.next (2 ^ 64 - 1) true := by
    unfold Search.window Window.next
    rw [if_pos rfl, toNat_saturatingSub, toNat_mid isOpen]
    rfl
  have high : ({ search with lo := saturatingAdd search.mid } : Search).window =
      search.window.next (2 ^ 64 - 1) false := by
    unfold Search.window Window.next
    rw [if_neg (by decide), toNat_saturatingAdd, toNat_mid isOpen]
    rfl
  cases extreme <;> cases found
  · exact high
  · exact low
  · exact low
  · exact high

private theorem guard_idle (isOpen : search.lo ≤ search.hi) {next : Search} {down : Bool}
    (moved : next.window = search.window.next (2 ^ 64 - 1) down) :
    ¬ (next.lo = 0 ∧ next.hi = BitVec.allOnes 64) := by
  rintro ⟨atStart, atEnd⟩
  have inside := (Window.mid_mem (w := search.window) isOpen).2
  have lo := congrArg Window.lo moved
  have hi := congrArg Window.hi moved
  simp only [Search.window, atStart, atEnd] at lo hi
  rw [toNat_allOnes] at hi
  change 0 = _ at lo
  change _ ≤ search.hi.toNat at inside
  cases down with
  | true =>
    change _ = search.window.mid - 1 at hi
    omega
  | false =>
    simp only [Window.next, Bool.false_eq_true, if_false] at lo
    omega

end Windows

section Turns

variable [Z3Arith BV Formula Model] {solve : List Formula → Option Model} {extreme : Extreme}
  {value : SymValue BV} {bv : BV} {search : Search} {scopes : Scopes Formula}

def query (extreme : Extreme) (value : SymValue BV) (bv : BV) (search : Search)
    (scopes : Scopes Formula) : List Formula :=
  assertions (assertAll (push scopes) [extreme.bound bv (Z3.fromU64 search.mid value.bits)])

theorem step_none (asked : solve (query extreme value bv search scopes) = none) :
    step solve extreme value bv search scopes = (search.narrow extreme false, scopes) := by
  unfold query at asked
  simp only [step, asked]
  rfl

theorem step_some {m : Model} (asked : solve (query extreme value bv search scopes) = some m) :
    step solve extreme value bv search scopes = ({ search.narrow extreme true with
      result := eval m value search.fresh
      fresh := search.fresh + 1 }, scopes) := by
  unfold query at asked
  simp only [step, asked]
  rfl

private theorem step_scopes : (step solve extreme value bv search scopes).2 = scopes := by
  unfold step
  dsimp only
  split <;> rfl

theorem step_window (isOpen : search.lo ≤ search.hi) :
    (step solve extreme value bv search scopes).1.window = search.window.next (2 ^ 64 - 1)
      (extreme.down (solve (query extreme value bv search scopes)).isSome) := by
  cases asked : solve (query extreme value bv search scopes) with
  | none =>
    rw [step_none asked]
    exact window_narrow isOpen extreme false
  | some m =>
    rw [step_some asked]
    exact window_narrow isOpen extreme true

/-- In the models of the assertions some value of the term is past the middle. -/
def Extreme.Reaches (extreme : Extreme) (reached : Set Nat) (mid : Nat) : Prop :=
  ∃ x ∈ reached, match extreme with
    | .least => x ≤ mid
    | .greatest => mid ≤ x

/-- The values of the term in the models of formulas. -/
def reached (formulas : List Formula) (bv : BV) : Set Nat :=
  {x | ∃ m : Model, (∀ c ∈ formulas, Z3.holds BV m c) ∧ Z3.value m bv = x}

theorem holds_bound {m : Model} (width : Z3.size bv = value.bits)
    (fits : search.mid.toNat < 2 ^ value.bits) :
    Z3.holds BV m (extreme.bound bv (Z3.fromU64 search.mid value.bits)) ↔
      match extreme with
      | .least => Z3.value m bv ≤ search.mid.toNat
      | .greatest => search.mid.toNat ≤ Z3.value m bv := by
  have below := Z3.value_lt m bv
  rw [width] at below
  have own : (Z3.word value.bits m bv).toNat = Z3.value m bv := by
    rw [Z3.word, toNat_ofNat, Nat.mod_eq_of_lt below]
  have middle : (Z3.word value.bits m (Z3.fromU64 search.mid value.bits : BV)).toNat =
      search.mid.toNat := by
    rw [Z3.word, toNat_ofNat, Z3.value_fromU64, Nat.mod_mod, Nat.mod_eq_of_lt fits]
  cases extreme with
  | least =>
    rw [Extreme.bound, Z3Arith.holds_compare m .bvule _ _ value.bits width
      (Z3.size_fromU64 _ _), BvRel.apply, BitVec.ule, decide_eq_true_eq, own, middle]
  | greatest =>
    rw [Extreme.bound, Z3Arith.holds_compare m .bvule _ _ value.bits (Z3.size_fromU64 _ _)
      width, BvRel.apply, BitVec.ule, decide_eq_true_eq, own, middle]

private theorem isSome_solve (decides : Decides BV solve) (formulas : List Formula) :
    (solve formulas).isSome = true ↔ ∃ m : Model, ∀ c ∈ formulas, Z3.holds BV m c := by
  cases answer : solve formulas with
  | none => exact iff_of_false (by simp) (decides.complete _ answer)
  | some m => exact iff_of_true rfl ⟨m, decides.sound _ _ answer⟩

private theorem isSome_query (decides : Decides BV solve) (width : Z3.size bv = value.bits)
    (fits : search.mid.toNat < 2 ^ value.bits) :
    (solve (query extreme value bv search scopes)).isSome = true ↔
      extreme.Reaches (reached (assertions scopes) bv) search.mid.toNat := by
  rw [isSome_solve decides]
  have both : ∀ m : Model, (∀ c ∈ query extreme value bv search scopes, Z3.holds BV m c) ↔
      Z3.holds BV m (extreme.bound bv (Z3.fromU64 search.mid value.bits)) ∧
        ∀ c ∈ assertions scopes, Z3.holds BV m c := fun m => forall_mem_cons
  constructor
  · rintro ⟨m, satisfies⟩
    obtain ⟨bounded, rest⟩ := (both m).mp satisfies
    exact ⟨_, ⟨m, rest, rfl⟩, (holds_bound width fits).mp bounded⟩
  · rintro ⟨x, ⟨m, rest, rfl⟩, bounded⟩
    exact ⟨m, (both m).mpr ⟨(holds_bound width fits).mpr bounded, rest⟩⟩

/-! ## The loop -/

/-- From this place on the upper bound moves. -/
def IsThreshold (extreme : Extreme) (values : Set Nat) (bits threshold : Nat) : Prop :=
  ∀ mid < 2 ^ bits, (extreme.Reaches values mid ↔
    match extreme with
    | .least => threshold ≤ mid
    | .greatest => ¬ threshold ≤ mid)

variable {threshold : Nat}

theorem step_next (decides : Decides BV solve) (width : Z3.size bv = value.bits)
    (isThreshold : IsThreshold extreme (reached (assertions scopes) bv) value.bits threshold)
    (isOpen : search.lo ≤ search.hi) (fits : search.hi.toNat < 2 ^ value.bits) :
    (step solve extreme value bv search scopes).1.window =
      search.window.next (2 ^ 64 - 1) (decide (threshold ≤ search.window.mid)) := by
  have inside := (Window.mid_mem (w := search.window) isOpen).2
  have midFits : search.window.mid < 2 ^ value.bits := Nat.lt_of_le_of_lt inside fits
  have asked := @isSome_query BV Formula Model _ solve extreme value bv search scopes decides
    width (by rwa [toNat_mid isOpen])
  rw [toNat_mid isOpen, isThreshold _ midFits] at asked
  rw [step_window isOpen]
  congr 1
  cases extreme with
  | least => exact Bool.eq_iff_iff.mpr (asked.trans decide_eq_true_iff.symm)
  | greatest =>
    have negated : (solve (query .greatest value bv search scopes)).isSome =
        !decide (threshold ≤ search.window.mid) := by
      rw [← decide_not]
      exact Bool.eq_iff_iff.mpr (asked.trans decide_eq_true_iff.symm)
    rw [Extreme.down, negated, Bool.not_not]

theorem loop_succ (isOpen : search.lo ≤ search.hi) (fuel : Nat) :
    loop solve extreme value bv (fuel + 1) search scopes =
      loop solve extreme value bv fuel (step solve extreme value bv search scopes).1 scopes := by
  have idle := guard_idle isOpen (@step_window BV Formula Model _ solve extreme value bv search
    scopes isOpen)
  rw [loop, if_pos isOpen]
  dsimp only
  rw [if_neg idle, step_scopes]

section

variable (decides : Decides BV solve) (width : Z3.size bv = value.bits)
  (isThreshold : IsThreshold extreme (reached (assertions scopes) bv) value.bits threshold)
include decides width isThreshold

theorem hi_step
    (isOpen : search.lo ≤ search.hi) (fits : search.hi.toNat < 2 ^ value.bits) :
    (step solve extreme value bv search scopes).1.hi.toNat < 2 ^ value.bits := by
  have moved := congrArg Window.hi (step_next decides width isThreshold isOpen fits)
  change (step solve extreme value bv search scopes).1.hi.toNat = _ at moved
  have inside : search.window.mid ≤ search.hi.toNat := (Window.mid_mem (w := search.window) isOpen).2
  rw [moved, Window.next]
  split
  · dsimp only
    omega
  · exact fits

private theorem loop_stuck
    (fits : search.hi.toNat < 2 ^ value.bits)
    (stuck : Stuck (2 ^ 64 - 1) threshold search.window) (fuel : Nat) :
    loop solve extreme value bv fuel search scopes = none := by
  induction fuel generalizing search with
  | zero => rfl
  | succ fuel ih =>
    have isOpen : search.lo ≤ search.hi := stuck.isOpen
    rw [loop_succ isOpen]
    refine ih (hi_step decides width isThreshold isOpen fits) ?_
    rw [step_next decides width isThreshold isOpen fits]
    exact stuck.next

end

private theorem loop_keeps {Keeps : Search → Prop}
    (kept : ∀ search : Search, search.lo ≤ search.hi → Keeps search →
      Keeps (step solve extreme value bv search scopes).1) {fuel : Nat}
    {out : Option Word × Scopes Formula} (keeps : Keeps search)
    (returned : loop solve extreme value bv fuel search scopes = some out) :
    ∃ last : Search, Keeps last ∧ out = (last.result, pop scopes) := by
  induction fuel generalizing search with
  | zero => cases returned
  | succ fuel ih =>
    by_cases isOpen : search.lo ≤ search.hi
    · rw [loop_succ isOpen] at returned
      exact ih (kept search isOpen keeps) returned
    · rw [loop, if_neg isOpen] at returned
      exact ⟨search, keeps, (Option.some.inj returned).symm⟩

private theorem loop_ends (decides : Decides BV solve) (width : Z3.size bv = value.bits)
    (isThreshold : IsThreshold extreme (reached (assertions scopes) bv) value.bits threshold)
    (positive : 0 < threshold) (inReach : threshold ≤ 2 ^ 64 - 1) {Keeps : Search → Prop}
    (kept : ∀ search : Search, search.lo ≤ search.hi → search.hi.toNat < 2 ^ value.bits →
      Keeps search → Keeps (step solve extreme value bv search scopes).1)
    (fits : search.hi.toNat < 2 ^ value.bits) (around : Around threshold search.window)
    (keeps : Keeps search) :
    ∃ fuel last, loop solve extreme value bv fuel search scopes =
        some (last.result, pop scopes) ∧ Keeps last ∧
      last.lo.toNat = threshold ∧ last.hi.toNat + 1 = threshold := by
  induction size : search.window.span using Nat.strong_induction_on generalizing search with
  | _ span ih =>
    by_cases isOpen : search.lo ≤ search.hi
    · have turn := step_next decides width isThreshold isOpen fits
      obtain ⟨aroundNext, shorter⟩ := around.next positive inReach isOpen
      rw [← turn] at aroundNext shorter
      obtain ⟨fuel, last, ran, rest⟩ := ih _ (size ▸ shorter)
        (hi_step decides width isThreshold isOpen fits) aroundNext (kept search isOpen fits keeps)
        rfl
      exact ⟨fuel + 1, last, (loop_succ isOpen fuel).trans ran, rest⟩
    · have closed := around.closed (Nat.lt_of_not_le isOpen)
      refine ⟨1, search, ?_, keeps, closed⟩
      rw [loop, if_neg isOpen]

end Turns

/-! ## Results -/

section Results

variable [Z3Arith BV Formula Model] {solve : List Formula → Option Model} {extreme : Extreme}
  {value : SymValue BV} {scopes : Scopes Formula} {state : SymState BV Formula} {fresh : Nat}

/-- The value denotes something: it is not an unknown one. -/
def isUnknown (value : SymValue BV) : Bool :=
  match value with
  | .unknown _ _ => true
  | _ => false

omit [Z3Arith BV Formula Model] in
theorem toNat_start_hi {bits : Nat} (narrow : bits ≤ 64) :
    (start bits fresh).hi.toNat = 2 ^ bits - 1 := by
  unfold start
  dsimp only
  split_ifs with full
  · obtain rfl : bits = 64 := Nat.le_antisymm narrow full
    decide
  · have below := Nat.pow_lt_pow_right (a := 2) (by decide) (Nat.lt_of_not_le full)
    rw [toNat_ofNat, Nat.mod_eq_of_lt (by omega)]

private theorem denotes_of_known (known : isUnknown value = false) (m : Model) :
    ∃ x, value.denote m = some x := by
  cases value with
  | concrete | symbolic => exact ⟨_, rfl⟩
  | unknown bits taint => cases known

theorem attains_of_known (sorted : value.WellSorted) (known : isUnknown value = false) (m : Model)
    (n x : Nat) : Attains m value x ↔ Z3.value m (value.toBv n) = x := by
  obtain ⟨y, denotes⟩ := denotes_of_known known m
  rw [Attains, denotes, value_toBv sorted n denotes]
  exact eq_comm

theorem attains_lt (sorted : value.WellSorted) {m : Model} {x : Nat}
    (attains : Attains m value x) : x < 2 ^ value.bits := by
  unfold Attains at attains
  cases denotes : value.denote m with
  | none => rwa [denotes] at attains
  | some y =>
    rw [denotes] at attains
    rw [attains]
    exact denote_lt sorted denotes

theorem reached_eq_attained (sorted : value.WellSorted)
    (unused : Unused BV (asserted scopes state) fresh) :
    reached (asserted scopes state) (value.toBv fresh) = attained scopes state value := by
  ext x
  cases isKnown : isUnknown value with
  | false =>
    constructor
    · rintro ⟨m, satisfies, isX⟩
      exact ⟨m, satisfies, (attains_of_known sorted isKnown m fresh x).mpr isX⟩
    · rintro ⟨m, satisfies, attains⟩
      exact ⟨m, satisfies, (attains_of_known sorted isKnown m fresh x).mp attains⟩
  | true =>
    cases value with
    | concrete | symbolic => cases isKnown
    | unknown bits taint =>
      have width : normalizeBvBits bits = bits := max_eq_left sorted
      constructor
      · rintro ⟨m, satisfies, rfl⟩
        refine ⟨m, satisfies, ?_⟩
        have below := Z3.value_lt m ((unknown bits taint : SymValue BV).toBv fresh)
        rwa [size_toBv sorted] at below
      · rintro ⟨m, satisfies, small⟩
        obtain ⟨m', satisfies', values⟩ := unused m satisfies fun _ => x
        refine ⟨m', satisfies', ?_⟩
        rw [toBv, values _ _ _ (Nat.le_refl _), width]
        exact Nat.mod_eq_of_lt small

theorem exists_preferring (good : Model → Prop) :
    ∃ solve : List Formula → Option Model, Decides BV solve ∧
      ∀ formulas m, solve formulas = some m →
        (∃ m', good m' ∧ ∀ c ∈ formulas, Z3.holds BV m' c) → good m := by
  classical
  refine ⟨fun formulas =>
    if preferred : ∃ m, good m ∧ ∀ c ∈ formulas, Z3.holds BV m c then some preferred.choose
    else if found : ∃ m : Model, ∀ c ∈ formulas, Z3.holds BV m c then some found.choose
    else none, ⟨fun formulas m answer => ?_, fun formulas answer => ?_⟩,
    fun formulas m answer preferred => ?_⟩
  · split_ifs at answer with preferred found
    · rw [← Option.some.inj answer]
      exact preferred.choose_spec.2
    · rw [← Option.some.inj answer]
      exact found.choose_spec
  · split_ifs at answer with preferred found
    exact found
  · dsimp only at answer
    rw [dif_pos preferred] at answer
    rw [← Option.some.inj answer]
    exact preferred.choose_spec.1

/-- The best result so far, with the bound that has passed it. -/
def Best (extreme : Extreme) (values : Set Nat) (bits : Nat) (search : Search) : Prop :=
  match extreme with
  | .least => search.hi.toNat + 1 = 2 ^ bits ∧ search.result = none ∨
      ∃ x, search.result = some x ∧ x.toNat ∈ values ∧ x.toNat ≤ search.hi.toNat + 1
  | .greatest => search.lo.toNat = 0 ∧ search.result = none ∨
      ∃ x, search.result = some x ∧ x.toNat ∈ values ∧ search.lo.toNat ≤ x.toNat + 1

private theorem eval_known (sorted : value.WellSorted) (known : isUnknown value = false)
    (narrow : value.bits ≤ 64) (m : Model) (n : Nat) :
    ∃ x : Word, eval m value n = some x ∧ x.toNat = Z3.value m (value.toBv fresh) := by
  have below := Z3.value_lt m (value.toBv fresh)
  rw [size_toBv sorted] at below
  have word := lt_of_lt_of_le below (Nat.pow_le_pow_right (by decide) narrow)
  have same : Z3.value m (value.toBv n) = Z3.value m (value.toBv fresh) :=
    (attains_of_known sorted known m n _).mp ((attains_of_known sorted known m fresh _).mpr rfl)
  refine ⟨BitVec.ofNat 64 (Z3.value m (value.toBv fresh)), ?_, ?_⟩
  · rw [eval, same, if_pos word]
  · rw [toNat_ofNat, Nat.mod_eq_of_lt word]

theorem best_step (decides : Decides BV solve) (sorted : value.WellSorted)
    (known : isUnknown value = false) (narrow : value.bits ≤ 64) {search : Search}
    (isOpen : search.lo ≤ search.hi) (fits : search.hi.toNat < 2 ^ value.bits)
    (best : Best extreme (reached (assertions scopes) (value.toBv fresh)) value.bits search) :
    Best extreme (reached (assertions scopes) (value.toBv fresh)) value.bits
      (step solve extreme value (value.toBv fresh) search scopes).1 := by
  have width := size_toBv sorted fresh
  have inside := (Window.mid_mem (w := search.window) isOpen).2
  have midFits : search.mid.toNat < 2 ^ value.bits := by
    rw [toNat_mid isOpen]
    exact Nat.lt_of_le_of_lt inside fits
  cases asked : solve (query extreme value (value.toBv fresh) search scopes) with
  | none =>
    rw [step_none asked]
    cases extreme with
    | least | greatest => exact best
  | some m =>
    obtain ⟨x, isX, value_x⟩ := @eval_known BV Formula Model _ value fresh sorted known narrow m
      search.fresh
    obtain ⟨bounded, rest⟩ := forall_mem_cons.mp (decides.sound _ _ asked)
    have atX := (holds_bound width midFits).mp bounded
    have isReached : x.toNat ∈ reached (assertions scopes) (value.toBv fresh) :=
      ⟨m, rest, value_x.symm⟩
    rw [step_some asked]
    cases extreme with
    | least =>
      refine .inr ⟨x, isX, isReached, ?_⟩
      change x.toNat ≤ (saturatingSub search.mid).toNat + 1
      rw [toNat_saturatingSub, value_x]
      omega
    | greatest =>
      refine .inr ⟨x, isX, isReached, ?_⟩
      change (saturatingAdd search.mid).toNat ≤ x.toNat + 1
      rw [toNat_saturatingAdd, value_x]
      omega

private theorem none_step (decides : Decides BV solve)
    (empty : reached (assertions scopes) (value.toBv fresh) = ∅) {search : Search}
    (notFound : search.result = none) :
    (step solve extreme value (value.toBv fresh) search scopes).1.result = none := by
  cases asked : solve (query extreme value (value.toBv fresh) search scopes) with
  | none =>
    rw [step_none asked]
    cases extreme <;> exact notFound
  | some m =>
    have rest := (forall_mem_cons.mp (decides.sound _ _ asked)).2
    have isReached : Z3.value m (value.toBv fresh) ∈
        reached (assertions scopes) (value.toBv fresh) := ⟨m, rest, rfl⟩
    rw [empty] at isReached
    cases isReached

/-! ## Thresholds -/

section Thresholds

variable {values : Set Nat} {bits t : Nat}

omit [Z3Arith BV Formula Model]

theorem isThreshold_least (isIn : t ∈ values) (least : ∀ y ∈ values, t ≤ y) :
    IsThreshold .least values bits t := by
  intro mid _
  constructor
  · rintro ⟨x, inValues, below⟩
    exact Nat.le_trans (least x inValues) below
  · intro reached
    exact ⟨t, isIn, reached⟩

theorem isThreshold_greatest (isIn : t ∈ values) (greatest : ∀ y ∈ values, y ≤ t) :
    IsThreshold .greatest values bits (t + 1) := by
  intro mid _
  constructor
  · rintro ⟨x, inValues, above⟩
    exact Nat.not_le.mpr (Nat.lt_succ_of_le (Nat.le_trans above (greatest x inValues)))
  · intro notAbove
    exact ⟨t, isIn, Nat.le_of_lt_succ (Nat.lt_of_not_le notAbove)⟩

theorem isThreshold_empty (empty : values = ∅) :
    IsThreshold .least values bits (2 ^ bits) ∧ IsThreshold .greatest values bits 0 := by
  have never : ∀ (extreme : Extreme) (mid : Nat), ¬ extreme.Reaches values mid := by
    rintro extreme mid ⟨x, inValues, -⟩
    rw [empty] at inValues
    cases inValues
  exact ⟨fun mid below => iff_of_false (never _ _) (Nat.not_le.mpr below),
    fun mid _ => iff_of_false (never _ _) (not_not.mpr (Nat.zero_le mid))⟩

private theorem exists_greatest {bound : Nat} (nonempty : values.Nonempty)
    (below : ∀ y ∈ values, y < bound) : ∃ t ∈ values, ∀ y ∈ values, y ≤ t := by
  have bounded : BddAbove values := ⟨bound, fun y inValues => Nat.le_of_lt (below y inValues)⟩
  exact ⟨sSup values, Nat.sSup_mem nonempty bounded, fun y inValues => le_csSup bounded inValues⟩

end Thresholds

section Searches

variable (sorted : value.WellSorted) (narrow : value.bits ≤ 64)
variable (unused : Unused BV (asserted scopes state) fresh)

include sorted narrow unused

section

variable {threshold : Nat} (decides : Decides BV solve)
  (isThreshold : IsThreshold extreme (attained scopes state value) value.bits threshold)
include decides isThreshold

theorem optimize_stuck
    (stuck : threshold = 0 ∨ 2 ^ 64 ≤ threshold ∧ value.bits = 64) (fuel : Nat) :
    optimize extreme solve scopes state value fresh fuel = none := by
  rw [← reached_eq_attained sorted unused] at isThreshold
  have startHi := @toNat_start_hi (fresh + 1) value.bits narrow
  have positive := Nat.two_pow_pos value.bits
  refine loop_stuck decides (size_toBv sorted fresh) isThreshold (by omega) ?_ fuel
  rcases stuck with rfl | ⟨beyond, full⟩
  · exact .inl ⟨rfl, rfl⟩
  · refine .inr ⟨by omega, Nat.zero_le _, ?_⟩
    change (start value.bits (fresh + 1)).hi.toNat = _
    rw [startHi, full]

theorem optimize_ends
    (positive : 0 < threshold) (inReach : threshold ≤ 2 ^ 64 - 1)
    (inRange : threshold ≤ 2 ^ value.bits) {Keeps : Search → Prop}
    (kept : ∀ search : Search, search.lo ≤ search.hi → search.hi.toNat < 2 ^ value.bits →
      Keeps search → Keeps (step solve extreme value (value.toBv fresh) search
        (assertAll (push scopes) state.constraints)).1)
    (keeps : Keeps (start value.bits (fresh + 1))) :
    ∃ fuel last, optimize extreme solve scopes state value fresh fuel =
        some (last.result, scopes) ∧ Keeps last ∧
      last.lo.toNat = threshold ∧ last.hi.toNat + 1 = threshold := by
  rw [← reached_eq_attained sorted unused] at isThreshold
  have startHi := @toNat_start_hi (fresh + 1) value.bits narrow
  refine loop_ends decides (size_toBv sorted fresh) isThreshold positive inReach kept
    (by omega) ⟨Nat.zero_le _, ?_⟩ keeps
  change _ ≤ (start value.bits (fresh + 1)).hi.toNat + 1
  omega

end

/-- The minimum is found where 0 is no value, and the lack of one below 64 bits. -/
theorem optimizes_minimize_iff : Optimizes minimize .least scopes state value fresh ↔
    0 ∉ attained scopes state value ∧
      ((attained scopes state value).Nonempty ∨ value.bits < 64) := by
  constructor
  · intro optimizes
    obtain ⟨solve, decides, -⟩ := @exists_preferring BV Formula Model _ fun _ => True
    obtain ⟨fuel, result, returned, -⟩ := optimizes solve decides
    refine ⟨fun zero => ?_, or_iff_not_imp_left.mpr fun isEmpty => ?_⟩
    · have stuck := optimize_stuck sorted narrow unused decides
        (isThreshold_least zero fun y _ => Nat.zero_le y) (.inl rfl) fuel
      exact absurd (returned.symm.trans stuck) (by simp)
    · by_contra wide
      have full : value.bits = 64 := by omega
      have stuck := optimize_stuck sorted narrow unused decides
        (isThreshold_empty (Set.not_nonempty_iff_eq_empty.mp isEmpty)).1
        (.inr ⟨by rw [full], full⟩) fuel
      exact absurd (returned.symm.trans stuck) (by simp)
  · rintro ⟨noZero, either⟩ solve decides
    rcases (attained scopes state value).eq_empty_or_nonempty with isEmpty | nonempty
    · have below : value.bits < 64 := either.resolve_left
        (Set.not_nonempty_iff_eq_empty.mpr isEmpty)
      have isReached := reached_eq_attained sorted unused
      rw [isEmpty] at isReached
      have bound := Nat.pow_lt_pow_right (a := 2) (by decide) below
      have kept : ∀ search : Search, search.lo ≤ search.hi → search.hi.toNat < 2 ^ value.bits →
          search.result = none → (step solve .least value (value.toBv fresh) search
            (assertAll (push scopes) state.constraints)).1.result = none :=
        fun search _ _ notFound => none_step decides isReached notFound
      obtain ⟨fuel, last, returned, notFound, -⟩ := optimize_ends sorted narrow unused decides
        (isThreshold_empty isEmpty).1 (Nat.two_pow_pos _) (by omega) (Nat.le_refl _) kept rfl
      refine ⟨fuel, none, ?_, isEmpty⟩
      rw [minimize, returned, notFound]
    · have isIn := Nat.sInf_mem nonempty
      have least : ∀ y ∈ attained scopes state value, sInf (attained scopes state value) ≤ y :=
        fun y inValues => Nat.sInf_le inValues
      have positive : 0 < sInf (attained scopes state value) := by
        refine Nat.pos_of_ne_zero fun zero => noZero ?_
        rwa [zero] at isIn
      obtain ⟨m, satisfies, attains⟩ := id isIn
      have below := attains_lt sorted attains
      have word := Nat.pow_le_pow_right (show 0 < 2 by decide) narrow
      have known : isUnknown value = false := by
        cases value with
        | concrete _ _ _ => rfl
        | symbolic _ _ _ => rfl
        | unknown _ _ => exact absurd ⟨m, satisfies, Nat.two_pow_pos _⟩ noZero
      have bestAtStart : Best .least (reached (asserted scopes state) (value.toBv fresh))
          value.bits (start value.bits (fresh + 1)) :=
        .inl ⟨by rw [toNat_start_hi narrow]; omega, rfl⟩
      obtain ⟨fuel, last, returned, best, -, atEnd⟩ := optimize_ends sorted narrow unused decides
        (isThreshold_least isIn least) positive (by omega) (Nat.le_of_lt below)
        (fun search isOpen fits best => best_step decides sorted known narrow isOpen fits best)
        bestAtStart
      change Best .least (reached (asserted scopes state) (value.toBv fresh)) _ _ at best
      rw [reached_eq_attained sorted unused] at best
      rcases best with ⟨untouched, -⟩ | ⟨x, isX, inValues, small⟩
      · omega
      · refine ⟨fuel, some x, ?_, inValues, fun y mem => ?_⟩
        · rw [minimize, returned, isX]
        · exact Nat.le_trans (small.trans (Nat.le_of_eq atEnd)) (least y mem)

/-- An oracle may give constants made for an evaluation the value 0. -/
theorem not_optimizes_maximize_unknown (isUnk : isUnknown value = true)
    (nonempty : (attained scopes state value).Nonempty) :
    ¬ Optimizes maximize .greatest scopes state value fresh := by
  intro optimizes
  obtain ⟨solve, decides, prefers⟩ := @exists_preferring BV Formula Model _ fun m =>
    ∀ n name bits, fresh < n → Z3.value m (Z3.freshConst n name bits : BV) = 0
  obtain ⟨fuel, result, returned, answer⟩ := optimizes solve decides
  cases value with
  | concrete | symbolic => cases isUnk
  | unknown bits taint =>
    have positive : 1 ≤ bits := sorted
    have width : normalizeBvBits bits = bits := max_eq_left positive
    have termWidth : Z3.size ((unknown bits taint : SymValue BV).toBv fresh) = bits :=
      size_toBv sorted fresh
    -- Every result is 0.
    have kept : ∀ search : Search, search.lo ≤ search.hi →
        fresh < search.fresh ∧ (search.result = none ∨ search.result = some 0) →
        fresh < (step solve .greatest (.unknown bits taint)
            ((unknown bits taint : SymValue BV).toBv fresh) search
            (assertAll (push scopes) state.constraints)).1.fresh ∧
          ((step solve .greatest (.unknown bits taint)
            ((unknown bits taint : SymValue BV).toBv fresh) search
            (assertAll (push scopes) state.constraints)).1.result = none ∨
          (step solve .greatest (.unknown bits taint)
            ((unknown bits taint : SymValue BV).toBv fresh) search
            (assertAll (push scopes) state.constraints)).1.result = some 0) := by
      rintro search isOpen ⟨later, results⟩
      cases asked : solve (query .greatest (.unknown bits taint)
          ((unknown bits taint : SymValue BV).toBv fresh) search
          (assertAll (push scopes) state.constraints)) with
      | none =>
        rw [step_none asked]
        exact ⟨later, results⟩
      | some m =>
        obtain ⟨bounded, rest⟩ := forall_mem_cons.mp (decides.sound _ _ asked)
        obtain ⟨m', rest', values⟩ := unused m rest fun n =>
          if n = fresh then Z3.value m ((unknown bits taint : SymValue BV).toBv fresh)
          else 0
        have sameValue : Z3.value m' ((unknown bits taint : SymValue BV).toBv fresh) =
            Z3.value m ((unknown bits taint : SymValue BV).toBv fresh) := by
          have below := Z3.value_lt m ((unknown bits taint : SymValue BV).toBv fresh)
          rw [termWidth] at below
          refine (values fresh "unknown" _ (Nat.le_refl _)).trans ?_
          rw [if_pos rfl, width, Nat.mod_eq_of_lt below]
        have bounded' : Z3.holds BV m' (Extreme.greatest.bound
            ((unknown bits taint : SymValue BV).toBv fresh)
            (Z3.fromU64 search.mid bits)) := by
          have before := (Z3Arith.holds_compare m .bvule _ _ bits (Z3.size_fromU64 _ _)
            termWidth).mp bounded
          refine (Z3Arith.holds_compare m' .bvule _ _ bits (Z3.size_fromU64 _ _) termWidth).mpr ?_
          rw [Z3.word, Z3.word, Z3.value_fromU64] at before ⊢
          rwa [sameValue]
        have zero := prefers _ _ asked ⟨m', fun n name bits above => by
          rw [values n name bits (Nat.le_of_lt above), if_neg (Nat.ne_of_gt above),
            Nat.zero_mod], forall_mem_cons.mpr ⟨bounded', rest'⟩⟩
        rw [step_some asked]
        refine ⟨Nat.lt_succ_of_lt later, .inr ?_⟩
        rw [eval, toBv, zero _ _ _ later]
        rfl
    obtain ⟨last, ⟨-, results⟩, isOut⟩ := loop_keeps kept ⟨Nat.lt_succ_self fresh, .inl rfl⟩
      returned
    obtain ⟨rfl, -⟩ := Prod.mk.inj isOut
    obtain ⟨x, m, satisfies, -⟩ := nonempty
    have top : 2 ^ bits - 1 ∈ attained scopes state (.unknown bits taint) :=
      ⟨m, satisfies, Nat.sub_lt (Nat.two_pow_pos bits) Nat.one_pos⟩
    have large := Nat.pow_le_pow_right (show 0 < 2 by decide) positive
    rcases results with isNone | isZero
    · rw [isNone] at answer
      rw [answer] at top
      cases top
    · rw [isZero] at answer
      have bound := answer.2 _ top
      change 2 ^ bits - 1 ≤ 0 at bound
      omega

/-- The maximum is found where there is one and it is not the last word. -/
theorem optimizes_maximize_iff : Optimizes maximize .greatest scopes state value fresh ↔
    (attained scopes state value).Nonempty ∧ isUnknown value = false ∧
      2 ^ 64 - 1 ∉ attained scopes state value := by
  have word := Nat.pow_le_pow_right (show 0 < 2 by decide) narrow
  have bound : ∀ y ∈ attained scopes state value, y < 2 ^ value.bits := by
    rintro y ⟨m, -, attains⟩
    exact attains_lt sorted attains
  constructor
  · intro optimizes
    obtain ⟨solve, decides, -⟩ := @exists_preferring BV Formula Model _ fun _ => True
    obtain ⟨fuel, result, returned, -⟩ := optimizes solve decides
    have nonempty : (attained scopes state value).Nonempty := by
      by_contra isEmpty
      have stuck := optimize_stuck sorted narrow unused decides
        (isThreshold_empty (Set.not_nonempty_iff_eq_empty.mp isEmpty)).2 (.inl rfl) fuel
      exact absurd (returned.symm.trans stuck) (by simp)
    refine ⟨nonempty, ?_, fun last => ?_⟩
    · cases isUnk : isUnknown value with
      | false => rfl
      | true =>
        exact absurd optimizes (not_optimizes_maximize_unknown sorted narrow unused isUnk nonempty)
    · have full : value.bits = 64 := by
        by_contra short
        have below := Nat.pow_lt_pow_right (a := 2) (by decide) (Nat.lt_of_le_of_ne narrow short)
        have small := bound _ last
        omega
      have stuck := optimize_stuck sorted narrow unused decides
        (isThreshold_greatest last fun y inValues => by have := bound y inValues; omega)
        (.inr ⟨by omega, full⟩) fuel
      exact absurd (returned.symm.trans stuck) (by simp)
  · rintro ⟨nonempty, known, notLast⟩ solve decides
    obtain ⟨t, isIn, greatest⟩ := exists_greatest nonempty bound
    have below := bound t isIn
    have inReach : t + 1 ≤ 2 ^ 64 - 1 := by
      have different : t ≠ 2 ^ 64 - 1 := by
        rintro rfl
        exact notLast isIn
      omega
    have bestAtStart : Best .greatest (reached (asserted scopes state) (value.toBv fresh))
        value.bits (start value.bits (fresh + 1)) := .inl ⟨rfl, rfl⟩
    obtain ⟨fuel, last, returned, best, atStart, -⟩ := optimize_ends sorted narrow unused decides
      (isThreshold_greatest isIn greatest) (Nat.succ_pos t) inReach below
      (fun search isOpen fits best => best_step decides sorted known narrow isOpen fits best)
      bestAtStart
    change Best .greatest (reached (asserted scopes state) (value.toBv fresh)) _ _ at best
    rw [reached_eq_attained sorted unused] at best
    rcases best with ⟨untouched, -⟩ | ⟨x, isX, inValues, large⟩
    · omega
    · refine ⟨fuel, some x, ?_, inValues, fun y mem => ?_⟩
      · rw [maximize, returned, isX]
      · have top := greatest y mem
        omega

end Searches

/-- Both searches return the extreme value, with the scopes as before, exactly where no
bound would have to leave the words and a result is read from the term searched for. -/
theorem searches_optimize_iff (scopes : Scopes Formula) (state : SymState BV Formula)
    (value : SymValue BV) (fresh : Nat) (sorted : value.WellSorted) (narrow : value.bits ≤ 64)
    (unused : Unused BV (asserted scopes state) fresh) :
    (Optimizes minimize .least scopes state value fresh ↔
      0 ∉ attained scopes state value ∧
        ((attained scopes state value).Nonempty ∨ value.bits < 64)) ∧
    (Optimizes maximize .greatest scopes state value fresh ↔
      (attained scopes state value).Nonempty ∧ isUnknown value = false ∧
        2 ^ 64 - 1 ∉ attained scopes state value) :=
  ⟨optimizes_minimize_iff sorted narrow unused, optimizes_maximize_iff sorted narrow unused⟩

end Results

/-! ## A byte -/

def freeByte : SymValue Term := .newSymbolic "x" 8

theorem wellSorted_freeByte : freeByte.WellSorted := ⟨by decide, rfl⟩

/-- A state with constraints and nothing else. -/
def constrained (constraints : List (Assignment → Bool)) : SymState Term (Assignment → Bool) :=
  ⟨∅, .new false, constraints, 0, none, true, none, 0⟩

def fiveAtMostX : Assignment → Bool :=
  Z3Arith.compare .bvule (Z3.fromU64 5 8 : Term) (Z3.newConst "x" 8)

theorem unused_of_named {formulas : List (Assignment → Bool)}
    (named : ∀ c ∈ formulas, ∀ m m' : Assignment,
      (∀ name, m (.named name) = m' (.named name)) → c m = c m') (fresh : Nat) :
    Unused Term formulas fresh := by
  intro m satisfies values
  refine ⟨assignmentOf (fun name => m (.named name)) fun n _ => values n, fun c mem => ?_,
    fun _ _ _ _ => rfl⟩
  have same := named c mem m
    (assignmentOf (fun name => m (.named name)) fun n _ => values n) fun _ => rfl
  exact same.symm.trans (satisfies c mem)

private theorem unused_fiveAtMostX : Unused Term (asserted [] (constrained [fiveAtMostX])) 0 := by
  refine unused_of_named (fun c mem m m' same => ?_) 0
  obtain rfl : c = fiveAtMostX := mem_singleton.mp mem
  have sameX : (Z3.newConst "x" 8 : Term).eval m = (Z3.newConst "x" 8 : Term).eval m' := by
    change m (.named "x") 8 % 2 ^ 8 = m' (.named "x") 8 % 2 ^ 8
    rw [same]
  change BvRel.bvule.apply (BitVec.ofNat 8 _) (BitVec.ofNat 8 ((Z3.newConst "x" 8 : Term).eval m)) =
    BvRel.bvule.apply (BitVec.ofNat 8 _) (BitVec.ofNat 8 ((Z3.newConst "x" 8 : Term).eval m'))
  rw [sameX]
  rfl

theorem minimize_fiveAtMostX :
    Optimizes minimize .least [] (constrained [fiveAtMostX]) freeByte 0 := by
  refine (searches_optimize_iff [] (constrained [fiveAtMostX]) freeByte 0 wellSorted_freeByte (by decide)
    unused_fiveAtMostX).1.mpr ⟨?_, .inr (by decide)⟩
  rintro ⟨m, satisfies, isZero⟩
  have bound := satisfies fiveAtMostX (mem_singleton_self _)
  change 0 = m (.named "x") 8 % 2 ^ 8 at isZero
  change BvRel.bvule.apply (BitVec.ofNat 8 5) (BitVec.ofNat 8 (m (.named "x") 8 % 2 ^ 8)) = true
    at bound
  rw [← isZero] at bound
  exact absurd bound (by decide)

/-- The search for the minimum of an unconstrained byte never ends. -/
theorem minimize_freeByte_endless :
    ¬ Optimizes minimize .least [] (constrained []) freeByte 0 := by
  have unused : Unused Term (asserted [] (constrained [])) 0 :=
    unused_of_named (fun c mem => by cases mem) 0
  rw [optimizes_minimize_iff wellSorted_freeByte (by decide) unused]
  rintro ⟨noZero, -⟩
  exact noZero ⟨fun _ _ => 0, fun c mem => absurd mem not_mem_nil, rfl⟩

end SymSolver

end R2Sleigh.Sym
