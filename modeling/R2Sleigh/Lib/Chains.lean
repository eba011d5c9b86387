import Mathlib.Data.List.Perm.Subperm

/-!
Contract: chains of a partial function on a type.

Owns `EndsIn` and `Ends`.
-/

namespace R2Sleigh.Lib

open Option

variable {V : Type}

/-- `n` steps lead from `v` to `e`, where the function is undefined. -/
inductive EndsIn (next : V → Option V) : Nat → V → V → Prop
  | stop {v : V} (undefined : next v = none) : EndsIn next 0 v v
  | step {n : Nat} {v w e : V} (defined : next v = some w) (rest : EndsIn next n w e) :
      EndsIn next (n + 1) v e

/-- The chain from `v` ends at `e`. -/
def Ends (next : V → Option V) (v e : V) : Prop := ∃ n, EndsIn next n v e

variable {next : V → Option V}

theorem EndsIn.next_eq_none {n : Nat} {v e : V} (ends : EndsIn next n v e) : next e = none := by
  induction ends with
  | stop undefined => exact undefined
  | step _ _ ih => exact ih

theorem EndsIn.unique {n n' : Nat} {v e e' : V} (first : EndsIn next n v e)
    (second : EndsIn next n' v e') : n = n' ∧ e = e' := by
  induction first generalizing n' with
  | stop undefined =>
    cases second with
    | stop _ => exact ⟨rfl, rfl⟩
    | step defined _ => rw [undefined] at defined; cases defined
  | step defined _ ih =>
    cases second with
    | stop undefined => rw [defined] at undefined; cases undefined
    | step defined' rest =>
      obtain rfl := some.inj (defined.symm.trans defined')
      obtain ⟨rfl, rfl⟩ := ih rest
      exact ⟨rfl, rfl⟩

theorem Ends.next_eq_none {v e : V} (ends : Ends next v e) : next e = none :=
  let ⟨_, ends⟩ := ends
  ends.next_eq_none

theorem Ends.unique {v e e' : V} (first : Ends next v e) (second : Ends next v e') : e = e' :=
  let ⟨_, first⟩ := first
  let ⟨_, second⟩ := second
  (first.unique second).2

theorem ends_of_undefined {v : V} (undefined : next v = none) : Ends next v v := ⟨0, .stop undefined⟩

theorem ends_iff_of_step {v w e : V} (defined : next v = some w) :
    Ends next v e ↔ Ends next w e := by
  constructor
  · rintro ⟨n, ends⟩
    cases ends with
    | stop undefined => rw [defined] at undefined; cases undefined
    | step defined' rest =>
      obtain rfl := some.inj (defined.symm.trans defined')
      exact ⟨_, rest⟩
  · rintro ⟨n, ends⟩
    exact ⟨n + 1, .step defined ends⟩

theorem EndsIn.exists_nodup {n : Nat} {v e : V} (ends : EndsIn next n v e) :
    ∃ passed : List V, passed.length = n ∧ passed.Nodup ∧
      ∀ u ∈ passed, ∃ k, 0 < k ∧ k ≤ n ∧ EndsIn next k u e := by
  induction ends with
  | stop _ => exact ⟨[], rfl, List.nodup_nil, nofun⟩
  | @step n v w e defined rest ih =>
    obtain ⟨passed, length, nodup, each⟩ := ih
    refine ⟨v :: passed, by rw [List.length_cons, length], List.nodup_cons.mpr ⟨?_, nodup⟩, ?_⟩
    · intro mem
      obtain ⟨k, -, atMost, ends⟩ := each v mem
      have same := (ends.unique (.step defined rest)).1
      omega
    · intro u mem
      rcases List.mem_cons.mp mem with rfl | inRest
      · exact ⟨n + 1, by omega, Nat.le_refl _, .step defined rest⟩
      · obtain ⟨k, positive, atMost, ends⟩ := each u inRest
        exact ⟨k, positive, by omega, ends⟩

theorem EndsIn.le_length {n : Nat} {v e : V} (ends : EndsIn next n v e) (all : List V)
    (listed : ∀ u, (next u).isSome → u ∈ all) : n ≤ all.length := by
  obtain ⟨passed, rfl, nodup, each⟩ := ends.exists_nodup
  refine (nodup.subperm fun u mem => listed u ?_).length_le
  obtain ⟨k, positive, -, ends⟩ := each u mem
  cases ends with
  | stop _ => omega
  | step defined _ => rw [defined]; rfl

theorem ends_shortcut {next' : V → Option V} {v w e : V} (defined : next v = some w)
    (ends : Ends next w e) (shortcut : next' v = some e)
    (others : ∀ u, u ≠ v → next' u = next u) (u d : V) : Ends next' u d ↔ Ends next u d := by
  have other : e ≠ v := by
    rintro rfl
    rw [ends.next_eq_none] at defined
    cases defined
  have start : Ends next v e := (ends_iff_of_step defined).mpr ends
  have stops : next' e = none := (others e other).trans ends.next_eq_none
  constructor
  · rintro ⟨n, chain⟩
    induction chain with
    | @stop u undefined =>
      refine ends_of_undefined ?_
      by_cases same : u = v
      · rw [same, shortcut] at undefined
        cases undefined
      · rw [← others u same, undefined]
    | @step n u w' d step rest ih =>
      by_cases same : u = v
      · subst same
        obtain rfl := some.inj (shortcut.symm.trans step)
        rw [ih.unique (ends_of_undefined ends.next_eq_none)]
        exact start
      · exact (ends_iff_of_step ((others u same).symm.trans step)).mpr ih
  · rintro ⟨n, chain⟩
    induction chain with
    | @stop u undefined =>
      refine ends_of_undefined ?_
      by_cases same : u = v
      · rw [same, defined] at undefined
        cases undefined
      · rw [others u same, undefined]
    | @step n u w' d step rest ih =>
      by_cases same : u = v
      · subst same
        obtain rfl := some.inj (defined.symm.trans step)
        rw [ends.unique ⟨_, rest⟩] at shortcut stops
        exact (ends_iff_of_step shortcut).mpr (ends_of_undefined stops)
      · exact (ends_iff_of_step ((others u same).trans step)).mpr ih

theorem ends_link {next' : V → Option V} {a b : V} (apart : a ≠ b) (aEnd : next a = none)
    (bEnd : next b = none) (link : next' b = some a) (others : ∀ u, u ≠ b → next' u = next u)
    (u d : V) : Ends next' u d ↔ (Ends next u d ∧ d ≠ b) ∨ (Ends next u b ∧ d = a) := by
  have stops : Ends next' a a := ends_of_undefined ((others a apart).trans aEnd)
  constructor
  · rintro ⟨n, chain⟩
    induction chain with
    | @stop u undefined =>
      have other : u ≠ b := by
        rintro rfl
        rw [link] at undefined
        cases undefined
      exact .inl ⟨ends_of_undefined ((others u other).symm.trans undefined), other⟩
    | @step n u w d step rest ih =>
      by_cases same : u = b
      · subst same
        obtain rfl := some.inj (link.symm.trans step)
        exact .inr ⟨ends_of_undefined bEnd, Ends.unique ⟨_, rest⟩ stops⟩
      · have old := (others u same).symm.trans step
        exact ih.imp (.imp_left (ends_iff_of_step old).mpr) (.imp_left (ends_iff_of_step old).mpr)
  · rintro (⟨⟨n, chain⟩, other⟩ | ⟨⟨n, chain⟩, rfl⟩)
    · induction chain with
      | @stop u undefined => exact ends_of_undefined ((others u other).trans undefined)
      | @step n u w d step rest ih =>
        have notEnd : u ≠ b := by
          rintro rfl
          rw [bEnd] at step
          cases step
        exact (ends_iff_of_step ((others u notEnd).trans step)).mpr (ih other)
    · induction chain with
      | stop _ => exact (ends_iff_of_step link).mpr stops
      | @step n u w b step rest ih =>
        have notEnd : u ≠ b := by
          rintro rfl
          rw [bEnd] at step
          cases step
        exact (ends_iff_of_step ((others u notEnd).trans step)).mpr (ih bEnd others apart link)

/-- Setting the next member to an end moves the chains through it there, and keeps the
others. -/
theorem ends_set {next' : V → Option V} {d e : V} (apart : e ≠ d) (isEnd : next e = none)
    (set : next' d = some e) (others : ∀ u, u ≠ d → next' u = next u) {v x : V}
    (ends : Ends next v x) :
    (Ends next' v x ∧ x ≠ d) ∨ (Ends next' v e ∧ Ends next d x) := by
  have stops : Ends next' e e := ends_of_undefined ((others e apart).trans isEnd)
  have atD : Ends next' d e := (ends_iff_of_step set).mpr stops
  obtain ⟨n, chain⟩ := ends
  induction chain with
  | @stop v undefined =>
    by_cases same : v = d
    · subst same
      exact .inr ⟨atD, ends_of_undefined undefined⟩
    · exact .inl ⟨ends_of_undefined ((others v same).trans undefined), same⟩
  | @step n v w x step rest ih =>
    by_cases same : v = d
    · subst same
      exact .inr ⟨atD, _, .step step rest⟩
    · have kept := (others v same).trans step
      exact ih.imp (.imp_left (ends_iff_of_step kept).mpr) (.imp_left (ends_iff_of_step kept).mpr)

end R2Sleigh.Lib
