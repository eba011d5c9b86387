/-!
Contract: runs of a step function to its stop.

Owns `StopsAt`.
-/

namespace R2Sleigh.Lib

variable {S T : Type}

inductive StopsAt (step : S → Option (Option S)) : S → S → Prop where
  | stop {s : S} (stops : step s = some none) : StopsAt step s s
  | next {s t last : S} (goesOn : step s = some (some t)) (rest : StopsAt step t last) :
      StopsAt step s last

namespace StopsAt

variable {step : S → Option (Option S)} {step' : T → Option (Option T)}

theorem unique {s last last' : S} (ends : StopsAt step s last) (ends' : StopsAt step s last') :
    last = last' := by
  induction ends with
  | stop stops =>
    cases ends' with
    | stop _ => rfl
    | next goesOn _ => cases stops.symm.trans goesOn
  | next goesOn _ ih =>
    cases ends' with
    | stop stops => cases stops.symm.trans goesOn
    | next goesOn' rest =>
      cases goesOn.symm.trans goesOn'
      exact ih rest

/-- Where related states step to related ones, and one stops where the other does, so do
their runs. -/
theorem simulate {R : S → T → Prop}
    (steps : ∀ s s' t, R s t → step s = some (some s') → ∃ t', step' t = some (some t') ∧ R s' t')
    {s last : S} (ends : StopsAt step s last)
    (stop : ∀ t, R last t → step last = some none → step' t = some none) :
    ∀ {t : T}, R s t → ∃ last', StopsAt step' t last' ∧ R last last' := by
  induction ends with
  | stop stops => exact fun {t} related => ⟨t, .stop (stop t related stops), related⟩
  | next goesOn _ ih =>
    intro t related
    obtain ⟨t', goesOn', related'⟩ := steps _ _ t related goesOn
    obtain ⟨last', ends', relatedLast⟩ := ih stop related'
    exact ⟨last', .next goesOn' ends', relatedLast⟩

end StopsAt

/-- A loop whose steps end with enough fuel ends with enough fuel, and keeps what its steps
keep. -/
theorem foldlM_ends {A B : Type} (step : Nat → B → A → Option B) (holds : List A → B → Prop) :
    ∀ (items : List A) (start : B) (done : List A), holds done start →
      (∀ done a b, a ∈ items → holds done b → ∃ bound next,
        (∀ fuel, bound < fuel → step fuel b a = some next) ∧ holds (done ++ [a]) next) →
      ∃ bound final, (∀ fuel, bound < fuel → items.foldlM (step fuel) start = some final) ∧
        holds (done ++ items) final
  | [], start, done, begins, _ => ⟨0, start, fun _ _ => rfl, (List.append_nil done).symm ▸ begins⟩
  | a :: rest, start, done, begins, ends => by
    obtain ⟨bound, next, runs, holdsNext⟩ := ends done a start List.mem_cons_self begins
    obtain ⟨bound', final, runs', holdsFinal⟩ := foldlM_ends step holds rest next _ holdsNext
      fun done a b mem => ends done a b (List.mem_cons_of_mem _ mem)
    rw [List.append_assoc] at holdsFinal
    refine ⟨max bound bound', final, fun fuel enough => ?_, holdsFinal⟩
    rw [List.foldlM_cons, runs fuel (Nat.lt_of_le_of_lt (Nat.le_max_left _ _) enough)]
    exact runs' fuel (Nat.lt_of_le_of_lt (Nat.le_max_right _ _) enough)

end R2Sleigh.Lib
