import Mathlib.Data.Prod.Lex
import Mathlib.Order.OrderIsoNat
import R2Sleigh.Lib.HashMap

/-!
Contract: labels that spread along the edges of a graph.

Owns `Spread`, `Adds` and `Spreading`.
-/

namespace R2Sleigh.Lib

open Relation List

variable {V L : Type} [DecidableEq V]

/-- The labels of a vertex, none where it has no entry. -/
def labelsAt (sets : HashMap V (Finset L)) (v : V) : Finset L := (sets.lookup v).getD ∅

structure Spread (V L : Type) where
  sets : HashMap V (Finset L)
  worklist : List V

/-- Extend a set; the vertex waits if its set has grown. -/
def Spread.extend [DecidableEq L] (state : Spread V L) (v : V) (labels : Finset L) : Spread V L :=
  let set := labelsAt state.sets v
  { sets := state.sets.insert v (set ∪ labels)
    worklist := if (set ∪ labels).card > set.card then state.worklist ++ [v] else state.worklist }

theorem labelsAt_insert (sets : HashMap V (Finset L)) (v : V) (labels : Finset L) (u : V) :
    labelsAt (sets.insert v labels) u = if u = v then labels else labelsAt sets u := by
  unfold labelsAt
  by_cases same : u = v
  · subst same
    rw [AList.lookup_insert, if_pos rfl, Option.getD_some]
  · rw [AList.lookup_insert_ne same, if_neg same]

theorem mem_of_mem_labelsAt {sets : HashMap V (Finset L)} {v : V} {l : L}
    (mem : l ∈ labelsAt sets v) : v ∈ sets := by
  rw [← AList.lookup_isSome]
  unfold labelsAt at mem
  cases found : sets.lookup v with
  | none =>
    rw [found] at mem
    exact absurd mem (Finset.notMem_empty l)
  | some labels => rfl

/-! ## Extensions -/

/-- A label that a vertex has in one state and not in another. -/
def NewAt (before after : Spread V L) (v : V) (l : L) : Prop :=
  l ∈ labelsAt after.sets v ∧ l ∉ labelsAt before.sets v

/-- The labels `adds` were added, with entries at `touched` only; exactly the
vertices whose sets have grown came to wait. -/
structure Adds (touched : V → Prop) (adds : V → L → Prop) (before after : Spread V L) : Prop where
  sets : ∀ v l, l ∈ labelsAt after.sets v ↔ l ∈ labelsAt before.sets v ∨ adds v l
  keys : ∀ v, v ∈ after.sets → v ∈ before.sets ∨ touched v
  worklist : ∃ grown, after.worklist = before.worklist ++ grown ∧
    ∀ v, v ∈ grown ↔ ∃ l, NewAt before after v l

namespace Adds

variable {touched touched' : V → Prop} {adds adds' : V → L → Prop} {before mid after : Spread V L}

theorem refl (state : Spread V L) : Adds (fun _ => False) (fun _ _ => False) state state :=
  ⟨by simp, fun v known => .inl known, [], (append_nil _).symm, by simp [NewAt]⟩

theorem trans (first : Adds touched adds before mid) (second : Adds touched' adds' mid after) :
    Adds (fun v => touched v ∨ touched' v) (fun v l => adds v l ∨ adds' v l) before after := by
  obtain ⟨grown, worklist, mem⟩ := first.worklist
  obtain ⟨grown', worklist', member'⟩ := second.worklist
  refine ⟨fun v l => ?_, fun v known => ?_, grown ++ grown', ?_, fun v => ?_⟩
  · rw [second.sets, first.sets, or_assoc]
  · rcases second.keys v known with known | isTouched
    · exact (first.keys v known).imp_right .inl
    · exact .inr (.inr isTouched)
  · rw [worklist', worklist, append_assoc]
  · rw [mem_append, mem, member']
    constructor
    · rintro (⟨l, isNew, wasOld⟩ | ⟨l, isNew, wasOld⟩)
      · exact ⟨l, (second.sets v l).mpr (.inl isNew), wasOld⟩
      · exact ⟨l, isNew, fun old => wasOld ((first.sets v l).mpr (.inl old))⟩
    · rintro ⟨l, isNew, wasOld⟩
      by_cases early : l ∈ labelsAt mid.sets v
      · exact .inl ⟨l, early, wasOld⟩
      · exact .inr ⟨l, isNew, early⟩

theorem congr (added : Adds touched adds before after) (sameTouched : ∀ v, touched v → touched' v)
    (sameAdds : ∀ v l, adds v l ↔ adds' v l) : Adds touched' adds' before after :=
  ⟨fun v l => (added.sets v l).trans (or_congr_right (sameAdds v l)),
    fun v known => (added.keys v known).imp_right (sameTouched v), added.worklist⟩

theorem extend [DecidableEq L] (state : Spread V L) (v : V) (labels : Finset L) :
    Adds (· = v) (fun u l => u = v ∧ l ∈ labels) state (state.extend v labels) := by
  have sets : ∀ u l, l ∈ labelsAt (state.extend v labels).sets u ↔
      l ∈ labelsAt state.sets u ∨ u = v ∧ l ∈ labels := by
    intro u l
    rw [Spread.extend, labelsAt_insert]
    by_cases same : u = v
    · subst same
      simp
    · simp [same]
  refine ⟨sets, fun u known => ?_, ?_⟩
  · rw [Spread.extend, AList.mem_insert] at known
    exact known.symm
  · have grows : (labelsAt state.sets v ∪ labels).card > (labelsAt state.sets v).card ↔
        ∃ l, NewAt state (state.extend v labels) v l := by
      constructor
      · intro larger
        by_contra none
        push Not at none
        refine absurd (Finset.card_le_card fun l mem => ?_) (Nat.not_le.mpr larger)
        by_contra fresh
        refine none l ⟨(sets v l).mpr ?_, fresh⟩
        rcases Finset.mem_union.mp mem with old | isNew
        · exact .inl old
        · exact .inr ⟨rfl, isNew⟩
      · rintro ⟨l, isNew, wasOld⟩
        refine Finset.card_lt_card ⟨Finset.subset_union_left, fun all => wasOld (all ?_)⟩
        rcases (sets v l).mp isNew with old | ⟨-, added⟩
        · exact Finset.mem_union_left _ old
        · exact Finset.mem_union_right _ added
    have elsewhere : ∀ u, u ≠ v → ¬ ∃ l, NewAt state (state.extend v labels) u l := by
      rintro u other ⟨l, isNew, wasOld⟩
      rcases (sets u l).mp isNew with old | ⟨same, -⟩
      · exact wasOld old
      · exact other same
    by_cases larger : (labelsAt state.sets v ∪ labels).card > (labelsAt state.sets v).card
    · refine ⟨[v], by rw [Spread.extend]; exact if_pos larger, fun u => ?_⟩
      by_cases same : u = v
      · subst same
        exact iff_of_true (mem_singleton.mpr rfl) (grows.mp larger)
      · exact iff_of_false (fun inside => same (mem_singleton.mp inside)) (elsewhere u same)
    · refine ⟨[], by rw [Spread.extend, append_nil]; exact if_neg larger, fun u => ?_⟩
      by_cases same : u = v
      · subst same
        exact iff_of_false not_mem_nil fun isNew => larger (grows.mpr isNew)
      · exact iff_of_false not_mem_nil (elsewhere u same)

theorem foldl {Item : Type} {step : Spread V L → Item → Spread V L} {touched : Item → V → Prop}
    {adds : Item → V → L → Prop} (items : List Item)
    (each : ∀ state, ∀ item ∈ items, Adds (touched item) (adds item) state (step state item)) :
    ∀ state, Adds (fun v => ∃ item ∈ items, touched item v)
      (fun v l => ∃ item ∈ items, adds item v l) state (items.foldl step state) := by
  induction items with
  | nil => exact fun state => (refl state).congr (fun _ => False.elim) (by simp)
  | cons item rest ih =>
    intro state
    have later := ih (fun s i m => each s i (mem_cons_of_mem _ m)) (step state item)
    refine ((each state item mem_cons_self).trans later).congr ?_ ?_
    · intro v isTouched
      rcases isTouched with here | ⟨i, inRest, here⟩
      · exact ⟨item, mem_cons_self, here⟩
      · exact ⟨i, mem_cons_of_mem _ inRest, here⟩
    · simp

end Adds

/-! ## The loop -/

/-- The labels found come from seeds, all seeds are in, labels in `done` were
forwarded, and the others wait. -/
structure Spreading (seed : V → L → Prop) (edge : V → V → Prop) (done : HashMap V (Finset L))
    (state : Spread V L) : Prop where
  sound : ∀ v l, l ∈ labelsAt state.sets v → ∃ u, seed u l ∧ ReflTransGen edge u v
  seeds : ∀ v l, seed v l → l ∈ labelsAt state.sets v
  forwarded : ∀ u v l, l ∈ labelsAt done u → edge u v → l ∈ labelsAt state.sets v
  waiting : ∀ v l, l ∈ labelsAt state.sets v → l ∈ labelsAt done v ∨ v ∈ state.worklist

namespace Spreading

variable {seed : V → L → Prop} {edge : V → V → Prop} {done done' : HashMap V (Finset L)}
  {state after : Spread V L}

theorem start {touched : V → Prop} (added : Adds touched seed ⟨∅, []⟩ state) :
    Spreading seed edge ∅ state := by
  have none : ∀ (v : V) (l : L), l ∉ labelsAt ∅ v := fun v l => Finset.notMem_empty l
  refine ⟨fun v l mem => ?_, fun v l isSeed => ?_, fun u v l mem => ?_, fun v l mem => ?_⟩
  · exact ⟨v, ((added.sets v l).mp mem).resolve_left (none v l), .refl⟩
  · exact (added.sets v l).mpr (.inr isSeed)
  · exact absurd mem (none u l)
  · obtain ⟨grown, worklist, waits⟩ := added.worklist
    rw [worklist]
    exact .inr (mem_append_right _ ((waits v).mpr ⟨l, mem, none v l⟩))

/-- Take a waiting vertex and forward the labels it has not forwarded yet. -/
theorem take [DecidableEq L] (spreading : Spreading seed edge done state) {v : V} {rest : List V}
    (taken : (v :: rest).Perm state.worklist) {touched : V → Prop}
    (added : Adds touched
      (fun u l => l ∈ labelsAt state.sets v \ labelsAt done v ∧ edge v u) ⟨state.sets, rest⟩ after)
    (doneNow : ∀ u l, l ∈ labelsAt done' u ↔
      l ∈ labelsAt done u ∨ u = v ∧ l ∈ labelsAt state.sets v) :
    Spreading seed edge done' after := by
  have kept : ∀ u l, l ∈ labelsAt state.sets u → l ∈ labelsAt after.sets u :=
    fun u l mem => (added.sets u l).mpr (.inl mem)
  refine ⟨fun u l mem => ?_, fun u l isSeed => kept u l (spreading.seeds u l isSeed),
    fun u w l mem isEdge => ?_, fun u l mem => ?_⟩
  · rcases (added.sets u l).mp mem with old | ⟨fresh, isEdge⟩
    · exact spreading.sound u l old
    · obtain ⟨s, isSeed, path⟩ := spreading.sound v l (Finset.mem_sdiff.mp fresh).1
      exact ⟨s, isSeed, path.tail isEdge⟩
  · by_cases before : l ∈ labelsAt done u
    · exact kept w l (spreading.forwarded u w l before isEdge)
    · obtain ⟨rfl, has⟩ := ((doneNow u l).mp mem).resolve_left before
      exact (added.sets w l).mpr (.inr ⟨Finset.mem_sdiff.mpr ⟨has, before⟩, isEdge⟩)
  · obtain ⟨grown, worklist, waits⟩ := added.worklist
    rw [worklist]
    by_cases old : l ∈ labelsAt state.sets u
    · rcases spreading.waiting u l old with before | waiting
      · exact .inl ((doneNow u l).mpr (.inl before))
      · rcases mem_cons.mp (taken.mem_iff.mpr waiting) with rfl | inRest
        · exact .inl ((doneNow u l).mpr (.inr ⟨rfl, old⟩))
        · exact .inr (mem_append_left _ inRest)
    · exact .inr (mem_append_right _ ((waits u).mpr ⟨l, mem, old⟩))

theorem exact (spreading : Spreading seed edge done state) (finished : state.worklist = [])
    (v : V) (l : L) :
    l ∈ labelsAt state.sets v ↔ ∃ u, seed u l ∧ ReflTransGen edge u v := by
  constructor
  · exact spreading.sound v l
  · rintro ⟨u, isSeed, path⟩
    induction path with
    | refl => exact spreading.seeds u l isSeed
    | @tail v w _ isEdge ih =>
      have isDone := (spreading.waiting v l ih).resolve_right (by rw [finished]; exact not_mem_nil)
      exact spreading.forwarded v w l isDone isEdge

end Spreading

/-! ## The end of the loop -/

/-- All labels are of one finite set, at vertices of another. -/
def Within (vertices : Finset V) (labels : Finset L) (state : Spread V L) : Prop :=
  ∀ v l, l ∈ labelsAt state.sets v → v ∈ vertices ∧ l ∈ labels

/-- The labels that vertices do not have yet. -/
def missing [DecidableEq L] (vertices : Finset V) (labels : Finset L) (state : Spread V L) : Finset (V × L) :=
  (vertices ×ˢ labels).filter fun entry => entry.2 ∉ labelsAt state.sets entry.1

section

variable [DecidableEq L] {vertices : Finset V} {labels : Finset L}

/-- Taking a vertex lowers the number of missing labels, or leaves one waiting
vertex less. -/
theorem Adds.decreases {state after : Spread V L}
    {touched : V → Prop} {adds : V → L → Prop} {v : V} {rest : List V}
    (taken : (v :: rest).Perm state.worklist)
    (added : Adds touched adds ⟨state.sets, rest⟩ after) (within : Within vertices labels after) :
    toLex ((missing vertices labels after).card, after.worklist.length) <
      toLex ((missing vertices labels state).card, state.worklist.length) := by
  obtain ⟨grown, worklist, waits⟩ := added.worklist
  have fewer : missing vertices labels after ⊆ missing vertices labels state := by
    intro entry lacks
    obtain ⟨inside, lacking⟩ := Finset.mem_filter.mp lacks
    refine Finset.mem_filter.mpr ⟨inside, fun has => lacking ?_⟩
    exact (added.sets _ _).mpr (.inl has)
  rw [Prod.Lex.toLex_lt_toLex]
  cases grown with
  | nil =>
    rw [append_nil] at worklist
    rcases Nat.lt_or_eq_of_le (Finset.card_le_card fewer) with less | same
    · exact .inl less
    · refine .inr ⟨same, ?_⟩
      rw [worklist, ← taken.length_eq]
      exact Nat.lt_succ_self _
  | cons u grown =>
    obtain ⟨l, isNew, wasOld⟩ := (waits u).mp mem_cons_self
    obtain ⟨isVertex, isLabel⟩ := within u l isNew
    refine .inl (Finset.card_lt_card ⟨fewer, fun all => ?_⟩)
    have lacked : (u, l) ∈ missing vertices labels state :=
      Finset.mem_filter.mpr ⟨Finset.mem_product.mpr ⟨isVertex, isLabel⟩, wasOld⟩
    exact (Finset.mem_filter.mp (all lacked)).2 isNew

theorem no_endless_spread (run : Nat → Spread V L)
    (within : ∀ n, Within vertices labels (run n))
    (steps : ∀ n, ∃ v rest touched adds, (v :: rest).Perm (run n).worklist ∧
      Adds touched adds ⟨(run n).sets, rest⟩ (run (n + 1))) : False := by
  obtain ⟨n, stays⟩ := WellFounded.not_rel_apply_succ (r := (· < ·)) fun n =>
    toLex ((missing vertices labels (run n)).card, (run n).worklist.length)
  obtain ⟨v, rest, touched, adds, taken, added⟩ := steps n
  exact stays (added.decreases taken (within (n + 1)))

end

end R2Sleigh.Lib
