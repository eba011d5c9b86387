import Mathlib.Data.Finset.Card

/-!
Contract: passes over items whose keys join a set until a pass changes nothing.

Owns `saturate`.
-/

namespace R2Sleigh.Lib

variable {K A : Type} [DecidableEq K] (key : A → K) (joins : Finset K → A → Prop)
  [∀ set item, Decidable (joins set item)]

/-- The key of an item joins the set, or nothing changes. -/
def saturateStep (state : Finset K × Bool) (item : A) : Finset K × Bool :=
  if key item ∉ state.1 ∧ joins state.1 item then (insert (key item) state.1, true) else state

def saturate (order : Nat → List A) : Nat → Nat → Finset K → Option (Finset K)
  | 0, _, _ => none
  | fuel + 1, pass, set =>
    let (set, changed) := (order pass).foldl (saturateStep key joins) (set, false)
    if changed then saturate order fuel (pass + 1) set else some set

/-- The keys of these items are in the set if they join it. -/
def ClosedFor (items : List A) (set : Finset K) : Prop :=
  ∀ item ∈ items, joins set item → key item ∈ set

variable {joins}

theorem foldl_saturateStep (monotone : ∀ s t item, s ⊆ t → joins s item → joins t item)
    (order : List A) : ∀ state : Finset K × Bool,
      let after := order.foldl (saturateStep key joins) state
      state.1 ⊆ after.1 ∧
        (after = state ∧ ClosedFor key joins order state.1 ∨
          after.2 = true ∧ ∃ item ∈ order, key item ∉ state.1 ∧ key item ∈ after.1) ∧
        ∀ other, state.1 ⊆ other → ClosedFor key joins order other → after.1 ⊆ other := by
  induction order with
  | nil =>
    intro state
    exact ⟨fun _ => id, .inl ⟨rfl, fun _ mem => absurd mem List.not_mem_nil⟩,
      fun _ within _ => within⟩
  | cons item rest ih =>
    intro state
    obtain ⟨grows, ends, least⟩ := ih (saturateStep key joins state item)
    rw [List.foldl_cons]
    by_cases enters : key item ∉ state.1 ∧ joins state.1 item
    · rw [saturateStep, if_pos enters] at grows ends least ⊢
      have inAfter := grows (Finset.mem_insert_self ..)
      refine ⟨fun _ mem => grows (Finset.mem_insert_of_mem mem), .inr ⟨?_, item,
        List.mem_cons_self, enters.1, inAfter⟩, fun other within closed => ?_⟩
      · rcases ends with ⟨same, -⟩ | ⟨changed, -⟩
        · rw [same]
        · exact changed
      · refine least other (Finset.insert_subset ?_ within) fun i mem =>
          closed i (List.mem_cons_of_mem _ mem)
        exact closed item List.mem_cons_self (monotone _ _ item within enters.2)
    · rw [saturateStep, if_neg enters] at grows ends least ⊢
      refine ⟨grows, ?_, fun other within closed =>
        least other within fun i mem => closed i (List.mem_cons_of_mem _ mem)⟩
      rcases ends with ⟨same, closed⟩ | ⟨changed, i, mem, new⟩
      · refine .inl ⟨same, fun i mem joined => ?_⟩
        rcases List.mem_cons.mp mem with rfl | mem
        · exact Classical.not_not.mp fun absent => enters ⟨absent, joined⟩
        · exact closed i mem joined
      · exact .inr ⟨changed, i, List.mem_cons_of_mem _ mem, new⟩

/-- The passes end, at the least closed set around the first one. -/
theorem saturate_least (monotone : ∀ s t item, s ⊆ t → joins s item → joins t item)
    {items : List A} {order : Nat → List A} (visits : ∀ n item, item ∈ order n ↔ item ∈ items)
    (fuel : Nat) : ∀ (pass : Nat) (set : Finset K), ((items.map key).toFinset \ set).card < fuel →
      ∃ result, saturate key joins order fuel pass set = some result ∧ set ⊆ result ∧
        ClosedFor key joins items result ∧
        ∀ other, set ⊆ other → ClosedFor key joins items other → result ⊆ other := by
  induction fuel with
  | zero => exact fun _ _ enough => absurd enough (Nat.not_lt_zero _)
  | succ fuel ih =>
    intro pass set enough
    have sameItems : ∀ set : Finset K, ClosedFor key joins (order pass) set ↔
        ClosedFor key joins items set := fun set => by
      simp only [ClosedFor, visits]
    obtain ⟨grows, ends, least⟩ := foldl_saturateStep key monotone (order pass) (set, false)
    rw [saturate]
    generalize (order pass).foldl (saturateStep key joins) (set, false) = after at grows ends least
    obtain ⟨after, changed⟩ := after
    rcases ends with ⟨same, closed⟩ | ⟨rfl, item, mem, new, added⟩
    · cases same
      exact ⟨set, rfl, fun _ => id, (sameItems set).mp closed, fun _ within _ => within⟩
    · have fewer : ((items.map key).toFinset \ after).card <
          ((items.map key).toFinset \ set).card := by
        refine Finset.card_lt_card (Finset.ssubset_iff_subset_ne.mpr
          ⟨Finset.sdiff_subset_sdiff (fun _ => id) grows, fun same => ?_⟩)
        have isKey : key item ∈ (items.map key).toFinset :=
          List.mem_toFinset.mpr (List.mem_map_of_mem ((visits pass item).mp mem))
        have outside := Finset.mem_sdiff.mpr ⟨isKey, new⟩
        rw [← same] at outside
        exact (Finset.mem_sdiff.mp outside).2 added
      obtain ⟨result, isResult, around, closed, isLeast⟩ := ih (pass + 1) after (by omega)
      refine ⟨result, isResult, grows.trans around, closed, fun other within closed =>
        isLeast other (least other within ((sameItems other).mpr closed)) closed⟩

end R2Sleigh.Lib
