import R2Sleigh.Lib.Settling

/-!
Contract: values merged at the nodes of a graph, round after round.

Owns `Merging` and `Merging.Rounds`.
-/

namespace R2Sleigh.Lib

open Option

/-- A graph whose listed nodes are visited in the order of a rank. A node that
writes hands on what it writes, any other what it takes. -/
structure Merging (N V : Type) where
  rank : N → Nat
  Listed : N → Prop
  preds : N → List N
  writes : N → Option V
  zero : V
  /-- The value of a node's own, once it has one. -/
  Own : N → V → Prop

namespace Merging

variable {N V : Type} {graph : Merging N V}

/-- The values that nodes write or have of their own are told apart. -/
structure Lawful (graph : Merging N V) : Prop where
  writes_ne_zero : ∀ {p v}, graph.writes p = some v → v ≠ graph.zero
  own_ne_zero : ∀ {b v}, graph.Own b v → v ≠ graph.zero
  own_unique : ∀ {b v v'}, graph.Own b v → graph.Own b v' → v = v'
  own_apart : ∀ {b c v}, graph.Own b v → graph.Own c v → b = c
  own_ne_writes : ∀ {b v p}, graph.Own b v → graph.writes p ≠ some v

/-- What a node takes, given the value of each predecessor. -/
inductive Merged (graph : Merging N V) (b : N) (input : N → V) : V → Prop
  | none : graph.preds b = [] → Merged graph b input graph.zero
  | common {v : V} : graph.preds b ≠ [] → (∀ p ∈ graph.preds b, input p = v) →
      Merged graph b input v
  | own {v : V} : (¬ ∃ v, ∀ p ∈ graph.preds b, input p = v) → graph.Own b v →
      Merged graph b input v

open Classical in
/-- What a node hands on at the end of a round, zero before the first. -/
noncomputable def outs (graph : Merging N V) (ins : Nat → N → V) (n : Nat) (p : N) : V :=
  if n = 0 ∨ ¬ graph.Listed p then graph.zero else (graph.writes p).getD (ins n p)

/-- What a node meets at a predecessor in the round after `n` rounds: the value of
this round if the predecessor comes first. -/
noncomputable def input (graph : Merging N V) (ins : Nat → N → V) (n : Nat) (b p : N) : V :=
  graph.outs ins (if graph.rank p < graph.rank b then n + 1 else n) p

structure Rounds (graph : Merging N V) (ins : Nat → N → V) : Prop where
  start : ∀ b, ins 0 b = graph.zero
  step : ∀ n b, graph.Listed b → graph.Merged b (graph.input ins n b) (ins (n + 1) b)

variable {ins : Nat → N → V}

section

variable {n : Nat} {p : N}

theorem outs_of_listed (positive : 0 < n) (listed : graph.Listed p) :
    graph.outs ins n p = (graph.writes p).getD (ins n p) :=
  if_neg (not_or.mpr ⟨positive.ne', not_not.mpr listed⟩)

theorem outs_of_not_listed (unlisted : ¬ graph.Listed p) : graph.outs ins n p = graph.zero :=
  if_pos (Or.inr unlisted)

theorem outs_writes {w : V} (listed : graph.Listed p)
    (isWrite : graph.writes p = some w) (positive : 0 < n) : graph.outs ins n p = w := by
  rw [outs_of_listed positive listed, isWrite, getD_some]

theorem outs_eq {v : V} (nonzero : v ≠ graph.zero) (isOut : graph.outs ins n p = v) :
    graph.Listed p ∧ (graph.writes p = some v ∨ (graph.writes p = none ∧ ins n p = v)) := by
  unfold outs at isOut
  split at isOut
  · exact absurd isOut.symm nonzero
  · rename_i known
    obtain ⟨-, listed⟩ := not_or.mp known
    refine ⟨not_not.mp listed, ?_⟩
    cases isWrite : graph.writes p with
    | none =>
      rw [isWrite, getD_none] at isOut
      exact Or.inr ⟨rfl, isOut⟩
    | some w =>
      rw [isWrite, getD_some] at isOut
      exact Or.inl (congrArg some isOut)

end

theorem rounds_induction {P : Nat → N → Prop} (zero : ∀ b, P 0 b)
    (step : ∀ n b, graph.Listed b → (∀ p ∈ graph.preds b, graph.Listed p →
      P (if graph.rank p < graph.rank b then n + 1 else n) p) → P (n + 1) b) :
    ∀ n b, graph.Listed b → P n b := by
  intro n
  induction n with
  | zero => exact fun b _ => zero b
  | succ n previous =>
    intro b
    induction rank : graph.rank b using Nat.strongRecOn generalizing b with
    | _ r earlier =>
      intro listed
      refine step n b listed fun p _ listedP => ?_
      split
      · rename_i before
        exact earlier (graph.rank p) (rank ▸ before) p rfl listedP
      · exact previous p listedP

namespace Rounds

variable (rounds : graph.Rounds ins)
include rounds

theorem outs_silent {n : Nat} {p : N} (listed : graph.Listed p) (silent : graph.writes p = none) :
    graph.outs ins n p = ins n p := by
  unfold outs
  by_cases first : n = 0
  · rw [if_pos (Or.inl first), first, rounds.start]
  · rw [if_neg (not_or.mpr ⟨first, not_not.mpr listed⟩), silent, getD_none]

theorem zero_of_closed {U : N → Prop} (closed : ∀ b, U b → ∀ p ∈ graph.preds b,
    graph.Listed p ∧ graph.writes p = none ∧ U p) :
    ∀ n b, graph.Listed b → U b → ins n b = graph.zero := by
  refine rounds_induction (fun b _ => rounds.start b) fun n b listed ih isU => ?_
  have zeros : ∀ p ∈ graph.preds b, graph.input ins n b p = graph.zero := fun p mem => by
    obtain ⟨listedP, silent, isUP⟩ := closed b isU p mem
    rw [input, rounds.outs_silent listedP silent]
    exact ih p mem listedP isUP
  generalize taken : ins (n + 1) b = v
  cases taken ▸ rounds.step n b listed with
  | none => rfl
  | common nonempty same =>
    obtain ⟨p, mem⟩ := List.exists_mem_of_ne_nil _ nonempty
    rw [← same p mem, zeros p mem]
  | own differ _ => exact absurd ⟨graph.zero, zeros⟩ differ

end Rounds

/-! ## Where a value comes from -/

/-- Nodes that take a value from predecessors that all hand it on. -/
inductive Fed (graph : Merging N V) (v : V) (Source : N → Prop) : N → Prop
  | source {b : N} : Source b → Fed graph v Source b
  | step {b : N} : graph.preds b ≠ [] → (∀ p ∈ graph.preds b, graph.Listed p) →
      (∀ p ∈ graph.preds b, ∀ w, graph.writes p = some w → w = v) →
      (∀ p ∈ graph.preds b, graph.writes p = none → Fed graph v Source p) → Fed graph v Source b

/-- Nodes that a write can reach. -/
inductive Comes (graph : Merging N V) : N → Prop
  | write {b p : N} : p ∈ graph.preds b → graph.Listed p → (graph.writes p).isSome → Comes graph b
  | along {b p : N} : p ∈ graph.preds b → graph.Listed p → Comes graph p → Comes graph b

theorem le_inputIndex {n : Nat} {b p : N} :
    n ≤ if graph.rank p < graph.rank b then n + 1 else n := by
  split <;> omega

namespace Rounds

variable (rounds : graph.Rounds ins)
include rounds

theorem fed_of_eq {v : V} {Source : N → Prop} (nonzero : v ≠ graph.zero)
    (sources : ∀ b, graph.Own b v → Source b) :
    ∀ n b, graph.Listed b → ins n b = v → graph.Fed v Source b := by
  refine rounds_induction (fun b taken => absurd (taken.symm.trans (rounds.start b)) nonzero)
    fun n b listed ih taken => ?_
  cases taken ▸ rounds.step n b listed with
  | none => exact absurd rfl nonzero
  | common nonempty same =>
    refine .step nonempty (fun p mem => (outs_eq nonzero (same p mem)).1)
      (fun p mem w isWrite => ?_) fun p mem silent => ?_
    · rcases (outs_eq nonzero (same p mem)).2 with written | ⟨silent, -⟩
      · exact some.inj (isWrite.symm.trans written)
      · rw [silent] at isWrite
        cases isWrite
    · rcases (outs_eq nonzero (same p mem)).2 with written | ⟨-, takenP⟩
      · rw [silent] at written
        cases written
      · exact ih p mem (outs_eq nonzero (same p mem)).1 takenP
  | own _ isOwn => exact .source (sources b isOwn)

theorem eventually_of_fed {v : V} {Source : N → Prop}
    (permanent : ∀ b, Source b → ∃ bound, ∀ n, bound ≤ n → ins n b = v) {b : N}
    (fed : graph.Fed v Source b) : graph.Listed b → ∃ bound, ∀ n, bound ≤ n → ins n b = v := by
  induction fed with
  | source isSource => exact fun _ => permanent _ isSource
  | @step b nonempty listedPreds writes silent ih =>
    intro listed
    obtain ⟨bound, common⟩ := exists_common_bound (P := fun p n => graph.outs ins n p = v)
      (graph.preds b) fun p mem => by
        cases isWrite : graph.writes p with
        | some w =>
          refine ⟨1, fun n positive => ?_⟩
          rw [outs_writes (listedPreds p mem) isWrite positive]
          exact writes p mem w isWrite
        | none =>
          obtain ⟨bound, always⟩ := ih p mem isWrite (listedPreds p mem)
          refine ⟨bound, fun n large => ?_⟩
          rw [rounds.outs_silent (listedPreds p mem) isWrite]
          exact always n large
    refine ⟨bound + 1, fun n large => ?_⟩
    obtain ⟨n, rfl⟩ : ∃ k, n = k + 1 := ⟨n - 1, by omega⟩
    have inputs : ∀ p ∈ graph.preds b, graph.input ins n b p = v := fun p mem =>
      common p mem _ (le_trans (by omega) le_inputIndex)
    generalize taken : ins (n + 1) b = v'
    cases taken ▸ rounds.step n b listed with
    | none empty => exact absurd empty nonempty
    | common _ same =>
      obtain ⟨p, mem⟩ := List.exists_mem_of_ne_nil _ nonempty
      rw [← same p mem, inputs p mem]
    | own differ _ => exact absurd ⟨v, inputs⟩ differ

theorem comes_of_ne_zero : ∀ n b, graph.Listed b → ins n b ≠ graph.zero → graph.Comes b := by
  refine rounds_induction (fun b nonzero => absurd (rounds.start b) nonzero)
    fun n b listed ih nonzero => ?_
  obtain ⟨p, mem, input⟩ : ∃ p ∈ graph.preds b, graph.input ins n b p ≠ graph.zero := by
    by_contra none
    push Not at none
    generalize taken : ins (n + 1) b = v at nonzero
    cases taken ▸ rounds.step n b listed with
    | none => exact nonzero rfl
    | common nonempty same =>
      obtain ⟨p, mem⟩ := List.exists_mem_of_ne_nil _ nonempty
      exact nonzero ((same p mem).symm.trans (none p mem))
    | own differ _ => exact differ ⟨graph.zero, none⟩
  obtain ⟨listedP, written | ⟨-, taken⟩⟩ := outs_eq input rfl
  · exact .write mem listedP (by rw [written]; rfl)
  · exact .along mem listedP (ih p mem listedP (taken ▸ input))

section

variable (lawful : graph.Lawful)
include lawful

theorem ne_zero_of_input {n : Nat} {b p : N} (listed : graph.Listed b)
    (mem : p ∈ graph.preds b) (input : graph.input ins n b p ≠ graph.zero) :
    ins (n + 1) b ≠ graph.zero := by
  generalize taken : ins (n + 1) b = v
  cases taken ▸ rounds.step n b listed with
  | none empty =>
    rw [empty] at mem
    cases mem
  | common _ same => rwa [← same p mem]
  | own _ isOwn => exact lawful.own_ne_zero isOwn

theorem eventually_of_comes {b : N} (comes : graph.Comes b) :
    graph.Listed b → ∃ bound, ∀ n, bound ≤ n → ins n b ≠ graph.zero := by
  have next : ∀ {b p : N}, graph.Listed b → p ∈ graph.preds b →
      (∃ bound, ∀ n, bound ≤ n → graph.outs ins n p ≠ graph.zero) →
        ∃ bound, ∀ n, bound ≤ n → ins n b ≠ graph.zero := by
    rintro b p listed mem ⟨bound, always⟩
    refine ⟨bound + 1, fun n large => ?_⟩
    obtain ⟨n, rfl⟩ : ∃ k, n = k + 1 := ⟨n - 1, by omega⟩
    exact rounds.ne_zero_of_input lawful listed mem (always _ (le_trans (by omega) le_inputIndex))
  have writes : ∀ {p w}, graph.Listed p → graph.writes p = some w →
      ∃ bound, ∀ n, bound ≤ n → graph.outs ins n p ≠ graph.zero := fun listedP isWrite =>
    ⟨1, fun n positive => by
      rw [outs_writes listedP isWrite positive]
      exact lawful.writes_ne_zero isWrite⟩
  induction comes with
  | write mem listedP written =>
    intro listed
    obtain ⟨w, isWrite⟩ := isSome_iff_exists.mp written
    exact next listed mem (writes listedP isWrite)
  | @along b p mem listedP _ ih =>
    intro listed
    refine next listed mem ?_
    cases isWrite : graph.writes p with
    | some w => exact writes listedP isWrite
    | none =>
      obtain ⟨bound, always⟩ := ih listedP
      refine ⟨bound, fun n large => ?_⟩
      rw [rounds.outs_silent listedP isWrite]
      exact always n large

/-! ## The rounds settle -/

/-- A value is taken always or never from some round on, unless it is a value of a
node's own that this node does not keep. -/
theorem settles_eq {v : V} {b : N} (listed : graph.Listed b)
    (kept : ∀ c, graph.Own c v → ∃ bound, ∀ n, bound ≤ n → ins n c = v) :
    Settles fun n => ins n b = v := by
  by_cases zero : v = graph.zero
  · subst zero
    by_cases comes : graph.Comes b
    · obtain ⟨bound, always⟩ := rounds.eventually_of_comes lawful comes listed
      exact ⟨bound, fun n large => propext (iff_of_false (always n large) (always bound le_rfl))⟩
    · have never : ∀ n, ins n b = graph.zero := fun n =>
        not_not.mp fun nonzero => comes (rounds.comes_of_ne_zero n b listed nonzero)
      exact ⟨0, fun n _ => propext (iff_of_true (never n) (never 0))⟩
  · by_cases fed : graph.Fed v (graph.Own · v) b
    · obtain ⟨bound, always⟩ := rounds.eventually_of_fed kept fed listed
      exact ⟨bound, fun n large => propext (iff_of_true (always n large) (always bound le_rfl))⟩
    · have never : ∀ n, ¬ ins n b = v := fun n taken =>
        fed (rounds.fed_of_eq zero (fun _ isOwn => isOwn) n b listed taken)
      exact ⟨0, fun n _ => propext (iff_of_false (never n) (never 0))⟩

/-- A value of a node's own that some node keeps is kept by its owner: nodes that
kept it without the owner would only take from each other. -/
theorem owner_keeps {c p : N} {v : V} (isOwn : graph.Own c v)
    (listed : graph.Listed p) (keeps : ∃ bound, ∀ n, bound ≤ n → ins n p = v) :
    ∃ bound, ∀ n, bound ≤ n → ins n c = v := by
  by_contra lost
  obtain ⟨bound, always⟩ := keeps
  have nonzero := lawful.own_ne_zero isOwn
  have closed : ∀ b, (graph.Listed b ∧ ∃ bound, ∀ n, bound ≤ n → ins n b = v) → ∀ q ∈ graph.preds b,
      graph.Listed q ∧ graph.writes q = none ∧
        graph.Listed q ∧ ∃ bound, ∀ n, bound ≤ n → ins n q = v := by
    rintro b ⟨listedB, bound, always⟩ q mem
    have other : b ≠ c := by
      rintro rfl
      exact lost ⟨bound, always⟩
    have inputs : ∀ n, bound ≤ n → graph.input ins n b q = v := fun n large => by
      cases always (n + 1) (by omega) ▸ rounds.step n b listedB with
      | none => exact absurd rfl nonzero
      | common _ same => exact same q mem
      | own _ isOwnB => exact absurd (lawful.own_apart isOwnB isOwn) other
    have handed : ∀ n, bound ≤ n → graph.Listed q ∧ graph.writes q = none ∧
        (n = bound ∨ ins n q = v) := fun n large => by
      obtain ⟨listedQ, written | ⟨silent, -⟩⟩ := outs_eq nonzero (inputs n large)
      · exact absurd written (lawful.own_ne_writes isOwn)
      · refine ⟨listedQ, silent, ?_⟩
        by_cases first : n = bound
        · exact Or.inl first
        · obtain ⟨k, rfl⟩ : ∃ k, n = k + 1 := ⟨n - 1, by omega⟩
          -- The value at the end of a round is met in this round or in the next.
          by_cases before : graph.rank q < graph.rank b
          · have met := inputs k (by omega)
            rw [input, if_pos before, rounds.outs_silent listedQ silent] at met
            exact Or.inr met
          · have met := inputs (k + 1) large
            rw [input, if_neg before, rounds.outs_silent listedQ silent] at met
            exact Or.inr met
    obtain ⟨listedQ, silent, -⟩ := handed bound le_rfl
    exact ⟨listedQ, silent, listedQ, bound + 1, fun n large =>
      (handed n (by omega)).2.2.resolve_left (by omega)⟩
  have zero := rounds.zero_of_closed closed bound p listed ⟨listed, bound, always⟩
  exact nonzero ((always bound le_rfl).symm.trans zero)

/-- A node settles once what one of its predecessors hands on does. -/
theorem settles_of_pred {b p : N} (listed : graph.Listed b)
    (mem : p ∈ graph.preds b) (settles : Settles fun n => graph.outs ins n p) :
    Settles fun n => ins n b := by
  obtain ⟨bound, constant⟩ := settles
  have constant : ∀ n, bound ≤ n → graph.outs ins n p = graph.outs ins bound p := constant
  generalize graph.outs ins bound p = s at constant
  have either : ∀ n, bound < n → ins n b = s ∨ graph.Own b (ins n b) := fun n large => by
    obtain ⟨n, rfl⟩ : ∃ k, n = k + 1 := ⟨n - 1, by omega⟩
    have met : graph.input ins n b p = s := constant _ (le_trans (by omega) le_inputIndex)
    generalize taken : ins (n + 1) b = v
    cases taken ▸ rounds.step n b listed with
    | none empty =>
      rw [empty] at mem
      cases mem
    | common _ same => exact Or.inl ((same p mem).symm.trans met)
    | own _ isOwn => exact Or.inr isOwn
  have kept : ∀ c, graph.Own c s → ∃ bound, ∀ n, bound ≤ n → ins n c = s := fun c isOwn => by
    obtain ⟨listedP, written | ⟨silent, -⟩⟩ :=
      outs_eq (lawful.own_ne_zero isOwn) (constant bound le_rfl)
    · exact absurd written (lawful.own_ne_writes isOwn)
    · refine rounds.owner_keeps lawful isOwn listedP ⟨bound, fun n large => ?_⟩
      rw [← rounds.outs_silent listedP silent]
      exact constant n large
  obtain ⟨later, same⟩ := rounds.settles_eq lawful listed kept
  refine ⟨max (bound + 1) later, fun n large => ?_⟩
  have sameTruth : (ins n b = s) = (ins (max (bound + 1) later) b = s) :=
    (same n (le_trans (le_max_right ..) large)).trans (same _ (le_max_right ..)).symm
  change ins n b = ins (max (bound + 1) later) b
  rcases either (max (bound + 1) later) (by omega) with isS | isOwn
  · rw [isS]
    exact sameTruth.mpr isS
  · rcases either n (by omega) with isS | isOwnN
    · rw [isS]
      exact (sameTruth.mp isS).symm
    · exact lawful.own_unique isOwnN isOwn

end

/-- Every node settles: those that do not, if any, would only take from each other. -/
theorem settles (lawful : graph.Lawful) {b : N} (listed : graph.Listed b) :
    Settles fun n => ins n b := by
  by_contra unsettled
  have closed : ∀ b, (graph.Listed b ∧ ¬ Settles fun n => ins n b) → ∀ p ∈ graph.preds b,
      graph.Listed p ∧ graph.writes p = none ∧ graph.Listed p ∧ ¬ Settles fun n => ins n p := by
    rintro b ⟨listedB, unsettledB⟩ p mem
    have outs : ¬ Settles fun n => graph.outs ins n p := fun settles =>
      unsettledB (rounds.settles_of_pred lawful listedB mem settles)
    by_cases listedP : graph.Listed p
    · cases isWrite : graph.writes p with
      | some w =>
        refine absurd ⟨1, fun n positive => ?_⟩ outs
        change graph.outs ins n p = graph.outs ins 1 p
        rw [outs_writes listedP isWrite positive, outs_writes listedP isWrite Nat.one_pos]
      | none =>
        refine ⟨listedP, rfl, listedP, fun settles => outs ?_⟩
        obtain ⟨bound, constant⟩ := settles
        refine ⟨bound, fun n large => ?_⟩
        change graph.outs ins n p = graph.outs ins bound p
        rw [rounds.outs_silent listedP isWrite, rounds.outs_silent listedP isWrite]
        exact constant n large
    · refine absurd ⟨0, fun n _ => ?_⟩ outs
      change graph.outs ins n p = graph.outs ins 0 p
      rw [outs_of_not_listed listedP, outs_of_not_listed listedP]
  refine unsettled ⟨0, fun n _ => ?_⟩
  change ins n b = ins 0 b
  rw [rounds.zero_of_closed closed n b listed ⟨listed, unsettled⟩, rounds.start]

/-! ## After a round without a change -/

section Stable

variable {n : Nat} (stable : ∀ p, graph.outs ins (n + 1) p = graph.outs ins n p)
include stable

omit rounds in
theorem input_of_stable (b p : N) : graph.input ins n b p = graph.outs ins (n + 1) p := by
  unfold input
  split
  · rfl
  · exact (stable p).symm

theorem merged_of_stable {b : N} (listed : graph.Listed b) :
    graph.Merged b (graph.outs ins (n + 1)) (ins (n + 1) b) := by
  have merged := rounds.step n b listed
  rwa [show graph.input ins n b = graph.outs ins (n + 1) from
    funext fun p => input_of_stable stable b p] at merged

theorem differ_of_taken (lawful : graph.Lawful) {b c : N} {v : V} (isOwn : graph.Own c v)
    (listed : graph.Listed b) (taken : ins (n + 1) b = v) :
    ¬ ∃ v', ∀ p ∈ graph.preds c, graph.outs ins (n + 1) p = v' := by
  intro common
  have nonzero := lawful.own_ne_zero isOwn
  refine nonzero (taken.symm.trans (rounds.zero_of_closed (U := fun b =>
    graph.Listed b ∧ ins (n + 1) b = v) ?_ (n + 1) b listed ⟨listed, taken⟩))
  rintro b ⟨listedB, takenB⟩ p mem
  have handed : graph.outs ins (n + 1) p = v := by
    cases takenB ▸ rounds.merged_of_stable stable listedB with
    | none => exact absurd rfl nonzero
    | common _ same => exact same p mem
    | own differ isOwnB =>
      obtain rfl := lawful.own_apart isOwnB isOwn
      exact absurd common differ
  obtain ⟨listedP, written | ⟨silent, takenP⟩⟩ := outs_eq nonzero handed
  · exact absurd written (lawful.own_ne_writes isOwn)
  · exact ⟨listedP, silent, listedP, takenP⟩

/-- A node takes zero exactly if no write comes there. -/
theorem zero_iff_of_stable (lawful : graph.Lawful) {b : N} (listed : graph.Listed b) :
    ins (n + 1) b = graph.zero ↔ ¬ graph.Comes b := by
  constructor
  · intro zero comes
    have nonzero : ∀ {b}, graph.Comes b → graph.Listed b → ins (n + 1) b ≠ graph.zero := by
      intro b comes
      induction comes with
      | @write b p mem listedP written =>
        intro listed
        obtain ⟨w, isWrite⟩ := isSome_iff_exists.mp written
        refine rounds.ne_zero_of_input lawful listed mem ?_
        rw [input_of_stable stable, outs_writes listedP isWrite (Nat.succ_pos n)]
        exact lawful.writes_ne_zero isWrite
      | @along b p mem listedP _ ih =>
        intro listed
        refine rounds.ne_zero_of_input lawful listed mem ?_
        rw [input_of_stable stable]
        cases isWrite : graph.writes p with
        | some w =>
          rw [outs_writes listedP isWrite (Nat.succ_pos n)]
          exact lawful.writes_ne_zero isWrite
        | none =>
          rw [rounds.outs_silent listedP isWrite]
          exact ih listedP
    exact nonzero comes listed zero
  · intro never
    by_contra nonzero
    exact never (rounds.comes_of_ne_zero (n + 1) b listed nonzero)

end Stable

end Rounds

end Merging

end R2Sleigh.Lib
