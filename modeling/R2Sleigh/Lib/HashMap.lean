import Mathlib.Data.List.AList

/-!
Contract: finite maps as association lists with distinct keys, with the
multimap idioms of hash-map code.

Owns `pushAt`, `insertAt` and `Accumulates`.
-/

namespace R2Sleigh.Lib

open List AList

/-- A loop keeps what each of its steps keeps. -/
theorem foldl_kept {A B C : Type} (f : A → C) {g : A → B → A} {items : List B}
    (kept : ∀ a, ∀ b ∈ items, f (g a b) = f a) (start : A) :
    f (items.foldl g start) = f start :=
  foldlRecOn (motive := fun a => f a = f start) items g rfl fun a same b mem =>
    (kept a b mem).trans same

theorem countP_lt {A : Type} {p q : A → Bool} {items : List A}
    (keeps : ∀ x ∈ items, p x = true → q x = true)
    (more : ∃ x ∈ items, p x = false ∧ q x = true) : items.countP p < items.countP q := by
  obtain ⟨x, mem, notP, isQ⟩ := more
  have within : items.filter p = (items.filter q).filter p := by
    rw [filter_filter]
    refine filter_congr fun y inItems => Bool.eq_iff_iff.mpr ?_
    rw [Bool.and_eq_true]
    exact (and_iff_left_of_imp (keeps y inItems)).symm
  rw [countP_eq_length_filter, countP_eq_length_filter, within,
    length_filter_lt_length_iff_exists]
  exact ⟨x, mem_filter.mpr ⟨mem, isQ⟩, by simp [notP]⟩

/-- A map from `K` to `V`. -/
abbrev HashMap (K V : Type) := AList fun _ : K => V

namespace HashMap

variable {K V W : Type}

/-- Apply `f` to every value. -/
def mapValues (f : V → W) (m : HashMap K V) : HashMap K W :=
  ⟨m.entries.map (Sigma.map id fun _ => f), m.nodupKeys.map₂ fun _ => f⟩

variable [DecidableEq K]

@[simp] theorem lookup_mapValues (f : V → W) (m : HashMap K V) (k : K) :
    (mapValues f m).lookup k = (m.lookup k).map f :=
  dlookup_map₂ (f := fun _ => f) k

/-- The list stored at a key. -/
def listAt (m : HashMap K (List V)) (k : K) : List V := (m.lookup k).getD []

theorem listAt_mapValues {U : Type} (f : List V → List U) (empty : f [] = [])
    (m : HashMap K (List V)) (k : K) : listAt (mapValues f m) k = f (listAt m k) := by
  unfold listAt
  rw [lookup_mapValues]
  cases m.lookup k <;> simp [empty]

theorem mem_iff_exists_lookup {m : HashMap K V} {k : K} :
    k ∈ m ↔ ∃ v, m.lookup k = some v := by
  rw [← lookup_isSome, Option.isSome_iff_exists]

theorem lookup_insert_ite (m : HashMap K V) (k k' : K) (v : V) :
    (m.insert k v).lookup k' = if k' = k then some v else m.lookup k' := by
  by_cases same : k' = k
  · subst same
    rw [if_pos rfl, AList.lookup_insert]
  · rw [if_neg same, AList.lookup_insert_ne same]

/-- `m.retain`, by the key. -/
def retain (m : HashMap K V) (keep : K → Bool) : HashMap K V :=
  ⟨m.entries.filter fun entry => keep entry.1, m.nodupKeys.sublist filter_sublist⟩

theorem lookup_retain (m : HashMap K V) (keep : K → Bool) (k : K) :
    (m.retain keep).lookup k = if keep k then m.lookup k else none := by
  refine Option.ext fun v => ?_
  have kept : v ∈ (m.retain keep).lookup k ↔ v ∈ m.lookup k ∧ keep k = true := by
    rw [mem_lookup_iff, mem_lookup_iff]
    exact mem_filter
  split
  · rename_i holds
    exact kept.trans (and_iff_left holds)
  · rename_i fails
    exact kept.trans (iff_of_false (fun both => fails both.2) (by simp))

/-- `m.entry(k).or_default().push(v)`. -/
def pushAt (m : HashMap K (List V)) (k : K) (v : V) : HashMap K (List V) :=
  m.insert k (listAt m k ++ [v])

/-- `m.entry(k).or_default().insert(v)` for a set of values. -/
def insertAt [DecidableEq V] (m : HashMap K (List V)) (k : K) (v : V) : HashMap K (List V) :=
  m.insert k ((listAt m k).insert v)

variable (m : HashMap K (List V))

theorem listAt_pushAt (k k' : K) (v : V) :
    listAt (pushAt m k v) k' = if k' = k then listAt m k ++ [v] else listAt m k' := by
  unfold pushAt
  by_cases same : k' = k
  · subst same
    simp [listAt]
  · simp [listAt, lookup_insert_ne same, same]

theorem mem_listAt_pushAt (k k' : K) (v v' : V) :
    v' ∈ listAt (pushAt m k v) k' ↔ v' ∈ listAt m k' ∨ (k' = k ∧ v' = v) := by
  rw [listAt_pushAt]
  by_cases same : k' = k
  · subst same
    simp
  · simp [same]

theorem mem_listAt_insertAt [DecidableEq V] (k k' : K) (v v' : V) :
    v' ∈ listAt (insertAt m k v) k' ↔ v' ∈ listAt m k' ∨ (k' = k ∧ v' = v) := by
  unfold insertAt
  by_cases same : k' = k
  · subst same
    simp [listAt, or_comm]
  · simp [listAt, lookup_insert_ne same, same]

theorem nodup_listAt_insertAt [DecidableEq V] {m : HashMap K (List V)} {k k' : K} {v : V}
    (nodup : (listAt m k').Nodup) : (listAt (insertAt m k v) k').Nodup := by
  unfold insertAt
  by_cases same : k' = k
  · subst same
    simpa [listAt] using nodup.insert
  · simpa [listAt, lookup_insert_ne same] using nodup

theorem listAt_foldl_pushAt {A : Type} (skip : A → Prop) [DecidablePred skip]
    (key : A → K) (value : A → V) (items : List A) :
    ∀ (m : HashMap K (List V)) (k : K),
      listAt (items.foldl (fun m item =>
        if skip item then m else pushAt m (key item) (value item)) m) k =
        listAt m k ++ (items.filter fun item => ¬ skip item ∧ key item = k).map value := by
  induction items with
  | nil => simp
  | cons item rest ih =>
    intro m k
    rw [foldl_cons, ih]
    by_cases skipped : skip item
    · simp [skipped]
    · by_cases same : k = key item
      · subst same
        simp [skipped, listAt_pushAt]
      · simp [skipped, listAt_pushAt, same, Ne.symm same]

section

variable {A : Type} (key : A → K) (value : A → V)
include key value

theorem mem_listAt_foldl_pushAt (items : List A)
    (m : HashMap K (List V)) (k : K) (v : V) :
    v ∈ listAt (items.foldl (fun m item => pushAt m (key item) (value item)) m) k ↔
      v ∈ listAt m k ∨ ∃ item ∈ items, key item = k ∧ value item = v := by
  have loop := listAt_foldl_pushAt (fun _ => False) key value items m k
  simp only [if_false, not_false_eq_true, true_and] at loop
  rw [loop]
  simp [and_assoc]

theorem lookup_foldl_insert_last (items : List A) :
    ∀ (m : HashMap K V) (k : K),
      (items.foldl (fun m item => m.insert (key item) (value item)) m).lookup k =
        ((items.reverse.find? fun item => key item = k).map value).or (m.lookup k) := by
  induction items with
  | nil => exact fun _ _ => rfl
  | cons item rest ih =>
    intro m k
    rw [foldl_cons, ih, reverse_cons, List.find?_append]
    cases rest.reverse.find? fun item => key item = k with
    | some found => rfl
    | none =>
      by_cases here : key item = k
      · subst here
        simp
      · rw [lookup_insert_ne (Ne.symm here)]
        simp [here]

theorem lookup_foldl_insert {items : List A}
    (nodup : (items.map key).Nodup) : ∀ {m : HashMap K V} {k : K} {v : V},
      (items.foldl (fun m item => m.insert (key item) (value item)) m).lookup k = some v ↔
        (∃ item ∈ items, key item = k ∧ value item = v) ∨
          (k ∉ items.map key ∧ m.lookup k = some v) := by
  induction items with
  | nil => simp
  | cons item rest ih =>
    intro m k v
    obtain ⟨fresh, nodupRest⟩ := nodup_cons.mp nodup
    rw [foldl_cons, ih nodupRest]
    by_cases same : k = key item
    · subst same
      simp only [lookup_insert, map_cons, mem_cons, exists_eq_or_imp,
        not_true_eq_false, false_and, or_false, true_and, fresh, not_false_eq_true,
        Option.some.injEq]
      rw [or_comm]
    · simp [same, Ne.symm same]

end

/-- `m'` holds the values of `m` and those `added`, each once. -/
structure Accumulates (m m' : HashMap K (List V)) (added : K → V → Prop) : Prop where
  mem : ∀ k v, v ∈ listAt m' k ↔ v ∈ listAt m k ∨ added k v
  nodup : (∀ k, (listAt m k).Nodup) → ∀ k, (listAt m' k).Nodup

theorem Accumulates.refl : Accumulates m m fun _ _ => False :=
  ⟨by simp, id⟩

theorem Accumulates.insertAt [DecidableEq V] (k : K) (v : V) :
    Accumulates m (insertAt m k v) fun k' v' => k' = k ∧ v' = v :=
  ⟨fun _ _ => mem_listAt_insertAt m k _ v _, fun nodup _ => nodup_listAt_insertAt (nodup _)⟩

theorem Accumulates.trans {m m' m'' : HashMap K (List V)} {added added' added'' : K → V → Prop}
    (first : Accumulates m m' added) (second : Accumulates m' m'' added')
    (both : ∀ k v, added'' k v ↔ added k v ∨ added' k v) : Accumulates m m'' added'' := by
  refine ⟨fun k v => ?_, fun nodup => second.nodup (first.nodup nodup)⟩
  rw [second.mem, first.mem, both, or_assoc]

theorem Accumulates.foldlM {A : Type} {step : HashMap K (List V) → A → Option (HashMap K (List V))}
    {adds : A → K → V → Prop} (items : List A)
    (each : ∀ item ∈ items, ∀ m, ∃ m', step m item = some m' ∧ Accumulates m m' (adds item)) :
    ∀ m, ∃ m', items.foldlM step m = some m' ∧
      Accumulates m m' fun k v => ∃ item ∈ items, adds item k v := by
  induction items with
  | nil => exact fun m => ⟨m, rfl, by simpa using Accumulates.refl m⟩
  | cons item rest ih =>
    intro m
    obtain ⟨next, run, first⟩ := each item mem_cons_self m
    obtain ⟨m', done, others⟩ := ih (fun item member => each item (mem_cons_of_mem _ member)) next
    refine ⟨m', ?_, first.trans others fun k v => by simp⟩
    rw [foldlM_cons, run]
    exact done

end HashMap

end R2Sleigh.Lib
