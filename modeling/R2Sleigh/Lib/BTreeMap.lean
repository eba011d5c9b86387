import Mathlib.Data.List.Basic
import Mathlib.Order.Lattice

/-!
Contract: ordered finite maps as association lists with increasing keys.

Does not own: iteration, which is over `entries` in key order.

Increasing keys make the representation canonical, so that equality of maps is
equality of their entries.
-/

namespace R2Sleigh.Lib

open List

/-- A map from `K` to `V` with its entries in key order. -/
structure BTreeMap (K V : Type) [LinearOrder K] where
  entries : List (K × V)
  sorted : entries.Pairwise (·.1 < ·.1)
deriving DecidableEq

namespace BTreeMap

variable {K V : Type} [LinearOrder K]

def empty : BTreeMap K V := ⟨[], List.Pairwise.nil⟩

instance : Inhabited (BTreeMap K V) := ⟨empty⟩

def get? (m : BTreeMap K V) (k : K) : Option V :=
  (m.entries.find? fun entry => entry.1 = k).map Prod.snd

def length (m : BTreeMap K V) : Nat := m.entries.length

/-- Put `v` at `k` in a list of entries in key order. -/
def insertEntry (k : K) (v : V) : List (K × V) → List (K × V)
  | [] => [(k, v)]
  | (k', v') :: rest =>
    if k < k' then (k, v) :: (k', v') :: rest
    else if k = k' then (k, v) :: rest
    else (k', v') :: insertEntry k v rest

theorem mem_insertEntry_of_mem {k : K} {v : V} {entries : List (K × V)} {entry : K × V}
    (mem : entry ∈ insertEntry k v entries) : entry = (k, v) ∨ entry ∈ entries := by
  induction entries with
  | nil => simpa [insertEntry] using mem
  | cons head rest ih =>
    rw [insertEntry] at mem
    split at mem
    · simpa using mem
    · split at mem
      · rcases mem_cons.mp mem with new | old
        · exact Or.inl new
        · exact Or.inr (mem_cons_of_mem _ old)
      · rcases mem_cons.mp mem with first | later
        · exact Or.inr (mem_cons.mpr (Or.inl first))
        · exact (ih later).imp_right (mem_cons_of_mem _)

theorem sorted_insertEntry (k : K) (v : V) {entries : List (K × V)}
    (sorted : entries.Pairwise (·.1 < ·.1)) :
    (insertEntry k v entries).Pairwise (·.1 < ·.1) := by
  induction entries with
  | nil => simp [insertEntry]
  | cons head rest ih =>
    obtain ⟨first, later⟩ := pairwise_cons.mp sorted
    rw [insertEntry]
    split
    · rename_i below
      refine pairwise_cons.mpr ⟨fun entry mem => ?_, sorted⟩
      rcases mem_cons.mp mem with rfl | later
      · exact below
      · exact lt_trans below (first entry later)
    · rename_i notBelow
      split
      · rename_i same
        subst same
        exact pairwise_cons.mpr ⟨first, later⟩
      · rename_i differ
        refine pairwise_cons.mpr ⟨fun entry mem => ?_, ih later⟩
        rcases mem_insertEntry_of_mem mem with rfl | old
        · exact lt_of_le_of_ne (not_lt.mp notBelow) (Ne.symm differ)
        · exact first entry old

/-- `m.insert(k, v)`, replacing the value at `k`. -/
def insert (m : BTreeMap K V) (k : K) (v : V) : BTreeMap K V :=
  ⟨insertEntry k v m.entries, sorted_insertEntry k v m.sorted⟩

/-- `m.entry(k).or_insert(v)`. -/
def orInsert (m : BTreeMap K V) (k : K) (v : V) : BTreeMap K V :=
  match m.get? k with
  | some _ => m
  | none => m.insert k v

section

variable {m : BTreeMap K V} {k : K} {v : V}

theorem mem_of_get? (found : m.get? k = some v) :
    (k, v) ∈ m.entries := by
  obtain ⟨entry, search, rfl⟩ := Option.map_eq_some_iff.mp found
  have key : entry.1 = k := by simpa using List.find?_some search
  subst key
  exact mem_of_find?_eq_some search

theorem get?_of_mem (mem : (k, v) ∈ m.entries) :
    m.get? k = some v := by
  obtain ⟨entries, sorted⟩ := m
  induction entries with
  | nil => simp at mem
  | cons head rest ih =>
    obtain ⟨first, later⟩ := pairwise_cons.mp sorted
    rcases mem_cons.mp mem with rfl | old
    · simp [get?]
    · have differ : ¬ head.1 = k := ne_of_lt (first _ old)
      simpa [get?, differ] using ih later old

theorem mem_insert {entry : K × V}
    (mem : entry ∈ (m.insert k v).entries) : entry = (k, v) ∨ entry ∈ m.entries :=
  mem_insertEntry_of_mem mem

theorem mem_orInsert {entry : K × V}
    (mem : entry ∈ (m.orInsert k v).entries) : entry = (k, v) ∨ entry ∈ m.entries := by
  unfold orInsert at mem
  split at mem
  · exact Or.inr mem
  · exact mem_insert mem

theorem get?_eq_some_iff : m.get? k = some v ↔ (k, v) ∈ m.entries :=
  ⟨mem_of_get?, get?_of_mem⟩

end

theorem mem_insertEntry_self (k : K) (v : V) (entries : List (K × V)) :
    (k, v) ∈ insertEntry k v entries := by
  induction entries with
  | nil => simp [insertEntry]
  | cons head rest ih =>
    rw [insertEntry]
    split
    · exact mem_cons_self
    · split
      · exact mem_cons_self
      · exact mem_cons_of_mem _ ih

theorem mem_insertEntry_of_ne {k k' : K} {v v' : V} (differ : k' ≠ k) {entries : List (K × V)}
    (mem : (k', v') ∈ entries) : (k', v') ∈ insertEntry k v entries := by
  induction entries with
  | nil => simp at mem
  | cons head rest ih =>
    rw [insertEntry]
    split
    · exact mem_cons_of_mem _ mem
    · split
      · rename_i same
        refine mem_cons_of_mem _ ((mem_cons.mp mem).resolve_left fun isHead => ?_)
        exact differ ((congrArg Prod.fst isHead).trans same.symm)
      · rcases mem_cons.mp mem with rfl | inRest
        · exact mem_cons_self
        · exact mem_cons_of_mem _ (ih inRest)

theorem get?_insert (m : BTreeMap K V) (k k' : K) (v : V) :
    (m.insert k v).get? k' = if k' = k then some v else m.get? k' := by
  split
  · rename_i same
    rw [same]
    exact get?_of_mem (mem_insertEntry_self k v m.entries)
  · rename_i differ
    refine Option.ext fun v' => ?_
    rw [get?_eq_some_iff, get?_eq_some_iff]
    refine ⟨fun mem => (mem_insert mem).resolve_left fun isNew => ?_,
      fun mem => mem_insertEntry_of_ne differ mem⟩
    exact differ (congrArg Prod.fst isNew)

theorem get?_orInsert (m : BTreeMap K V) (k k' : K) (v : V) :
    (m.orInsert k v).get? k' = (m.get? k').or (if k' = k then some v else none) := by
  unfold orInsert
  by_cases same : k' = k
  · subst same
    cases found : m.get? k' with
    | none => simp [get?_insert]
    | some old => simp [found]
  · cases m.get? k with
    | none => simp [get?_insert, same]
    | some old => simp [same]

theorem get?_foldl_orInsert (entries : List (K × V)) (k : K) : ∀ m : BTreeMap K V,
    (entries.foldl (fun merged entry => merged.orInsert entry.1 entry.2) m).get? k =
      (m.get? k).or ((entries.find? fun entry => entry.1 = k).map Prod.snd) := by
  induction entries with
  | nil => simp
  | cons entry rest ih =>
    intro m
    rw [foldl_cons, ih, get?_orInsert, Option.or_assoc]
    by_cases same : entry.1 = k
    · simp [same]
    · simp [same, Ne.symm same]

def keys (m : BTreeMap K V) : List K := m.entries.map Prod.fst

/-- Change every value in place. -/
def mapValues {W : Type} (f : V → W) (m : BTreeMap K V) : BTreeMap K W :=
  ⟨m.entries.map fun entry => (entry.1, f entry.2), pairwise_map.mpr m.sorted⟩

theorem get?_mapValues {W : Type} (f : V → W) (m : BTreeMap K V) (k : K) :
    (m.mapValues f).get? k = (m.get? k).map f := by
  simp only [get?, mapValues, List.find?_map, Option.map_map]
  rfl

/-- The list at a key, empty where there is none. -/
def listAt (m : BTreeMap K (List V)) (k : K) : List V := (m.get? k).getD []

/-- `m.entry(k).or_default().push(v)`. -/
def pushAt (m : BTreeMap K (List V)) (k : K) (v : V) : BTreeMap K (List V) :=
  m.insert k (m.listAt k ++ [v])

theorem mem_listAt_pushAt (m : BTreeMap K (List V)) (k k' : K) (v v' : V) :
    v' ∈ (m.pushAt k v).listAt k' ↔ v' ∈ m.listAt k' ∨ (k' = k ∧ v' = v) := by
  unfold pushAt
  rw [listAt, get?_insert]
  by_cases same : k' = k
  · simp [same]
  · simp [same, listAt]

theorem mem_listAt_foldl_pushAt {A : Type} (key : A → K) (f : A → V) (l : List A) (k : K) (v : V) :
    ∀ m : BTreeMap K (List V), v ∈ (l.foldl (fun m a => m.pushAt (key a) (f a)) m).listAt k ↔
      v ∈ m.listAt k ∨ ∃ a ∈ l, key a = k ∧ f a = v := by
  induction l with
  | nil => simp
  | cons a l ih =>
    intro m
    rw [foldl_cons, ih, mem_listAt_pushAt, exists_mem_cons_iff, or_assoc]
    simp only [eq_comm]

theorem mem_keys {m : BTreeMap K V} {k : K} : k ∈ m.keys ↔ ∃ v, m.get? k = some v := by
  simp only [keys, mem_map, get?_eq_some_iff]
  exact ⟨fun ⟨entry, mem, same⟩ => ⟨entry.2, same ▸ mem⟩, fun ⟨v, mem⟩ => ⟨_, mem, rfl⟩⟩

theorem nodup_keys (m : BTreeMap K V) : m.keys.Nodup :=
  pairwise_map.mpr (m.sorted.imp fun lt => ne_of_lt lt)

theorem keys_insert (m : BTreeMap K V) (k k' : K) (v : V) :
    k' ∈ (m.insert k v).keys ↔ k' = k ∨ k' ∈ m.keys := by
  simp only [mem_keys, get?_insert]
  by_cases same : k' = k
  · simp [same]
  · simp [same]

theorem ext_get? {m m' : BTreeMap K V} (same : ∀ k, m.get? k = m'.get? k) : m = m' := by
  obtain ⟨entries, sorted⟩ := m
  obtain ⟨entries', sorted'⟩ := m'
  have members : ∀ entry, entry ∈ entries ↔ entry ∈ entries' := fun entry => by
    constructor
    · intro mem
      exact mem_of_get? ((same entry.1).symm.trans (get?_of_mem (m := ⟨entries, sorted⟩) mem))
    · intro mem
      exact mem_of_get? ((same entry.1).trans (get?_of_mem (m := ⟨entries', sorted'⟩) mem))
  congr 1
  have perm : entries.Perm entries' := (perm_ext_iff_of_nodup
    (sorted.imp fun lt => (ne_of_apply_ne Prod.fst (ne_of_lt lt)))
    (sorted'.imp fun lt => (ne_of_apply_ne Prod.fst (ne_of_lt lt)))).mpr members
  exact perm.eq_of_pairwise (fun _ _ _ _ lt gt => absurd gt (lt_asymm lt)) sorted sorted'

theorem listAt_pushAt (m : BTreeMap K (List V)) (k k' : K) (v : V) :
    (m.pushAt k v).listAt k' = if k' = k then m.listAt k ++ [v] else m.listAt k' := by
  unfold pushAt
  rw [listAt, get?_insert]
  split
  · rfl
  · rfl

theorem listAt_foldl_pushAt {A : Type} (f : A → V) (k k' : K) (l : List A) :
    ∀ m : BTreeMap K (List V), (l.foldl (fun m a => m.pushAt k (f a)) m).listAt k' =
      if k' = k then m.listAt k ++ l.map f else m.listAt k' := by
  induction l with
  | nil =>
    intro m
    split
    · rename_i same
      rw [foldl_nil, map_nil, append_nil, same]
    · rfl
  | cons a rest ih =>
    intro m
    rw [foldl_cons, ih, listAt_pushAt, listAt_pushAt, if_pos rfl]
    split
    · rw [map_cons, append_assoc]
      rfl
    · rfl

end BTreeMap

abbrev BTreeSet (K : Type) [LinearOrder K] := BTreeMap K Unit

namespace BTreeSet

variable {K : Type} [LinearOrder K]

def add (s : BTreeSet K) (k : K) : BTreeSet K := s.insert k ()

theorem mem_keys_add {s : BTreeSet K} {k k' : K} :
    k' ∈ (s.add k).keys ↔ k' = k ∨ k' ∈ s.keys := by
  simp only [add, BTreeMap.mem_keys, BTreeMap.get?_insert]
  by_cases same : k' = k
  · simp [same]
  · simp [same]

end BTreeSet

end R2Sleigh.Lib
