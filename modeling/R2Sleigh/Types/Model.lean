import R2Sleigh.Lib.BTreeMap
import R2Sleigh.Lib.HashMap

/-!
Contract: the arena of interned types.

Owns `Built` and `WellFormed`.
-/

namespace R2Sleigh.Types

open Lib

variable {arena arena' : TypeArena} {id part : TypeId}

abbrev TypeId := Nat

inductive Signedness where
  | signed
  | unsigned
  | unknown
deriving DecidableEq, Repr

structure StructField where
  name : Option String
  ty : TypeId
deriving DecidableEq, Repr

structure StructShape where
  name : Option String
  fields : BTreeMap Nat StructField
deriving DecidableEq

def StructShape.default : StructShape := ⟨none, .empty⟩

inductive Ty where
  | top
  | bottom
  | bool
  | int (bits : Nat) (signedness : Signedness)
  | float (bits : Nat)
  | ptr (inner : TypeId)
  | array (elem : TypeId) (len stride : Option Nat)
  | struct (shape : StructShape)
  | function (params : List TypeId) (ret : TypeId) (variadic : Bool)
  | unknownAlias (name : String)
deriving DecidableEq

/-- The ids a type is made of. -/
def Ty.components : Ty → List TypeId
  | .ptr inner => [inner]
  | .array elem _ _ => [elem]
  | .struct shape => shape.fields.entries.map fun entry => entry.2.ty
  | .function params ret _ => params ++ [ret]
  | _ => []

structure TypeArena where
  types : List Ty
  internIndex : HashMap Ty TypeId
  top : TypeId
  bottom : TypeId
  boolTy : TypeId

namespace TypeArena

/-- The type of an id, an id outside the arena counting as `Top`. -/
def get (arena : TypeArena) (id : TypeId) : Ty := arena.types[id]?.getD .top

def intern (arena : TypeArena) (ty : Ty) : TypeArena × TypeId :=
  match arena.internIndex.lookup ty with
  | some idx => (arena, idx)
  | none =>
    let idx := arena.types.length
    ({ arena with
        types := arena.types ++ [ty]
        internIndex := arena.internIndex.insert ty idx }, idx)

def default : TypeArena :=
  let arena : TypeArena := ⟨[], ∅, 0, 0, 0⟩
  let (arena, top) := arena.intern .top
  let arena := { arena with top }
  let (arena, bottom) := arena.intern .bottom
  let arena := { arena with bottom }
  let (arena, boolTy) := arena.intern .bool
  { arena with boolTy }

def int (arena : TypeArena) (bits : Nat) (signedness : Signedness) : TypeArena × TypeId :=
  arena.intern (.int bits signedness)

def float (arena : TypeArena) (bits : Nat) : TypeArena × TypeId := arena.intern (.float bits)

def ptr (arena : TypeArena) (inner : TypeId) : TypeArena × TypeId := arena.intern (.ptr inner)

def array (arena : TypeArena) (elem : TypeId) (len stride : Option Nat) : TypeArena × TypeId :=
  arena.intern (.array elem len stride)

def function (arena : TypeArena) (params : List TypeId) (ret : TypeId) (variadic : Bool) :
    TypeArena × TypeId :=
  arena.intern (.function params ret variadic)

def unknownAlias (arena : TypeArena) (name : String) : TypeArena × TypeId :=
  arena.intern (.unknownAlias name)

def structNamed (arena : TypeArena) (name : String) : TypeArena × TypeId :=
  arena.intern (.struct ⟨some name, .empty⟩)

/-- The structure called `name` with the most fields, the first of them on ties. -/
def richest (arena : TypeArena) (name : String) : Option (TypeId × Nat) :=
  arena.types.zipIdx.foldl (fun best entry =>
    match entry.1 with
    | .struct shape =>
      if shape.name ≠ some name then best
      else
        match best with
        | none => some (entry.2, shape.fields.length)
        | some (_, bestFields) =>
          if bestFields < shape.fields.length then some (entry.2, shape.fields.length)
          else best
    | _ => best) none

def structNamedOrExisting (arena : TypeArena) (name : String) : TypeArena × TypeId :=
  match arena.richest name with
  | some (idx, _) => (arena, idx)
  | none => arena.structNamed name

def structAnon (arena : TypeArena) : TypeArena × TypeId := arena.intern (.struct .default)

def structWithField (arena : TypeArena) (base : TypeId) (offset : Nat)
    (fieldName : Option String) (fieldTy : TypeId) : TypeArena × TypeId :=
  let shape := match arena.get base with
    | .struct shape => shape
    | _ => .default
  let entry := (shape.fields.get? offset).getD ⟨fieldName, fieldTy⟩
  let name := if entry.name = none then fieldName else entry.name
  arena.intern (.struct { shape with fields := shape.fields.insert offset ⟨name, fieldTy⟩ })

/-! ## Constructors -/

/-- A call of one of the arena's constructors. -/
inductive Construction where
  | intern (ty : Ty)
  | int (bits : Nat) (signedness : Signedness)
  | float (bits : Nat)
  | ptr (inner : TypeId)
  | array (elem : TypeId) (len stride : Option Nat)
  | function (params : List TypeId) (ret : TypeId) (variadic : Bool)
  | unknownAlias (name : String)
  | structNamed (name : String)
  | structNamedOrExisting (name : String)
  | structAnon
  | structWithField (base : TypeId) (offset : Nat) (fieldName : Option String) (fieldTy : TypeId)

/-- The component ids a call passes. -/
def Construction.arguments : Construction → List TypeId
  | .intern ty => ty.components
  | .ptr inner => [inner]
  | .array elem _ _ => [elem]
  | .function params ret _ => params ++ [ret]
  | .structWithField _ _ _ fieldTy => [fieldTy]
  | _ => []

def construct (arena : TypeArena) : Construction → TypeArena × TypeId
  | .intern ty => arena.intern ty
  | .int bits signedness => arena.int bits signedness
  | .float bits => arena.float bits
  | .ptr inner => arena.ptr inner
  | .array elem len stride => arena.array elem len stride
  | .function params ret variadic => arena.function params ret variadic
  | .unknownAlias name => arena.unknownAlias name
  | .structNamed name => arena.structNamed name
  | .structNamedOrExisting name => arena.structNamedOrExisting name
  | .structAnon => arena.structAnon
  | .structWithField base offset fieldName fieldTy =>
    arena.structWithField base offset fieldName fieldTy

/-- The id stands for a type of the arena. -/
def Present (arena : TypeArena) (id : TypeId) : Prop := id < arena.types.length

instance (arena : TypeArena) (id : TypeId) : Decidable (arena.Present id) :=
  inferInstanceAs (Decidable (id < arena.types.length))

/-- Arenas made by the constructors, each called with ids that exist. -/
inductive Built : TypeArena → Prop
  | default : Built .default
  | construct {arena : TypeArena} (call : Construction) (built : Built arena)
      (present : ∀ id ∈ call.arguments, arena.Present id) : Built (arena.construct call).1

/-! ## Invariant -/

/-- Components come before the types that use them, and the index is right. -/
structure Interned (arena : TypeArena) : Prop where
  earlier : ∀ (id : TypeId) (ty : Ty), arena.types[id]? = some ty →
    ∀ part ∈ ty.components, part < id
  indexed : ∀ ty id, arena.internIndex.lookup ty = some id → arena.types[id]? = some ty

structure WellFormed (arena : TypeArena) : Prop extends arena.Interned where
  top : arena.types[arena.top]? = some .top
  bottom : arena.types[arena.bottom]? = some .bottom
  boolTy : arena.types[arena.boolTy]? = some .bool

theorem get_of_getElem? {ty : Ty} (stored : arena.types[id]? = some ty) : arena.get id = ty := by
  simp [get, stored]

theorem Present.getElem? (present : arena.Present id) :
    arena.types[id]? = some (arena.get id) := by
  have inside : id < arena.types.length := present
  simp [get, inside]

theorem present_of_getElem? {ty : Ty} (stored : arena.types[id]? = some ty) : arena.Present id :=
  (List.getElem?_eq_some_iff.mp stored).1

theorem get_of_not_present (absent : ¬ arena.Present id) :
    arena.get id = .top := by
  have outside : arena.types.length ≤ id := not_lt.mp absent
  simp [get, outside]

theorem WellFormed.component_lt (wellFormed : arena.WellFormed)
    (component : part ∈ (arena.get id).components) : part < id := by
  by_cases present : arena.Present id
  · exact wellFormed.earlier id _ present.getElem? part component
  · rw [get_of_not_present present] at component
    simp [Ty.components] at component

theorem WellFormed.component_present (wellFormed : arena.WellFormed)
    (component : part ∈ (arena.get id).components) : arena.Present part := by
  by_cases present : arena.Present id
  · exact Nat.lt_trans (wellFormed.component_lt component) present
  · rw [get_of_not_present present] at component
    simp [Ty.components] at component

theorem WellFormed.part_present (wellFormed : arena.WellFormed)
    {ty : Ty} (isType : arena.get id = ty) (component : part ∈ ty.components) :
    arena.Present part :=
  wellFormed.component_present (isType ▸ component)

/-- The arena keeps every type it had. -/
def Extends (arena arena' : TypeArena) : Prop := arena.types <+: arena'.types

theorem Extends.refl (arena : TypeArena) : arena.Extends arena := List.prefix_rfl

theorem Extends.trans {arena'' : TypeArena} (first : arena.Extends arena')
    (second : arena'.Extends arena'') : arena.Extends arena'' :=
  List.IsPrefix.trans first second

theorem Extends.present (extension : arena.Extends arena')
    (present : arena.Present id) : arena'.Present id :=
  lt_of_lt_of_le present extension.length_le

theorem Extends.get (extension : arena.Extends arena')
    (present : arena.Present id) : arena'.get id = arena.get id := by
  obtain ⟨more, grown⟩ := extension
  unfold TypeArena.get
  rw [← grown, List.getElem?_append_left present]

theorem extends_intern (arena : TypeArena) (ty : Ty) : arena.Extends (arena.intern ty).1 := by
  unfold intern
  split
  · exact Extends.refl arena
  · exact List.prefix_append _ _

theorem WellFormed.present_intern (wellFormed : arena.WellFormed) (ty : Ty) :
    (arena.intern ty).1.Present (arena.intern ty).2 := by
  unfold intern
  split
  · rename_i idx found
    exact present_of_getElem? (wellFormed.indexed ty idx found)
  · simp [Present]

theorem Interned.intern (interned : arena.Interned) {ty : Ty}
    (present : ∀ part ∈ ty.components, arena.Present part) : (arena.intern ty).1.Interned := by
  unfold TypeArena.intern
  split
  · exact interned
  · refine ⟨fun id stored found part component => ?_, fun key id found => ?_⟩
    · rw [List.getElem?_append] at found
      split at found
      · exact interned.earlier id stored found part component
      · rename_i new
        obtain ⟨inside, equal⟩ := List.getElem?_eq_some_iff.mp found
        rw [List.getElem_singleton] at equal
        subst equal
        exact Nat.lt_of_lt_of_le (present part component) (not_lt.mp new)
    · by_cases same : key = ty
      · subst same
        rw [AList.lookup_insert] at found
        cases found
        simp
      · rw [AList.lookup_insert_ne same] at found
        have old := interned.indexed key id found
        exact (List.getElem?_append_left (present_of_getElem? old)).trans old

theorem WellFormed.intern (wellFormed : arena.WellFormed) {ty : Ty}
    (present : ∀ part ∈ ty.components, arena.Present part) : (arena.intern ty).1.WellFormed := by
  have keeps : ∀ {id : TypeId} {stored : Ty}, arena.types[id]? = some stored →
      (arena.intern ty).1.types[id]? = some stored := fun old => by
    obtain ⟨more, grown⟩ := extends_intern arena ty
    rw [← grown, List.getElem?_append_left (present_of_getElem? old)]
    exact old
  have names : (arena.intern ty).1.top = arena.top ∧ (arena.intern ty).1.bottom = arena.bottom ∧
      (arena.intern ty).1.boolTy = arena.boolTy := by
    unfold TypeArena.intern
    split <;> exact ⟨rfl, rfl, rfl⟩
  obtain ⟨topSame, bottomSame, boolSame⟩ := names
  refine ⟨wellFormed.toInterned.intern present, ?_, ?_, ?_⟩
  · rw [topSame]
    exact keeps wellFormed.top
  · rw [bottomSame]
    exact keeps wellFormed.bottom
  · rw [boolSame]
    exact keeps wellFormed.boolTy

/-- What an operation that returns an id does to the arena. -/
structure Grows (arena : TypeArena) (result : TypeArena × TypeId) : Prop where
  built : result.1.Built
  keeps : arena.Extends result.1
  present : result.1.Present result.2

theorem Grows.trans {result result' : TypeArena × TypeId}
    (first : arena.Grows result) (second : result.1.Grows result') : arena.Grows result' :=
  ⟨second.built, first.keeps.trans second.keeps, second.present⟩

private theorem default_wellFormed : default.WellFormed := by
  refine ⟨?_, rfl, rfl, rfl⟩
  have none : (⟨[], ∅, 0, 0, 0⟩ : TypeArena).Interned := ⟨by simp, by simp⟩
  have one := @Interned.intern _ none .top (by simp [Ty.components])
  have two := @Interned.intern _ one .bottom (by simp [Ty.components])
  have three := @Interned.intern _ two .bool (by simp [Ty.components])
  exact ⟨three.earlier, three.indexed⟩

/-- Every constructor keeps the invariant when the ids it is given exist. -/
theorem WellFormed.construct (wellFormed : arena.WellFormed)
    (call : Construction) (present : ∀ id ∈ call.arguments, arena.Present id) :
    (arena.construct call).1.WellFormed := by
  cases call with
  | intern | ptr | array | function => exact wellFormed.intern present
  | int | float | unknownAlias => exact wellFormed.intern (by simp [Ty.components])
  | structNamed name => exact wellFormed.intern (by simp [Ty.components, BTreeMap.empty])
  | structNamedOrExisting name =>
    unfold TypeArena.construct structNamedOrExisting
    dsimp only
    split
    · exact wellFormed
    · exact wellFormed.intern (by simp [Ty.components, BTreeMap.empty])
  | structAnon =>
    exact wellFormed.intern (by simp [Ty.components, StructShape.default, BTreeMap.empty])
  | structWithField base offset fieldName fieldTy =>
    refine wellFormed.intern fun part component => ?_
    obtain ⟨entry, mem, rfl⟩ := List.mem_map.mp component
    rcases BTreeMap.mem_insert mem with rfl | old
    · exact present _ (by simp [Construction.arguments])
    · refine wellFormed.component_present (?_ : entry.2.ty ∈ (arena.get base).components)
      revert old
      split
      · rename_i shape isStruct
        intro old
        rw [isStruct]
        exact List.mem_map_of_mem old
      · intro old
        simp [StructShape.default, BTreeMap.empty] at old

theorem Built.wellFormed (built : arena.Built) : arena.WellFormed := by
  induction built with
  | default => exact default_wellFormed
  | construct call _ present ih =>
    exact ih.construct call present

theorem Built.grows_intern (built : arena.Built) {ty : Ty}
    (present : ∀ part ∈ ty.components, arena.Present part) : arena.Grows (arena.intern ty) :=
  ⟨built.construct (.intern ty) present, extends_intern arena ty,
    built.wellFormed.present_intern ty⟩

theorem Built.grows_self (built : arena.Built)
    (present : arena.Present id) : arena.Grows (arena, id) :=
  ⟨built, Extends.refl arena, present⟩

end TypeArena

end R2Sleigh.Types
