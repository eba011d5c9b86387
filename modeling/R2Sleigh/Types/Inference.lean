import R2Sleigh.Types.AddrPattern

/-!
Contract: the constraints that type inference reads off a function.
-/

namespace R2Sleigh.Types

open Il Lib Ssa List

/-! ## Fields of external types -/

structure ExternalField where
  name : String

structure ExternalStruct where
  fields : BTreeMap Nat ExternalField

structure ExternalUnion where
  fields : BTreeMap Nat ExternalField

structure ExternalTypeDb where
  structs : HashMap String ExternalStruct
  unions : HashMap String ExternalUnion

namespace ExternalTypeDb

def commonFieldName (offset : Nat) : List (BTreeMap Nat ExternalField) → Option String →
    Option String
  | [], found => found
  | fields :: rest, found =>
    match fields.get? offset, found with
    | none, _ => commonFieldName offset rest found
    | some field, none => commonFieldName offset rest (some field.name)
    | some field, some existing =>
      if existing ≠ field.name then none else commonFieldName offset rest found

def lookupFieldName (db : ExternalTypeDb) (offset : Nat) (structNameHint : Option String) :
    Option String :=
  let hinted := structNameHint.bind fun name =>
    let key := toAsciiLowercase name
    (((db.structs.lookup key).bind fun st => st.fields.get? offset).or
      ((db.unions.lookup key).bind fun un => un.fields.get? offset)).map ExternalField.name
  hinted.or (commonFieldName offset
    (db.structs.entries.map (fun entry => entry.2.fields) ++
      db.unions.entries.map fun entry => entry.2.fields) none)

end ExternalTypeDb

/-! ## Variables that reach an address -/

section Derefs

variable (toUppercase : String → String) (defs : HashMap String SSAOp)

/-- The operands through which an operation passes an address on. -/
def derefSources : SSAOp → List SSAVar
  | .Copy _ src | .unary .Cast _ src | .unary .IntZExt _ src | .unary .IntSExt _ src
  | .unary .Trunc _ src => [src]
  | .binary .IntAdd _ a b => [a, b].filter fun var => !var.isConst
  | .binary .IntSub _ a _ => [a].filter fun var => !var.isConst
  | .PtrAdd _ base _ _ | .PtrSub _ base _ _ => [base]
  | _ => []

/-- The sizes recorded so far, with the names visited. -/
structure DerefWalk where
  out : HashMap String Nat
  visited : List String

/-- Record an access of some bytes at a variable and at all that its address comes from. -/
def markDerefChain (elemSize : Nat) : Nat → DerefWalk → SSAVar → DerefWalk
  | 0, walk, _ => walk
  | fuel + 1, walk, addr =>
    let key := displayName toUppercase addr
    let size := ((walk.out.lookup key).map (max · elemSize)).getD elemSize
    let walk := { walk with out := walk.out.insert key size }
    if key ∈ walk.visited then walk
    else
      let walk := { walk with visited := key :: walk.visited }
      match defs.lookup key with
      | none => walk
      | some defining => (derefSources defining).foldl (markDerefChain elemSize fuel) walk

def accessOf : SSAOp → Option (SSAVar × Nat)
  | .Load dst _ addr => some (addr, dst.size)
  | .Store _ addr val => some (addr, val.size)
  | _ => none

def collectDerefConsumers (func : SSAFunction) : HashMap String Nat :=
  (func.blockList.flatMap SSABlock.ops).foldl (fun out op =>
    match accessOf op with
    | some (addr, elemSize) =>
      (markDerefChain toUppercase defs elemSize (defs.entries.length + 1) ⟨out, []⟩ addr).out
    | none => out) ∅

/-! Each call that goes on visits a new name of the table, so there is fuel for every walk. -/

/-- The table records an access of at least `bound` bytes through a name. -/
def AtLeast (out : HashMap String Nat) (key : String) (bound : Nat) : Prop :=
  ∃ size, out.lookup key = some size ∧ bound ≤ size

/-- The address that a name holds is computed from another name. -/
def PassedFrom (key source : String) : Prop :=
  ∃ defining, defs.lookup key = some defining ∧
    ∃ var ∈ derefSources defining, displayName toUppercase var = source

/-- What walks from some variables add to the sizes and to the names visited. -/
structure Marks (elemSize : Nat) (vars : List SSAVar) (before after : DerefWalk)
    (marked : List String) : Prop where
  sizes : ∀ key bound, AtLeast after.out key bound ↔
    AtLeast before.out key bound ∨ key ∈ marked ∧ bound ≤ elemSize
  visited : ∀ key, key ∈ after.visited ↔ key ∈ before.visited ∨ key ∈ marked
  started : ∀ var ∈ vars, displayName toUppercase var ∈ marked
  closed : ∀ key ∈ marked, key ∉ before.visited →
    ∀ source, PassedFrom toUppercase defs key source → source ∈ after.visited
  reached : ∀ key ∈ marked, ∃ var ∈ vars,
    Relation.ReflTransGen (PassedFrom toUppercase defs) (displayName toUppercase var) key

variable {toUppercase defs}

theorem atLeast_insert {out : HashMap String Nat} {name key : String} {elemSize bound : Nat} :
    AtLeast (out.insert name (((out.lookup name).map (max · elemSize)).getD elemSize)) key bound ↔
      AtLeast out key bound ∨ key ∈ [name] ∧ bound ≤ elemSize := by
  unfold AtLeast
  rcases eq_or_ne key name with rfl | other
  · rcases out.lookup key with _ | size <;> simp
  · simp [AList.lookup_insert_ne other, other]

/-- The names of the table that a walk has not visited. -/
def unvisited (defs : HashMap String SSAOp) (visited : List String) : Nat :=
  defs.keys.countP (· ∉ visited)

private theorem unvisited_le {visited visited' : List String}
    (grows : ∀ key ∈ visited, key ∈ visited') :
    unvisited defs visited' ≤ unvisited defs visited :=
  countP_mono_left fun key _ left => by
    simp only [decide_eq_true_eq] at left ⊢
    exact fun mem => left (grows key mem)

private theorem unvisited_cons_lt {visited : List String} {key : String} (fresh : key ∉ visited)
    (mem : key ∈ defs.keys) : unvisited defs (key :: visited) < unvisited defs visited :=
  countP_lt (by simp) ⟨key, mem, by simp, by simpa using fresh⟩

theorem Marks.cons {elemSize : Nat} {var : SSAVar} {rest : List SSAVar}
    {before middle after : DerefWalk} {first more : List String}
    (left : Marks toUppercase defs elemSize [var] before middle first)
    (right : Marks toUppercase defs elemSize rest middle after more) :
    Marks toUppercase defs elemSize (var :: rest) before after (first ++ more) where
  sizes key bound := by
    rw [right.sizes, left.sizes, mem_append, or_and_right, or_assoc]
  visited key := by rw [right.visited, left.visited, mem_append, or_assoc]
  started := forall_mem_cons.mpr ⟨mem_append_left _ (left.started var mem_cons_self),
    fun other mem => mem_append_right _ (right.started other mem)⟩
  closed key mem unseen source passed := by
    by_cases seen : key ∈ middle.visited
    · have mem := ((left.visited key).mp seen).resolve_left unseen
      exact (right.visited source).mpr (.inl (left.closed key mem unseen source passed))
    · refine right.closed key ((mem_append.mp mem).resolve_left fun mem => ?_) seen source passed
      exact seen ((left.visited key).mpr (.inr mem))
  reached key mem := by
    rcases mem_append.mp mem with mem | mem
    · obtain ⟨_, isVar, path⟩ := left.reached key mem
      exact ⟨_, mem_cons.mpr (.inl (mem_singleton.mp isVar)), path⟩
    · obtain ⟨other, inRest, path⟩ := right.reached key mem
      exact ⟨other, mem_cons_of_mem _ inRest, path⟩

/-- With more fuel than names left to visit, a walk misses nothing that its address comes from. -/
theorem markDerefChain_marks (elemSize : Nat) (fuel : Nat) : ∀ (walk : DerefWalk) (addr : SSAVar),
    unvisited defs walk.visited < fuel → ∃ marked, Marks toUppercase defs elemSize [addr] walk
      (markDerefChain toUppercase defs elemSize fuel walk addr) marked := by
  induction fuel with
  | zero => exact fun _ _ none => absurd none (Nat.not_lt_zero _)
  | succ fuel ih =>
    intro walk addr enough
    have sources : ∀ (vars : List SSAVar) (walk : DerefWalk), unvisited defs walk.visited < fuel →
        ∃ marked, Marks toUppercase defs elemSize vars walk
          (vars.foldl (markDerefChain toUppercase defs elemSize fuel) walk) marked := by
      intro vars
      induction vars with
      | nil => exact fun walk _ => ⟨[], by constructor <;> simp⟩
      | cons var rest restHypothesis =>
        intro walk left
        obtain ⟨first, marks⟩ := ih walk var left
        obtain ⟨more, others⟩ := restHypothesis _ (Nat.lt_of_le_of_lt
          (unvisited_le fun key mem => (marks.visited key).mpr (.inl mem)) left)
        exact ⟨first ++ more, marks.cons others⟩
    unfold markDerefChain
    dsimp only
    split
    · rename_i seen
      refine ⟨[displayName toUppercase addr], fun _ _ => atLeast_insert, ?_, ?_, ?_, ?_⟩
      all_goals simp [Relation.ReflTransGen.refl, seen]
    · rename_i fresh
      split
      · rename_i missing
        refine ⟨[displayName toUppercase addr], fun _ _ => atLeast_insert, ?_, ?_, ?_, ?_⟩
        all_goals simp [Relation.ReflTransGen.refl, PassedFrom, missing, or_comm]
      · rename_i defining found
        have mem : displayName toUppercase addr ∈ defs.keys :=
          AList.mem_keys.mpr (AList.lookup_isSome.mp (by rw [found]; rfl))
        obtain ⟨marked, inner⟩ := sources (derefSources defining)
          ⟨_, displayName toUppercase addr :: walk.visited⟩
          (Nat.lt_of_lt_of_le (unvisited_cons_lt fresh mem) (Nat.le_of_lt_succ enough))
        refine ⟨displayName toUppercase addr :: marked, ?_, ?_, by simp, ?_, ?_⟩
        · intro key bound
          rw [inner.sizes, atLeast_insert, mem_singleton, mem_cons, or_and_right, or_assoc]
        · intro key
          rw [inner.visited, mem_cons, mem_cons, or_left_comm, or_assoc]
        · intro key isMarked unseen source passed
          by_cases own : key = displayName toUppercase addr
          · subst own
            obtain ⟨_, lookup, var, isSource, rfl⟩ := passed
            obtain rfl := Option.some.inj (found.symm.trans lookup)
            exact (inner.visited _).mpr (.inr (inner.started var isSource))
          · exact inner.closed key ((mem_cons.mp isMarked).resolve_left own)
              (by simp [own, unseen]) source passed
        · intro key isMarked
          refine ⟨addr, mem_singleton_self _, ?_⟩
          rcases mem_cons.mp isMarked with rfl | isMarked
          · exact .refl
          · obtain ⟨var, isSource, path⟩ := inner.reached key isMarked
            exact .head ⟨defining, found, var, isSource, rfl⟩ path

private theorem markDerefChain_atLeast {elemSize fuel bound : Nat} {out : HashMap String Nat}
    {addr : SSAVar} {key : String} (enough : defs.entries.length < fuel) :
    AtLeast (markDerefChain toUppercase defs elemSize fuel ⟨out, []⟩ addr).out key bound ↔
      AtLeast out key bound ∨ bound ≤ elemSize ∧ Relation.ReflTransGen
        (PassedFrom toUppercase defs) (displayName toUppercase addr) key := by
  have fits : unvisited defs [] < fuel :=
    Nat.lt_of_le_of_lt countP_le_length (by rwa [AList.keys, keys, length_map])
  obtain ⟨marked, marks⟩ := @markDerefChain_marks toUppercase defs elemSize fuel ⟨out, []⟩ addr fits
  have visited := fun key => (marks.visited key).trans (or_iff_right not_mem_nil)
  rw [marks.sizes, and_comm]
  refine or_congr_right (and_congr_right fun _ => ⟨fun mem => ?_, fun path => ?_⟩)
  · obtain ⟨_, isAddr, path⟩ := marks.reached key mem
    rwa [mem_singleton.mp isAddr] at path
  · induction path with
    | refl => exact marks.started addr (mem_singleton_self _)
    | tail _ passed ih => exact (visited _).mp (marks.closed _ ih not_mem_nil _ passed)

/-- The size recorded for a name is that of the largest access whose address comes from it. -/
theorem collectDerefConsumers_atLeast (func : SSAFunction) (key : String) (bound : Nat) :
    AtLeast (collectDerefConsumers toUppercase defs func) key bound ↔
      ∃ op ∈ func.blockList.flatMap SSABlock.ops, ∃ addr elemSize,
        accessOf op = some (addr, elemSize) ∧ bound ≤ elemSize ∧ Relation.ReflTransGen
          (PassedFrom toUppercase defs) (displayName toUppercase addr) key := by
  unfold collectDerefConsumers
  induction func.blockList.flatMap SSABlock.ops using List.reverseRecOn with
  | nil => simp [AtLeast]
  | append_singleton ops op ih =>
    rw [foldl_append, foldl_cons, foldl_nil]
    split
    · rename_i addr elemSize access
      rw [markDerefChain_atLeast (Nat.lt_succ_self _), ih]
      simp [or_and_right, exists_or, access]
    · rename_i none
      rw [ih]
      simp [none]

end Derefs

/-! ## Emission -/

/-- The types interned so far, with the constraints that use them. -/
structure Emission where
  arena : TypeArena
  constraints : List Constraint

namespace Emission

variable (emission : Emission)

def push (constraint : Constraint) : Emission :=
  { emission with constraints := emission.constraints ++ [constraint] }

/-- A type constraint on each of the variables. -/
def setTypes (ty : TypeId) (vars : List SSAVar) : Emission :=
  vars.foldl (fun emission var => emission.push (.setType var ty .inferred)) emission

def equal (a b : SSAVar) : Emission := emission.push (.equal a b .inferred)

def withType (interned : TypeArena × TypeId) : Emission × TypeId :=
  ({ emission with arena := interned.1 }, interned.2)

def integerTypeId (sizeBytes : Nat) (signedness : Signedness) : Emission × TypeId :=
  let bits := if sizeBytes = 0 then 1 else bitsOf sizeBytes
  emission.withType (emission.arena.int bits signedness)

def floatTypeId (sizeBytes : Nat) : Emission × TypeId :=
  emission.withType (emission.arena.float (bitsOf sizeBytes))

def integers (size : Nat) (signedness : Signedness) (vars : List SSAVar) : Emission :=
  let (emission, ty) := emission.integerTypeId size signedness
  emission.setTypes ty vars

def floats (size : Nat) (vars : List SSAVar) : Emission :=
  let (emission, ty) := emission.floatTypeId size
  emission.setTypes ty vars

def bools (vars : List SSAVar) : Emission := emission.setTypes emission.arena.boolTy vars

end Emission

/-- `size * 8` on `u32`, which does not saturate. -/
def timesEight (size : Nat) : Option Nat := if size * 8 < 2 ^ 32 then some (size * 8) else none

section Emit

variable (toUppercase : String → String) (db : ExternalTypeDb) (defs : HashMap String SSAOp)
  (derefConsumers : HashMap String Nat) (structHints : HashMap SSAVar String)

namespace Emission

def arrayPointer (emission : Emission) (elementSize : Nat) : Option (Emission × TypeId) := do
  let (emission, arrayElem) := emission.integerTypeId elementSize .unknown
  let stride ← timesEight elementSize
  let (emission, arrTy) := emission.withType (emission.arena.array arrayElem none (some stride))
  some (emission.withType (emission.arena.ptr arrTy))

/-- The field or element that a load or store accesses. -/
def access (emission : Emission) (addr : SSAVar) (elem : TypeId) : Option Emission :=
  match detectAddrPattern toUppercase defs addr with
  | none => some emission
  | some (base, offset, stride) =>
    let fieldName := db.lookupFieldName offset (structHints.lookup base)
    let emission := emission.push (.fieldAccess base offset elem fieldName .inferred)
    match stride with
    | none => some emission
    | some elementSize =>
      (emission.arrayPointer elementSize).map fun (emission, arrPtr) =>
        emission.setTypes arrPtr [base]

def emitPtrArithConstraintsForDeref (emission : Emission) (dst a b : SSAVar) :
    Option (Bool × Emission) :=
  match derefConsumers.lookup (displayName toUppercase dst) with
  | none => some (false, emission)
  | some elemSize =>
    match detectAddrPattern toUppercase defs dst with
    | none => some (false, emission)
    | some (base, offset, stride) => do
        let (emission, elemTy) := emission.integerTypeId elemSize .unknown
        let (emission, ptrTy) := emission.withType (emission.arena.ptr elemTy)
        let emission := emission.setTypes ptrTy [dst, base]
        let fieldName := db.lookupFieldName offset (structHints.lookup base)
        let emission :=
          if offset ≠ 0 then emission.push (.fieldAccess base offset elemTy fieldName .inferred)
          else emission
        let emission ← match stride with
          | none => some emission
          | some elementSize =>
            (emission.arrayPointer elementSize).map fun (emission, arrPtr) =>
              emission.setTypes arrPtr [base, dst]
        let indexVar :=
          if displayName toUppercase a = displayName toUppercase base then some b
          else if displayName toUppercase b = displayName toUppercase base then some a
          else none
        match indexVar.filter fun var => !var.isConst with
        | none => some (true, emission)
        | some indexVar => some (true, emission.integers indexVar.size .unknown [indexVar])

def binary (emission : Emission) (dst a b : SSAVar) : BinaryOp → Option Emission
  | .IntAdd | .IntSub => do
      let (emitted, emission) ← emission.emitPtrArithConstraintsForDeref toUppercase db defs
        derefConsumers structHints dst a b
      some (if emitted then emission else emission.integers dst.size .unknown [dst, a, b])
  | .IntMult | .IntAnd | .IntOr | .IntXor | .IntLeft | .IntRight | .IntSRight =>
    some (emission.integers dst.size .unknown [dst, a, b])
  | .IntDiv | .IntRem => some (emission.integers dst.size .unsigned [dst, a, b])
  | .IntSDiv | .IntSRem => some (emission.integers dst.size .signed [dst, a, b])
  | .IntEqual | .IntNotEqual | .IntLess | .IntLessEqual =>
    some ((emission.bools [dst]).integers a.size .unknown [a, b])
  | .IntSLess | .IntSLessEqual => some ((emission.bools [dst]).integers a.size .signed [a, b])
  | .BoolAnd | .BoolOr | .BoolXor => some (emission.bools [dst, a, b])
  | .FloatAdd | .FloatSub | .FloatMult | .FloatDiv => some (emission.floats dst.size [dst, a, b])
  | .FloatLess | .FloatLessEqual | .FloatEqual | .FloatNotEqual =>
    some ((emission.bools [dst]).floats a.size [a, b])
  | .IntCarry | .IntSCarry | .IntSBorrow =>
    some ((emission.bools [dst]).integers a.size .unknown [a, b])

def unary (emission : Emission) (dst src : SSAVar) : UnaryOp → Emission
  | .Cast => emission.equal dst src
  | .IntZExt =>
    (emission.integers src.size .unsigned [src]).integers dst.size .unsigned [dst]
  | .IntSExt => (emission.integers src.size .signed [src]).integers dst.size .signed [dst]
  | .BoolNot => emission.bools [dst, src]
  | .FloatNeg | .FloatAbs | .FloatSqrt | .FloatCeil | .FloatFloor | .FloatRound =>
    emission.floats dst.size [dst, src]
  | .FloatNaN => (emission.bools [dst]).floats src.size [src]
  | .Int2Float => (emission.floats dst.size [dst]).integers src.size .unknown [src]
  | .FloatFloat => (emission.floats dst.size [dst]).floats src.size [src]
  | .Float2Int => (emission.integers dst.size .unknown [dst]).floats src.size [src]
  | .IntNot | .IntNegate => emission.integers dst.size .unknown [dst, src]
  | .PopCount | .Lzcount =>
    (emission.integers dst.size .unsigned [dst]).integers src.size .unknown [src]
  | .Trunc => emission

/-- The base and the result of pointer arithmetic point to elements of its size. -/
def pointerArith (emission : Emission) (dst base index : SSAVar) (elementSize : Nat) : Emission :=
  let (emission, elem) := emission.integerTypeId elementSize .unknown
  let (emission, ptr) := emission.withType (emission.arena.ptr elem)
  (emission.setTypes ptr [base, dst]).integers index.size .unknown [index]

def op (emission : Emission) : SSAOp → Option Emission
  | .Copy dst src => some (emission.equal dst src)
  | .Phi dst sources => some (sources.foldl (fun emission src => emission.equal dst src) emission)
  | .Load dst _ addr =>
    let (emission, elem) := emission.integerTypeId dst.size .unknown
    let emission := emission.push (.hasCapability addr .load elem .inferred)
    (emission.setTypes elem [dst]).access toUppercase db defs structHints addr elem
  | .Store _ addr val =>
    let (emission, elem) := emission.integerTypeId val.size .unknown
    let emission := emission.push (.hasCapability addr .store elem .inferred)
    emission.access toUppercase db defs structHints addr elem
  | .binary op dst a b =>
    emission.binary toUppercase db defs derefConsumers structHints dst a b op
  | .unary op dst src => some (emission.unary dst src op)
  | .PtrAdd dst base index elementSize | .PtrSub dst base index elementSize =>
    some (emission.pointerArith dst base index elementSize)
  | .Subpiece dst src _ =>
    some ((emission.integers dst.size .unknown [dst]).integers src.size .unknown [src])
  | .CBranch _ cond => some (emission.bools [cond])
  | .Return target => some (emission.integers target.size .unknown [target])
  | _ => some emission

def phi (emission : Emission) (phi : PhiNode) : Emission :=
  phi.sources.foldl (fun emission source => emission.equal phi.dst source.2) emission

def block (emission : Emission) (block : SSABlock) : Option Emission :=
  block.ops.foldlM (fun emission op =>
    emission.op toUppercase db defs derefConsumers structHints op) (block.phis.foldl phi emission)

end Emission

def emitInferredConstraints (func : SSAFunction) (emission : Emission) : Option Emission :=
  func.blockList.foldlM (fun emission block =>
    emission.block toUppercase db defs derefConsumers structHints block) emission

end Emit

/-- The constraints that `infer_function` starts with. -/
def inferredConstraints (toUppercase : String → String) (db : ExternalTypeDb) (func : SSAFunction) :
    Option Emission :=
  let defs := buildDefMap toUppercase func
  let derefConsumers := collectDerefConsumers toUppercase defs func
  emitInferredConstraints toUppercase db defs derefConsumers ∅ func ⟨.default, []⟩

end R2Sleigh.Types
