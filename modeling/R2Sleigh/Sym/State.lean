import R2Sleigh.Sym.Memory

/-!
Contract: states of the symbolic engine and their merging.

Owns `SymState` and `mergeWith`.

Does not own: the names of inputs and of buffers a state records for reports.

The constants made fresh during a merge are numbered from `start` on.
-/

namespace R2Sleigh.Sym

open Lib Ssa

inductive ExitStatus where
  | return
  | exit (code : Word)
  | error (message : String)
  | unimplemented
  | maxDepth
  | infeasible
deriving DecidableEq, Repr

structure SymState (BV Formula : Type) where
  registers : HashMap String (SymValue BV)
  memory : SymMemory BV
  constraints : List Formula
  pc : Word
  prevPc : Option Word
  active : Bool
  exitStatus : Option ExitStatus
  depth : Nat

variable {BV Formula Model : Type}

/-! ## Formulas -/

section Formulas

variable (BV) [Z3 BV Formula Model]

def boolTrue : Formula := Z3.eq (Z3.fromU64 1 8 : BV) (Z3.fromU64 1 8)

/-- The conjunction of formulas. -/
def andAll : List Formula → Formula
  | [] => boolTrue BV
  | first :: rest => rest.foldl (Z3.and BV) first

variable {BV}

theorem holds_andAll (m : Model) (formulas : List Formula) :
    Z3.holds BV m (andAll BV formulas) ↔ ∀ formula ∈ formulas, Z3.holds BV m formula := by
  have chain : ∀ (rest : List Formula) (acc : Formula),
      Z3.holds BV m (rest.foldl (Z3.and BV) acc) ↔
        Z3.holds BV m acc ∧ ∀ formula ∈ rest, Z3.holds BV m formula := fun rest => by
    induction rest with
    | nil => simp
    | cons formula rest ih =>
      intro acc
      rw [List.foldl_cons, ih, Z3.holds_and, List.forall_mem_cons, and_assoc]
  cases formulas with
  | nil =>
    have same := (Z3.holds_eq m (Z3.fromU64 1 8 : BV) (Z3.fromU64 1 8) rfl).mpr rfl
    simpa [andAll, boolTrue] using same
  | cons first rest => rw [andAll, chain, List.forall_mem_cons]

end Formulas

namespace SymState

variable [Z3 BV Formula Model]

def pathCondition (state : SymState BV Formula) : Formula := andAll BV state.constraints

def Satisfies (m : Model) (state : SymState BV Formula) : Prop := Z3.holds BV m state.pathCondition

end SymState

/-! ## Merging -/

section Merge

variable [Z3 BV Formula Model]

/-- The term of a value at the given width. -/
def widenValue (fresh : Nat) (value : SymValue BV) (bits : Nat) : BV :=
  let bv := value.toBv fresh
  if value.bits = bits then bv
  else if value.bits < bits then Z3.zeroExt bv (bits - value.bits)
  else Z3.extract bv (bits - 1) 0

/-- The incoming value where the condition holds, else the base. The numbers are
those of the constants made for unknown values. -/
def mergeValues (freshBase freshIncoming : Nat) (cond : Formula) (base incoming : SymValue BV) :
    SymValue BV :=
  let bits := max base.bits incoming.bits
  .symbolic (Z3.ite cond (widenValue freshIncoming incoming bits) (widenValue freshBase base bits))
    (SymValue.normalizeBvBits bits) (base.getTaint ||| incoming.getTaint)

/-- The addresses a memory mentions: known bytes, and writes at known
addresses. -/
def SymMemory.mergeAddrs (mem : SymMemory BV) : List Word :=
  (mem.concrete.keys ++ mem.symbolicWrites.flatMap fun write =>
    match write.1.asConcrete with
    | some base => (List.range write.2.2).map fun offset => base + BitVec.ofNat 64 offset
    | none => []).dedup

namespace SymState

/-- A value of the first state, unknown where only the second has one. -/
def baseRegister (self other : SymState BV Formula) (key : String) : SymValue BV :=
  ((self.registers.lookup key).or
    ((other.registers.lookup key).map fun value => .unknown (SymValue.normalizeBvBits value.bits) 0)).getD
    (.unknown 1 0)

def incomingRegister (self other : SymState BV Formula) (key : String) : SymValue BV :=
  (other.registers.lookup key).getD
    (.unknown (SymValue.normalizeBvBits (baseRegister self other key).bits) 0)

def registerKeys (self other : SymState BV Formula) : List String :=
  (self.registers.keys ++ other.registers.keys).dedup

def mergeRegisters (start : Nat) (self other : SymState BV Formula) :
    HashMap String (SymValue BV) :=
  (registerKeys self other).zipIdx.foldl (fun registers entry =>
    registers.insert entry.1 (mergeValues (start + 2 * entry.2) (start + 2 * entry.2 + 1)
      other.pathCondition (baseRegister self other entry.1)
      (incomingRegister self other entry.1))) ∅

def addresses (self other : SymState BV Formula) : List Word :=
  (self.memory.mergeAddrs ++ other.memory.mergeAddrs).dedup

/-- The byte of both states at an address. -/
def mergedByte (start : Nat) (self other : SymState BV Formula) (entry : Word × Nat) : SymValue BV :=
  mergeValues (start + 2 * entry.2) (start + 2 * entry.2 + 1) other.pathCondition
    (self.memory.readConcrete entry.1 1) (other.memory.readConcrete entry.1 1)

def mergeMemory (start : Nat) (self other : SymState BV Formula) : SymMemory BV :=
  let memory := (addresses self other).zipIdx.foldl (fun memory entry =>
    memory.writeAt (.ofWord entry.1 64) entry.1
      (SymMemory.adjustBits (mergedByte start self other entry) 8) 1) self.memory
  { memory with
    symbolicWrites := memory.symbolicWrites ++
      other.memory.symbolicWrites.filter fun write => write.1.asConcrete.isNone }

def mergeWith (start : Nat) (self other : SymState BV Formula) : SymState BV Formula where
  registers := mergeRegisters start self other
  memory := mergeMemory (start + 2 * (registerKeys self other).length) self other
  constraints := [Z3.or BV self.pathCondition other.pathCondition]
  pc := self.pc
  prevPc := if self.prevPc = other.prevPc then self.prevPc else none
  active := self.active && other.active
  exitStatus := none
  depth := max self.depth other.depth

end SymState

end Merge

end R2Sleigh.Sym
