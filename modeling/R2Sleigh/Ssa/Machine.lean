import Mathlib.Data.Nat.Digits.Defs
import R2Sleigh.Il.PcodeValue
import R2Sleigh.Ssa.Sccp

/-!
Contract: executions of an SSA function on variables and memory.

Operations whose result is not an integer computation, and calls, leave any value
and, for calls, any memory. The order of bytes is a parameter.
-/

namespace R2Sleigh.Ssa

open Il

/-- A byte for each address of each space. -/
abbrev Memory := String → Nat → Nat

structure Machine where
  env : SSAVar → Nat
  memory : Memory

/-- A run of bytes: the space, the variable that holds its address, its length. -/
structure Run where
  space : String
  addr : SSAVar
  size : Nat

namespace Machine

/-- The value of an operand; a literal is its own. -/
def value (machine : Machine) (var : SSAVar) : Nat :=
  match constValue var with
  | some word => word.toNat % 2 ^ (var.size * 8)
  | none => machine.env var

/-- The addresses of a run, which wraps around at the end of the address space. -/
def addresses (machine : Machine) (run : Run) : List Nat :=
  (List.range run.size).map fun i => (machine.value run.addr + i) % 2 ^ (run.addr.size * 8)

/-- The number that bytes stand for, the least significant first or last. -/
def numberOf (bigEndian : Bool) (bytes : List Nat) : Nat :=
  Nat.ofDigits 256 (if bigEndian then bytes.reverse else bytes)

def load (machine : Machine) (bigEndian : Bool) (run : Run) : Nat :=
  numberOf bigEndian ((machine.addresses run).map (machine.memory run.space))

/-- The bytes of a run hold a value, all others are as before. -/
structure Stored (machine : Machine) (bigEndian : Bool) (run : Run) (value : Nat)
    (memory : Memory) : Prop where
  here : numberOf bigEndian ((machine.addresses run).map (memory run.space)) =
    value % 2 ^ (run.size * 8)
  elsewhere : ∀ space address, space ≠ run.space ∨ address ∉ machine.addresses run →
    memory space address = machine.memory space address

end Machine

namespace SSAOp

/-- The integer that an operation computes from its operands, if it is one. -/
def result (value : SSAVar → Nat) : SSAOp → Option Int
  | .Copy _ src => some (value src)
  | .unary op _ src => op.result src.size (value src)
  | .binary op _ a b => op.result a.size b.size (value a) (value b)
  | .Piece _ hi lo => some (value hi * 2 ^ (lo.size * 8) + value lo)
  | .Subpiece _ src offset => some (value src / 2 ^ (offset * 8))
  | .PtrAdd _ base index elementSize => some (value base + value index * elementSize)
  | .PtrSub _ base index elementSize => some (value base - value index * elementSize)
  | _ => none

/-- The bytes that an operation can read. -/
def readRun : SSAOp → Option Run
  | .Load dst space addr | .LoadLinked dst space addr _ | .LoadGuarded dst space addr _ _
  | .AtomicCAS dst space addr _ _ _ => some ⟨space, addr, dst.size⟩
  | _ => none

/-- The bytes that an operation can write, with the value it writes. -/
def writeRun : SSAOp → Option (Run × SSAVar)
  | .Store space addr val | .StoreConditional _ space addr val _
  | .StoreGuarded space addr val _ _ => some (⟨space, addr, val.size⟩, val)
  | .AtomicCAS dst space addr _ replacement _ => some (⟨space, addr, dst.size⟩, replacement)
  | _ => none

/-- Operations after which memory may have any content. -/
def callsOut : SSAOp → Bool
  | .Call _ | .CallInd _ | .CallOther _ _ _ => true
  | _ => false

end SSAOp

namespace Machine

def Reads (machine : Machine) : SSAOp → Prop
  | .LoadGuarded _ _ _ guard _ => machine.value guard ≠ 0
  | _ => True

/-- Whether a write takes place: a conditional store may fail. -/
def Writes (machine : Machine) (bigEndian wrote : Bool) : SSAOp → Prop
  | .Store _ _ _ => wrote = true
  | .StoreConditional _ _ _ _ _ => True
  | .StoreGuarded _ _ _ guard _ => wrote = true ↔ machine.value guard ≠ 0
  | .AtomicCAS dst space addr expected _ _ =>
    wrote = true ↔ machine.load bigEndian ⟨space, addr, dst.size⟩ = machine.value expected
  | _ => wrote = false

/-- What an operation does, which writes to memory or does not. -/
structure Executes (bigEndian : Bool) (op : SSAOp) (before : Machine) (wrote : Bool)
    (after : Machine) : Prop where
  frame : ∀ var, op.dst ≠ some var → after.env var = before.env var
  bounded : ∀ dst, op.dst = some dst → after.env dst < 2 ^ (dst.size * 8)
  computed : ∀ dst r, op.dst = some dst → op.result before.value = some r →
    (after.env dst : Int) = r % 2 ^ (dst.size * 8)
  loaded : ∀ dst run, op.dst = some dst → op.readRun = some run → before.Reads op →
    after.env dst = before.load bigEndian run
  writes : before.Writes bigEndian wrote op
  stored : ∀ run val, op.writeRun = some (run, val) → wrote = true →
    before.Stored bigEndian run (before.value val) after.memory
  kept : op.callsOut = false → wrote = false → after.memory = before.memory
  bytes : ∀ space address, after.memory space address < 256

end Machine

/-! ## Executions -/

/-- Before the operation at an index of a block. -/
structure Point where
  block : Nat
  opIdx : Nat
  machine : Machine

/-- The edge taken agrees with a conditional terminator. -/
def Follows (func : SSAFunction) (addr : Nat) (block : SSABlock) (machine : Machine)
    (target : Nat) : Prop :=
  target ∈ func.successors addr ∧
    ∀ cfgBlock trueTarget falseTarget cond, func.cfg.getBlock addr = some cfgBlock →
      cfgBlock.terminator = .ConditionalBranch trueTarget falseTarget →
      lastCondition block = some cond →
      target = if machine.value cond = 0 then falseTarget else trueTarget

/-- The phis of a block take their values at once, each from the source for the
block left. -/
structure Enters (pred : Nat) (block : SSABlock) (before after : Machine) : Prop where
  frame : ∀ var, (∀ phi ∈ block.phis, phi.dst ≠ var) → after.env var = before.env var
  phis : ∀ phi ∈ block.phis, after.env phi.dst < 2 ^ (phi.dst.size * 8) ∧
    ((∃ source ∈ phi.sources, source.1 = pred) →
      ∃ source ∈ phi.sources, source.1 = pred ∧ after.env phi.dst = before.value source.2)
  memory : after.memory = before.memory

inductive Step (bigEndian : Bool) (func : SSAFunction) : Point → Point → Prop where
  | op {addr opIdx : Nat} {block : SSABlock} {op : SSAOp} {before after : Machine} {wrote : Bool} :
      func.getBlock addr = some block → block.ops[opIdx]? = some op →
      before.Executes bigEndian op wrote after →
      Step bigEndian func ⟨addr, opIdx, before⟩ ⟨addr, opIdx + 1, after⟩
  | edge {addr target : Nat} {block next : SSABlock} {before after : Machine} :
      func.getBlock addr = some block → func.getBlock target = some next →
      Follows func addr block before target → Enters addr next before after →
      Step bigEndian func ⟨addr, block.ops.length, before⟩ ⟨target, 0, after⟩

/-- The function is entered with any values and any memory. -/
structure Starts (func : SSAFunction) (point : Point) : Prop where
  block : point.block = func.entry
  opIdx : point.opIdx = 0
  bounded : ∀ var, point.machine.env var < 2 ^ (var.size * 8)
  bytes : ∀ space address, point.machine.memory space address < 256

/-- An execution leads from a point to another. -/
def Leads (bigEndian : Bool) (func : SSAFunction) : Point → Point → Prop :=
  Relation.ReflTransGen (Step bigEndian func)

end R2Sleigh.Ssa
