import R2Sleigh.Sym.Value

/-!
Contract: the memory of the symbolic engine.

Owns `SymMemory` and `writeBytes`.
-/

namespace R2Sleigh.Sym

open Lib Ssa

abbrev Byte := BitVec 8

structure SymMemory (BV : Type) where
  concrete : HashMap Word Byte
  symbolicWrites : List (SymValue BV × SymValue BV × Nat)
  defaultSymbolic : Bool
  maxSymbolicTargets : Nat

/-- The targets found for an address under constraints, at most as many as asked
for, and whether there may be more. -/
abbrev Enumerator (BV Formula : Type) := Nat → SymValue BV → List Formula → List Word × Bool

namespace SymMemory

variable {BV Formula Model : Type}

def new (defaultSymbolic : Bool) : SymMemory BV := ⟨∅, [], defaultSymbolic, 256⟩

/-- The write covers the whole read, and neither reaches the end of the address
space. -/
def Covers (writeAddr : Word) (writeSize : Nat) (addr : Word) (size : Nat) : Prop :=
  writeAddr.toNat + writeSize < 2 ^ 64 ∧ addr.toNat + size < 2 ^ 64 ∧
    writeAddr.toNat ≤ addr.toNat ∧ addr.toNat + size ≤ writeAddr.toNat + writeSize

instance (writeAddr : Word) (writeSize : Nat) (addr : Word) (size : Nat) :
    Decidable (Covers writeAddr writeSize addr size) :=
  inferInstanceAs (Decidable (_ ∧ _))

/-- The word of `size` concrete bytes, when all of them are known. -/
def concreteWord (mem : SymMemory BV) (addr : Word) (size : Nat) : Option Word :=
  (List.range size).foldlM (fun (value : Word) i =>
    (mem.concrete.lookup (addr + BitVec.ofNat 64 i)).map fun byte =>
      value ||| (byte.setWidth 64).shiftLeft (i * 8)) 0

variable [Z3 BV Formula Model]

/-- The part of a write that a read takes. -/
def slice (value : SymValue BV) (writeAddr : Word) (writeSize : Nat) (addr : Word) (size : Nat) :
    SymValue BV :=
  let offset := addr.toNat - writeAddr.toNat
  if offset = 0 ∧ writeSize = size then value
  else value.extract (offset * 8 + size * 8 - 1) (offset * 8)

/-- What a logged write gives a read it covers. -/
def takenFrom (addr : Word) (size : Nat) (write : SymValue BV × SymValue BV × Nat) :
    Option (SymValue BV) :=
  match write.1.asConcrete with
  | some writeAddr =>
    if Covers writeAddr write.2.2 addr size then
      some (slice write.2.1 writeAddr write.2.2 addr size)
    else none
  | none => none

def loggedRead (mem : SymMemory BV) (addr : Word) (size : Nat) : Option (SymValue BV) :=
  mem.symbolicWrites.reverse.findSome? (takenFrom addr size)

def defaultRead (mem : SymMemory BV) (addr : Word) (size : Nat) : SymValue BV :=
  if mem.defaultSymbolic then .newSymbolic ("mem_" ++ hex addr.toNat) (size * 8)
  else .ofWord 0 (size * 8)

def readConcrete (mem : SymMemory BV) (addr : Word) (size : Nat) : SymValue BV :=
  match mem.loggedRead addr size with
  | some value => value
  | none =>
    match mem.concreteWord addr size with
    | some value => .ofWord value (size * 8)
    | none => mem.defaultRead addr size

/-- The value at another width: extended with zeros, or its low bits. -/
def adjustBits (value : SymValue BV) (bits : Nat) : SymValue BV :=
  if value.bits = bits then value
  else if value.bits < bits then value.zeroExtend bits
  else value.extract (bits - 1) 0

def insertBytes (concrete : HashMap Word Byte) (addr : Word) (bytes : List Byte) :
    HashMap Word Byte :=
  bytes.zipIdx.foldl (fun concrete entry =>
    concrete.insert (addr + BitVec.ofNat 64 entry.2) entry.1) concrete

/-- The low bytes of a word, least significant first. -/
def wordBytes (value : Word) (size : Nat) : List Byte :=
  (List.range size).map fun i => (value >>> (i * 8)).setWidth 8

def writeAt (mem : SymMemory BV) (addr : SymValue BV) (target : Word) (value : SymValue BV)
    (size : Nat) : SymMemory BV :=
  { mem with
    concrete := match value.asConcrete with
      | some word => insertBytes mem.concrete target (wordBytes word size)
      | none => mem.concrete
    symbolicWrites := mem.symbolicWrites ++ [(addr, value, size)] }

/-- One target of a symbolic write: the new value if the address is the target,
else what was there. -/
def writeTarget (addr value : SymValue BV) (addrBv : BV) (size : Nat) (mem : SymMemory BV)
    (target : Word) : Fresh (SymMemory BV) := do
  let bits := size * 8
  let existing := adjustBits (mem.readConcrete target size) bits
  let cond := Z3.eq addrBv (Z3.fromU64 target addr.bits)
  let taint := existing.getTaint ||| value.getTaint ||| addr.getTaint
  let merged := SymValue.symbolic
    (Z3.ite cond (value.toBv (← nextFresh)) (existing.toBv (← nextFresh)))
    (SymValue.normalizeBvBits bits) taint
  return { mem with
    symbolicWrites := mem.symbolicWrites ++ [(.ofWord target addr.bits, merged, size)] }

def writeWithConstraints (enumerate : Enumerator BV Formula) (mem : SymMemory BV)
    (addr value : SymValue BV) (size : Nat) (constraints : List Formula) :
    Fresh (SymMemory BV) := do
  let value := adjustBits value (size * 8)
  match addr.asConcrete with
  | some target => return mem.writeAt addr target value size
  | none =>
    let (targets, truncated) := enumerate mem.maxSymbolicTargets addr constraints
    if targets.isEmpty then
      return { mem with symbolicWrites := mem.symbolicWrites ++ [(addr, value, size)] }
    let addrBv := addr.toBv (← nextFresh)
    let mem ← targets.foldlM (writeTarget addr value addrBv size) mem
    if truncated then
      return { mem with symbolicWrites := mem.symbolicWrites ++ [(addr, value, size)] }
    return mem

def withTaint (value : SymValue BV) (newTaint : Word) : SymValue BV :=
  match value with
  | .concrete word bits taint => .concrete word bits (taint ||| newTaint)
  | .symbolic ast bits taint => .symbolic ast bits (taint ||| newTaint)
  | .unknown bits taint => .unknown bits (taint ||| newTaint)

def readTarget (mem : SymMemory BV) (addr : SymValue BV) (addrBv : BV) (size : Nat)
    (result : SymValue BV) (target : Word) : Fresh (SymValue BV) := do
  let value := withTaint (mem.readConcrete target size) addr.getTaint
  let cond := Z3.eq addrBv (Z3.fromU64 target addr.bits)
  return .symbolic (Z3.ite cond (value.toBv (← nextFresh)) (result.toBv (← nextFresh)))
    (SymValue.normalizeBvBits (size * 8)) (value.getTaint ||| result.getTaint)

def readWithConstraints (enumerate : Enumerator BV Formula) (mem : SymMemory BV)
    (addr : SymValue BV) (size : Nat) (constraints : List Formula) : Fresh (SymValue BV) := do
  match addr.asConcrete with
  | some target => return mem.readConcrete target size
  | none =>
    let bits := size * 8
    let initial : SymValue BV ←
      if mem.defaultSymbolic then
        pure (.symbolic (Z3.freshConst (← nextFresh) "mem_sym" bits)
          (SymValue.normalizeBvBits bits) addr.getTaint)
      else pure (.concrete 0 (SymValue.normalizeBvBits bits) addr.getTaint)
    let (targets, _) := enumerate mem.maxSymbolicTargets addr constraints
    if targets.isEmpty then
      return initial
    let addrBv := addr.toBv (← nextFresh)
    targets.foldlM (mem.readTarget addr addrBv size) initial

/-- The loop of `write_bytes`. Where overflow is checked, an address past the end
of the address space panics; otherwise it wraps around. -/
def writeBytes (checks : Bool) (mem : SymMemory BV) (addr : Word) (bytes : List Byte) :
    Option (SymMemory BV) :=
  if checks ∧ 2 ^ 64 < addr.toNat + bytes.length then none
  else
    some { mem with concrete := insertBytes mem.concrete addr bytes }

theorem writeBytes_eq_some {checks : Bool} {mem mem' : SymMemory BV} {addr : Word}
    {bytes : List Byte} (written : mem.writeBytes checks addr bytes = some mem') :
    mem' = { mem with concrete := insertBytes mem.concrete addr bytes } := by
  unfold writeBytes at written
  split at written
  · simp at written
  · exact (Option.some.inj written).symm

end SymMemory

end R2Sleigh.Sym
