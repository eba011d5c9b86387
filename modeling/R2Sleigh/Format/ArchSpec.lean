import R2Sleigh.Il.Opcode
import R2Sleigh.Lib.HashMap

/-!
Contract: architecture specifications in their three layouts.

Owns `ArchSpec`, `ArchSpecV1` and `ArchSpecV2`.

Endianness is stored twice: the flag of the first layout stays, and follows the
memory endianness wherever a specification is loaded.
-/

namespace R2Sleigh.Format

open Il (SpaceId)
open Lib

inductive Endianness where
  | Little
  | Big
  | Mixed
  | Custom
deriving DecidableEq, Repr

namespace Endianness

def isBig : Endianness → Bool
  | .Big => true
  | _ => false

def fromBigEndian (bigEndian : Bool) : Endianness := if bigEndian then .Big else .Little

def toLegacyBigEndian (endianness : Endianness) : Bool := endianness.isBig

@[simp] theorem toLegacy_fromBigEndian (bigEndian : Bool) :
    (fromBigEndian bigEndian).toLegacyBigEndian = bigEndian := by
  cases bigEndian <;> rfl

end Endianness

inductive MemoryClass where
  | Ram
  | Stack
  | Heap
  | Global
  | ThreadLocal
  | Mmio
  | IoPort
  | Code
  | Unknown
deriving DecidableEq, Repr

structure MemoryPermissions where
  read : Bool
  write : Bool
  execute : Bool
  volatile : Bool
  cacheable : Bool
deriving DecidableEq, Repr

/-- The interval from `start` up to, but not including, `stop`. -/
structure MemoryRange where
  start : Nat
  stop : Nat
deriving DecidableEq, Repr

structure RegisterDef where
  name : String
  offset : Nat
  size : Nat
  parent : Option String
deriving DecidableEq, Repr

structure UserOpDef where
  index : Nat
  name : String
deriving DecidableEq, Repr

/-! ## Address spaces -/

structure AddressSpace where
  id : SpaceId
  name : String
  addrSize : Nat
  wordSize : Nat
  isDefault : Bool
  endianness : Option Endianness
  memoryClass : Option MemoryClass
  permissions : Option MemoryPermissions
  validRanges : List MemoryRange
  bankId : Option String
  segmentId : Option String
deriving DecidableEq, Repr

structure AddressSpaceV1 where
  id : SpaceId
  name : String
  addrSize : Nat
  wordSize : Nat
  isDefault : Bool
deriving DecidableEq, Repr

structure AddressSpaceV2 where
  id : SpaceId
  name : String
  addrSize : Nat
  wordSize : Nat
  isDefault : Bool
  endianness : Option Endianness
deriving DecidableEq, Repr

def AddressSpaceV1.upgrade (value : AddressSpaceV1) : AddressSpace where
  id := value.id
  name := value.name
  addrSize := value.addrSize
  wordSize := value.wordSize
  isDefault := value.isDefault
  endianness := none
  memoryClass := none
  permissions := none
  validRanges := []
  bankId := none
  segmentId := none

def AddressSpaceV2.upgrade (value : AddressSpaceV2) : AddressSpace where
  id := value.id
  name := value.name
  addrSize := value.addrSize
  wordSize := value.wordSize
  isDefault := value.isDefault
  endianness := value.endianness
  memoryClass := none
  permissions := none
  validRanges := []
  bankId := none
  segmentId := none

/-! ## Specifications -/

structure ArchSpec where
  name : String
  variant : String
  bigEndian : Bool
  instructionEndianness : Endianness
  memoryEndianness : Endianness
  addrSize : Nat
  alignment : Nat
  spaces : List AddressSpace
  registers : List RegisterDef
  registerMap : HashMap String Nat
  userops : List UserOpDef
  sourceFiles : List String

structure ArchSpecV1 where
  name : String
  variant : String
  bigEndian : Bool
  addrSize : Nat
  alignment : Nat
  spaces : List AddressSpaceV1
  registers : List RegisterDef
  registerMap : HashMap String Nat
  userops : List UserOpDef
  sourceFiles : List String

structure ArchSpecV2 where
  name : String
  variant : String
  bigEndian : Bool
  instructionEndianness : Endianness
  memoryEndianness : Endianness
  addrSize : Nat
  alignment : Nat
  spaces : List AddressSpaceV2
  registers : List RegisterDef
  registerMap : HashMap String Nat
  userops : List UserOpDef
  sourceFiles : List String

def ArchSpec.syncLegacyBigEndian (arch : ArchSpec) : ArchSpec :=
  { arch with bigEndian := arch.memoryEndianness.toLegacyBigEndian }

def ArchSpecV1.upgrade (value : ArchSpecV1) : ArchSpec :=
  let endian := Endianness.fromBigEndian value.bigEndian
  ArchSpec.syncLegacyBigEndian
    { name := value.name
      variant := value.variant
      bigEndian := value.bigEndian
      instructionEndianness := endian
      memoryEndianness := endian
      addrSize := value.addrSize
      alignment := value.alignment
      spaces := value.spaces.map AddressSpaceV1.upgrade
      registers := value.registers
      registerMap := value.registerMap
      userops := value.userops
      sourceFiles := value.sourceFiles }

def ArchSpecV2.upgrade (value : ArchSpecV2) : ArchSpec :=
  ArchSpec.syncLegacyBigEndian
    { name := value.name
      variant := value.variant
      bigEndian := value.bigEndian
      instructionEndianness := value.instructionEndianness
      memoryEndianness := value.memoryEndianness
      addrSize := value.addrSize
      alignment := value.alignment
      spaces := value.spaces.map AddressSpaceV2.upgrade
      registers := value.registers
      registerMap := value.registerMap
      userops := value.userops
      sourceFiles := value.sourceFiles }

structure FileHeader where
  version : Nat
  archName : String
deriving DecidableEq, Repr

/-! ## Shared fields -/

/-- The fields that the first layout has. -/
def AddressSpace.sharedV1 (space : AddressSpace) : AddressSpaceV1 where
  id := space.id
  name := space.name
  addrSize := space.addrSize
  wordSize := space.wordSize
  isDefault := space.isDefault

/-- The fields that the second layout has. -/
def AddressSpace.sharedV2 (space : AddressSpace) : AddressSpaceV2 where
  id := space.id
  name := space.name
  addrSize := space.addrSize
  wordSize := space.wordSize
  isDefault := space.isDefault
  endianness := space.endianness

def ArchSpec.sharedV1 (arch : ArchSpec) : ArchSpecV1 where
  name := arch.name
  variant := arch.variant
  bigEndian := arch.bigEndian
  addrSize := arch.addrSize
  alignment := arch.alignment
  spaces := arch.spaces.map AddressSpace.sharedV1
  registers := arch.registers
  registerMap := arch.registerMap
  userops := arch.userops
  sourceFiles := arch.sourceFiles

def ArchSpec.sharedV2 (arch : ArchSpec) : ArchSpecV2 where
  name := arch.name
  variant := arch.variant
  bigEndian := arch.bigEndian
  instructionEndianness := arch.instructionEndianness
  memoryEndianness := arch.memoryEndianness
  addrSize := arch.addrSize
  alignment := arch.alignment
  spaces := arch.spaces.map AddressSpace.sharedV2
  registers := arch.registers
  registerMap := arch.registerMap
  userops := arch.userops
  sourceFiles := arch.sourceFiles

/-- The upgrade keeps every field of version 1. -/
theorem sharedV1_upgrade (value : ArchSpecV1) : value.upgrade.sharedV1 = value := by
  have spaces : (value.spaces.map AddressSpaceV1.upgrade).map AddressSpace.sharedV1 = value.spaces := by
    rw [List.map_map]
    exact List.map_id _
  unfold ArchSpecV1.upgrade ArchSpec.syncLegacyBigEndian ArchSpec.sharedV1
  simp only [spaces, Endianness.toLegacy_fromBigEndian]

/-- The upgrade of the second layout keeps all of its fields but the legacy
flag, which follows the memory endianness. -/
theorem sharedV2_upgrade (value : ArchSpecV2) : value.upgrade.sharedV2 =
    { value with bigEndian := value.memoryEndianness.toLegacyBigEndian } := by
  have spaces : (value.spaces.map AddressSpaceV2.upgrade).map AddressSpace.sharedV2 = value.spaces := by
    rw [List.map_map]
    exact List.map_id _
  unfold ArchSpecV2.upgrade ArchSpec.syncLegacyBigEndian ArchSpec.sharedV2
  simp only [spaces]

end R2Sleigh.Format
