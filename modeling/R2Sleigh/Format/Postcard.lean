import R2Sleigh.Format.ArchSpec
import R2Sleigh.Lib.Codec

/-!
Contract: the wire format of specifications and headers.

Owns `fileHeader` and `archSpec`.
-/

namespace R2Sleigh.Format.Postcard

open Il (SpaceId)
open Lib

def spaceId : Codec SpaceId where
  encode
    | .Ram => Codec.encodeNat 0
    | .Register => Codec.encodeNat 1
    | .Unique => Codec.encodeNat 2
    | .Const => Codec.encodeNat 3
    | .Custom id => Codec.encodeNat 4 ++ Codec.encodeNat id
  decode bytes := do
    let (variant, bytes) ← Codec.decodeNat bytes
    match variant with
    | 0 => return (.Ram, bytes)
    | 1 => return (.Register, bytes)
    | 2 => return (.Unique, bytes)
    | 3 => return (.Const, bytes)
    | 4 => do
        let (id, bytes) ← Codec.decodeNat bytes
        return (.Custom id, bytes)
    | _ => none
  decode_encode space rest := by
    cases space <;> simp [List.append_assoc, Codec.decodeNat_encodeNat]

def endianness : Codec Endianness :=
  Codec.enumeration [.Little, .Big, .Mixed, .Custom] fun e => by cases e <;> decide

def memoryClass : Codec MemoryClass :=
  Codec.enumeration [.Ram, .Stack, .Heap, .Global, .ThreadLocal, .Mmio, .IoPort, .Code, .Unknown]
    fun c => by cases c <;> decide

def memoryPermissions : Codec MemoryPermissions :=
  (Codec.bool.pair <| Codec.bool.pair <| Codec.bool.pair <| Codec.bool.pair Codec.bool).refine
    (fun p => (p.read, p.write, p.execute, p.volatile, p.cacheable))
    (fun (read, write, execute, volatile, cacheable) =>
      some ⟨read, write, execute, volatile, cacheable⟩)
    fun _ => rfl

def memoryRange : Codec MemoryRange :=
  (Codec.nat.pair Codec.nat).refine (fun r => (r.start, r.stop))
    (fun (start, stop) => some ⟨start, stop⟩) fun _ => rfl

def registerDef : Codec RegisterDef :=
  (Codec.string.pair <| Codec.nat.pair <| Codec.nat.pair Codec.string.option).refine
    (fun r => (r.name, r.offset, r.size, r.parent))
    (fun (name, offset, size, parent) => some ⟨name, offset, size, parent⟩) fun _ => rfl

def userOpDef : Codec UserOpDef :=
  (Codec.nat.pair Codec.string).refine (fun u => (u.index, u.name))
    (fun (index, name) => some ⟨index, name⟩) fun _ => rfl

def addressSpace : Codec AddressSpace :=
  (spaceId.pair <| Codec.string.pair <| Codec.nat.pair <| Codec.nat.pair <| Codec.bool.pair <|
    endianness.option.pair <| memoryClass.option.pair <| memoryPermissions.option.pair <|
    memoryRange.list.pair <| Codec.string.option.pair Codec.string.option).refine
    (fun s => (s.id, s.name, s.addrSize, s.wordSize, s.isDefault, s.endianness, s.memoryClass,
      s.permissions, s.validRanges, s.bankId, s.segmentId))
    (fun (id, name, addrSize, wordSize, isDefault, endianness, memoryClass, permissions,
        validRanges, bankId, segmentId) =>
      some ⟨id, name, addrSize, wordSize, isDefault, endianness, memoryClass, permissions,
        validRanges, bankId, segmentId⟩)
    fun _ => rfl

def archSpec : Codec ArchSpec :=
  (Codec.string.pair <| Codec.string.pair <| Codec.bool.pair <| endianness.pair <|
    endianness.pair <| Codec.nat.pair <| Codec.nat.pair <| addressSpace.list.pair <|
    registerDef.list.pair <| (Codec.map Codec.string Codec.nat).pair <| userOpDef.list.pair
    Codec.string.list).refine
    (fun a => (a.name, a.variant, a.bigEndian, a.instructionEndianness, a.memoryEndianness,
      a.addrSize, a.alignment, a.spaces, a.registers, a.registerMap, a.userops, a.sourceFiles))
    (fun (name, variant, bigEndian, instructionEndianness, memoryEndianness, addrSize, alignment,
        spaces, registers, registerMap, userops, sourceFiles) =>
      some ⟨name, variant, bigEndian, instructionEndianness, memoryEndianness, addrSize, alignment,
        spaces, registers, registerMap, userops, sourceFiles⟩)
    fun _ => rfl

def fileHeader : Codec FileHeader :=
  (Codec.nat.pair Codec.string).refine (fun h => (h.version, h.archName))
    (fun (version, archName) => some ⟨version, archName⟩) fun _ => rfl

end R2Sleigh.Format.Postcard
