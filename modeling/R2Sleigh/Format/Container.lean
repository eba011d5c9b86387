import R2Sleigh.Format.Postcard

/-!
Contract: the container of a specification: magic bytes, the length of a
header, the header, the specification.

Owns `toBytes` and `fromBytes`.
-/

namespace R2Sleigh.Format

open Lib List

abbrev Bytes := List UInt8

inductive SerializeError where
  | Postcard
  | LegacyBincode
  | InvalidMagic
  | UnsupportedVersion (version : Nat)
deriving DecidableEq, Repr

inductive Outcome (α : Type) where
  | ok (a : α)
  | err (e : SerializeError)
  | panicked

namespace Outcome

variable {α β : Type}

def bind : Outcome α → (α → Outcome β) → Outcome β
  | .ok a, next => next a
  | .err e, _ => .err e
  | .panicked, _ => .panicked

instance : Monad Outcome where
  pure := .ok
  bind := Outcome.bind

@[simp] theorem ok_bind (a : α) (next : α → Outcome β) : (Outcome.ok a >>= next) = next a := rfl

@[simp] theorem err_bind (e : SerializeError) (next : α → Outcome β) :
    (Outcome.err e >>= next) = .err e := rfl

/-- A decoder's failure is an error. -/
def orErr (e : SerializeError) : Option α → Outcome α
  | some a => .ok a
  | none => .err e

end Outcome

/-! ## Builds -/

structure PostcardFunctions where
  encodeHeader : FileHeader → Option Bytes
  decodeHeader : Bytes → Option FileHeader
  encodeArch : ArchSpec → Option Bytes
  decodeArch : Bytes → Option ArchSpec

/-- Postcard decodes what it encodes. -/
structure PostcardFunctions.Faithful (postcard : PostcardFunctions) : Prop where
  header : ∀ header, ∃ bytes, postcard.encodeHeader header = some bytes ∧
    postcard.decodeHeader bytes = some header
  arch : ∀ arch, ∃ bytes, postcard.encodeArch arch = some bytes ∧
    postcard.decodeArch bytes = some arch

structure BincodeFunctions where
  decodeHeader : Bytes → Option FileHeader
  decodeV1 : Bytes → Option ArchSpecV1
  decodeV2 : Bytes → Option ArchSpecV2
  decodeArch : Bytes → Option ArchSpec

/-- What a build has: bincode only with the feature for old files. -/
structure Build where
  postcard : PostcardFunctions
  legacy : Option BincodeFunctions

/-! ## Bytes -/

def MAGIC : Bytes := [0x52, 0x32, 0x49, 0x4C]

def FORMAT_VERSION : Nat := 4

/-- `bytes[start..stop]`. -/
def slice (bytes : Bytes) (start stop : Nat) : Outcome Bytes :=
  if start ≤ stop ∧ stop ≤ bytes.length then .ok ((bytes.drop start).take (stop - start))
  else .panicked

/-- `(n as u32).to_le_bytes()`. -/
def toLeBytes (n : Nat) : Bytes :=
  [UInt8.ofNat (n % 256), UInt8.ofNat (n / 256 % 256), UInt8.ofNat (n / 256 ^ 2 % 256),
    UInt8.ofNat (n / 256 ^ 3 % 256)]

/-- `u32::from_le_bytes(bytes.try_into().unwrap())`. -/
def fromLeBytes : Bytes → Outcome Nat
  | [a, b, c, d] => .ok (a.toNat + 256 * b.toNat + 256 ^ 2 * c.toNat + 256 ^ 3 * d.toNat)
  | _ => .panicked

section

variable (build : Build)

def encodeCurrent {α : Type} (encode : α → Option Bytes) (a : α) : Outcome Bytes :=
  .orErr .Postcard (encode a)

def decodeCurrent {α : Type} (decode : Bytes → Option α) (bytes : Bytes) : Outcome α :=
  .orErr .Postcard (decode bytes)

def decodeLegacy {α : Type} (decode : BincodeFunctions → Bytes → Option α) (bytes : Bytes)
    (version : Nat) : Outcome α :=
  match build.legacy with
  | some bincode => .orErr .LegacyBincode (decode bincode bytes)
  | none => .err (.UnsupportedVersion version)

def decodeFileHeader (bytes : Bytes) : Outcome FileHeader :=
  match build.legacy with
  | some bincode =>
    match build.postcard.decodeHeader bytes with
    | some header => .ok header
    -- The first error stays if the old format does not apply either.
    | none => .orErr .Postcard (bincode.decodeHeader bytes)
  | none => decodeCurrent build.postcard.decodeHeader bytes

def deserializeArchspecBytes (version : Nat) (bytes : Bytes) : Outcome ArchSpec :=
  match version with
  | 1 => do
      let legacy ← decodeLegacy build BincodeFunctions.decodeV1 bytes version
      return legacy.upgrade
  | 2 => do
      let legacy ← decodeLegacy build BincodeFunctions.decodeV2 bytes version
      return legacy.upgrade
  | 3 => do
      let arch ← decodeLegacy build BincodeFunctions.decodeArch bytes version
      return arch.syncLegacyBigEndian
  | 4 => do
      let arch ← decodeCurrent build.postcard.decodeArch bytes
      return arch.syncLegacyBigEndian
  | other => .err (.UnsupportedVersion other)

def toBytes (arch : ArchSpec) : Outcome Bytes := do
  let header : FileHeader := ⟨FORMAT_VERSION, arch.name⟩
  let headerBytes ← encodeCurrent build.postcard.encodeHeader header
  let archBytes ← encodeCurrent build.postcard.encodeArch arch
  return MAGIC ++ toLeBytes headerBytes.length ++ headerBytes ++ archBytes

def fromBytes (bytes : Bytes) : Outcome ArchSpec :=
  if bytes.length < 8 then .err .InvalidMagic
  else do
    let magic ← slice bytes 0 4
    if magic ≠ MAGIC then .err .InvalidMagic
    else do
      let lengthBytes ← slice bytes 4 8
      let headerLen ← fromLeBytes lengthBytes
      if bytes.length < 8 + headerLen then .err .InvalidMagic
      else do
        let headerBytes ← slice bytes 8 (8 + headerLen)
        let header ← decodeFileHeader build headerBytes
        let archBytes ← slice bytes (8 + headerLen) bytes.length
        deserializeArchspecBytes build header.version archBytes

end

/-! ## Lengths -/

theorem fromLeBytes_toLeBytes {n : Nat} (small : n < 2 ^ 32) : fromLeBytes (toLeBytes n) = .ok n := by
  have byte : ∀ m, (UInt8.ofNat (m % 256)).toNat = m % 256 := fun m =>
    UInt8.toNat_ofNat_of_lt' (Nat.mod_lt _ (by decide))
  rw [toLeBytes, fromLeBytes, byte, byte, byte, byte]
  congr 1
  omega

/-- A length that four bytes hold. -/
def lengthOf (a b c d : UInt8) : Nat :=
  a.toNat + 256 * b.toNat + 256 ^ 2 * c.toNat + 256 ^ 3 * d.toNat

section Frame

variable (build : Build)

/-- What follows the length of a header: the header and the specification. -/
def readBody (headerLen : Nat) (rest : Bytes) : Outcome ArchSpec :=
  decodeFileHeader build (rest.take headerLen) >>= fun header =>
    deserializeArchspecBytes build header.version (rest.drop headerLen)

/-- Reading a container with its first eight bytes spelt out: no slice is out of
bounds. -/
theorem fromBytes_frame (m₀ m₁ m₂ m₃ a b c d : UInt8) (rest : Bytes) :
    fromBytes build (m₀ :: m₁ :: m₂ :: m₃ :: a :: b :: c :: d :: rest) =
      if [m₀, m₁, m₂, m₃] ≠ MAGIC ∨ rest.length < lengthOf a b c d then .err .InvalidMagic
      else readBody build (lengthOf a b c d) rest := by
  have magic : slice (m₀ :: m₁ :: m₂ :: m₃ :: a :: b :: c :: d :: rest) 0 4 =
      .ok [m₀, m₁, m₂, m₃] := if_pos ⟨by decide, by simp only [length_cons]; omega⟩
  have lengthBytes : slice (m₀ :: m₁ :: m₂ :: m₃ :: a :: b :: c :: d :: rest) 4 8 =
      .ok [a, b, c, d] := if_pos ⟨by decide, by simp only [length_cons]; omega⟩
  have headerLen : fromLeBytes [a, b, c, d] = .ok (lengthOf a b c d) := rfl
  rw [fromBytes, if_neg (by simp only [length_cons]; omega), magic, Outcome.ok_bind]
  by_cases isMagic : [m₀, m₁, m₂, m₃] ≠ MAGIC
  · rw [if_pos isMagic, if_pos (.inl isMagic)]
  · rw [if_neg isMagic, lengthBytes, Outcome.ok_bind, headerLen, Outcome.ok_bind]
    by_cases short : rest.length < lengthOf a b c d
    · rw [if_pos (by simp only [length_cons]; omega), if_pos (.inr short)]
    · have header : slice (m₀ :: m₁ :: m₂ :: m₃ :: a :: b :: c :: d :: rest) 8
          (8 + lengthOf a b c d) = .ok (rest.take (lengthOf a b c d)) := by
        rw [slice, if_pos ⟨by omega, by simp only [length_cons]; omega⟩, Nat.add_sub_cancel_left]
        rfl
      have arch : slice (m₀ :: m₁ :: m₂ :: m₃ :: a :: b :: c :: d :: rest) (8 + lengthOf a b c d)
          (m₀ :: m₁ :: m₂ :: m₃ :: a :: b :: c :: d :: rest).length =
            .ok (rest.drop (lengthOf a b c d)) := by
        rw [slice, if_pos ⟨by simp only [length_cons]; omega, Nat.le_refl _⟩,
          take_of_length_le (by rw [length_drop]), Nat.add_comm]
        rfl
      rw [if_neg (by simp only [length_cons]; omega), header, Outcome.ok_bind,
        if_neg (not_or.mpr ⟨isMagic, short⟩), arch]
      rfl

theorem short_or_framed (bytes : Bytes) : bytes.length < 8 ∨
    ∃ m₀ m₁ m₂ m₃ a b c d rest, bytes = m₀ :: m₁ :: m₂ :: m₃ :: a :: b :: c :: d :: rest := by
  match bytes with
  | m₀ :: m₁ :: m₂ :: m₃ :: a :: b :: c :: d :: rest =>
    exact .inr ⟨m₀, m₁, m₂, m₃, a, b, c, d, rest, rfl⟩
  | [] | [_] | [_, _] | [_, _, _] | [_, _, _, _] | [_, _, _, _, _] | [_, _, _, _, _, _]
  | [_, _, _, _, _, _, _] => exact .inl (by simp)

/-! ## What is read back, and what is refused -/

def Supported (version : Nat) : Prop :=
  version = FORMAT_VERSION ∨ (build.legacy.isSome ∧ version ∈ [1, 2, 3])

/-- A container that `fromBytes` must refuse: shorter than a header, with
another magic, or of an unsupported version. -/
def Refusable (bytes : Bytes) : Prop :=
  bytes.length < 8 ∨ bytes.take 4 ≠ MAGIC ∨
    ∃ headerLen, fromLeBytes ((bytes.drop 4).take 4) = .ok headerLen ∧
      (bytes.length < 8 + headerLen ∨
        ∃ header, decodeFileHeader build ((bytes.drop 8).take headerLen) = .ok header ∧
          ¬ Supported build header.version)

theorem Outcome.orErr_ne_panicked {α : Type} (e : SerializeError) (result : Option α) :
    Outcome.orErr e result ≠ .panicked := by
  cases result <;> simp [Outcome.orErr]

theorem Outcome.bind_ne_panicked {α β : Type} {first : Outcome α} {next : α → Outcome β}
    (firstReturns : first ≠ .panicked) (nextReturns : ∀ a, next a ≠ .panicked) :
    (first >>= next) ≠ .panicked := by
  cases first with
  | ok a => exact nextReturns a
  | err e => simp
  | panicked => exact absurd rfl firstReturns

theorem decodeLegacy_ne_panicked {α : Type} (decode : BincodeFunctions → Bytes → Option α)
    (bytes : Bytes) (version : Nat) : decodeLegacy build decode bytes version ≠ .panicked := by
  unfold decodeLegacy
  split
  · exact Outcome.orErr_ne_panicked _ _
  · simp

theorem decodeFileHeader_ne_panicked (bytes : Bytes) : decodeFileHeader build bytes ≠ .panicked := by
  unfold decodeFileHeader
  split
  · split
    · simp
    · exact Outcome.orErr_ne_panicked _ _
  · exact Outcome.orErr_ne_panicked _ _

private theorem deserializeArchspecBytes_ne_panicked (version : Nat) (bytes : Bytes) :
    deserializeArchspecBytes build version bytes ≠ .panicked := by
  unfold deserializeArchspecBytes
  split
  · exact Outcome.bind_ne_panicked (decodeLegacy_ne_panicked build _ _ _) fun _ => nofun
  · exact Outcome.bind_ne_panicked (decodeLegacy_ne_panicked build _ _ _) fun _ => nofun
  · exact Outcome.bind_ne_panicked (decodeLegacy_ne_panicked build _ _ _) fun _ => nofun
  · exact Outcome.bind_ne_panicked (Outcome.orErr_ne_panicked _ _) fun _ => nofun
  · nofun

/-- No bytes make the reader panic. -/
theorem fromBytes_ne_panicked (bytes : Bytes) : fromBytes build bytes ≠ .panicked := by
  rcases short_or_framed bytes with short | ⟨m₀, m₁, m₂, m₃, a, b, c, d, rest, rfl⟩
  · rw [fromBytes, if_pos short]
    nofun
  · rw [fromBytes_frame]
    split
    · nofun
    · exact Outcome.bind_ne_panicked (decodeFileHeader_ne_panicked build _) fun _ =>
        deserializeArchspecBytes_ne_panicked build _ _

private theorem deserialize_unsupported {version : Nat} (unsupported : ¬ Supported build version)
    (bytes : Bytes) :
    deserializeArchspecBytes build version bytes = .err (.UnsupportedVersion version) := by
  unfold Supported at unsupported
  rw [not_or] at unsupported
  have noLegacy : version ∈ [1, 2, 3] → build.legacy = none := by
    intro mem
    rw [← Option.not_isSome_iff_eq_none]
    exact fun isSome => unsupported.2 ⟨isSome, mem⟩
  unfold deserializeArchspecBytes
  split
  · rw [decodeLegacy, noLegacy (by decide)]
    rfl
  · rw [decodeLegacy, noLegacy (by decide)]
    rfl
  · rw [decodeLegacy, noLegacy (by decide)]
    rfl
  · exact absurd rfl unsupported.1
  · rfl

private theorem fromBytes_refuses {bytes : Bytes} (refusable : Refusable build bytes) :
    ∃ e, fromBytes build bytes = .err e := by
  rcases short_or_framed bytes with short | ⟨m₀, m₁, m₂, m₃, a, b, c, d, rest, rfl⟩
  · exact ⟨.InvalidMagic, if_pos short⟩
  rw [fromBytes_frame]
  split
  · exact ⟨.InvalidMagic, rfl⟩
  rename_i framed
  rw [not_or, not_not] at framed
  rcases refusable with short | otherMagic | ⟨headerLen, isLength, truncated | unsupported⟩
  · simp only [length_cons] at short
    omega
  · exact absurd framed.1 otherMagic
  · obtain rfl : lengthOf a b c d = headerLen := Outcome.ok.inj isLength
    simp only [length_cons] at truncated
    omega
  · obtain rfl : lengthOf a b c d = headerLen := Outcome.ok.inj isLength
    obtain ⟨header, decodes, unsupported⟩ := unsupported
    have decodes : decodeFileHeader build (rest.take (lengthOf a b c d)) = .ok header := decodes
    rw [readBody, decodes, Outcome.ok_bind, deserialize_unsupported build unsupported]
    exact ⟨_, rfl⟩

variable {build}

/-- A specification is read back with its legacy flag following the memory
endianness. -/
theorem fromBytes_toBytes (faithful : build.postcard.Faithful) (arch : ArchSpec)
    (fits : ∀ headerBytes, build.postcard.encodeHeader ⟨FORMAT_VERSION, arch.name⟩ = some headerBytes →
      headerBytes.length < 2 ^ 32) :
    ∃ bytes, toBytes build arch = .ok bytes ∧
      fromBytes build bytes = .ok arch.syncLegacyBigEndian := by
  obtain ⟨headerBytes, headerEncodes, headerDecodes⟩ := faithful.header ⟨FORMAT_VERSION, arch.name⟩
  obtain ⟨archBytes, archEncodes, archDecodes⟩ := faithful.arch arch
  have length := fromLeBytes_toLeBytes (fits headerBytes headerEncodes)
  have isLength : lengthOf (UInt8.ofNat (headerBytes.length % 256))
      (UInt8.ofNat (headerBytes.length / 256 % 256)) (UInt8.ofNat (headerBytes.length / 256 ^ 2 % 256))
      (UInt8.ofNat (headerBytes.length / 256 ^ 3 % 256)) = headerBytes.length :=
    Outcome.ok.inj length
  have header : decodeFileHeader build headerBytes = .ok ⟨FORMAT_VERSION, arch.name⟩ := by
    unfold decodeFileHeader decodeCurrent
    rw [headerDecodes]
    split <;> rfl
  refine ⟨MAGIC ++ toLeBytes headerBytes.length ++ headerBytes ++ archBytes, ?_, ?_⟩
  · rw [toBytes, encodeCurrent, headerEncodes, encodeCurrent, archEncodes]
    rfl
  · refine (fromBytes_frame build _ _ _ _ _ _ _ _ (headerBytes ++ archBytes)).trans ?_
    rw [isLength, if_neg, readBody, take_left, drop_left, header, Outcome.ok_bind]
    · show (decodeCurrent build.postcard.decodeArch archBytes >>= fun arch =>
        pure arch.syncLegacyBigEndian) = _
      rw [decodeCurrent, archDecodes]
      rfl
    · rw [not_or, not_not, length_append]
      exact ⟨rfl, by omega⟩

end Frame

/-- The container as a whole: specifications are read back, reading never
panics, and old payloads keep their fields but for the second layout's legacy
flag. -/
theorem container_correct {build : Build} (faithful : build.postcard.Faithful) :
    (∀ arch : ArchSpec,
      (∀ headerBytes,
        build.postcard.encodeHeader ⟨FORMAT_VERSION, arch.name⟩ = some headerBytes →
          headerBytes.length < 2 ^ 32) →
      ∃ bytes, toBytes build arch = .ok bytes ∧ fromBytes build bytes =
        .ok { arch with bigEndian := arch.memoryEndianness.toLegacyBigEndian }) ∧
    (∀ bytes, fromBytes build bytes ≠ .panicked ∧
      (Refusable build bytes → ∃ e, fromBytes build bytes = .err e)) ∧
    (∀ bincode bytes payload, build.legacy = some bincode → bincode.decodeV1 bytes = some payload →
      ∃ arch, deserializeArchspecBytes build 1 bytes = .ok arch ∧ arch.sharedV1 = payload) ∧
    (∀ bincode bytes payload, build.legacy = some bincode → bincode.decodeV2 bytes = some payload →
      ∃ arch, deserializeArchspecBytes build 2 bytes = .ok arch ∧ arch.sharedV2 =
        { payload with bigEndian := payload.memoryEndianness.toLegacyBigEndian }) := by
  refine ⟨fromBytes_toBytes faithful, ?_, ?_, ?_⟩
  · exact fun bytes => ⟨fromBytes_ne_panicked build bytes, fromBytes_refuses build⟩
  · intro bincode bytes payload isLegacy decodes
    refine ⟨payload.upgrade, ?_, sharedV1_upgrade payload⟩
    rw [deserializeArchspecBytes, decodeLegacy, isLegacy]
    show (Outcome.orErr _ (bincode.decodeV1 bytes) >>= _) = _
    rw [decodes]
    rfl
  · intro bincode bytes payload isLegacy decodes
    refine ⟨payload.upgrade, ?_, sharedV2_upgrade payload⟩
    rw [deserializeArchspecBytes, decodeLegacy, isLegacy]
    show (Outcome.orErr _ (bincode.decodeV2 bytes) >>= _) = _
    rw [decodes]
    rfl

/-- A build without the feature for old files. Postcard ignores what follows. -/
def currentBuild : Build where
  postcard :=
    { encodeHeader := fun header => some (Postcard.fileHeader.encode header)
      decodeHeader := fun bytes => (Postcard.fileHeader.decode bytes).map Prod.fst
      encodeArch := fun arch => some (Postcard.archSpec.encode arch)
      decodeArch := fun bytes => (Postcard.archSpec.decode bytes).map Prod.fst }
  legacy := none

theorem decode_encode_fst {α : Type} (codec : Codec α) (a : α) :
    (codec.decode (codec.encode a)).map Prod.fst = some a := by
  have whole := codec.decode_encode a []
  rw [append_nil] at whole
  rw [whole]
  rfl

private theorem currentBuild_faithful : currentBuild.postcard.Faithful where
  header header := ⟨_, rfl, decode_encode_fst Postcard.fileHeader header⟩
  arch arch := ⟨_, rfl, decode_encode_fst Postcard.archSpec arch⟩

def exampleArch : ArchSpec where
  name := "test-arch"
  variant := "default"
  bigEndian := false
  instructionEndianness := .Little
  memoryEndianness := .Big
  addrSize := 8
  alignment := 1
  spaces := []
  registers := [⟨"RAX", 0, 8, none⟩, ⟨"EAX", 0, 4, some "RAX"⟩]
  registerMap := (AList.insert "RAX" 0 ∅).insert "EAX" 0
  userops := []
  sourceFiles := []

theorem exampleArch_read_back : ∃ bytes, toBytes currentBuild exampleArch = .ok bytes ∧
    fromBytes currentBuild bytes = .ok { exampleArch with bigEndian := true } := by
  refine (container_correct currentBuild_faithful).1 exampleArch ?_
  intro headerBytes encodes
  have isHeader : Codec.encodeNat 4 ++ (Codec.encodeNat 9 ++
      "test-arch".toUTF8.data.toList.flatMap fun b => [b]) = headerBytes := Option.some.inj encodes
  rw [← isHeader, Codec.encodeNat_of_lt (by decide), Codec.encodeNat_of_lt (by decide)]
  decide +kernel

/-- A file of the second layout whose legacy flag contradicts its memory
endianness loses that flag. -/
theorem upgrade_changes_flag : ¬ ∀ payload : ArchSpecV2, payload.upgrade.sharedV2 = payload := by
  intro keeps
  have kept := congrArg ArchSpecV2.bigEndian (keeps
    { name := "arm", variant := "default", bigEndian := true, instructionEndianness := .Big,
      memoryEndianness := .Little, addrSize := 4, alignment := 4, spaces := [], registers := [],
      registerMap := ∅, userops := [], sourceFiles := [] })
  exact absurd kept (by decide)

end R2Sleigh.Format
