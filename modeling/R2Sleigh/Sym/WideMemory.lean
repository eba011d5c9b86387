import R2Sleigh.Sym.MemoryRefines
import R2Sleigh.Sym.WideValues

/-!
Contract: memory accesses of any size.

From the ninth byte on the shift is one by 64 bits or more. Where overflow is checked
it traps; elsewhere the byte is the one eight places before.
-/

namespace R2Sleigh.Sym

open Lib Ssa List Option SymValue

namespace SymMemory

variable {BV Formula Model : Type}

/-- One byte of a word as a write stores it. -/
def shiftedByte (checks : Bool) (word : Word) (i : Nat) : Except Panic Byte :=
  if checks ∧ 64 ≤ i * 8 then .error .shiftOverflow
  else .ok ((word >>> (i * 8 % 64)).setWidth 8)

def shiftedBytes (checks : Bool) (word : Word) : List Nat → Except Panic (List Byte)
  | [] => .ok []
  | i :: rest => do
      let byte ← shiftedByte checks word i
      return byte :: (← shiftedBytes checks word rest)

/-- The loop of a read over the concrete bytes; it ends at a byte that is not known. -/
def gatherBytes (checks : Bool) (mem : SymMemory BV) (addr : Word) :
    List Nat → Word → Except Panic (Option Word)
  | [], value => .ok (some value)
  | i :: rest, value =>
    match mem.concrete.lookup (addr + BitVec.ofNat 64 i) with
    | none => .ok none
    | some byte =>
      if checks ∧ 64 ≤ i * 8 then .error .shiftOverflow
      else gatherBytes checks mem addr rest (value ||| (byte.setWidth 64) <<< (i * 8 % 64))

variable [Z3 BV Formula Model]

/-- A write at a known address. -/
def writeWide (checks : Bool) (mem : SymMemory BV) (addr : SymValue BV) (target : Word)
    (value : SymValue BV) (size : Nat) : Except Panic (SymMemory BV) := do
  let value := adjustBits value (size * 8)
  let bytes ← match value.asConcrete with
    | some word => shiftedBytes checks word (List.range size)
    | none => .ok []
  return { mem with
    concrete := insertBytes mem.concrete target bytes
    symbolicWrites := mem.symbolicWrites ++ [(addr, value, size)] }

/-- A read at a known address. -/
def readWide (checks : Bool) (mem : SymMemory BV) (addr : Word) (size : Nat) :
    Except Panic (SymValue BV) :=
  match mem.loggedRead addr size with
  | some value => .ok value
  | none => do
      match ← gatherBytes checks mem addr (List.range size) 0 with
      | some value => return .ofWord value (size * 8)
      | none => return mem.defaultRead addr size

/-! ## Bytes of wider accesses -/

omit [Z3 BV Formula Model] in
theorem shiftedBytes_unchecked (word : Word) :
    ∀ indices : List Nat, shiftedBytes false word indices =
      .ok (indices.map fun i => (word >>> (i * 8 % 64)).setWidth 8)
  | [] => rfl
  | i :: rest => by
    have runs : ¬ (false = true ∧ 64 ≤ i * 8) := by simp
    rw [shiftedBytes, shiftedByte, if_neg runs, shiftedBytes_unchecked word rest]
    rfl

omit [Z3 BV Formula Model] in
theorem shiftedBytes_checked (word : Word) :
    ∀ indices : List Nat, (∃ i ∈ indices, 8 ≤ i) →
      shiftedBytes true word indices = .error .shiftOverflow
  | [], far => by
    obtain ⟨i, member, -⟩ := far
    cases member
  | i :: rest, far => by
    by_cases large : 8 ≤ i
    · have traps : true = true ∧ 64 ≤ i * 8 := ⟨rfl, by omega⟩
      rw [shiftedBytes, shiftedByte, if_pos traps]
      rfl
    · have runs : ¬ (true = true ∧ 64 ≤ i * 8) := by omega
      have later : ∃ j ∈ rest, 8 ≤ j := by
        obtain ⟨j, member, isLarge⟩ := far
        rcases mem_cons.mp member with rfl | inRest
        · exact absurd isLarge large
        · exact ⟨j, inRest, isLarge⟩
      rw [shiftedBytes, shiftedByte, if_neg runs, shiftedBytes_checked word rest later]
      rfl

/-- One of the bytes of a word. -/
def byteOf (word : Word) (i : Nat) : Byte := (word >>> (i * 8)).setWidth 8

theorem getLsbD_byteOf (word : Word) (i b : Nat) :
    (byteOf word i).getLsbD b = (decide (b < 8) && word.getLsbD (i * 8 + b)) := by
  rw [byteOf, BitVec.getLsbD_setWidth, BitVec.getLsbD_ushiftRight]

omit [Z3 BV Formula Model] in
theorem gatherBytes_known {mem : SymMemory BV} {addr : Word} {bytes : Nat → Byte} :
    ∀ (indices : List Nat) (value : Word),
      (∀ i ∈ indices, mem.concrete.lookup (addr + BitVec.ofNat 64 i) = some (bytes i)) →
      gatherBytes false mem addr indices value = .ok (some (indices.foldl (fun (value : Word) i =>
        value ||| ((bytes i).setWidth 64) <<< (i * 8 % 64)) value))
  | [], _, _ => rfl
  | i :: rest, value, known => by
    have runs : ¬ (false = true ∧ 64 ≤ i * 8) := by simp
    rw [gatherBytes, known i mem_cons_self]
    dsimp only
    rw [if_neg runs, gatherBytes_known rest _ fun j member =>
      known j (mem_cons_of_mem _ member)]
    rfl

private theorem getLsbD_placed (byte : Byte) {i j : Nat} (inside : j < 64) :
    ((byte.setWidth 64) <<< (i * 8 % 64)).getLsbD j =
      (decide (i % 8 = j / 8) && byte.getLsbD (j % 8)) := by
  have place : i * 8 % 64 = i % 8 * 8 := by omega
  rw [place, BitVec.getLsbD_shiftLeft, BitVec.getLsbD_setWidth]
  by_cases same : i % 8 = j / 8
  · have index : j - i % 8 * 8 = j % 8 := by omega
    have reached : ¬ j < i % 8 * 8 := by omega
    have short : j % 8 < 64 := by omega
    rw [index, decide_eq_true inside, decide_eq_false reached, decide_eq_true short,
      decide_eq_true same]
    rfl
  · by_cases reached : j < i % 8 * 8
    · simp [same, reached]
    · have beyond : byte.getLsbD (j - i % 8 * 8) = false := BitVec.getLsbD_of_ge _ _ (by omega)
      simp [same, beyond]

theorem getLsbD_joined (bytes : Nat → Byte) {j : Nat} (inside : j < 64) :
    ∀ (indices : List Nat) (value : Word), (indices.foldl (fun (value : Word) i =>
        value ||| ((bytes i).setWidth 64) <<< (i * 8 % 64)) value).getLsbD j =
      (value.getLsbD j || indices.any fun i => decide (i % 8 = j / 8) && (bytes i).getLsbD (j % 8))
  | [], value => by simp
  | i :: rest, value => by
    rw [foldl_cons, getLsbD_joined bytes inside rest, BitVec.getLsbD_or,
      getLsbD_placed _ inside, any_cons, Bool.or_assoc]

/-- What a read joins of the bytes of a word repeated past its end. -/
def joinedShifted (word : Word) (offset size : Nat) : Word :=
  (List.range size).foldl (fun (value : Word) i => value |||
    (((word >>> ((offset + i) * 8 % 64)).setWidth 8 : Byte).setWidth 64) <<< (i * 8 % 64)) 0

theorem getLsbD_joinedShifted (word : Word) (offset size : Nat) {j : Nat} (inside : j < 64) :
    (joinedShifted word offset size).getLsbD j =
      (decide (j / 8 < size) && word.getLsbD ((offset + j / 8) % 8 * 8 + j % 8)) := by
  rw [joinedShifted, getLsbD_joined (fun i => ((word >>> ((offset + i) * 8 % 64)).setWidth 8 : Byte)) inside]
  have bit : ∀ i, i % 8 = j / 8 →
      ((word >>> ((offset + i) * 8 % 64)).setWidth 8 : Byte).getLsbD (j % 8) =
        word.getLsbD ((offset + j / 8) % 8 * 8 + j % 8) := by
    intro i same
    have place : (offset + i) * 8 % 64 = (offset + j / 8) % 8 * 8 := by omega
    have short : j % 8 < 8 := by omega
    rw [place, BitVec.getLsbD_setWidth, BitVec.getLsbD_ushiftRight]
    simp [short]
  rw [Bool.eq_iff_iff]
  simp only [BitVec.ofNat_eq_ofNat, BitVec.getLsbD_zero, Bool.false_or, List.any_eq_true,
    mem_range, Bool.and_eq_true, decide_eq_true_eq]
  constructor
  · rintro ⟨i, inRead, same, isSet⟩
    rw [bit i same] at isSet
    exact ⟨by omega, isSet⟩
  · rintro ⟨inRead, isSet⟩
    have same : j / 8 % 8 = j / 8 := by omega
    exact ⟨j / 8, inRead, same, by rw [bit _ same]; exact isSet⟩

/-! ## Values of 128 bits -/

section Values

variable {v : SymValue BV}

section

variable (proper : v.Proper)
include proper

private theorem denote_zeroExtend (newBits : Nat) (m : Model) :
    (v.zeroExtend newBits).denote m = v.denote m := by
  unfold zeroExtend
  split
  · rfl
  · rename_i longer
    cases v with
    | concrete word own taint =>
      have fits : word.toNat < 2 ^ own := proper.2 word rfl
      have longer : ¬ newBits ≤ own := longer
      have wider := lt_of_lt_of_le fits (Nat.pow_le_pow_right (by decide) (by omega : own ≤ newBits))
      simp only [denote, Nat.mod_eq_of_lt fits, Nat.mod_eq_of_lt wider]
    | symbolic ast own taint => exact congrArg some (Z3.value_zeroExt m _ _)
    | unknown own taint => rfl

theorem denote_adjustBits {bits : Nat} (positive : 1 ≤ bits) (m : Model) :
    (adjustBits v bits).denote m = (v.denote m).map (· % 2 ^ bits) := by
  have unchanged : v.bits ≤ bits → v.denote m = (v.denote m).map (· % 2 ^ bits) := by
    intro le
    cases denotes : v.denote m with
    | none => rfl
    | some x =>
      have below := lt_of_lt_of_le (denote_lt proper.1 denotes)
        (Nat.pow_le_pow_right (by decide) le)
      rw [map_some, Nat.mod_eq_of_lt below]
  unfold adjustBits
  split_ifs with same narrower
  · exact unchanged (Nat.le_of_eq same)
  · rw [denote_zeroExtend proper, ← unchanged (Nat.le_of_lt narrower)]
  · rw [denote_extract proper.1 (Nat.zero_le _) (by omega)]
    simp only [Nat.pow_zero, Nat.div_one, Nat.sub_zero, Nat.sub_add_cancel positive]

theorem proper_extract {high low : Nat} (ordered : low ≤ high)
    (inside : high < v.bits) : (v.extract high low).Proper := by
  refine ⟨proper.1.extract ordered inside, fun word isWord => ?_⟩
  rw [bits_extract ordered inside]
  rw [extract_eq ordered inside] at isWord
  cases v with
  | concrete value own taint =>
    dsimp only at isWord
    split at isWord
    · cases isWord
    · obtain rfl := some.inj isWord
      rw [toNat_shift_and_lowMask value (by omega)]
      exact Nat.mod_lt _ (Nat.two_pow_pos _)
  | symbolic | unknown => cases isWord

private theorem proper_adjustBits {bits : Nat} (positive : 1 ≤ bits) :
    (adjustBits v bits).Proper := by
  refine ⟨wellSorted_adjustBits proper.1 positive, ?_⟩
  unfold adjustBits
  split_ifs with same narrower
  · exact proper.2
  · intro word isWord
    rw [bits_zeroExtend (Nat.le_of_lt narrower)]
    have longer : ¬ bits ≤ v.bits := Nat.not_le.mpr narrower
    simp only [zeroExtend, if_neg longer] at isWord
    cases v with
    | concrete value own taint =>
      exact lt_of_lt_of_le (proper.2 word isWord)
        (Nat.pow_le_pow_right (by decide) (Nat.le_of_lt narrower))
    | symbolic | unknown => cases isWord
  · exact (proper_extract proper (Nat.zero_le _) (by omega)).2

private theorem slice_wide {writeAddr addr : Word} {writeSize size : Nat}
    (width : v.bits = writeSize * 8) (covered : Covers writeAddr writeSize addr size)
    (positive : 1 ≤ size) :
    (slice v writeAddr writeSize addr size).Proper ∧
      (slice v writeAddr writeSize addr size).bits = size * 8 ∧
      ∀ m : Model, (slice v writeAddr writeSize addr size).denote m =
        (v.denote m).map fun x =>
          x / 2 ^ ((addr.toNat - writeAddr.toNat) * 8) % 2 ^ (size * 8) := by
  obtain ⟨-, -, starts, ends⟩ := covered
  unfold slice
  dsimp only
  split_ifs with whole
  · refine ⟨proper, by rw [width, whole.2], fun m => ?_⟩
    cases denotes : v.denote m with
    | none => rfl
    | some x =>
      have below := denote_lt proper.1 denotes
      rw [width, whole.2] at below
      rw [map_some, whole.1, Nat.zero_mul, Nat.pow_zero, Nat.div_one, Nat.mod_eq_of_lt below]
  · have ordered : (addr.toNat - writeAddr.toNat) * 8 ≤
        (addr.toNat - writeAddr.toNat) * 8 + size * 8 - 1 := by omega
    have inside : (addr.toNat - writeAddr.toNat) * 8 + size * 8 - 1 < v.bits := by omega
    have span : (addr.toNat - writeAddr.toNat) * 8 + size * 8 - 1 -
        (addr.toNat - writeAddr.toNat) * 8 + 1 = size * 8 := by omega
    refine ⟨proper_extract proper ordered inside, ?_, fun m => ?_⟩
    · rw [bits_extract ordered inside, span]
    · rw [denote_extract proper.1 ordered inside, span]

end

end Values

/-! ## A read of a write of 16 bytes -/

section ReadBack

variable {checks : Bool} {mem : SymMemory BV} {value : SymValue BV} {addr : Word}

def wideBytes (value : SymValue BV) (size : Nat) : List Byte :=
  match value.asConcrete with
  | some word => (List.range size).map fun i => (word >>> (i * 8 % 64)).setWidth 8
  | none => []

/-- What a write that does not trap leaves. -/
def writtenWide (mem : SymMemory BV) (addr : Word) (value : SymValue BV) (size : Nat) :
    SymMemory BV :=
  { mem with
    concrete := insertBytes mem.concrete addr (wideBytes (adjustBits value (size * 8)) size)
    symbolicWrites := mem.symbolicWrites ++ [(.ofWord addr 64, adjustBits value (size * 8), size)] }

theorem writeWide_eq {size : Nat}
    (returns : checks = false ∨ (adjustBits value (size * 8)).asConcrete = none) :
    writeWide checks mem (.ofWord addr 64) addr value size =
      .ok (writtenWide mem addr value size) := by
  unfold writeWide writtenWide wideBytes
  dsimp only
  cases isConcrete : (adjustBits value (size * 8)).asConcrete with
  | none => rfl
  | some word =>
    rw [isConcrete] at returns
    obtain rfl : checks = false := returns.resolve_right (by simp)
    dsimp only
    rw [shiftedBytes_unchecked]
    rfl

private theorem writeWide_traps {size : Nat} {word : Word}
    (isConcrete : (adjustBits value (size * 8)).asConcrete = some word) (wide : 8 < size) :
    writeWide true mem (.ofWord addr 64) addr value size = .error .shiftOverflow := by
  unfold writeWide
  dsimp only
  rw [isConcrete]
  dsimp only
  rw [shiftedBytes_checked word _ ⟨8, mem_range.mpr wide, Nat.le_refl 8⟩]
  rfl

theorem loggedRead_writtenWide {start : Word} {size readSize : Nat} :
    (writtenWide mem addr value size).loggedRead start readSize =
      if Covers addr size start readSize then
        some (slice (adjustBits value (size * 8)) addr size start readSize)
      else mem.loggedRead start readSize := by
  have newest : takenFrom start readSize
      ((.ofWord addr 64 : SymValue BV), adjustBits value (size * 8), size) =
        if Covers addr size start readSize then
          some (slice (adjustBits value (size * 8)) addr size start readSize)
        else none := rfl
  unfold loggedRead writtenWide
  rw [reverse_append, reverse_singleton, singleton_append, List.findSome?_cons, newest]
  split_ifs <;> rfl

/-- A read of part of a 16-byte write returns, and a constant it returns is that part
of the value, whatever the memory held before. -/
def ReadBackExact (checks : Bool) (value : SymValue BV) (addr : Word)
    (offset size : Nat) : Prop :=
  ∀ mem : SymMemory BV, ∃ v,
    (writeWide checks mem (.ofWord addr 64) addr value 16 >>= fun mem' =>
      readWide checks mem' (addr + BitVec.ofNat 64 offset) size) = .ok v ∧
    ∀ word bits taint, v = .concrete word bits taint → bits = size * 8 ∧
      ∀ m : Model, (value.denote m).map (fun x => x % 2 ^ 128 / 2 ^ (offset * 8) % 2 ^ (size * 8)) =
        some word.toNat

/-- The write is found in the log. Or it is of a constant, the read ends past the last
address, where only the map is asked, and the bytes repeated from the ninth on are 0. -/
def StoredWide (checks : Bool) (value : SymValue BV) (addr : Word)
    (offset size : Nat) : Prop :=
  match (adjustBits value 128).asConcrete with
  | none => addr.toNat + 16 < 2 ^ 64
  | some word => checks = false ∧
      (addr.toNat + 16 < 2 ^ 64 ∨
        2 ^ 64 ≤ (addr + BitVec.ofNat 64 offset).toNat + size ∧
          ∀ i < size, i < 8 → 8 ≤ offset + i → byteOf word (offset + i - 8) = 0)

variable {offset size : Nat}

theorem readBack_covered (proper : value.Proper) (positive : 1 ≤ size)
    (inside : offset + size ≤ 16) (below : addr.toNat + 16 < 2 ^ 64)
    (returns : checks = false ∨ (adjustBits value 128).asConcrete = none) :
    ReadBackExact checks value addr offset size := by
  intro mem
  have start : (addr + BitVec.ofNat 64 offset).toNat = addr.toNat + offset := by
    rw [BitVec.toNat_add, BitVec.toNat_ofNat, Nat.mod_eq_of_lt (by omega : offset < 2 ^ 64),
      Nat.mod_eq_of_lt (by omega)]
  have covered : Covers addr 16 (addr + BitVec.ofNat 64 offset) size := by
    refine ⟨below, ?_, ?_, ?_⟩ <;> rw [start] <;> omega
  have adjusted : (adjustBits value 128).Proper := proper_adjustBits proper (by decide)
  have width : (adjustBits value 128).bits = 16 * 8 := bits_adjustBits (by decide)
  obtain ⟨sliced, bits, denotes⟩ := slice_wide adjusted width covered positive
  refine ⟨slice (adjustBits value 128) addr 16 (addr + BitVec.ofNat 64 offset) size, ?_, ?_⟩
  · have logged : (writtenWide mem addr value 16).loggedRead (addr + BitVec.ofNat 64 offset) size =
        some (slice (adjustBits value 128) addr 16 (addr + BitVec.ofNat 64 offset) size) := by
      rw [loggedRead_writtenWide, if_pos covered]
    rw [writeWide_eq returns]
    show readWide _ _ _ _ = _
    unfold readWide
    rw [logged]
  · intro word own taint isConcrete
    rw [isConcrete] at sliced bits denotes
    refine ⟨bits, fun m => ?_⟩
    have known := denotes m
    have fits : word.toNat < 2 ^ own := sliced.2 word rfl
    rw [denote_adjustBits proper (by decide), Option.map_map, start,
      Nat.add_sub_cancel_left] at known
    simp only [denote, Nat.mod_eq_of_lt fits] at known
    exact known.symm

/-! ## A write that the log does not give back -/

omit [Z3 BV Formula Model] in
theorem not_covers_of_end {start : Word} {writeAddr : Word} {writeSize : Nat}
    (atEnd : 2 ^ 64 ≤ writeAddr.toNat + writeSize ∨ 2 ^ 64 ≤ start.toNat + size) :
    ¬ Covers writeAddr writeSize start size := by
  rintro ⟨writeBelow, readBelow, -, -⟩
  omega

theorem loggedRead_end {start : Word} (atEnd : 2 ^ 64 ≤ start.toNat + size) :
    mem.loggedRead start size = none := by
  unfold loggedRead
  rw [List.findSome?_eq_none_iff]
  intro write member
  unfold takenFrom
  cases write.1.asConcrete with
  | none => rfl
  | some writeAddr => exact if_neg (not_covers_of_end (.inr atEnd))

theorem readBack_eq {start : Word} (returns : checks = false ∨
      (adjustBits value 128).asConcrete = none) (outside : 2 ^ 64 ≤ addr.toNat + 16) :
    (writeWide checks mem (.ofWord addr 64) addr value 16 >>= fun mem' =>
      readWide checks mem' start size) =
      match mem.loggedRead start size with
      | some old => .ok old
      | none => (do
          match ← gatherBytes checks (writtenWide mem addr value 16) start
              (List.range size) 0 with
          | some word => return .ofWord word (size * 8)
          | none => return (writtenWide mem addr value 16).defaultRead start size) := by
  rw [writeWide_eq returns]
  show readWide _ _ _ _ = _
  unfold readWide
  rw [loggedRead_writtenWide, if_neg (not_covers_of_end (.inl outside))]

theorem not_readBack_of_older (outside : 2 ^ 64 ≤ addr.toNat + 16)
    (returns : checks = false ∨ (adjustBits value 128).asConcrete = none)
    (below : (addr + BitVec.ofNat 64 offset).toNat + size < 2 ^ 64) :
    ¬ ReadBackExact checks value addr offset size := by
  intro exact
  obtain ⟨m, -⟩ := @Z3.exists_model BV Formula Model _ fun _ _ => 0
  have holdsOld : ∀ word : Word, (value.denote m).map
      (fun x => x % 2 ^ 128 / 2 ^ (offset * 8) % 2 ^ (size * 8)) = some word.toNat := by
    intro word
    obtain ⟨v, ran, same⟩ := exact ⟨∅,
      [(.ofWord (addr + BitVec.ofNat 64 offset) 64, .ofWord word (size * 8), size)], false, 256⟩
    have logged : (⟨∅, [(.ofWord (addr + BitVec.ofNat 64 offset) 64, .ofWord word (size * 8),
        size)], false, 256⟩ : SymMemory BV).loggedRead (addr + BitVec.ofNat 64 offset) size =
          some (.ofWord word (size * 8)) := by
      have covered : Covers (addr + BitVec.ofNat 64 offset) size
          (addr + BitVec.ofNat 64 offset) size := ⟨below, below, Nat.le_refl _, Nat.le_refl _⟩
      have taken : takenFrom (addr + BitVec.ofNat 64 offset) size
          ((.ofWord (addr + BitVec.ofNat 64 offset) 64 : SymValue BV), .ofWord word (size * 8),
            size) = some (.ofWord word (size * 8)) := by
        show (if Covers (addr + BitVec.ofNat 64 offset) size (addr + BitVec.ofNat 64 offset) size
          then some (slice (.ofWord word (size * 8) : SymValue BV) (addr + BitVec.ofNat 64 offset)
            size (addr + BitVec.ofNat 64 offset) size) else none) = _
        rw [if_pos covered, slice]
        simp
      unfold loggedRead
      rw [reverse_singleton, List.findSome?_cons, taken]
    rw [readBack_eq returns outside, logged] at ran
    exact (same word _ _ (Except.ok.inj ran).symm).2 m
  have differ := (holdsOld 0).symm.trans (holdsOld 1)
  simp at differ

omit [Z3 BV Formula Model] in
theorem gatherBytes_ne_none {start : Word} :
    ∀ (indices : List Nat) (word : Word),
      (∀ i ∈ indices, (mem.concrete.lookup (start + BitVec.ofNat 64 i)).isSome) →
      gatherBytes checks mem start indices word ≠ .ok none
  | [], _, _ => by simp [gatherBytes]
  | i :: rest, word, known => by
    have byteKnown := known i mem_cons_self
    have later := fun word => gatherBytes_ne_none rest word fun j member =>
      known j (mem_cons_of_mem _ member)
    unfold gatherBytes
    cases found : mem.concrete.lookup (start + BitVec.ofNat 64 i) with
    | none => simp [found] at byteKnown
    | some byte =>
      dsimp only
      split_ifs
      · simp
      · exact later _

omit [Z3 BV Formula Model] in
theorem getLsbD_gatherBytes {start word : Word} :
    ∀ (indices : List Nat) (value : Word), value.getLsbD 0 = true →
      gatherBytes checks mem start indices value = .ok (some word) →
      word.getLsbD 0 = true
  | [], value, isSet, gathered => by
    obtain rfl : value = word := some.inj (Except.ok.inj gathered)
    exact isSet
  | i :: rest, value, isSet, gathered => by
    unfold gatherBytes at gathered
    cases found : mem.concrete.lookup (start + BitVec.ofNat 64 i) with
    | none => simp [found] at gathered
    | some byte =>
      rw [found] at gathered
      dsimp only at gathered
      split_ifs at gathered
      refine getLsbD_gatherBytes rest _ ?_ gathered
      rw [BitVec.getLsbD_or, isSet, Bool.true_or]

/-- Where the log gives nothing back, bytes of an older memory are read. -/
theorem not_readBack_of_term (positive : 1 ≤ size) (outside : 2 ^ 64 ≤ addr.toNat + 16)
    (noConstant : (adjustBits value 128).asConcrete = none)
    (atEnd : 2 ^ 64 ≤ (addr + BitVec.ofNat 64 offset).toNat + size) (small : size ≤ 16) :
    ¬ ReadBackExact checks value addr offset size := by
  intro exact
  obtain ⟨m, -⟩ := @Z3.exists_model BV Formula Model _ fun _ _ => 0
  have unwritten : ∀ mem : SymMemory BV,
      (writtenWide mem addr value 16).concrete = mem.concrete := by
    intro mem
    show insertBytes mem.concrete addr (wideBytes (adjustBits value 128) 16) = _
    rw [wideBytes, noConstant]
    rfl
  have zero : (value.denote m).map
      (fun x => x % 2 ^ 128 / 2 ^ (offset * 8) % 2 ^ (size * 8)) = some 0 := by
    obtain ⟨v, ran, same⟩ := exact ⟨∅, [], false, 256⟩
    obtain ⟨less, rfl⟩ : ∃ less, size = less + 1 := ⟨size - 1, by omega⟩
    rw [readBack_eq (.inr noConstant) outside, loggedRead_end atEnd, range_succ_eq_map,
      gatherBytes, unwritten] at ran
    exact (same 0 _ _ (Except.ok.inj ran).symm).2 m
  obtain ⟨v, ran, same⟩ := exact
    ⟨insertBytes ∅ (addr + BitVec.ofNat 64 offset) (List.replicate size 1), [], false, 256⟩
  have known : ∀ i < size, (insertBytes ∅ (addr + BitVec.ofNat 64 offset)
      (List.replicate size (1 : Byte))).lookup (addr + BitVec.ofNat 64 offset + BitVec.ofNat 64 i) =
        some 1 := by
    intro i inRead
    have distance : (addr + BitVec.ofNat 64 offset + BitVec.ofNat 64 i -
        (addr + BitVec.ofNat 64 offset)).toNat = i := (eq_add_ofNat_iff (by omega)).mp rfl
    rw [lookup_insertBytes _ _ _ (by rw [length_replicate]; omega), distance,
      List.getElem?_replicate, if_pos inRead]
    rfl
  rw [readBack_eq (.inr noConstant) outside, loggedRead_end atEnd] at ran
  cases gathered : gatherBytes checks (writtenWide
      ⟨insertBytes ∅ (addr + BitVec.ofNat 64 offset) (List.replicate size 1), [], false, 256⟩
      addr value 16) (addr + BitVec.ofNat 64 offset) (List.range size) 0 with
  | error panic =>
    rw [gathered] at ran
    cases ran
  | ok found =>
    cases found with
    | none =>
      refine gatherBytes_ne_none _ _ (fun i member => ?_) gathered
      rw [unwritten, known i (mem_range.mp member)]
      rfl
    | some word =>
      rw [gathered] at ran
      have isZero := (same word _ _ (Except.ok.inj ran).symm).2 m
      rw [zero] at isZero
      -- The first byte sets the lowest bit.
      have isSet : word.getLsbD 0 = true := by
        obtain ⟨less, rfl⟩ : ∃ less, size = less + 1 := ⟨size - 1, by omega⟩
        rw [range_succ_eq_map, gatherBytes, unwritten, known 0 (Nat.succ_pos less)] at gathered
        have noTrap : ¬ (checks = true ∧ 64 ≤ 0 * 8) := by omega
        dsimp only at gathered
        rw [if_neg noTrap] at gathered
        exact getLsbD_gatherBytes _ _ (by decide) gathered
      have isNothing : word = 0 := BitVec.eq_of_toNat_eq (some.inj isZero).symm
      rw [isNothing] at isSet
      cases isSet

/-- The bytes a read past the end finds, against the exact ones. -/
theorem readBack_end_iff {word : Word} (proper : value.Proper)
    (isConcrete : (adjustBits value 128).asConcrete = some word)
    (positive : 1 ≤ size) (inside : offset + size ≤ 16) (outside : 2 ^ 64 ≤ addr.toNat + 16)
    (atEnd : 2 ^ 64 ≤ (addr + BitVec.ofNat 64 offset).toNat + size) :
    ReadBackExact false value addr offset size ↔
      ∀ i < size, i < 8 → 8 ≤ offset + i → byteOf word (offset + i - 8) = 0 := by
  have denotes : ∀ m : Model, (value.denote m).map (· % 2 ^ 128) = some word.toNat := by
    intro m
    rw [← denote_adjustBits proper (by decide)]
    cases adjusted : adjustBits value 128 with
    | concrete own bits taint =>
      rw [adjusted] at isConcrete
      obtain rfl : own = word := some.inj isConcrete
      have width : (adjustBits value 128).bits = 128 := bits_adjustBits (by decide)
      rw [adjusted] at width
      obtain rfl : bits = 128 := width
      exact congrArg some (Nat.mod_eq_of_lt (own.isLt.trans (by decide)))
    | symbolic | unknown => simp [adjusted, asConcrete] at isConcrete
  have wanted : ∀ (m : Model) (found : Nat), (value.denote m).map
      (fun x => x % 2 ^ 128 / 2 ^ (offset * 8) % 2 ^ (size * 8)) = some found ↔
        word.toNat / 2 ^ (offset * 8) % 2 ^ (size * 8) = found := by
    intro m found
    have mapped := congrArg (Option.map fun x => x / 2 ^ (offset * 8) % 2 ^ (size * 8)) (denotes m)
    rw [Option.map_map] at mapped
    rw [show (value.denote m).map (fun x => x % 2 ^ 128 / 2 ^ (offset * 8) % 2 ^ (size * 8)) =
      some (word.toNat / 2 ^ (offset * 8) % 2 ^ (size * 8)) from mapped, some_inj]
  have known : ∀ mem : SymMemory BV, ∀ i ∈ List.range size,
      (writtenWide mem addr value 16).concrete.lookup
        (addr + BitVec.ofNat 64 offset + BitVec.ofNat 64 i) =
          some ((word >>> ((offset + i) * 8 % 64)).setWidth 8) := by
    intro mem i member
    have inRead := mem_range.mp member
    have place : addr + BitVec.ofNat 64 offset + BitVec.ofNat 64 i =
        addr + BitVec.ofNat 64 (offset + i) := by
      rw [add_assoc, ← BitVec.ofNat_add]
    have distance : (addr + BitVec.ofNat 64 (offset + i) - addr).toNat = offset + i :=
      (eq_add_ofNat_iff (by omega)).mp rfl
    show (insertBytes mem.concrete addr (wideBytes (adjustBits value 128) 16)).lookup _ = _
    rw [wideBytes, isConcrete]
    rw [place, lookup_insertBytes _ _ _ (by simp), distance, List.getElem?_map,
      List.getElem?_range (by omega)]
    rfl
  have ran : ∀ mem : SymMemory BV,
      (writeWide false mem (.ofWord addr 64) addr value 16 >>= fun mem' =>
        readWide false mem' (addr + BitVec.ofNat 64 offset) size) =
          .ok (.ofWord (joinedShifted word offset size) (size * 8)) := by
    intro mem
    rw [readBack_eq (.inl rfl) outside, loggedRead_end atEnd,
      @gatherBytes_known BV _ _ (fun i => (word >>> ((offset + i) * 8 % 64)).setWidth 8) _ _
        (known mem)]
    rfl
  have exactIff : ReadBackExact false value addr offset size ↔
      word.toNat / 2 ^ (offset * 8) % 2 ^ (size * 8) = (joinedShifted word offset size).toNat := by
    constructor
    · intro exact
      obtain ⟨m, -⟩ := @Z3.exists_model BV Formula Model _ fun _ _ => 0
      obtain ⟨v, read, same⟩ := exact ⟨∅, [], false, 256⟩
      rw [ran] at read
      exact (wanted m _).mp ((same _ _ _ (Except.ok.inj read).symm).2 m)
    · intro equal mem
      refine ⟨_, ran mem, fun found bits taint isWord => ?_⟩
      obtain ⟨rfl, rfl, -⟩ := concrete.inj isWord
      exact ⟨by rw [normalizeBvBits]; omega, fun m => (wanted m _).mpr equal⟩
  rw [exactIff]
  constructor
  · intro equal i inRead small repeated
    apply BitVec.eq_of_getLsbD_eq
    intro b inByte
    have place : (offset + (i * 8 + b) / 8) % 8 * 8 + (i * 8 + b) % 8 =
        (offset + i - 8) * 8 + b := by omega
    have bit := congrArg (Nat.testBit · (i * 8 + b)) equal
    simp only [Nat.testBit_mod_two_pow, Nat.testBit_div_two_pow, BitVec.testBit_toNat] at bit
    rw [getLsbD_joinedShifted word offset size (by omega), place, BitVec.getLsbD_of_ge word _
      (by omega), Bool.and_false, decide_eq_true (by omega : (i * 8 + b) / 8 < size),
      Bool.true_and] at bit
    rw [getLsbD_byteOf, ← bit, Bool.and_false, BitVec.ofNat_eq_ofNat, BitVec.getLsbD_zero]
  · intro nothing
    apply Nat.eq_of_testBit_eq
    intro j
    rw [Nat.testBit_mod_two_pow, Nat.testBit_div_two_pow, BitVec.testBit_toNat,
      BitVec.testBit_toNat, Nat.add_comm j]
    by_cases inWord : j < 64
    · have reaches : j < size * 8 ↔ j / 8 < size := by omega
      rw [getLsbD_joinedShifted word offset size inWord, decide_eq_decide.mpr reaches]
      by_cases inRead : j / 8 < size
      · by_cases repeated : 8 ≤ offset + j / 8
        · have place : (offset + j / 8) % 8 * 8 + j % 8 = (offset + j / 8 - 8) * 8 + j % 8 := by
            omega
          have bit := congrArg (BitVec.getLsbD · (j % 8))
            (nothing (j / 8) inRead (by omega) repeated)
          simp only [getLsbD_byteOf, BitVec.ofNat_eq_ofNat, BitVec.getLsbD_zero,
            decide_eq_true (by omega : j % 8 < 8), Bool.true_and] at bit
          rw [place, bit, BitVec.getLsbD_of_ge word _ (by omega)]
        · have place : (offset + j / 8) % 8 * 8 + j % 8 = offset * 8 + j := by omega
          rw [place]
      · rw [decide_eq_false inRead, Bool.false_and, Bool.false_and]
    · rw [BitVec.getLsbD_of_ge _ _ (by omega), BitVec.getLsbD_of_ge _ _ (by omega), Bool.and_false]

private theorem readBackExact_iff (proper : value.Proper) (positive : 1 ≤ size)
    (inside : offset + size ≤ 16) :
    ReadBackExact checks value addr offset size ↔
      StoredWide checks value addr offset size := by
  unfold StoredWide
  cases isConcrete : (adjustBits value 128).asConcrete with
  | none =>
    by_cases below : addr.toNat + 16 < 2 ^ 64
    · exact iff_of_true (readBack_covered proper positive inside below (.inr isConcrete)) below
    · refine iff_of_false ?_ below
      have outside := Nat.le_of_not_lt below
      by_cases atEnd : 2 ^ 64 ≤ (addr + BitVec.ofNat 64 offset).toNat + size
      · exact not_readBack_of_term positive outside isConcrete atEnd (by omega)
      · exact not_readBack_of_older outside (.inr isConcrete) (Nat.lt_of_not_le atEnd)
  | some word =>
    dsimp only
    cases checks with
    | true =>
      refine iff_of_false (fun exact => ?_) (by simp)
      obtain ⟨v, ran, -⟩ := exact ⟨∅, [], false, 256⟩
      rw [writeWide_traps isConcrete (by decide)] at ran
      cases ran
    | false =>
      rw [and_iff_right rfl]
      by_cases below : addr.toNat + 16 < 2 ^ 64
      · exact iff_of_true (readBack_covered proper positive inside below (.inl rfl)) (.inl below)
      · rw [or_iff_right below]
        have outside := Nat.le_of_not_lt below
        by_cases atEnd : 2 ^ 64 ≤ (addr + BitVec.ofNat 64 offset).toNat + size
        · rw [and_iff_right atEnd]
          exact readBack_end_iff proper isConcrete positive inside outside atEnd
        · exact iff_of_false
            (not_readBack_of_older outside (.inl rfl) (Nat.lt_of_not_le atEnd))
            fun both => atEnd both.1

end ReadBack

end SymMemory

/-! ## Values of any width -/

/-- Operations and 16-byte writes on values of any width. An operand that is no constant
never gives a constant; otherwise a constant is exact just where the operation keeps what
it needs; and a write is read back exactly just where it is stored. -/
theorem wide_exact_iff {BV Formula Model : Type} [Z3Arith BV Formula Model] (checks : Bool) :
    (∀ op : WideOp (SymValue BV), (∃ v ∈ op.operands, v.isConcrete = false) →
      NeverConcrete (op.run checks)) ∧
    (∀ op : WideOp Constant,
      ExactIfConcrete ((op.map (Constant.concrete : Constant → SymValue BV)).run checks)
        op.width op.exact ↔ op.Kept checks) ∧
    ∀ (value : SymValue BV) (addr : Word) (offset size : Nat), value.Proper → 1 ≤ size →
      offset + size ≤ 16 →
      (SymMemory.ReadBackExact checks value addr offset size ↔
        SymMemory.StoredWide checks value addr offset size) :=
  ⟨WideOp.neverConcrete checks, WideOp.exactIfConcrete_iff checks,
    fun _ _ _ _ proper positive inside => SymMemory.readBackExact_iff proper positive inside⟩

def vectorRegister : SymValue Term := .newSymbolic "xmm0" 128

private theorem proper_vectorRegister : vectorRegister.Proper :=
  ⟨⟨by decide, rfl⟩, fun _ isWord => by cases isWord⟩

/-- The upper half of a 16-byte write of a term is read back. -/
theorem vectorRegister_upperHalf : SymMemory.ReadBackExact true vectorRegister 0x1000 8 8 :=
  ((wide_exact_iff true).2.2 _ _ _ _ proper_vectorRegister (by decide) (by decide)).mpr (by
    show (0x1000 : Word).toNat + 16 < 2 ^ 64
    decide)

/-- The largest word and one, as 128-bit constants. -/
def carryingSum : WideOp Constant :=
  .fold (.binary .add ⟨BitVec.allOnes 64, 128, 0, by decide, by decide⟩
    ⟨1, 128, 0, by decide, by decide⟩)

/-- The carry out of a word is lost: the sum is the constant 0. -/
theorem carryingSum_truncated : carryingSum.exact = 2 ^ 64 ∧ ∀ checks : Bool,
    ¬ ExactIfConcrete ((carryingSum.map
      (Constant.concrete : Constant → SymValue Term)).run checks)
      carryingSum.width carryingSum.exact := by
  have sum : carryingSum.exact = 2 ^ 64 := by decide
  refine ⟨sum, fun checks exact => ?_⟩
  obtain ⟨v, n', ran, same⟩ := exact 0
  obtain ⟨rfl, -⟩ := Prod.mk.inj (Except.ok.inj ran)
  have found := (same 0 128 0 rfl).2
  exact absurd found (by decide)

end R2Sleigh.Sym
