import Mathlib.Data.List.TakeWhile
import Mathlib.Tactic.IntervalCases
import R2Sleigh.Sym.Memory

/-!
Contract: the memory of the symbolic engine against byte memory, at concrete
addresses.

Owns `MemoryOp`, `Refines` and `Faithful`.
-/

namespace R2Sleigh.Sym

open Lib Ssa List Option

variable {BV Formula Model : Type} [Z3 BV Formula Model]

open SymMemory

/-! ## The concrete map -/

namespace SymMemory

/-- Every logged value has the width it was written with. -/
def Sized (mem : SymMemory BV) : Prop :=
  ∀ write ∈ mem.symbolicWrites, write.2.1.WellSorted ∧ write.2.1.bits = write.2.2 * 8

variable {addr x : Word} {i size : Nat} {byte : Byte} {m : Model}

theorem eq_add_ofNat_iff (small : i < 2 ^ 64) :
    x = addr + BitVec.ofNat 64 i ↔ (x - addr).toNat = i := by
  constructor
  · rintro rfl
    simpa using small
  · intro distance
    have back : BitVec.ofNat 64 i = x - addr := by
      rw [← distance, BitVec.ofNat_toNat, BitVec.setWidth_eq]
    rw [back, add_sub_cancel]

theorem lookup_insertBytes (concrete : HashMap Word Byte) (addr x : Word) {bytes : List Byte}
    (small : bytes.length ≤ 2 ^ 64) :
    (insertBytes concrete addr bytes).lookup x =
      (bytes[(x - addr).toNat]?).or (concrete.lookup x) := by
  induction bytes using List.reverseRecOn with
  | nil => simp [insertBytes]
  | append_singleton rest last ih =>
    rw [length_append, length_singleton] at small
    have before := ih (by omega)
    unfold insertBytes at before ⊢
    rw [zipIdx_append, foldl_append]
    simp only [zipIdx_cons, zipIdx_nil, foldl_cons, foldl_nil, Nat.zero_add]
    by_cases same : x = addr + BitVec.ofNat 64 rest.length
    · have distance := (eq_add_ofNat_iff (by omega)).mp same
      rw [← same, AList.lookup_insert, distance]
      simp
    · have distance := mt (eq_add_ofNat_iff (by omega)).mpr same
      rw [AList.lookup_insert_ne same, before, List.getElem?_append]
      split
      · rfl
      · rw [List.getElem?_eq_none (by omega), List.getElem?_eq_none (by rw [length_singleton]; omega)]

theorem getElem?_wordBytes (value : Word) (size i : Nat) :
    (wordBytes value size)[i]? =
      if i < size then some ((value >>> (i * 8)).setWidth 8) else none := by
  unfold wordBytes
  rw [List.getElem?_map]
  split
  · rename_i inside
    rw [List.getElem?_range inside]
    rfl
  · rename_i outside
    rw [List.getElem?_eq_none (by simpa using outside)]
    rfl

/-! ## Words of concrete bytes -/

private theorem toNat_or_shiftLeft {value : Word} {k : Nat}
    (below : value.toNat < 2 ^ (k * 8)) (small : k < 8) :
    (value ||| (byte.setWidth 64).shiftLeft (k * 8)).toNat =
      2 ^ (k * 8) * byte.toNat + value.toNat := by
  have byteBound := byte.isLt
  have shiftBound : byte.toNat * 2 ^ (k * 8) < 2 ^ 64 := by
    calc byte.toNat * 2 ^ (k * 8) < 2 ^ 8 * 2 ^ (k * 8) :=
          Nat.mul_lt_mul_of_pos_right byteBound (Nat.two_pow_pos _)
      _ = 2 ^ (8 + k * 8) := (Nat.pow_add _ _ _).symm
      _ ≤ 2 ^ 64 := Nat.pow_le_pow_right (by decide) (by omega)
  have shifted : ((byte.setWidth 64).shiftLeft (k * 8)).toNat = 2 ^ (k * 8) * byte.toNat := by
    change (byte.setWidth 64 <<< (k * 8)).toNat = _
    rw [BitVec.toNat_shiftLeft, BitVec.toNat_setWidth, Nat.shiftLeft_eq,
      Nat.mod_eq_of_lt (byteBound.trans (by decide)), Nat.mod_eq_of_lt shiftBound, Nat.mul_comm]
  rw [BitVec.toNat_or, shifted, Nat.or_comm, ← Nat.two_pow_add_eq_or_of_lt below]

private theorem digit_of_add {value byte k : Nat} (below : value < 2 ^ (k * 8)) (inside : i < k + 1)
    (byteBound : byte < 2 ^ 8) : (2 ^ (k * 8) * byte + value) / 2 ^ (i * 8) % 2 ^ 8 =
      if i = k then byte else value / 2 ^ (i * 8) % 2 ^ 8 := by
  split
  · rename_i same
    subst same
    rw [Nat.mul_add_div (Nat.two_pow_pos _), Nat.div_eq_of_lt below, Nat.add_zero,
      Nat.mod_eq_of_lt byteBound]
  · obtain ⟨rest, rfl⟩ : ∃ rest, k = i + 1 + rest := ⟨k - i - 1, by omega⟩
    have split : 2 ^ ((i + 1 + rest) * 8) * byte =
        2 ^ (i * 8) * (2 ^ 8 * (2 ^ (rest * 8) * byte)) := by
      rw [Nat.add_mul, Nat.add_mul, Nat.pow_add, Nat.pow_add, Nat.mul_assoc, Nat.mul_assoc]
    rw [split, Nat.mul_add_div (Nat.two_pow_pos _), Nat.mul_add_mod]

/-- The word read has the bytes of the map, and is found when all of them are. -/
theorem concreteWord_spec (mem : SymMemory BV) (addr : Word) (small : size ≤ 8) :
    (∀ word, mem.concreteWord addr size = some word → word.toNat < 2 ^ (size * 8) ∧
      ∀ i < size, ∃ byte, mem.concrete.lookup (addr + BitVec.ofNat 64 i) = some byte ∧
        word.toNat / 2 ^ (i * 8) % 2 ^ 8 = byte.toNat) ∧
    (mem.concreteWord addr size = none → ∃ i < size,
      mem.concrete.lookup (addr + BitVec.ofNat 64 i) = none) := by
  induction size with
  | zero =>
    refine ⟨fun word found => ?_, by simp [concreteWord]⟩
    obtain rfl : 0 = word := some.inj found
    simp
  | succ k ih =>
    obtain ⟨found, missing⟩ := ih (by omega)
    have step : mem.concreteWord addr (k + 1) = (mem.concreteWord addr k).bind fun value =>
        (mem.concrete.lookup (addr + BitVec.ofNat 64 k)).map fun byte =>
          value ||| (byte.setWidth 64).shiftLeft (k * 8) := by
      unfold concreteWord
      rw [range_succ, foldlM_append]
      simp
    rw [step]
    constructor
    · intro word assembled
      obtain ⟨value, before, last⟩ := bind_eq_some_iff.mp assembled
      obtain ⟨byte, stored, rfl⟩ := map_eq_some_iff.mp last
      obtain ⟨below, bytes⟩ := found value before
      have byteBound : byte.toNat < 2 ^ 8 := byte.isLt
      rw [toNat_or_shiftLeft below (by omega)]
      refine ⟨?_, fun i inside => ?_⟩
      · calc 2 ^ (k * 8) * byte.toNat + value.toNat < 2 ^ (k * 8) * (byte.toNat + 1) := by
              exact Nat.add_lt_add_left below _
          _ ≤ 2 ^ (k * 8) * 2 ^ 8 := Nat.mul_le_mul_left _ byteBound
          _ = 2 ^ ((k + 1) * 8) := by rw [Nat.add_mul, Nat.pow_add]
      · rw [digit_of_add below inside byteBound]
        split
        · rename_i same
          subst same
          exact ⟨byte, stored, rfl⟩
        · exact bytes i (by omega)
    · intro none
      rcases before : mem.concreteWord addr k with _ | value
      · obtain ⟨i, inside, absent⟩ := missing before
        exact ⟨i, by omega, absent⟩
      · rw [before] at none
        exact ⟨k, by omega, by simpa using none⟩

end SymMemory

/-! ## Histories -/

/-- An operation on memory at a concrete address. -/
inductive MemoryOp (BV : Type) where
  | write (addr : Word) (value : SymValue BV) (size : Nat)
  | writeBytes (addr : Word) (bytes : List Byte)
  | fork

namespace MemoryOp

def apply (checks : Bool) (mem : SymMemory BV) : MemoryOp BV → Option (SymMemory BV)
  | .write addr value size =>
    some (mem.writeAt (.ofWord addr 64) addr (adjustBits value (size * 8)) size)
  | .writeBytes addr bytes => mem.writeBytes checks addr bytes
  | .fork => some mem

/-- Sizes of one to eight bytes, values of the width of their terms, and slices
as long as slices can be. -/
def Valid : MemoryOp BV → Prop
  | .write _ value size => 1 ≤ size ∧ size ≤ 8 ∧ value.WellSorted
  | .writeBytes _ bytes => bytes.length < 2 ^ 63
  | .fork => True

/-- The value an operation puts at an address, and which of its bytes. -/
def cell (x : Word) : MemoryOp BV → Option (SymValue BV × Nat)
  | .write addr value size =>
    if (x - addr).toNat < size then some (adjustBits value (size * 8), (x - addr).toNat)
    else none
  | .writeBytes addr bytes =>
    (bytes[(x - addr).toNat]?).map fun byte => (.ofWord (byte.setWidth 64) 8, 0)
  | .fork => none

/-- The operation stores known bytes. -/
def storesConcrete : MemoryOp BV → Bool
  | .write _ value _ => value.isConcrete
  | .writeBytes _ _ => true
  | .fork => false

/-- The operation is a write that covers a read. -/
def covers (addr : Word) (size : Nat) : MemoryOp BV → Bool
  | .write writeAddr _ writeSize => decide (Covers writeAddr writeSize addr size)
  | _ => false

/-- The operation writes at an address. -/
def touches (x : Word) (op : MemoryOp BV) : Bool := (op.cell x).isSome

/-- What the operation adds to the log. -/
def logged : MemoryOp BV → Option (SymValue BV × SymValue BV × Nat)
  | .write addr value size => some (.ofWord addr 64, adjustBits value (size * 8), size)
  | _ => none

/-- What the operation puts into the concrete map at an address. -/
def concreteByte (x : Word) : MemoryOp BV → Option Byte
  | .write addr value size =>
    match (adjustBits value (size * 8)).asConcrete with
    | some word => (wordBytes word size)[(x - addr).toNat]?
    | none => none
  | .writeBytes addr bytes => bytes[(x - addr).toNat]?
  | .fork => none

variable {checks : Bool} {mem mem' : SymMemory BV} {op : MemoryOp BV}

private theorem apply_log (applied : op.apply checks mem = some mem') :
    mem'.symbolicWrites = mem.symbolicWrites ++ op.logged.toList := by
  cases op with
  | write addr value size =>
    cases applied
    rfl
  | writeBytes addr bytes =>
    obtain rfl := writeBytes_eq_some applied
    simp [logged]
  | fork =>
    cases applied
    simp [logged]

private theorem apply_defaultSymbolic (applied : op.apply checks mem = some mem') :
    mem'.defaultSymbolic = mem.defaultSymbolic := by
  cases op with
  | write | fork =>
    cases applied
    rfl
  | writeBytes addr bytes =>
    obtain rfl := writeBytes_eq_some applied
    rfl

theorem apply_lookup (valid : op.Valid) (applied : op.apply checks mem = some mem') (x : Word) :
    mem'.concrete.lookup x = (op.concreteByte x).or (mem.concrete.lookup x) := by
  cases op with
  | write addr value size =>
    obtain ⟨-, small, -⟩ := valid
    cases applied
    simp only [writeAt, concreteByte]
    cases (adjustBits value (size * 8)).asConcrete with
    | none => simp
    | some word => exact lookup_insertBytes _ _ _ (by simp [wordBytes]; omega)
  | writeBytes addr bytes =>
    have short : bytes.length < 2 ^ 63 := valid
    obtain rfl := writeBytes_eq_some applied
    exact lookup_insertBytes _ _ _ (by omega)
  | fork =>
    cases applied
    simp [concreteByte]

end MemoryOp

/-- The memory after a history, none where an operation panics. -/
def runMemory (checks defaultSymbolic : Bool) (ops : List (MemoryOp BV)) :
    Option (SymMemory BV) :=
  ops.foldlM (MemoryOp.apply checks) (.new defaultSymbolic)

section Run

variable {checks defaultSymbolic : Bool} {mem : SymMemory BV} {ops : List (MemoryOp BV)}

/-- A memory described by a history, newest operation first. -/
structure SymMemory.Records (mem : SymMemory BV) (defaultSymbolic : Bool)
    (history : List (MemoryOp BV)) : Prop where
  log : mem.symbolicWrites.reverse = history.filterMap MemoryOp.logged
  lookup : ∀ x, mem.concrete.lookup x = history.findSome? (MemoryOp.concreteByte x)
  mode : mem.defaultSymbolic = defaultSymbolic

theorem runMemory_records (valid : ∀ op ∈ ops, op.Valid)
    (run : runMemory checks defaultSymbolic ops = some mem) :
    mem.Records defaultSymbolic ops.reverse := by
  induction ops using List.reverseRecOn generalizing mem with
  | nil =>
    cases run
    exact ⟨rfl, fun _ => rfl, rfl⟩
  | append_singleton rest last ih =>
    unfold runMemory at run
    rw [foldlM_append] at run
    obtain ⟨before, runBefore, applied⟩ := bind_eq_some_iff.mp run
    have applied : last.apply checks before = some mem := by simpa using applied
    have records := ih (fun op member => valid op (mem_append_left _ member)) runBefore
    have lastValid := valid last (by simp)
    refine ⟨?_, fun x => ?_, (MemoryOp.apply_defaultSymbolic applied).trans records.mode⟩
    · rw [MemoryOp.apply_log applied, reverse_append, records.log, reverse_append]
      cases logs : last.logged <;> simp [logs]
    · rw [MemoryOp.apply_lookup lastValid applied, records.lookup, reverse_append]
      cases stores : last.concreteByte x <;> simp [stores]

/-! ## Reads of a history -/

namespace MemoryOp

variable {op : MemoryOp BV} {history : List (MemoryOp BV)} {addr x : Word} {size : Nat}

/-- The part of the operation's value that a read takes, when it covers the
read. -/
def taken (addr : Word) (size : Nat) : MemoryOp BV → Option (SymValue BV)
  | .write writeAddr value writeSize =>
    if Covers writeAddr writeSize addr size then
      some (slice (adjustBits value (writeSize * 8)) writeAddr writeSize addr size)
    else none
  | _ => none

theorem isSome_taken : (op.taken addr size).isSome = op.covers addr size := by
  cases op with
  | write writeAddr value writeSize =>
    by_cases covered : Covers writeAddr writeSize addr size <;> simp [taken, covers, covered]
  | writeBytes addr bytes => rfl
  | fork => rfl

theorem loggedRead_eq {mem : SymMemory BV} {defaultSymbolic : Bool}
    (records : mem.Records defaultSymbolic history) (addr : Word) (size : Nat) :
    mem.loggedRead addr size = history.findSome? (taken addr size) := by
  unfold loggedRead
  rw [records.log]
  clear records
  induction history with
  | nil => rfl
  | cons op rest ih =>
    rw [filterMap_cons, List.findSome?_cons, ← ih]
    cases op with
    | write | writeBytes | fork => rfl

end MemoryOp

end Run

/-! ## Bytes of the values involved -/

section Bytes

variable {v : SymValue BV} {bits : Nat}

theorem bits_adjustBits (positive : 1 ≤ bits) : (adjustBits v bits).bits = bits := by
  unfold adjustBits
  split_ifs with same narrower
  · exact same
  · exact SymValue.bits_zeroExtend (Nat.le_of_lt narrower)
  · rw [SymValue.bits_extract (Nat.zero_le _) (by omega)]
    omega

theorem wellSorted_adjustBits (sorted : v.WellSorted) (positive : 1 ≤ bits) :
    (adjustBits v bits).WellSorted := by
  unfold adjustBits
  split_ifs with same narrower
  · exact sorted
  · exact sorted.zeroExtend bits
  · exact sorted.extract (Nat.zero_le _) (by omega)

theorem isConcrete_adjustBits (positive : 1 ≤ bits) (small : bits ≤ 64) :
    (adjustBits v bits).isConcrete = v.isConcrete := by
  unfold adjustBits
  split_ifs with same narrower
  · rfl
  · unfold SymValue.zeroExtend
    rw [if_neg (by omega)]
    cases v <;> rfl
  · rw [SymValue.extract_eq (Nat.zero_le _) (by omega)]
    cases v with
    | concrete value bits taint => simp only; rw [if_neg (by omega)]; rfl
    | symbolic ast bits taint => rfl
    | unknown bits taint => rfl

theorem slice_spec {writeAddr : Word} {writeSize : Nat} (sorted : v.WellSorted)
    (width : v.bits = writeSize * 8) (covered : Covers writeAddr writeSize addr size)
    (positive : 1 ≤ size) :
    (slice v writeAddr writeSize addr size).bits = size * 8 ∧
      ∀ (m : Model), ∀ i < size, (slice v writeAddr writeSize addr size).byte m i =
        v.byte m (addr.toNat - writeAddr.toNat + i) := by
  obtain ⟨-, -, starts, ends⟩ := covered
  unfold slice
  dsimp only
  split_ifs with whole
  · refine ⟨by rw [width, whole.2], fun m i _ => by rw [whole.1, Nat.zero_add]⟩
  · have ordered : (addr.toNat - writeAddr.toNat) * 8 ≤
        (addr.toNat - writeAddr.toNat) * 8 + size * 8 - 1 := by omega
    have inside : (addr.toNat - writeAddr.toNat) * 8 + size * 8 - 1 < v.bits := by omega
    refine ⟨by rw [SymValue.bits_extract ordered inside]; omega, fun m i inRead => ?_⟩
    unfold SymValue.byte
    rw [SymValue.denote_extract sorted ordered inside, Option.map_map]
    congr 1
    funext n
    have span : (addr.toNat - writeAddr.toNat) * 8 + size * 8 - 1 -
        (addr.toNat - writeAddr.toNat) * 8 + 1 = size * 8 := by omega
    simp only [Function.comp_apply]
    rw [span, SymValue.mod_div_mod _ (by omega : i * 8 + 8 ≤ size * 8), Nat.div_div_eq_div_mul,
      ← Nat.pow_add, Nat.add_mul]

end Bytes

private theorem toNat_distance {writeAddr : Word}
    (starts : writeAddr.toNat ≤ addr.toNat) (ends : addr.toNat + size < 2 ^ 64) (inside : i < size) :
    (addr + BitVec.ofNat 64 i - writeAddr).toNat = addr.toNat - writeAddr.toNat + i := by
  rw [BitVec.toNat_sub, BitVec.toNat_add, BitVec.toNat_ofNat]
  omega

namespace MemoryOp

variable {op : MemoryOp BV} {addr x : Word} {size : Nat}

private theorem taken_spec (valid : op.Valid) (positive : 1 ≤ size) {v : SymValue BV}
    (takes : op.taken addr size = some v) : v.bits = size * 8 ∧
      ∀ i < size, ∃ w off, op.cell (addr + BitVec.ofNat 64 i) = some (w, off) ∧
        ∀ m : Model, v.byte m i = w.byte m off := by
  cases op with
  | write writeAddr value writeSize =>
    obtain ⟨writePositive, -, sorted⟩ := valid
    simp only [taken] at takes
    split at takes
    · rename_i covered
      cases takes
      have wide : 1 ≤ writeSize * 8 := by omega
      obtain ⟨width, bytes⟩ := slice_spec (wellSorted_adjustBits sorted wide)
        (bits_adjustBits wide) covered positive
      refine ⟨width, fun i inside => ⟨adjustBits value (writeSize * 8),
        addr.toNat - writeAddr.toNat + i, ?_, fun m => bytes m i inside⟩⟩
      obtain ⟨-, readEnds, starts, ends⟩ := covered
      simp only [cell]
      rw [toNat_distance starts readEnds inside, if_pos (by omega)]
    · simp at takes
  | writeBytes | fork => simp [taken] at takes

theorem byte_concrete (m : Model) (word : Word) {bits : Nat} (taint : Word)
    (inside : i * 8 + 8 ≤ bits) : (SymValue.concrete word bits taint : SymValue BV).byte m i =
      some ((word >>> (i * 8)).setWidth 8).toNat := by
  simp only [SymValue.byte, SymValue.denote, map_some]
  rw [SymValue.mod_div_mod _ inside, BitVec.toNat_setWidth, BitVec.toNat_ushiftRight,
    Nat.shiftRight_eq_div_pow]

theorem concreteByte_spec (valid : op.Valid) (stores : op.concreteByte x = some byte) :
    op.storesConcrete = true ∧ ∃ w off, op.cell x = some (w, off) ∧
      ∀ m : Model, w.byte m off = some byte.toNat := by
  cases op with
  | write writeAddr value writeSize =>
    obtain ⟨positive, small, sorted⟩ := valid
    simp only [concreteByte] at stores
    cases adjusted : adjustBits value (writeSize * 8) with
    | concrete word bits taint =>
      have width : bits = writeSize * 8 := by
        have := bits_adjustBits (v := value) (by omega : 1 ≤ writeSize * 8)
        rwa [adjusted] at this
      rw [adjusted] at stores
      simp only [SymValue.asConcrete, getElem?_wordBytes] at stores
      split at stores
      · rename_i inside
        cases stores
        refine ⟨?_, .concrete word bits taint, (x - writeAddr).toNat, ?_, fun m => ?_⟩
        · have kind := isConcrete_adjustBits (v := value) (by omega : 1 ≤ writeSize * 8) (by omega)
          rw [adjusted] at kind
          exact kind.symm
        · simp only [cell, if_pos inside, adjusted]
        · exact byte_concrete m word taint (by omega)
      · simp at stores
    | symbolic | unknown => simp [adjusted, SymValue.asConcrete] at stores
  | writeBytes addr bytes =>
    have stored : bytes[(x - addr).toNat]? = some byte := stores
    refine ⟨rfl, .ofWord (byte.setWidth 64) 8, 0, ?_, fun m => ?_⟩
    · simp only [cell, stored, map_some]
    · have whole : (SymValue.concrete (byte.setWidth 64) 8 0 : SymValue BV).byte m 0 = _ :=
        byte_concrete m _ 0 le_rfl
      simpa [SymValue.ofWord, SymValue.normalizeBvBits] using whole
  | fork => simp [concreteByte] at stores

theorem isSome_concreteByte (valid : op.Valid) (concrete : op.storesConcrete = true)
    (touched : op.touches x = true) : (op.concreteByte x).isSome = true := by
  cases op with
  | write writeAddr value writeSize =>
    obtain ⟨positive, small, -⟩ := valid
    have inside : (x - writeAddr).toNat < writeSize := by
      by_contra outside
      simp only [touches, cell, if_neg outside] at touched
      simp at touched
    have kind : (adjustBits value (writeSize * 8)).isConcrete = true :=
      (isConcrete_adjustBits (by omega) (by omega)).trans concrete
    obtain ⟨word, isWord⟩ := isSome_iff_exists.mp kind
    simp only [concreteByte, isWord, getElem?_wordBytes, if_pos inside, isSome_some]
  | writeBytes addr bytes => simpa [touches, cell, concreteByte] using touched
  | fork => simp [storesConcrete] at concrete

/-! ## The newest writer of a byte -/

variable {history : List (MemoryOp BV)}

private theorem findSome?_cell (newest : history.find? (touches x) = some op) :
    history.findSome? (cell x) = op.cell x := by
  obtain ⟨touched, before, after, rfl, silent⟩ := List.find?_eq_some_iff_append.mp newest
  obtain ⟨found, isFound⟩ := isSome_iff_exists.mp touched
  have none : before.findSome? (cell x) = none :=
    List.findSome?_eq_none_iff.mpr fun other member => by
      simpa [touches] using silent other member
  rw [List.findSome?_append, none, List.findSome?_cons, isFound]
  rfl

theorem findSome?_cell_none (untouched : ∀ op ∈ history, op.touches x = false) :
    history.findSome? (cell x) = none :=
  List.findSome?_eq_none_iff.mpr fun op member => by
    simpa [touches] using untouched op member

theorem touches_of_concreteByte (valid : op.Valid)
    (stores : op.concreteByte x = some byte) : op.touches x = true := by
  obtain ⟨-, w, off, written, -⟩ := concreteByte_spec valid stores
  rw [touches, written]
  rfl

theorem findSome?_concreteByte (valid : ∀ op ∈ history, op.Valid)
    (newest : history.find? (touches x) = some op) (concrete : op.storesConcrete = true) :
    history.findSome? (concreteByte x) = op.concreteByte x := by
  obtain ⟨touched, before, after, rfl, silent⟩ := List.find?_eq_some_iff_append.mp newest
  have none : before.findSome? (concreteByte x) = none :=
    List.findSome?_eq_none_iff.mpr fun other member => by
      by_contra stores
      obtain ⟨byte, isByte⟩ := ne_none_iff_exists'.mp stores
      have touches := touches_of_concreteByte (valid other (mem_append_left _ member)) isByte
      simpa [touches] using silent other member
  obtain ⟨byte, isByte⟩ := isSome_iff_exists.mp
    (isSome_concreteByte (valid op (by simp)) concrete touched)
  rw [List.findSome?_append, none, List.findSome?_cons, isByte]
  rfl

theorem findSome?_concreteByte_none (valid : ∀ op ∈ history, op.Valid)
    (untouched : ∀ op ∈ history, op.touches x = false) :
    history.findSome? (concreteByte x) = none :=
  List.findSome?_eq_none_iff.mpr fun op member => by
    by_contra stores
    obtain ⟨byte, isByte⟩ := ne_none_iff_exists'.mp stores
    have touches := touches_of_concreteByte (valid op member) isByte
    simp [untouched op member] at touches

end MemoryOp

/-! ## Refinement -/

/-- What byte memory holds at an address after a history, newest operation
first: the byte written last, or the default. -/
def lastWritten (m : Model) (defaultSymbolic : Bool) (history : List (MemoryOp BV)) (x : Word) :
    Option Nat :=
  match history.findSome? (MemoryOp.cell x) with
  | some (value, i) => value.byte m i
  | none => ((SymMemory.new defaultSymbolic : SymMemory BV).defaultRead x 1).byte m 0

/-- A read gives the bytes written last. -/
def Refines (checks defaultSymbolic : Bool) (ops : List (MemoryOp BV)) (addr : Word)
    (size : Nat) : Prop :=
  ∀ mem, runMemory checks defaultSymbolic ops = some mem →
    (mem.readConcrete addr size).bits = size * 8 ∧
      ∀ m : Model, ∀ i < size, (mem.readConcrete addr size).byte m i =
        lastWritten m defaultSymbolic ops.reverse (addr + BitVec.ofNat 64 i)

/-- The histories, newest operation first, whose reads are right whatever they
wrote. Where a write covers the read, nothing newer writes into it. Otherwise
each byte was last written with a known value, or none was written at all. -/
def Faithful (defaultSymbolic : Bool) (history : List (MemoryOp BV)) (addr : Word)
    (size : Nat) : Prop :=
  if history.any (·.covers addr size) then
    ∀ op ∈ history.takeWhile fun op => !op.covers addr size, ∀ i < size,
      op.touches (addr + BitVec.ofNat 64 i) = false
  else
    (∀ i < size, ∃ op, history.find? (MemoryOp.touches (addr + BitVec.ofNat 64 i)) = some op ∧
      op.storesConcrete = true) ∨
    ((∀ i < size, ∀ op ∈ history, op.touches (addr + BitVec.ofNat 64 i) = false) ∧
      (defaultSymbolic = false ∨ size = 1))

section Refinement

variable {checks defaultSymbolic : Bool} {mem : SymMemory BV} {history : List (MemoryOp BV)}
variable {addr : Word} {size : Nat}

private theorem takeWhile_append_of_all {A : Type} {p : A → Bool} {before after : List A} {x : A}
    (all : ∀ y ∈ before, p y = true) (fails : p x = false) :
    (before ++ x :: after).takeWhile p = before := by
  rw [takeWhile_append_of_pos all, takeWhile_cons_of_neg (by simp [fails]), append_nil]

theorem readConcrete_of_covered (records : mem.Records defaultSymbolic history)
    (valid : ∀ op ∈ history, op.Valid) (positive : 1 ≤ size)
    (covered : history.any (·.covers addr size) = true) :
    ∃ before op after, history = before ++ op :: after ∧ op.covers addr size = true ∧
      (history.takeWhile fun op => !op.covers addr size) = before ∧
      (mem.readConcrete addr size).bits = size * 8 ∧
      ∀ i < size, ∃ w off, op.cell (addr + BitVec.ofNat 64 i) = some (w, off) ∧
        ∀ m : Model, (mem.readConcrete addr size).byte m i = w.byte m off := by
  have logged := MemoryOp.loggedRead_eq records addr size
  obtain ⟨cover, member, covers⟩ := List.any_eq_true.mp covered
  have some : (history.findSome? (MemoryOp.taken addr size)).isSome = true :=
    List.findSome?_isSome_iff.mpr ⟨cover, member, MemoryOp.isSome_taken.trans covers⟩
  obtain ⟨v, isV⟩ := isSome_iff_exists.mp some
  obtain ⟨before, op, after, rfl, takes, silent⟩ := List.findSome?_eq_some_iff.mp isV
  have coversOp : op.covers addr size = true := by
    rw [← MemoryOp.isSome_taken, takes]
    rfl
  obtain ⟨width, bytes⟩ := MemoryOp.taken_spec (valid op (by simp)) positive takes
  have reads : mem.readConcrete addr size = v := by
    unfold SymMemory.readConcrete
    rw [logged, isV]
  refine ⟨before, op, after, rfl, coversOp, ?_, by rw [reads]; exact width, ?_⟩
  · refine takeWhile_append_of_all (fun other member => ?_) (by simp [coversOp])
    rw [← MemoryOp.isSome_taken, silent other member]
    rfl
  · rw [reads]
    exact bytes

/-- Reads that no write covers come from the concrete map, or are the
default. -/
theorem readConcrete_of_not_covered (records : mem.Records defaultSymbolic history)
    (uncovered : history.any (·.covers addr size) = false) :
    mem.readConcrete addr size = match mem.concreteWord addr size with
      | some value => .ofWord value (size * 8)
      | none => mem.defaultRead addr size := by
  have logged := MemoryOp.loggedRead_eq records addr size
  have none : history.findSome? (MemoryOp.taken addr size) = none :=
    List.findSome?_eq_none_iff.mpr fun op member => by
      have notCovers : op.covers addr size = false := by
        simpa using List.any_eq_false.mp uncovered op member
      rw [← MemoryOp.isSome_taken] at notCovers
      simpa using notCovers
  have unread : mem.loggedRead addr size = .none := logged.trans none
  cases read : mem.loggedRead addr size with
  | none =>
    unfold SymMemory.readConcrete
    cases mem.concreteWord addr size <;> simp only [read]
  | some value => exact absurd (read.symm.trans unread) (by simp)

theorem byte_ofWord {word : Word} (below : word.toNat < 2 ^ (size * 8))
    (inside : i < size) : (SymValue.ofWord word (size * 8) : SymValue BV).byte m i =
      some (word.toNat / 2 ^ (i * 8) % 2 ^ 8) := by
  have width : SymValue.normalizeBvBits (size * 8) = size * 8 := by
    simp only [SymValue.normalizeBvBits]
    omega
  simp only [SymValue.ofWord, SymValue.byte, SymValue.denote, map_some, width,
    Nat.mod_eq_of_lt below]

theorem bits_default (positive : 1 ≤ size) :
    (mem.defaultRead addr size).bits = size * 8 := by
  have width : SymValue.normalizeBvBits (size * 8) = size * 8 := by
    simp only [SymValue.normalizeBvBits]
    omega
  unfold SymMemory.defaultRead
  split
  · exact width
  · exact width

theorem defaultRead_congr {mem' : SymMemory BV} (same : mem.defaultSymbolic = mem'.defaultSymbolic) :
    mem.defaultRead addr size = mem'.defaultRead addr size := by
  unfold SymMemory.defaultRead
  rw [same]

theorem byte_default_concrete (mode : mem.defaultSymbolic = false)
    (inside : i < size) : (mem.defaultRead addr size).byte m i = some 0 := by
  unfold SymMemory.defaultRead
  rw [mode, if_neg (by simp), byte_ofWord (by simp) inside]
  simp

theorem byte_default_symbolic (mode : mem.defaultSymbolic = true)
    (positive : 1 ≤ size) : (mem.defaultRead addr size).byte m i = some
      (Z3.value m (Z3.newConst ("mem_" ++ hex addr.toNat) (size * 8) : BV) /
        2 ^ (i * 8) % 2 ^ 8) := by
  have width : SymValue.normalizeBvBits (size * 8) = size * 8 := by
    simp only [SymValue.normalizeBvBits]
    omega
  unfold SymMemory.defaultRead
  rw [if_pos mode]
  simp only [SymValue.newSymbolic, SymValue.byte, SymValue.denote, map_some, width]

/-- Right whatever was written. -/
theorem refines_of_faithful {ops : List (MemoryOp BV)} (valid : ∀ op ∈ ops, op.Valid)
    (positive : 1 ≤ size) (small : size ≤ 8)
    (faithful : Faithful defaultSymbolic ops.reverse addr size) :
    Refines checks defaultSymbolic ops addr size := by
  intro mem run
  have records := runMemory_records valid run
  have validHistory : ∀ op ∈ ops.reverse, op.Valid := fun op member =>
    valid op (mem_reverse.mp member)
  unfold Faithful at faithful
  by_cases covered : ops.reverse.any (·.covers addr size) = true
  · rw [if_pos covered] at faithful
    obtain ⟨before, op, after, split, -, newer, width, bytes⟩ :=
      readConcrete_of_covered records validHistory positive covered
    refine ⟨width, fun m i inside => ?_⟩
    obtain ⟨w, off, written, same⟩ := bytes i inside
    have silent : before.findSome? (MemoryOp.cell (addr + BitVec.ofNat 64 i)) = none :=
      MemoryOp.findSome?_cell_none fun other member =>
        faithful other (newer ▸ member) i inside
    rw [same m, lastWritten, split, List.findSome?_append, silent, List.findSome?_cons, written]
    rfl
  · have uncovered : ops.reverse.any (·.covers addr size) = false := by simpa using covered
    rw [if_neg covered] at faithful
    have reads := readConcrete_of_not_covered records uncovered
    obtain ⟨found, missing⟩ := concreteWord_spec mem addr small
    rcases faithful with concrete | ⟨untouched, mode⟩
    · -- Every byte is in the map, put there by its newest writer.
      cases assembled : mem.concreteWord addr size with
      | none =>
        obtain ⟨i, inside, absent⟩ := missing assembled
        obtain ⟨op, newest, known⟩ := concrete i inside
        have touched := (List.find?_eq_some_iff_append.mp newest).1
        have stores := MemoryOp.isSome_concreteByte
          (validHistory op (mem_of_find?_eq_some newest)) known touched
        rw [records.lookup, MemoryOp.findSome?_concreteByte validHistory newest known] at absent
        simp [absent] at stores
      | some word =>
        rw [assembled] at reads
        obtain ⟨below, bytes⟩ := found word assembled
        rw [reads]
        refine ⟨?_, fun m i inside => ?_⟩
        · simp only [SymValue.ofWord, SymValue.bits, SymValue.normalizeBvBits]
          omega
        · obtain ⟨op, newest, known⟩ := concrete i inside
          obtain ⟨byte, stored, digit⟩ := bytes i inside
          rw [records.lookup, MemoryOp.findSome?_concreteByte validHistory newest known] at stored
          obtain ⟨-, w, off, written, value⟩ := MemoryOp.concreteByte_spec
            (validHistory op (mem_of_find?_eq_some newest)) stored
          rw [byte_ofWord below inside, digit, lastWritten, MemoryOp.findSome?_cell newest, written]
          exact (value m).symm
    · -- No byte is in the map.
      have absent : mem.concreteWord addr size = none := by
        cases assembled : mem.concreteWord addr size with
        | none => rfl
        | some word =>
          obtain ⟨byte, stored, -⟩ := (found word assembled).2 0 positive
          rw [records.lookup, MemoryOp.findSome?_concreteByte_none validHistory
            (untouched 0 positive)] at stored
          simp at stored
      rw [absent] at reads
      rw [reads]
      refine ⟨bits_default positive, fun m i inside => ?_⟩
      rw [lastWritten, MemoryOp.findSome?_cell_none (untouched i inside)]
      rcases mode with mode | one
      · rw [byte_default_concrete (records.mode.trans mode) inside,
          byte_default_concrete mode Nat.one_pos]
      · subst one
        obtain rfl : i = 0 := by omega
        rw [defaultRead_congr (records.mode.trans rfl : _ = (SymMemory.new defaultSymbolic).defaultSymbolic)]
        simp

end Refinement

/-! ## The pattern is exact -/

namespace MemoryOp

/-- The same operation with other contents, known where these are. -/
def SameShape : MemoryOp BV → MemoryOp BV → Prop
  | .write addr value size, .write addr' value' size' =>
    addr = addr' ∧ size = size' ∧ value.isConcrete = value'.isConcrete
  | .writeBytes addr bytes, .writeBytes addr' bytes' =>
    addr = addr' ∧ bytes.length = bytes'.length
  | .fork, .fork => True
  | _, _ => False

theorem SameShape.refl (op : MemoryOp BV) : SameShape op op := by
  cases op with
  | write addr value size => exact ⟨rfl, rfl, rfl⟩
  | writeBytes addr bytes => exact ⟨rfl, rfl⟩
  | fork => exact True.intro

/-- The operation with all bits set or all bits clear. -/
def fill (ones : Bool) : MemoryOp BV → MemoryOp BV
  | .write addr value size =>
    let word : Word := if ones then BitVec.allOnes 64 else 0
    .write addr (if value.isConcrete then .concrete word (size * 8) 0
      else .symbolic (Z3.fromU64 word (size * 8)) (size * 8) 0) size
  | .writeBytes addr bytes =>
    .writeBytes addr (List.replicate bytes.length (if ones then BitVec.allOnes 8 else 0))
  | .fork => .fork

variable {op : MemoryOp BV} {addr x : Word} {size : Nat} {ones : Bool}

theorem SameShape.fill_eq {op op' : MemoryOp BV} (same : SameShape op op') (ones : Bool) :
    op.fill ones = op'.fill ones := by
  cases op with
  | write addr value size =>
    cases op' with
    | write addr' value' size' =>
      obtain ⟨rfl, rfl, known⟩ := same
      simp only [fill, known]
    | writeBytes | fork => exact same.elim
  | writeBytes addr bytes =>
    cases op' with
    | write | fork => exact same.elim
    | writeBytes addr' bytes' =>
      obtain ⟨rfl, length⟩ := same
      simp only [fill, length]
  | fork =>
    cases op' with
    | write | writeBytes => exact same.elim
    | fork => rfl

theorem sameShape_fill : SameShape op (op.fill ones) := by
  cases op with
  | write addr value size =>
    refine ⟨rfl, rfl, ?_⟩
    cases known : value.isConcrete <;> simp [SymValue.isConcrete, SymValue.asConcrete]
  | writeBytes addr bytes => exact ⟨rfl, by simp⟩
  | fork => exact True.intro

theorem Valid.fill (valid : op.Valid) : (op.fill ones).Valid := by
  cases op with
  | write addr value size =>
    obtain ⟨positive, small, -⟩ := valid
    have wide : 1 ≤ size * 8 := by omega
    refine ⟨positive, small, ?_⟩
    cases known : value.isConcrete
    · exact ⟨wide, Z3.size_fromU64 _ _⟩
    · exact wide
  | writeBytes addr bytes =>
    have short : bytes.length < 2 ^ 63 := valid
    simpa [MemoryOp.fill, Valid] using short
  | fork => exact True.intro

theorem covers_fill : (op.fill ones).covers addr size = op.covers addr size := by
  cases op <;> rfl

theorem storesConcrete_fill : (op.fill ones).storesConcrete = op.storesConcrete := by
  cases op with
  | write addr value size =>
    simp only [MemoryOp.fill, storesConcrete]
    cases known : value.isConcrete <;> rfl
  | writeBytes addr bytes => rfl
  | fork => rfl

theorem touches_fill : (op.fill ones).touches x = op.touches x := by
  cases op with
  | write addr value size =>
    by_cases inside : (x - addr).toNat < size
    · simp only [MemoryOp.fill, touches, cell, if_pos inside, isSome_some]
    · simp only [MemoryOp.fill, touches, cell, if_neg inside]
  | writeBytes addr bytes =>
    by_cases inside : (x - addr).toNat < bytes.length
    · simp only [MemoryOp.fill, touches, cell, List.getElem?_replicate, if_pos inside,
        List.getElem?_eq_getElem inside, map_some, isSome_some]
    · simp only [MemoryOp.fill, touches, cell, List.getElem?_replicate, if_neg inside,
        List.getElem?_eq_none (not_lt.mp inside), map_none]
  | fork => rfl

private theorem byte_word (m : Model) {bits : Nat} (taint : Word) (inside : i * 8 + 8 ≤ bits)
    (small : i < 8) (ones : Bool) :
    (SymValue.concrete (if ones then BitVec.allOnes 64 else 0) bits taint : SymValue BV).byte m i =
      some (if ones then 255 else 0) := by
  rw [byte_concrete m _ taint inside]
  interval_cases i <;> cases ones <;> rfl

theorem byte_fill (valid : op.Valid) {w : SymValue BV} {off : Nat}
    (written : (op.fill ones).cell x = some (w, off)) (m : Model) :
    w.byte m off = some (if ones then 255 else 0) := by
  cases op with
  | write addr value size =>
    obtain ⟨positive, small, -⟩ := valid
    simp only [MemoryOp.fill, cell] at written
    split at written
    · obtain ⟨rfl, rfl⟩ := Prod.mk.inj (some.inj written)
      have whole : (x - addr).toNat * 8 + 8 ≤ size * 8 := by omega
      have word : (SymValue.concrete _ _ 0 : SymValue BV).byte m _ = _ :=
        byte_word m 0 whole (by omega) ones
      cases value.isConcrete with
      | true => simpa [adjustBits, SymValue.bits] using word
      | false =>
        simp only [Bool.false_eq_true, if_false, adjustBits, SymValue.bits, if_true]
        simpa [SymValue.byte, SymValue.denote, Z3.value_fromU64] using word
    · simp at written
  | writeBytes addr bytes =>
    simp only [MemoryOp.fill, cell, List.getElem?_replicate] at written
    split at written
    · obtain ⟨rfl, rfl⟩ := Prod.mk.inj (some.inj written)
      have whole : (SymValue.concrete ((if ones then BitVec.allOnes 8 else 0 : Byte).setWidth 64)
          8 0 : SymValue BV).byte m 0 = _ := byte_concrete m _ 0 le_rfl
      cases ones <;> rfl
    · simp at written
  | fork => simp [MemoryOp.fill, cell] at written

theorem isSome_apply_fill (op : MemoryOp BV) (ones : Bool) {checks : Bool}
    (mem mem' : SymMemory BV) :
    ((op.fill ones).apply checks mem).isSome = (op.apply checks mem').isSome := by
  cases op with
  | write addr value size => rfl
  | writeBytes addr bytes =>
    simp only [fill, apply, SymMemory.writeBytes, length_replicate]
    split_ifs <;> rfl
  | fork => rfl

private theorem SameShape.isSome_apply {op' : MemoryOp BV} {checks : Bool} (same : SameShape op op')
    (mem mem' : SymMemory BV) :
    (op'.apply checks mem').isSome = (op.apply checks mem).isSome := by
  rw [← isSome_apply_fill op' false mem mem', ← same.fill_eq, isSome_apply_fill op false mem mem]

end MemoryOp

section Exact

variable {checks defaultSymbolic : Bool} {addr : Word} {size : Nat}

/-- A history with one operation's bits set and all others' clear. -/
def highlight (before : List (MemoryOp BV)) (op : MemoryOp BV) (after : List (MemoryOp BV)) :
    List (MemoryOp BV) :=
  before.map (MemoryOp.fill false) ++ op.fill true :: after.map (MemoryOp.fill false)

variable {before after : List (MemoryOp BV)} {op : MemoryOp BV}

theorem mem_highlight {other : MemoryOp BV} (member : other ∈ highlight before op after) :
    other = op.fill true ∨ ∃ old ∈ before ++ op :: after, other = old.fill false := by
  rcases mem_append.mp member with inBefore | inRest
  · obtain ⟨old, inOld, rfl⟩ := List.mem_map.mp inBefore
    exact Or.inr ⟨old, mem_append_left _ inOld, rfl⟩
  · rcases mem_cons.mp inRest with rfl | inAfter
    · exact Or.inl rfl
    · obtain ⟨old, inOld, rfl⟩ := List.mem_map.mp inAfter
      exact Or.inr ⟨old, mem_append_right _ (mem_cons_of_mem _ inOld), rfl⟩

theorem valid_highlight (valid : ∀ other ∈ before ++ op :: after, other.Valid) :
    ∀ other ∈ highlight before op after, other.Valid := by
  intro other member
  rcases mem_highlight member with rfl | ⟨old, inOld, rfl⟩
  · exact (valid op (by simp)).fill
  · exact (valid old inOld).fill

private theorem forall₂_highlight :
    List.Forall₂ MemoryOp.SameShape (before ++ op :: after) (highlight before op after) := by
  have filled : ∀ ops : List (MemoryOp BV),
      List.Forall₂ MemoryOp.SameShape ops (ops.map (MemoryOp.fill false)) := fun ops => by
    induction ops with
    | nil => exact .nil
    | cons head rest ih => exact .cons MemoryOp.sameShape_fill ih
  exact rel_append (filled before) (.cons MemoryOp.sameShape_fill (filled after))

private theorem isSome_foldlM_of_sameShape {ops ops' : List (MemoryOp BV)}
    (shape : List.Forall₂ MemoryOp.SameShape ops ops') :
    ∀ mem mem' : SymMemory BV, (ops.foldlM (MemoryOp.apply checks) mem).isSome →
      (ops'.foldlM (MemoryOp.apply checks) mem').isSome := by
  induction shape with
  | nil => exact fun _ _ _ => rfl
  | @cons op op' rest rest' same _ ih =>
    intro mem mem' runs
    rw [foldlM_cons] at runs
    cases first : op.apply checks mem with
    | none => simp [first] at runs
    | some next =>
      rw [first] at runs
      have stays : (op'.apply checks mem').isSome := by
        rw [same.isSome_apply mem mem', first]
        rfl
      obtain ⟨next', isNext⟩ := isSome_iff_exists.mp stays
      rw [foldlM_cons, isNext]
      exact ih next next' runs

variable {ops : List (MemoryOp BV)}

/-- The reads of a history, whatever it writes. -/
def RefinesAlways (checks defaultSymbolic : Bool) (ops : List (MemoryOp BV)) (addr : Word)
    (size : Nat) : Prop :=
  ∀ ops', (∀ op ∈ ops', op.Valid) → List.Forall₂ MemoryOp.SameShape ops ops' →
    Refines checks defaultSymbolic ops' addr size

/-- With the newest writer of a byte highlighted, a right read shows it. -/
theorem read_highlight (always : RefinesAlways checks defaultSymbolic ops addr size)
    (valid : ∀ op ∈ ops, op.Valid) (runs : (runMemory checks defaultSymbolic ops).isSome)
    (split : ops.reverse = before ++ op :: after) (inside : i < size)
    (touched : op.touches (addr + BitVec.ofNat 64 i) = true)
    (silent : ∀ other ∈ before, other.touches (addr + BitVec.ofNat 64 i) = false) :
    ∃ mem : SymMemory BV, mem.Records defaultSymbolic (highlight before op after) ∧
      ∀ m : Model, (mem.readConcrete addr size).byte m i = some 255 := by
  have validHistory : ∀ other ∈ before ++ op :: after, other.Valid := fun other member =>
    valid other (mem_reverse.mp (split ▸ member))
  have shape : List.Forall₂ MemoryOp.SameShape ops (highlight before op after).reverse := by
    rw [← reverse_reverse ops, split]
    exact rel_reverse forall₂_highlight
  have validReversed : ∀ other ∈ (highlight before op after).reverse, other.Valid :=
    fun other member => valid_highlight validHistory other (mem_reverse.mp member)
  obtain ⟨mem, run⟩ := isSome_iff_exists.mp
    (isSome_foldlM_of_sameShape shape (.new defaultSymbolic) (.new defaultSymbolic) runs)
  have records := runMemory_records validReversed run
  rw [reverse_reverse] at records
  refine ⟨mem, records, fun m => ?_⟩
  have right := (always _ validReversed shape mem run).2 m i inside
  have quiet : (before.map (MemoryOp.fill false)).findSome?
      (MemoryOp.cell (addr + BitVec.ofNat 64 i)) = none :=
    MemoryOp.findSome?_cell_none fun other member => by
      obtain ⟨old, inOld, rfl⟩ := List.mem_map.mp member
      rw [MemoryOp.touches_fill]
      exact silent old inOld
  obtain ⟨⟨w, off⟩, written⟩ := isSome_iff_exists.mp
    (show (op.fill true).touches _ = true from MemoryOp.touches_fill.trans touched)
  rw [right, lastWritten, reverse_reverse, highlight, List.findSome?_append, quiet,
    List.findSome?_cons, written]
  exact MemoryOp.byte_fill (validHistory op (by simp)) written m

theorem any_covers_highlight : (highlight before op after).any (·.covers addr size) =
    (before ++ op :: after).any (·.covers addr size) := by
  simp [highlight, MemoryOp.covers_fill, Function.comp_def]

/-- A byte of an uncovered read of a history with one operation highlighted is
clear, unless that operation stored it and every byte of the read is known. -/
theorem byte_highlight_uncovered {mem : SymMemory BV}
    (records : mem.Records defaultSymbolic (highlight before op after))
    (valid : ∀ other ∈ before ++ op :: after, other.Valid) (small : size ≤ 8)
    (uncovered : (before ++ op :: after).any (·.covers addr size) = false)
    (hidden : op.storesConcrete = false ∨ ∃ i < size, ∀ other ∈ before ++ op :: after,
      other.touches (addr + BitVec.ofNat 64 i) = false)
    (zeros : ∀ name bits, Z3.value m (Z3.newConst name bits : BV) = 0)
    (inside : i < size) : (mem.readConcrete addr size).byte m i = some 0 := by
  rw [readConcrete_of_not_covered records (any_covers_highlight.trans uncovered)]
  obtain ⟨found, -⟩ := concreteWord_spec mem addr small
  cases assembled : mem.concreteWord addr size with
  | none =>
    dsimp only
    unfold SymMemory.defaultRead
    split
    · simp [SymValue.newSymbolic, SymValue.byte, SymValue.denote, zeros]
    · rw [byte_ofWord (by simp) inside]
      simp
  | some word =>
    obtain ⟨below, bytes⟩ := found word assembled
    obtain ⟨byte, stored, digit⟩ := bytes i inside
    rw [records.lookup] at stored
    obtain ⟨storer, member, stores⟩ := exists_of_findSome?_eq_some stored
    obtain ⟨known, w, off, written, value⟩ := MemoryOp.concreteByte_spec
      (valid_highlight valid storer member) stores
    rw [byte_ofWord below inside, digit, ← value m]
    rcases mem_highlight member with rfl | ⟨old, inOld, rfl⟩
    · rw [MemoryOp.storesConcrete_fill] at known
      rcases hidden with unknown | ⟨j, insideJ, untouched⟩
      · simp [unknown] at known
      · -- A byte nothing wrote is not in the map.
        obtain ⟨byteJ, storedJ, -⟩ := bytes j insideJ
        rw [records.lookup] at storedJ
        obtain ⟨storerJ, memberJ, storesJ⟩ := exists_of_findSome?_eq_some storedJ
        have touchesJ := MemoryOp.touches_of_concreteByte
          (valid_highlight valid storerJ memberJ) storesJ
        rcases mem_highlight memberJ with rfl | ⟨oldJ, inOldJ, rfl⟩
        · rw [MemoryOp.touches_fill, untouched op (by simp)] at touchesJ
          simp at touchesJ
        · rw [MemoryOp.touches_fill, untouched oldJ inOldJ] at touchesJ
          simp at touchesJ
    · exact MemoryOp.byte_fill (valid old inOld) written m

theorem faithful_map_fill {history : List (MemoryOp BV)} :
    Faithful defaultSymbolic (history.map (MemoryOp.fill false)) addr size ↔
      Faithful defaultSymbolic history addr size := by
  have touches : ∀ x, (MemoryOp.touches x ∘ MemoryOp.fill false : MemoryOp BV → Bool) =
      MemoryOp.touches x := fun x => funext fun _ => MemoryOp.touches_fill
  unfold Faithful
  simp only [List.any_map, takeWhile_map, List.find?_map, touches, List.forall_mem_map,
    MemoryOp.touches_fill, Function.comp_def, MemoryOp.covers_fill, map_eq_some_iff]
  simp only [exists_exists_and_eq_and, MemoryOp.storesConcrete_fill]

private theorem faithful_congr {history history' : List (MemoryOp BV)}
    (shape : List.Forall₂ MemoryOp.SameShape history history') :
    Faithful defaultSymbolic history addr size ↔ Faithful defaultSymbolic history' addr size := by
  have same : history.map (MemoryOp.fill false) = history'.map (MemoryOp.fill false) := by
    induction shape with
    | nil => rfl
    | cons head _ ih =>
      rw [map_cons, map_cons, head.fill_eq, ih]
  rw [← faithful_map_fill, same, faithful_map_fill]

section Necessity

variable (always : RefinesAlways checks defaultSymbolic ops addr size)
variable (valid : ∀ op ∈ ops, op.Valid)
variable (runs : (runMemory checks defaultSymbolic ops).isSome)
variable (positive : 1 ≤ size) (small : size ≤ 8)

include always valid runs

include positive in
/-- A newer write into a covered read would show. -/
theorem untouched_of_covered (covered : ops.reverse.any (·.covers addr size) = true)
    {newer : MemoryOp BV} (inNewer : newer ∈ ops.reverse.takeWhile fun op => !op.covers addr size)
    (inside : i < size) : newer.touches (addr + BitVec.ofNat 64 i) = false := by
  by_contra touched
  have touched : newer.touches (addr + BitVec.ofNat 64 i) = true := by simpa using touched
  obtain ⟨op, newest⟩ := isSome_iff_exists.mp (List.find?_isSome.mpr ⟨newer, inNewer, touched⟩)
  have notCovers : op.covers addr size = false := by
    simpa using mem_takeWhile_imp (mem_of_find?_eq_some newest)
  have first : ops.reverse.find? (MemoryOp.touches (addr + BitVec.ofNat 64 i)) = some op := by
    rw [← takeWhile_append_dropWhile (p := fun op => !op.covers addr size) (l := ops.reverse),
      List.find?_append, newest]
    rfl
  obtain ⟨touches, before, after, split, silent⟩ := List.find?_eq_some_iff_append.mp first
  obtain ⟨mem, records, shown⟩ := read_highlight always valid runs split inside touches
    fun other member => by simpa using silent other member
  have validHistory : ∀ other ∈ before ++ op :: after, other.Valid := fun other member =>
    valid other (mem_reverse.mp (split ▸ member))
  rw [split] at covered
  obtain ⟨_, cover, _, decomposed, covers, -, -, bytes⟩ := readConcrete_of_covered records
    (valid_highlight validHistory) positive (any_covers_highlight.trans covered)
  obtain ⟨w, off, written, same⟩ := bytes i inside
  obtain ⟨m, -⟩ := @Z3.exists_model BV Formula Model _ fun _ _ => 0
  have clear : w.byte m off = some 0 := by
    rcases mem_highlight (decomposed ▸ (by simp) : cover ∈ highlight before op after) with
      rfl | ⟨old, inOld, rfl⟩
    · rw [MemoryOp.covers_fill, notCovers] at covers
      simp at covers
    · exact MemoryOp.byte_fill (validHistory old inOld) written m
  have contradiction := (same m).symm.trans (shown m)
  rw [clear] at contradiction
  simp at contradiction

/-- An uncovered read of bytes partly written, or written with unknown values,
would miss one. -/
theorem known_or_untouched (small : size ≤ 8)
    (uncovered : ops.reverse.any (·.covers addr size) = false) :
    (∀ i < size, ∃ op, ops.reverse.find? (MemoryOp.touches (addr + BitVec.ofNat 64 i)) = some op ∧
      op.storesConcrete = true) ∨
    ∀ i < size, ∀ op ∈ ops.reverse, op.touches (addr + BitVec.ofNat 64 i) = false := by
  by_contra neither
  obtain ⟨notKnown, written⟩ := not_or.mp neither
  obtain ⟨m, zero⟩ := @Z3.exists_model BV Formula Model _ fun _ _ => 0
  -- A byte whose newest writer the read cannot show.
  obtain ⟨i, inside, op, newest, hidden⟩ : ∃ i, i < size ∧ ∃ op,
      ops.reverse.find? (MemoryOp.touches (addr + BitVec.ofNat 64 i)) = some op ∧
      (op.storesConcrete = false ∨ ∃ j < size, ∀ other ∈ ops.reverse,
        other.touches (addr + BitVec.ofNat 64 j) = false) := by
    simp only [not_forall] at notKnown written
    obtain ⟨j, insideJ, notKnownJ⟩ := notKnown
    cases newestJ : ops.reverse.find? (MemoryOp.touches (addr + BitVec.ofNat 64 j)) with
    | some op =>
      refine ⟨j, insideJ, op, newestJ, Or.inl ?_⟩
      by_contra known
      exact notKnownJ ⟨op, newestJ, by simpa using known⟩
    | none =>
      obtain ⟨i, inside, toucher, member, touched⟩ := written
      obtain ⟨op, newest⟩ := isSome_iff_exists.mp
        (List.find?_isSome.mpr ⟨toucher, member, by simpa using touched⟩)
      exact ⟨i, inside, op, newest, Or.inr ⟨j, insideJ, fun other inHistory => by
        simpa using List.find?_eq_none.mp newestJ other inHistory⟩⟩
  obtain ⟨touches, before, after, split, silent⟩ := List.find?_eq_some_iff_append.mp newest
  obtain ⟨mem, records, shown⟩ := read_highlight always valid runs split inside touches
    fun other member => by simpa using silent other member
  rw [split] at uncovered hidden
  have clear := byte_highlight_uncovered records
    (fun other member => valid other (mem_reverse.mp (split ▸ member))) small uncovered hidden
    (fun name bits => (zero name bits).trans (Nat.zero_mod _)) inside
  simp [shown m] at clear

include positive in
/-- Symbolic defaults of a read and of its bytes are different constants. -/
theorem mode_of_untouched (uncovered : ops.reverse.any (·.covers addr size) = false)
    (small : size ≤ 8)
    (untouched : ∀ i < size, ∀ op ∈ ops.reverse, op.touches (addr + BitVec.ofNat 64 i) = false) :
    defaultSymbolic = false ∨ size = 1 := by
  by_contra neither
  obtain ⟨symbolic, wide⟩ := not_or.mp neither
  obtain ⟨m, assigned⟩ := @Z3.exists_model BV Formula Model _ fun _ bits =>
    if bits = 8 then 0 else 2 ^ bits - 1
  obtain ⟨mem, run⟩ := isSome_iff_exists.mp runs
  have records := runMemory_records valid run
  have validHistory : ∀ op ∈ ops.reverse, op.Valid := fun op member =>
    valid op (mem_reverse.mp member)
  have right := (always ops valid (List.forall₂_same.mpr fun op _ => MemoryOp.SameShape.refl op)
    mem run).2 m 0 positive
  have absent : mem.concreteWord addr size = none := by
    cases assembled : mem.concreteWord addr size with
    | none => rfl
    | some word =>
      obtain ⟨byte, stored, -⟩ := ((concreteWord_spec mem addr small).1 word assembled).2 0 positive
      rw [records.lookup, MemoryOp.findSome?_concreteByte_none validHistory
        (untouched 0 positive)] at stored
      simp at stored
  rw [readConcrete_of_not_covered records uncovered, absent, lastWritten,
    MemoryOp.findSome?_cell_none (untouched 0 positive)] at right
  dsimp only at right
  have mode : defaultSymbolic = true := by simpa using symbolic
  rw [byte_default_symbolic (records.mode.trans mode) positive,
    byte_default_symbolic mode le_rfl, assigned, assigned, if_neg (by omega), if_pos rfl] at right
  obtain ⟨rest, restPositive, power⟩ : ∃ rest, 0 < rest ∧ 2 ^ (size * 8) = 2 ^ 8 * rest :=
    ⟨2 ^ ((size - 1) * 8), Nat.two_pow_pos _, by rw [← Nat.pow_add]; congr 1; omega⟩
  rw [Nat.mod_eq_of_lt (Nat.sub_one_lt (Nat.two_pow_pos _).ne'), power] at right
  simp only [Nat.zero_mul, Nat.pow_zero, Nat.div_one, Nat.zero_mod, Option.some.injEq] at right
  omega

end Necessity

/-- The reads that give the bytes written last, whatever these are: exactly
those of a faithful history. -/
theorem refinesAlways_iff (valid : ∀ op ∈ ops, op.Valid)
    (runs : (runMemory checks defaultSymbolic ops).isSome) (positive : 1 ≤ size)
    (small : size ≤ 8) :
    RefinesAlways checks defaultSymbolic ops addr size ↔
      Faithful defaultSymbolic ops.reverse addr size := by
  constructor
  · intro always
    unfold Faithful
    split
    · rename_i covered
      exact fun newer inNewer i inside =>
        untouched_of_covered always valid runs positive covered inNewer inside
    · rename_i covered
      have uncovered : ops.reverse.any (·.covers addr size) = false := by simpa using covered
      refine (known_or_untouched always valid runs small uncovered).imp_right fun untouched =>
        ⟨untouched, mode_of_untouched always valid runs positive uncovered small untouched⟩
  · intro faithful ops' valid' shape
    exact refines_of_faithful valid' positive small
      ((faithful_congr (rel_reverse shape)).mp faithful)

/-- A byte over a word already written. -/
def narrowAfterWide : List (MemoryOp Term) :=
  [.write 0x1000 (.concrete 0x1122334455667788 64 0) 8, .write 0x1000 (.concrete 0xff 8 0) 1]

/-- The word is read as it was before the byte was written. -/
theorem narrowAfterWide_not_refined : (∀ op ∈ narrowAfterWide, op.Valid) ∧
    ¬ Refines false false narrowAfterWide 0x1000 8 := by
  refine ⟨by simp [narrowAfterWide, MemoryOp.Valid, SymValue.WellSorted], fun refined => ?_⟩
  have first := (refined _ rfl).2 (fun _ _ => 0) 0 (by decide)
  revert first
  decide +kernel

/-- The same operations in the other order. -/
def wideAfterNarrow : List (MemoryOp Term) :=
  [.write 0x1000 (.concrete 0xff 8 0) 1, .write 0x1000 (.concrete 0x1122334455667788 64 0) 8]

theorem refinesAlways_wideAfterNarrow :
    RefinesAlways false false wideAfterNarrow 0x1000 8 := by
  have valid : ∀ op ∈ wideAfterNarrow, op.Valid := by
    simp [wideAfterNarrow, MemoryOp.Valid, SymValue.WellSorted]
  refine (refinesAlways_iff valid rfl (by decide) (by decide)).mpr ?_
  rw [Faithful, if_pos (by decide +kernel)]
  decide +kernel

end Exact

end R2Sleigh.Sym
