import R2Sleigh.Sym.FastPaths
import R2Sleigh.Sym.MemoryTargets
import R2Sleigh.Sym.Summaries

/-!
Contract: the memory summaries, byte by byte.

The last address of the space is left out: a value that is not constant is not read back
there.
-/

namespace R2Sleigh.Sym

open Lib Ssa SymMemory List Option SymValue

variable {BV Formula Model : Type}

/-! ## Memories -/

namespace SymMemory

section Sized

variable [Z3 BV Formula Model] {mem : SymMemory BV} {addr value : SymValue BV} {size : Nat}

theorem sized_new (defaultSymbolic : Bool) : (new defaultSymbolic : SymMemory BV).Sized :=
  fun _ member => absurd member not_mem_nil

theorem Sized.push (sized : mem.Sized) (sorted : value.WellSorted) (width : value.bits = size * 8)
    {mem' : SymMemory BV} (log : mem'.symbolicWrites = mem.symbolicWrites ++ [(addr, value, size)]) :
    mem'.Sized := by
  intro write member
  rw [log, mem_append, mem_singleton] at member
  rcases member with older | rfl
  · exact sized write older
  · exact ⟨sorted, width⟩

private theorem wellSorted_slice {v : SymValue BV} {writeAddr x : Word} {writeSize : Nat}
    (sorted : v.WellSorted) (width : v.bits = writeSize * 8) (covered : Covers writeAddr writeSize x size)
    (positive : 1 ≤ size) : (slice v writeAddr writeSize x size).WellSorted := by
  obtain ⟨-, -, starts, ends⟩ := covered
  unfold slice
  dsimp only
  split_ifs with whole
  · exact sorted
  · exact sorted.extract (by omega) (by omega)

theorem Sized.readConcrete (sized : mem.Sized) (positive : 1 ≤ size) (x : Word) :
    (mem.readConcrete x size).WellSorted ∧ (mem.readConcrete x size).bits = size * 8 := by
  have wide : max (size * 8) 1 = size * 8 := by omega
  unfold SymMemory.readConcrete
  cases logged : mem.loggedRead x size with
  | some v =>
    obtain ⟨write, member, takes⟩ := exists_of_findSome?_eq_some logged
    obtain ⟨sorted, width⟩ := sized write (mem_reverse.mp member)
    unfold takenFrom at takes
    split at takes
    · split at takes
      · rename_i covered
        cases takes
        exact ⟨wellSorted_slice sorted width covered positive,
          (slice_spec sorted width covered positive).1⟩
      · cases takes
    · cases takes
  | none =>
    have word : ∀ w : Word, (ofWord w (size * 8) : SymValue BV).WellSorted ∧
        (ofWord w (size * 8) : SymValue BV).bits = size * 8 := fun w =>
      ⟨le_max_right _ _, wide⟩
    cases mem.concreteWord x size with
    | some w => exact word w
    | none =>
      dsimp only
      unfold defaultRead
      split
      · exact ⟨⟨le_max_right _ _, Z3.size_newConst _ _⟩, wide⟩
      · exact word 0

theorem Sized.isByte (sized : mem.Sized) (x : Word) : IsByte (mem.readConcrete x 1) :=
  (sized.readConcrete le_rfl x).symm

section

variable (sized : mem.Sized) (sorted : value.WellSorted) (width : value.bits = size * 8)
include sized sorted width

theorem Sized.writeAt (target : Word) : (mem.writeAt addr target value size).Sized :=
  sized.push sorted width rfl

theorem Sized.writeTarget
    (positive : 1 ≤ size) (addrBv : BV) (target : Word) (fresh : Nat) :
    (writeTarget addr value addrBv size mem target fresh).1.Sized := by
  have wide : 1 ≤ size * 8 := by omega
  have existing := wellSorted_adjustBits (sized.readConcrete positive target).1 wide
  have existingWidth : (adjustBits (mem.readConcrete target size) (size * 8)).bits = size * 8 :=
    bits_adjustBits wide
  have sizes : Z3.size (value.toBv fresh) =
      Z3.size ((adjustBits (mem.readConcrete target size) (size * 8)).toBv (fresh + 1)) := by
    rw [size_toBv sorted, size_toBv existing, width, existingWidth]
  have normal : normalizeBvBits (size * 8) = size * 8 := max_eq_left wide
  have merged : Z3.size (Z3.ite (Z3.eq addrBv (Z3.fromU64 target addr.bits)) (value.toBv fresh)
      ((adjustBits (mem.readConcrete target size) (size * 8)).toBv (fresh + 1))) =
      normalizeBvBits (size * 8) :=
    (Z3.size_ite _ _ _ sizes).trans ((size_toBv sorted fresh).trans (width.trans normal.symm))
  have mergedSorted : ∀ taint, (symbolic _ (normalizeBvBits (size * 8))
      taint).WellSorted := fun _ => ⟨le_max_right _ _, merged⟩
  exact sized.push (mergedSorted _) normal rfl

end

end Sized

/-! ## Writes of a byte -/

section WriteByte

variable [Z3 BV Formula Model] {mem : SymMemory BV} {addr byte : SymValue BV} {target x : Word}

def byteAt (m : Model) (mem : SymMemory BV) (x : Word) : Option Nat := (mem.readConcrete x 1).denote m

theorem lookup_writeAt_byte : (mem.writeAt addr target byte 1).concrete.lookup x =
    if x = target then (byte.asConcrete.map (·.setWidth 8)).or (mem.concrete.lookup x)
    else mem.concrete.lookup x := by
  unfold writeAt
  cases byte.asConcrete with
  | none => simp
  | some word =>
    have bytes : wordBytes word 1 = [word.setWidth 8] := by simp [wordBytes]
    have start : target + BitVec.ofNat 64 0 = target := BitVec.add_zero target
    dsimp only
    rw [bytes, insertBytes, zipIdx_singleton, foldl_cons, foldl_nil, start]
    by_cases same : x = target
    · subst same
      simp
    · rw [AList.lookup_insert_ne same, if_neg same]

section

variable (concrete : addr.asConcrete = some target)
include concrete

theorem readConcrete_writeAt_ne (other : x ≠ target) :
    (mem.writeAt addr target byte 1).readConcrete x 1 = mem.readConcrete x 1 := by
  have elsewhere : ¬ (addr.asConcrete = some x ∧ x ≠ lastAddress) := fun both =>
    other (some.inj (both.1.symm.trans concrete))
  refine readConcrete_unlogged rfl elsewhere ?_ rfl
  rw [lookup_writeAt_byte, if_neg other]

theorem readConcrete_writeAt_self (low : target ≠ lastAddress) :
    (mem.writeAt addr target byte 1).readConcrete target 1 = byte :=
  readConcrete_logged rfl concrete low

/-- At the last address a byte is written or, where it is not constant, lost. -/
theorem byteAt_writeAt_self (isByte : IsByte byte)
    (m : Model) : byteAt m (mem.writeAt addr target byte 1) target = byte.denote m ∨
      byteAt m (mem.writeAt addr target byte 1) target = byteAt m mem target := by
  unfold byteAt
  by_cases low : target ≠ lastAddress
  · rw [readConcrete_writeAt_self concrete low]
    exact Or.inl rfl
  · obtain rfl := not_not.mp low
    rw [readConcrete_lastAddress, readConcrete_lastAddress, lookup_writeAt_byte, if_pos rfl]
    cases isWord : byte.asConcrete with
    | none =>
      right
      rfl
    | some word =>
      left
      cases byte with
      | concrete value bits taint =>
        obtain rfl := some.inj isWord
        have width : bits = 8 := isByte.1
        subst width
        show some ((BitVec.setWidth 64 (BitVec.setWidth 8 value)).toNat % 2 ^ 8) = _
        rw [BitVec.toNat_setWidth, BitVec.toNat_setWidth]
        have small := Nat.mod_lt value.toNat (Nat.two_pow_pos 8)
        rw [Nat.mod_eq_of_lt (lt_trans small (by decide)), Nat.mod_mod]
        rfl
      | symbolic | unknown => cases isWord

end

end WriteByte

end SymMemory

/-! ## Addresses -/

section Regions

variable {p : SymValue BV} {base : Word} {length offset : Nat}

/-- A known pointer with room for so many bytes. -/
structure Region (p : SymValue BV) (base : Word) (length : Nat) : Prop where
  known : p.asConcrete = some base
  inSpace : base.toNat + length ≤ 2 ^ 64
  inWidth : base.toNat + length ≤ 2 ^ p.bits

/-- No byte in common. -/
def Separate (dst src : Word) (length : Nat) : Prop :=
  dst.toNat + length ≤ src.toNat ∨ src.toNat + length ≤ dst.toNat

/-- An offset from an address, in the width of a sum. -/
def offsetAddr (base : Word) (bits offset : Nat) : Word :=
  (base + BitVec.ofNat 64 offset) &&& lowMask bits

theorem toNat_add_offset (inSpace : base.toNat + offset < 2 ^ 64) :
    (base + BitVec.ofNat 64 offset).toNat = base.toNat + offset := by
  rw [BitVec.toNat_add, BitVec.toNat_ofNat, Nat.mod_eq_of_lt (by omega : offset < 2 ^ 64),
    Nat.mod_eq_of_lt inSpace]

theorem offsetAddr_eq {bits : Nat} (inSpace : base.toNat + offset < 2 ^ 64)
    (inWidth : base.toNat + offset < 2 ^ bits) :
    offsetAddr base bits offset = base + BitVec.ofNat 64 offset := by
  unfold offsetAddr
  by_cases small : bits ≤ 64
  · rw [and_lowMask_of_lt small]
    rwa [toNat_add_offset inSpace]
  · rw [lowMask, if_pos (by omega), BitVec.and_allOnes]

private theorem Region.offset_inj (region : Region p base length) {i j : Nat} (iInside : i < length)
    (jInside : j < length) (same : base + BitVec.ofNat 64 i = base + BitVec.ofNat 64 j) : i = j := by
  have inSpace := region.inSpace
  have sameNat := congrArg BitVec.toNat same
  rw [toNat_add_offset (by omega), toNat_add_offset (by omega)] at sameNat
  omega

private theorem Separate.offset_ne {dst src : Word} (separate : Separate dst src length)
    (dstFits : dst.toNat + length ≤ 2 ^ 64) (srcFits : src.toNat + length ≤ 2 ^ 64) {i j : Nat}
    (iInside : i < length) (jInside : j < length) :
    src + BitVec.ofNat 64 i ≠ dst + BitVec.ofNat 64 j := by
  intro same
  have sameNat := congrArg BitVec.toNat same
  rw [toNat_add_offset (by omega), toNat_add_offset (by omega)] at sameNat
  unfold Separate at separate
  omega

variable [Z3Arith BV Formula Model]

theorem add_offset (known : p.asConcrete = some base) (bits offset fresh : Nat) :
    ∃ taint, p.add (.ofWord (BitVec.ofNat 64 offset) bits) fresh =
      (.concrete (offsetAddr base (max p.bits (normalizeBvBits bits)) offset)
        (max p.bits (normalizeBvBits bits)) taint, fresh) := by
  cases p with
  | concrete word own taint =>
    cases known
    exact ⟨_, rfl⟩
  | symbolic | unknown => cases known

theorem Region.offsetAddr_eq (region : Region p base length) (inside : offset < length) {bits : Nat}
    (wider : p.bits ≤ bits) : offsetAddr base bits offset = base + BitVec.ofNat 64 offset := by
  have inSpace := region.inSpace
  have inWidth := region.inWidth
  have wide := Nat.pow_le_pow_right (n := 2) (by decide) wider
  exact R2Sleigh.Sym.offsetAddr_eq (by omega) (by omega)

end Regions

/-! ## Rounds -/

section Rounds

variable [Z3Arith BV Formula Model] {enumerate : Enumerator BV Formula} {dst n : SymValue BV}
variable {source : SymState BV Formula → SymValue BV → Fresh (SymValue BV)}
variable {state : SymState BV Formula} {base : Word} {offset fresh : Nat}

def withByte (state : SymState BV Formula) (addr : SymValue BV) (target : Word) (byte : SymValue BV) :
    SymState BV Formula :=
  { state with memory := state.memory.writeAt addr target byte 1 }

theorem memWrite_byte {addr byte : SymValue BV} {target : Word}
    (concrete : addr.asConcrete = some target) (isByte : IsByte byte) :
    state.memWrite enumerate addr byte 1 fresh = (withByte state addr target byte, fresh) := by
  have width : adjustBits byte (1 * 8) = byte := adjustBits_self isByte.1
  unfold SymState.memWrite SymMemory.writeWithConstraints
  rw [concrete, width]
  rfl

theorem memRead_byte {addr : SymValue BV} {target : Word} (concrete : addr.asConcrete = some target) :
    state.memRead enumerate addr 1 fresh = (state.memory.readConcrete target 1, fresh) := by
  unfold SymState.memRead SymMemory.readWithConstraints
  rw [concrete]
  rfl

/-- Under a length that is not known, the term of a round is the byte of the source where the
offset lies below the length, else the old byte. -/
theorem merged_spec {byte old : SymValue BV} (byteSorted : IsByte byte) (oldSorted : IsByte old)
    (cond : Formula) (freshByte freshOld : Nat) (taint : Word) :
    IsByte (.symbolic (Z3.ite cond (byte.toBv freshByte) (old.toBv freshOld))
      (normalizeBvBits 8) taint) ∧
      ∀ (m : Model) v, (Z3.holds BV m cond → byte.denote m = some v) →
        (¬ Z3.holds BV m cond → old.denote m = some v) →
          Z3.value m (Z3.ite cond (byte.toBv freshByte) (old.toBv freshOld)) = v := by
  have sizes : Z3.size (byte.toBv freshByte) = Z3.size (old.toBv freshOld) := by
    rw [size_toBv byteSorted.2, size_toBv oldSorted.2, byteSorted.1, oldSorted.1]
  refine ⟨⟨rfl, by decide, ?_⟩, fun m v taken kept => ?_⟩
  · rw [Z3.size_ite _ _ _ sizes, size_toBv byteSorted.2, byteSorted.1]
    rfl
  · by_cases holds : Z3.holds BV m cond
    · rw [Z3.value_ite_of_holds m _ _ _ sizes holds]
      exact value_toBv byteSorted.2 _ (taken holds)
    · rw [Z3.value_ite_of_not m _ _ _ sizes holds]
      exact value_toBv oldSorted.2 _ (kept holds)

/-- The formula of a round holds where the offset lies below the length. -/
theorem offsetBelow_spec (notConcrete : n.isConcrete = false) (sorted : n.WellSorted)
    (offset fresh : Nat) :
    ∃ (below : Formula) (taint : Word),
      (ofWord (BitVec.ofNat 64 offset) n.bits).ult n fresh = (flag below taint, fresh + 2) ∧
      ∀ (m : Model) k, n.denote m = some k →
        (Z3.holds BV m (Z3.eq ((flag below taint : SymValue BV).toBv (fresh + 2))
          (Z3.fromU64 1 1)) ↔ offset % 2 ^ 64 % 2 ^ n.bits < k) := by
  have normal : normalizeBvBits n.bits = n.bits := max_eq_left sorted.one_le_bits
  have indexSorted : (ofWord (BitVec.ofNat 64 offset) n.bits : SymValue BV).WellSorted :=
    le_max_right _ _
  have indexBits : (ofWord (BitVec.ofNat 64 offset) n.bits : SymValue BV).bits = n.bits := normal
  obtain ⟨s, t, compared, sizeS, sizeT, values⟩ := compareTerm_spec
    (Z3Arith.compare .bvult) indexSorted sorted fresh
  rw [indexBits, max_self] at sizeS sizeT
  refine ⟨Z3Arith.compare .bvult s t, (ofWord (BitVec.ofNat 64 offset) n.bits :
    SymValue BV).getTaint ||| n.getTaint, ?_, fun m k isK => ?_⟩
  · rw [ult, compareWith_eq_compareTerm _ _ (Or.inr notConcrete)]
    exact compared
  · have valueS : Z3.value m s = offset % 2 ^ 64 % 2 ^ n.bits := by
      rw [(values m).1, ofWord, toBv, Z3.value_fromU64, normal,
        normalizeBvBits, max_eq_left sorted.one_le_bits, BitVec.toNat_ofNat]
    have valueT : Z3.value m t = k := (values m).2.trans (value_toBv sorted _ isK)
    have boundT : k < 2 ^ n.bits := denote_lt sorted isK
    have below : Z3.holds BV m (Z3Arith.compare .bvult s t) ↔ offset % 2 ^ 64 % 2 ^ n.bits < k := by
      rw [Z3Arith.holds_compare m .bvult s t n.bits sizeS sizeT, Z3.word, Z3.word, valueS, valueT]
      show (BitVec.ult _ _) = true ↔ _
      rw [BitVec.ult, decide_eq_true_iff, BitVec.toNat_ofNat, BitVec.toNat_ofNat, Nat.mod_mod,
        Nat.mod_eq_of_lt boundT]
    classical
    rw [flag, toBv,
      Z3.holds_eq m _ _ ((size_flag _).trans (Z3.size_fromU64 _ _).symm),
      Z3.value_fromU64, ← below]
    refine (Eq.congr_left (value_flag _ m)).trans ?_
    by_cases holds : Z3.holds BV m (Z3Arith.compare .bvult s t)
    · simp [holds, ofBool]
    · simp [holds, ofBool]

/-- The offset lies below the length, as a round decides it. -/
def Below (n : SymValue BV) (offset k : Nat) : Prop :=
  n.isConcrete = true ∨ offset % 2 ^ 64 % 2 ^ n.bits < k

variable (enumerate) in
/-- A round writes one byte: that of the source where the offset lies below the length, else the
old one. -/
theorem fillByte_spec (known : dst.asConcrete = some base) (positive : 1 ≤ dst.bits)
    (sorted : n.WellSorted) (sized : state.memory.Sized) {byte : SymValue BV} {fresh' : Nat}
    (fetched : source state (.ofWord (BitVec.ofNat 64 offset) dst.bits) fresh = (byte, fresh'))
    (isByte : IsByte byte) :
    ∃ addr written fresh'', fillByte enumerate dst n source state offset fresh =
        (withByte state addr (offsetAddr base dst.bits offset) written, fresh'') ∧
      addr.asConcrete = some (offsetAddr base dst.bits offset) ∧ IsByte written ∧
      ∀ (m : Model) k v, n.denote m = some k →
        (Below n offset k → byte.denote m = some v) →
        (¬ Below n offset k → byteAt m state.memory (offsetAddr base dst.bits offset) = some v) →
        written.denote m = some v := by
  have normal : max dst.bits (normalizeBvBits dst.bits) = dst.bits := by
    rw [normalizeBvBits, max_eq_left positive, max_self]
  obtain ⟨taint, added⟩ := add_offset known dst.bits offset fresh
  rw [normal] at added
  have concrete : (concrete (offsetAddr base dst.bits offset) dst.bits taint :
      SymValue BV).asConcrete = some (offsetAddr base dst.bits offset) := rfl
  unfold fillByte
  simp only [bind, StateT.bind, added, fetched]
  by_cases constant : n.isConcrete = true
  · rw [if_pos constant]
    refine ⟨_, byte, _, memWrite_byte concrete isByte, concrete, isByte, fun m k v _ taken _ => ?_⟩
    exact taken (Or.inl constant)
  · have notConcrete : n.isConcrete = false := by simpa using constant
    obtain ⟨below, flagTaint, compared, holds⟩ := offsetBelow_spec notConcrete sorted offset fresh'
    rw [if_neg constant]
    simp only [bind, StateT.bind, nextFresh, memRead_byte concrete, compared]
    obtain ⟨mergedByte, value⟩ := merged_spec isByte (sized.isByte (offsetAddr base dst.bits offset))
      (Z3.eq ((flag below flagTaint : SymValue BV).toBv (fresh' + 2)) (Z3.fromU64 1 1))
      (fresh' + 3) (fresh' + 4)
      (byte.getTaint ||| (state.memory.readConcrete (offsetAddr base dst.bits offset) 1).getTaint |||
        n.getTaint)
    refine ⟨_, _, _, memWrite_byte concrete mergedByte, concrete, mergedByte,
      fun m k v isK taken kept => congrArg some (value m v (fun isBelow => ?_) fun notBelow => ?_)⟩
    · exact taken (Or.inr ((holds m k isK).mp isBelow))
    · refine kept fun isBelow => notBelow ((holds m k isK).mpr ?_)
      exact isBelow.resolve_left constant

/-! ## Loops -/

/-- Only memory changed, and there only at the addresses of the first offsets. -/
structure Touched (old : SymState BV Formula) (address : Nat → Word) (rounds : Nat)
    (state : SymState BV Formula) : Prop where
  memoryOnly : state = { old with memory := state.memory }
  sized : state.memory.Sized
  untouched : ∀ x, (∀ i < rounds, x ≠ address i) →
    state.memory.readConcrete x 1 = old.memory.readConcrete x 1

/-- In a model with `k` as the length, the first offsets below it hold the bytes of the source, and
every other address what it held. -/
structure FilledTo (m : Model) (old mem : SymMemory BV) (address : Nat → Word)
    (sources : Nat → SymValue BV) (k rounds : Nat) : Prop where
  filled : ∀ i < rounds, i < k → address i ≠ lastAddress → ∀ v,
    (sources i).denote m = some v → byteAt m mem (address i) = some v
  kept : ∀ x v, (∀ i < rounds, i < k → x ≠ address i) → byteAt m old x = some v →
    byteAt m mem x = some v

def GivesBytes (dst : SymValue BV)
    (source : SymState BV Formula → SymValue BV → Fresh (SymValue BV)) : Prop :=
  ∀ state : SymState BV Formula, state.memory.Sized → ∀ offset fresh,
    IsByte (source state (.ofWord (BitVec.ofNat 64 offset) dst.bits) fresh).1

/-- Below the length a source gives the byte of the state before the loop, as long as the rounds
before are the only changes. -/
def Supplies (dst : SymValue BV) (address : Nat → Word) (old : SymState BV Formula)
    (source : SymState BV Formula → SymValue BV → Fresh (SymValue BV))
    (sources : Nat → SymValue BV) (length : Nat) : Prop :=
  ∀ state offset fresh, offset < length → Touched old address offset state →
    (source state (.ofWord (BitVec.ofNat 64 offset) dst.bits) fresh).1 = sources offset

section

variable {address : Nat → Word} {addr written : SymValue BV}

theorem Touched.withByte {old : SymState BV Formula} {rounds : Nat}
    (touched : Touched old address rounds state)
    (concrete : addr.asConcrete = some (address rounds)) (isByte : IsByte written) :
    Touched old address (rounds + 1) (withByte state addr (address rounds) written) where
  memoryOnly := by
    rw [R2Sleigh.Sym.withByte, touched.memoryOnly]
  sized := touched.sized.writeAt isByte.2 isByte.1 _
  untouched x apart := by
    have other : x ≠ address rounds := apart rounds (Nat.lt_succ_self rounds)
    exact (readConcrete_writeAt_ne concrete other).trans
      (touched.untouched x fun i earlier => apart i (Nat.lt_succ_of_lt earlier))

theorem FilledTo.withByte {m : Model} {old mem : SymMemory BV}
    {sources : Nat → SymValue BV} {k rounds : Nat}
    (done : FilledTo m old mem address sources k rounds)
    (apart : ∀ i < k, ∀ j < k, address i = address j → i = j)
    (concrete : addr.asConcrete = some (address rounds)) (isByte : IsByte written)
    (taken : rounds < k → ∀ v, (sources rounds).denote m = some v → written.denote m = some v)
    (left : ¬ rounds < k → ∀ v, byteAt m mem (address rounds) = some v → written.denote m = some v) :
    FilledTo m old (mem.writeAt addr (address rounds) written 1) address sources k (rounds + 1) := by
  have elsewhere : ∀ x, x ≠ address rounds →
      byteAt m (mem.writeAt addr (address rounds) written 1) x = byteAt m mem x := fun x other =>
    congrArg (denote m) (readConcrete_writeAt_ne concrete other)
  -- Past the length the byte written is the old one.
  have past : ¬ rounds < k → ∀ x v, byteAt m mem x = some v →
      byteAt m (mem.writeAt addr (address rounds) written 1) x = some v := by
    intro beyond x v holds
    by_cases same : x = address rounds
    · subst same
      rcases byteAt_writeAt_self concrete isByte m with isWritten | isOld
      · rw [isWritten, left beyond v holds]
      · rw [isOld, holds]
    · rw [elsewhere x same, holds]
  refine ⟨fun i inRounds below notLast v isSource => ?_, fun x v outside holds => ?_⟩
  · by_cases this : i = rounds
    · subst this
      show (SymMemory.readConcrete _ _ 1).denote m = some v
      rw [readConcrete_writeAt_self concrete notLast]
      exact taken below v isSource
    · have before := done.filled i (by omega) below notLast v isSource
      by_cases roundBelow : rounds < k
      · have other : address i ≠ address rounds := fun same =>
          this (apart i below rounds roundBelow same)
        rw [elsewhere _ other, before]
      · exact past roundBelow _ v before
  · have before := done.kept x v (fun i inRounds => outside i (by omega)) holds
    by_cases roundBelow : rounds < k
    · rw [elsewhere x (outside rounds (Nat.lt_succ_self rounds) roundBelow), before]
    · exact past roundBelow x v before

end

variable (enumerate) in
theorem fillRounds_spec (known : dst.asConcrete = some base) (positive : 1 ≤ dst.bits)
    (sorted : n.WellSorted) (sized : state.memory.Sized) (fresh : Nat)
    (givesBytes : GivesBytes dst source) (rounds : Nat) :
    ∃ final fresh', (List.range rounds).foldlM (fillByte enumerate dst n source) state fresh =
        (final, fresh') ∧
      Touched state (offsetAddr base dst.bits) rounds final ∧
      ∀ (m : Model) k length sources, n.denote m = some k →
        (∀ offset < rounds, Below n offset k ↔ offset < length) →
        (∀ i < length, ∀ j < length,
          offsetAddr base dst.bits i = offsetAddr base dst.bits j → i = j) →
        Supplies dst (offsetAddr base dst.bits) state source sources length →
        FilledTo m state.memory final.memory (offsetAddr base dst.bits) sources length rounds := by
  induction rounds with
  | zero =>
    refine ⟨state, fresh, rfl, ⟨rfl, sized, fun _ _ => rfl⟩, fun m k length sources _ _ _ _ => ?_⟩
    exact ⟨fun i none => absurd none (Nat.not_lt_zero i), fun x v _ holds => holds⟩
  | succ rounds ih =>
    obtain ⟨before, freshBefore, ran, touched, filled⟩ := ih
    have fetched : source before (.ofWord (BitVec.ofNat 64 rounds) dst.bits) freshBefore =
        ((source before (.ofWord (BitVec.ofNat 64 rounds) dst.bits) freshBefore).1,
          (source before (.ofWord (BitVec.ofNat 64 rounds) dst.bits) freshBefore).2) := rfl
    obtain ⟨addr, written, fresh', step, concrete, writtenByte, denotes⟩ :=
      fillByte_spec enumerate known positive sorted touched.sized fetched
        (givesBytes before touched.sized rounds freshBefore)
    refine ⟨_, fresh', ?_, touched.withByte concrete writtenByte, ?_⟩
    · rw [range_succ, foldlM_append]
      simp only [bind, StateT.bind, ran, foldlM_cons, step, foldlM_nil, pure, stateT_pure]
    · intro m k length sources isK decides apart supplies
      have thisRound := decides rounds (Nat.lt_succ_self rounds)
      have done := filled m k length sources isK (fun offset earlier =>
        decides offset (Nat.lt_succ_of_lt earlier)) apart supplies
      refine done.withByte apart concrete writtenByte (fun below v isSource => ?_)
        fun beyond v holds => ?_
      · refine denotes m k v isK (fun _ => ?_) fun notBelow => absurd (thisRound.mpr below) notBelow
        rw [supplies before rounds freshBefore below touched]
        exact isSource
      · exact denotes m k v isK (fun isBelow => absurd (thisRound.mp isBelow) beyond) fun _ => holds

/-! ## Lengths -/

/-- A bound that a length of the width can reach, or that leaves only the empty length. -/
def LengthFits (bound : Word) (bits : Nat) : Prop := bound.toNat < 2 ^ bits ∨ 2 ^ bits ∣ bound.toNat

theorem lengthFits_default (bits : Nat) :
    LengthFits defaultMaxMemcpy bits ∧ LengthFits defaultMaxMemset bits := by
  have fits : 0x1000 < 2 ^ bits ∨ 2 ^ bits ∣ 0x1000 := by
    by_cases small : bits ≤ 12
    · exact Or.inr (Nat.pow_dvd_pow 2 small)
    · have wide := Nat.pow_le_pow_right (n := 2) (by decide) (Nat.lt_of_not_le small)
      exact Or.inl (lt_of_lt_of_le (by decide) wide)
  exact ⟨fits, fits⟩

private theorem constrainRange_le {m : Model} {bound : Word} (sorted : n.WellSorted) {k : Nat}
    (isK : n.denote m = some k)
    (satisfies : ∀ c ∈ (state.constrainRange n 0 bound fresh).1.constraints, Z3.holds BV m c) :
    k ≤ bound.toNat % 2 ^ n.bits := by
  have added := satisfies (Z3.and BV
    (Z3Arith.compare .bvule (Z3.fromU64 0 n.bits) (n.toBv fresh))
    (Z3Arith.compare .bvule (n.toBv fresh) (Z3.fromU64 bound n.bits)))
      (mem_append_right _ (mem_singleton_self _))
  have below := ((Z3.holds_and m _ _).mp added).2
  rw [Z3Arith.holds_compare m .bvule _ _ n.bits (size_toBv sorted _) (Z3.size_fromU64 _ _),
    Z3.word, Z3.word, value_toBv sorted _ isK, Z3.value_fromU64] at below
  have below : BitVec.ule (BitVec.ofNat n.bits k) (BitVec.ofNat n.bits (bound.toNat % 2 ^ n.bits)) =
      true := below
  rwa [BitVec.ule, decide_eq_true_iff, BitVec.toNat_ofNat, BitVec.toNat_ofNat, Nat.mod_mod,
    Nat.mod_eq_of_lt (denote_lt sorted isK)] at below

/-- The bytes of a region as a summary should leave them: those of a source below the length, and
every other address as before. -/
structure Fills (m : Model) (old mem : SymMemory BV) (base : Word) (byte : Nat → Option Nat)
    (length : Nat) : Prop where
  filled : ∀ i < length, base + BitVec.ofNat 64 i ≠ lastAddress → ∀ v, byte i = some v →
    byteAt m mem (base + BitVec.ofNat 64 i) = some v
  kept : ∀ x v, (∀ i < length, x ≠ base + BitVec.ofNat 64 i) → byteAt m old x = some v →
    byteAt m mem x = some v

theorem FilledTo.fills {m : Model} {old mem : SymMemory BV} {sources : Nat → SymValue BV}
    {length rounds : Nat} (region : Region dst base length) (covered : length ≤ rounds)
    (done : FilledTo m old mem (offsetAddr base dst.bits) sources length rounds) :
    Fills m old mem base (fun i => (sources i).denote m) length := by
  have address : ∀ i < length, offsetAddr base dst.bits i = base + BitVec.ofNat 64 i :=
    fun i inside => region.offsetAddr_eq inside le_rfl
  refine ⟨fun i inside notLast v isSource => ?_, fun x v outside holds => ?_⟩
  · rw [← address i inside] at notLast ⊢
    exact done.filled i (lt_of_lt_of_le inside covered) inside notLast v isSource
  · refine done.kept x v (fun i _ inside => ?_) holds
    rw [address i inside]
    exact outside i inside

variable (enumerate) in
/-- What the loop of both summaries leaves in memory and in the constraints. -/
theorem fillBytes_spec (bound : Word) (known : dst.asConcrete = some base) (positive : 1 ≤ dst.bits)
    (proper : n.Proper) (lengthFits : LengthFits bound n.bits) (sized : state.memory.Sized)
    (fresh : Nat) (givesBytes : GivesBytes dst source) :
    ∃ final fresh', fillBytes enumerate dst n bound source state fresh = (final, fresh') ∧
      (n.isConcrete = true → final.constraints = state.constraints) ∧
      (∀ x, (∀ i < fillLength n bound, x ≠ offsetAddr base dst.bits i) →
        final.memory.readConcrete x 1 = state.memory.readConcrete x 1) ∧
      ∀ (m : Model) k sources, (∀ c ∈ final.constraints, Z3.holds BV m c) → n.denote m = some k →
        Region dst base (min k bound.toNat) →
        Supplies dst (offsetAddr base dst.bits)
          (if n.isConcrete then state else (state.constrainRange n 0 bound fresh).1) source sources
          (min k bound.toNat) →
        Fills m state.memory final.memory base (fun i => (sources i).denote m)
          (min k bound.toNat) := by
  have apart : ∀ {length}, Region dst base length → ∀ i < length, ∀ j < length,
      offsetAddr base dst.bits i = offsetAddr base dst.bits j → i = j := by
    intro length region i iInside j jInside same
    rw [region.offsetAddr_eq iInside le_rfl, region.offsetAddr_eq jInside le_rfl] at same
    exact region.offset_inj iInside jInside same
  unfold fillBytes
  by_cases constant : n.isConcrete = true
  · obtain ⟨final, fresh', ran, touched, filled⟩ := fillRounds_spec enumerate known positive proper.1
      sized fresh givesBytes (fillLength n bound)
    have kept : final.constraints = state.constraints := by rw [touched.memoryOnly]
    simp only [if_pos constant]
    refine ⟨final, fresh', ran, fun _ => kept, touched.untouched,
      fun m k sources _ isK region supplies => ?_⟩
    obtain ⟨word, isWord⟩ := isSome_iff_exists.mp constant
    have length : fillLength n bound = min k bound.toNat := by
      rw [fillLength, isWord, getD_some]
      cases n with
      | concrete value bits taint =>
        obtain rfl := some.inj isWord
        obtain rfl := some.inj isK
        have fits : value.toNat < 2 ^ bits := proper.2 value rfl
        rw [Nat.mod_eq_of_lt fits]
      | symbolic | unknown => cases isWord
    have decides : ∀ offset < fillLength n bound, Below n offset k ↔ offset < min k bound.toNat :=
      fun offset inRounds => ⟨fun _ => length ▸ inRounds, fun _ => Or.inl constant⟩
    exact (filled m k _ sources isK decides (apart region) supplies).fills region
      (Nat.le_of_eq length.symm)
  · have notConcrete : n.isConcrete = false := by simpa using constant
    have length : fillLength n bound = bound.toNat := by
      have none : n.asConcrete = none := not_isSome_iff_eq_none.mp constant
      rw [fillLength, none, getD_none, min_self]
    have constrainedSized : (state.constrainRange n 0 bound fresh).1.memory.Sized := sized
    obtain ⟨final, fresh', ran, touched, filled⟩ := fillRounds_spec enumerate known positive proper.1
      constrainedSized (state.constrainRange n 0 bound fresh).2 givesBytes (fillLength n bound)
    simp only [if_neg constant]
    refine ⟨final, fresh', ran, fun isConcrete => absurd isConcrete constant, touched.untouched,
      fun m k sources satisfies isK region supplies => ?_⟩
    have constrained : final.constraints = (state.constrainRange n 0 bound fresh).1.constraints := by
      rw [touched.memoryOnly]
    have admitted := constrainRange_le proper.1 isK (constrained ▸ satisfies)
    have boundLength : k ≤ bound.toNat := le_trans admitted (Nat.mod_le _ _)
    have decides : ∀ offset < fillLength n bound, Below n offset k ↔ offset < min k bound.toNat := by
      intro offset inRounds
      rw [length] at inRounds
      have inSpace : offset % 2 ^ 64 = offset := Nat.mod_eq_of_lt (lt_trans inRounds bound.isLt)
      rw [Below, inSpace, min_eq_left boundLength]
      rcases lengthFits with small | divides
      · rw [Nat.mod_eq_of_lt (lt_trans inRounds small)]
        exact or_iff_right constant
      · have noLength : k = 0 := by
          rw [Nat.mod_eq_zero_of_dvd divides] at admitted
          exact Nat.le_zero.mp admitted
        rw [noLength]
        simp [constant]
    exact (filled m k _ sources isK decides (apart region) supplies).fills region
      (by rw [length]; exact min_le_right _ _)

end Rounds

/-! ## The two summaries -/

section Summaries

variable [Z3Arith BV Formula Model] (enumerate : Enumerator BV Formula)
variable {dst src c : SymValue BV} {state : SymState BV Formula} {srcBase : Word}

theorem copiedByte_eq (known : src.asConcrete = some srcBase) (bits offset fresh : Nat) :
    copiedByte enumerate src state (.ofWord (BitVec.ofNat 64 offset) bits) fresh =
      (state.memory.readConcrete
        (offsetAddr srcBase (max src.bits (normalizeBvBits bits)) offset) 1, fresh) := by
  obtain ⟨taint, added⟩ := add_offset known bits offset fresh
  simp only [copiedByte, bind, StateT.bind, added]
  exact memRead_byte rfl

private theorem givesBytes_copiedByte (known : src.asConcrete = some srcBase) :
    GivesBytes dst (copiedByte enumerate src) := by
  intro state sized offset fresh
  rw [copiedByte_eq enumerate known]
  exact sized.isByte _

theorem supplies_copiedByte (old : SymState BV Formula) {base : Word} {length : Nat} (dstRegion : Region dst base length)
    (srcRegion : Region src srcBase length) (separate : Separate base srcBase length) :
    Supplies dst (offsetAddr base dst.bits) old (copiedByte enumerate src)
      (fun i => old.memory.readConcrete (srcBase + BitVec.ofNat 64 i) 1) length := by
  intro state offset fresh inside touched
  rw [copiedByte_eq enumerate srcRegion.known, srcRegion.offsetAddr_eq inside (le_max_left _ _)]
  refine touched.untouched _ fun i earlier => ?_
  have iInside : i < length := lt_trans earlier inside
  rw [dstRegion.offsetAddr_eq iInside le_rfl]
  exact separate.offset_ne dstRegion.inSpace srcRegion.inSpace inside iInside

private theorem isByte_withTaint {v : SymValue BV} (isByte : IsByte v) (taint : Word) :
    IsByte (withTaint v taint) := by
  cases v <;> exact isByte

private theorem denote_withTaint (m : Model) (v : SymValue BV) (taint : Word) :
    (withTaint v taint).denote m = v.denote m := by
  cases v <;> rfl

theorem setByte_spec (sorted : c.WellSorted) (wide : 8 ≤ c.bits) :
    IsByte (setByte c) ∧ ∀ m : Model, (setByte c).denote m = (c.denote m).map (· % 2 ^ 8) := by
  have inside : 7 < c.bits := wide
  unfold setByte
  cases isWord : c.asConcrete with
  | some word =>
    refine ⟨⟨rfl, show 1 ≤ 8 by decide⟩, fun m => ?_⟩
    cases c with
    | concrete value bits taint =>
      obtain rfl := some.inj isWord
      have wide : 8 ≤ bits := wide
      have masked : (value &&& 0xff).toNat = value.toNat % 2 ^ 8 :=
        toNat_and_lowMask value (show 8 ≤ 64 by decide)
      show some ((value &&& 0xff).toNat % 2 ^ 8) = some (value.toNat % 2 ^ bits % 2 ^ 8)
      rw [masked, Nat.mod_mod, Nat.mod_mod_of_dvd _ (Nat.pow_dvd_pow 2 wide)]
    | symbolic | unknown => cases isWord
  | none =>
    have isByte : IsByte (c.extract 7 0) :=
      ⟨bits_extract (Nat.zero_le _) inside, sorted.extract (Nat.zero_le _) inside⟩
    refine ⟨isByte_withTaint isByte _, fun m => ?_⟩
    rw [denote_withTaint, denote_extract sorted (Nat.zero_le _) inside]
    simp

theorem CallInfo.arg_proper {call : CallInfo BV} (proper : ∀ value ∈ call.args, value.Proper)
    (index : Nat) : (call.arg index).Proper := by
  unfold CallInfo.arg
  cases found : call.args[index]? with
  | none => exact ⟨show 1 ≤ max _ 1 from le_max_right _ _, nofun⟩
  | some value => exact proper value (mem_of_getElem? found)

/-- Under a bound, `memcpy` and `memset` leave in every model of the resulting constraints the
bytes that the C functions leave for the length cut at the bound, and a known length excludes no
model. -/
theorem memory_summaries_fill (bound : Word) (state : SymState BV Formula) (call : CallInfo BV)
    (fresh : Nat) (sized : state.memory.Sized) (proper : ∀ value ∈ call.args, value.Proper)
    (lengthFits : LengthFits bound (call.arg 2).bits) :
    (∀ dst src, (call.arg 0).asConcrete = some dst → (call.arg 1).asConcrete = some src →
      ∃ final fresh', (memcpySummary enumerate bound).execute state call fresh =
          ((final, .return (some (call.arg 0))), fresh') ∧
        (∀ (m : Model) k, (∀ cond ∈ final.constraints, Z3.holds BV m cond) →
          (call.arg 2).denote m = some k → Region (call.arg 0) dst (min k bound.toNat) →
          Region (call.arg 1) src (min k bound.toNat) → Separate dst src (min k bound.toNat) →
          Fills m state.memory final.memory dst
            (fun i => byteAt m state.memory (src + BitVec.ofNat 64 i)) (min k bound.toNat)) ∧
        ((call.arg 2).isConcrete = true → final.constraints = state.constraints)) ∧
    ∀ dst, (call.arg 0).asConcrete = some dst → 8 ≤ (call.arg 1).bits →
      ∃ final fresh', (memsetSummary enumerate bound).execute state call fresh =
          ((final, .return (some (call.arg 0))), fresh') ∧
        (∀ (m : Model) k, (∀ cond ∈ final.constraints, Z3.holds BV m cond) →
          (call.arg 2).denote m = some k → Region (call.arg 0) dst (min k bound.toNat) →
          Fills m state.memory final.memory dst
            (fun _ => ((call.arg 1).denote m).map (· % 2 ^ 8)) (min k bound.toNat)) ∧
        ((call.arg 2).isConcrete = true → final.constraints = state.constraints) := by
  have properDst := CallInfo.arg_proper proper 0
  have properByte := CallInfo.arg_proper proper 1
  have properLength := CallInfo.arg_proper proper 2
  constructor
  · intro dst src knownDst knownSrc
    obtain ⟨final, fresh', ran, sameConstraints, -, fills⟩ := fillBytes_spec enumerate bound knownDst
      properDst.1.one_le_bits properLength lengthFits sized fresh
      (givesBytes_copiedByte enumerate knownSrc)
    refine ⟨final, fresh', ?_, fun m k satisfies isK dstRegion srcRegion separate => ?_,
      sameConstraints⟩
    · have copied : copyBytes enumerate state (call.arg 0) (call.arg 1) (call.arg 2) bound fresh =
          (final, fresh') := ran
      simp only [memcpySummary, bind, StateT.bind, copied, pure, stateT_pure]
    · refine fills m k (fun i => state.memory.readConcrete (src + BitVec.ofNat 64 i) 1) satisfies isK
        dstRegion ?_
      have supplies := supplies_copiedByte enumerate (if (call.arg 2).isConcrete then state
        else (state.constrainRange (call.arg 2) 0 bound fresh).1) dstRegion srcRegion separate
      have sameMemory : (if (call.arg 2).isConcrete then state
          else (state.constrainRange (call.arg 2) 0 bound fresh).1).memory = state.memory := by
        split <;> rfl
      rwa [sameMemory] at supplies
  · intro dst knownDst wide
    obtain ⟨byte, denotes⟩ := setByte_spec properByte.1 wide
    have givesBytes : GivesBytes (call.arg 0) fun (_ : SymState BV Formula) _ =>
        pure (setByte (call.arg 1)) := fun _ _ _ _ => byte
    obtain ⟨final, fresh', ran, sameConstraints, -, fills⟩ := fillBytes_spec enumerate bound knownDst
      properDst.1.one_le_bits properLength lengthFits sized fresh givesBytes
    refine ⟨final, fresh', ?_, fun m k satisfies isK region => ?_, sameConstraints⟩
    · have set : setBytes enumerate state (call.arg 0) (call.arg 1) (call.arg 2) bound fresh =
          (final, fresh') := ran
      simp only [memsetSummary, bind, StateT.bind, set, pure, stateT_pure]
    · have filled := fills m k (fun _ => setByte (call.arg 1)) satisfies isK region
        fun _ _ _ _ _ => rfl
      simpa only [denotes] using filled

end Summaries

/-! ## Two calls -/

/-- Two known bytes at `0x1000`. -/
def twoBytes : SymState Term (Assignment → Bool) where
  registers := ∅
  memory := { SymMemory.new false with concrete := insertBytes ∅ 0x1000 [7, 8] }
  constraints := []
  pc := 0
  prevPc := none
  active := true
  exitStatus := none
  depth := 0

theorem sized_twoBytes : twoBytes.memory.Sized := fun _ member => absurd member not_mem_nil

/-- A call with three 64-bit constants. -/
def callOf (a b c : Word) : CallInfo Term where
  args := [.concrete a 64 0, .concrete b 64 0, .concrete c 64 0]
  argBits := 64
  retBits := 64

theorem callOf_proper (a b c : Word) : ∀ value ∈ (callOf a b c).args, value.Proper := by
  have constant : ∀ word : Word, (concrete word 64 0 : SymValue Term).Proper := fun word =>
    ⟨show 1 ≤ 64 by decide, fun _ isWord => some.inj isWord ▸ word.isLt⟩
  intro value member
  simp only [callOf, mem_cons, not_mem_nil, or_false] at member
  rcases member with rfl | rfl | rfl
  · exact constant a
  · exact constant b
  · exact constant c

/-- An oracle that is never asked. -/
def noTargets : Enumerator Term (Assignment → Bool) := fun _ _ _ => ([], false)

/-- `memcpy(0x2000, 0x1000, 2)` copies the second byte. -/
theorem memcpy_twoBytes : ∃ final fresh',
    (memcpySummary noTargets defaultMaxMemcpy).execute twoBytes (callOf 0x2000 0x1000 2) 0 =
        ((final, .return (some (.concrete 0x2000 64 0))), fresh') ∧
      final.constraints = [] ∧ ∀ m : Assignment, byteAt m final.memory 0x2001 = some 8 := by
  obtain ⟨copies, -⟩ := memory_summaries_fill noTargets defaultMaxMemcpy twoBytes
    (callOf 0x2000 0x1000 2) 0 sized_twoBytes (callOf_proper _ _ _) (lengthFits_default 64).1
  obtain ⟨final, fresh', ran, fills, sameConstraints⟩ := copies 0x2000 0x1000 rfl rfl
  have noConstraints : final.constraints = [] := sameConstraints rfl
  refine ⟨final, fresh', ran, noConstraints, fun m => ?_⟩
  have satisfies : ∀ cond ∈ final.constraints, Z3.holds Term m cond := by
    rw [noConstraints]
    exact fun _ member => absurd member not_mem_nil
  have filled := fills m 2 satisfies rfl ⟨rfl, by decide, by decide⟩ ⟨rfl, by decide, by decide⟩
    (Or.inr (by decide))
  exact filled.filled 1 (by decide) (by decide) 8 rfl

/-- `memset(0x2000, 5, 0x1001)` sets one byte too few. -/
theorem memset_pastBound : ∃ final fresh',
    (memsetSummary noTargets defaultMaxMemset).execute twoBytes (callOf 0x2000 5 0x1001) 0 =
        ((final, .return (some (.concrete 0x2000 64 0))), fresh') ∧
      ∀ m : Assignment, (∀ cond ∈ final.constraints, Z3.holds Term m cond) ∧
        ¬ ∀ i < 0x1001, byteAt m final.memory (0x2000 + BitVec.ofNat 64 i) = some 5 := by
  have proper := CallInfo.arg_proper (callOf_proper 0x2000 5 0x1001)
  have givesBytes : GivesBytes ((callOf 0x2000 5 0x1001).arg 0)
      fun (_ : SymState Term (Assignment → Bool)) _ => pure (setByte ((callOf 0x2000 5 0x1001).arg 1)) :=
    fun _ _ _ _ => (setByte_spec (proper 1).1 (by decide)).1
  have known : ((callOf 0x2000 5 0x1001).arg 0).asConcrete = some 0x2000 := rfl
  obtain ⟨final, fresh', ran, sameConstraints, untouched, -⟩ := fillBytes_spec noTargets
    defaultMaxMemset known (by decide) (proper 2) (lengthFits_default 64).2 sized_twoBytes 0
    givesBytes
  have set : setBytes noTargets twoBytes ((callOf 0x2000 5 0x1001).arg 0)
      ((callOf 0x2000 5 0x1001).arg 1) ((callOf 0x2000 5 0x1001).arg 2) defaultMaxMemset 0 =
        (final, fresh') := ran
  refine ⟨final, fresh', ?_, fun m => ⟨?_, fun all => ?_⟩⟩
  · simp only [memsetSummary, bind, StateT.bind, set, pure, stateT_pure]
    rfl
  · have noConstraints : final.constraints = [] := sameConstraints rfl
    rw [noConstraints]
    exact fun _ member => absurd member not_mem_nil
  · have old : final.memory.readConcrete 0x3000 1 = twoBytes.memory.readConcrete 0x3000 1 := by
      refine untouched 0x3000 fun i inRounds same => ?_
      have inRounds : i < 0x1000 := inRounds
      have address : offsetAddr 0x2000 64 i = 0x2000 + BitVec.ofNat 64 i :=
        offsetAddr_eq (by simp; omega) (by simp; omega)
      have sameNat := congrArg BitVec.toNat (same.trans address)
      simp at sameNat
      omega
    have last : byteAt m final.memory 0x3000 = some 5 := all 0x1000 (by decide)
    unfold byteAt at last
    rw [old] at last
    have zero : (twoBytes.memory.readConcrete 0x3000 1).denote m = some 0 := rfl
    exact absurd (zero.symm.trans last) (by decide)

end R2Sleigh.Sym
