import R2Sleigh.Sym.MemoryRefines
import R2Sleigh.Sym.State

/-!
Contract: what a merge keeps of the two states it merges.

Owns `MergeSound` and `MemoriesAgree`.
-/

namespace R2Sleigh.Sym

open Lib Ssa List Option SymValue

variable {BV Formula Model : Type} [Z3 BV Formula Model]

/-! ## Values -/

section Values

variable {v base incoming : SymValue BV} {m : Model} {x : Nat}

theorem size_widenValue (sorted : v.WellSorted) (fresh : Nat) {bits : Nat} (wider : v.bits ≤ bits) :
    Z3.size (widenValue fresh v bits) = bits := by
  unfold widenValue
  split_ifs with same narrower
  · rw [size_toBv sorted, same]
  · rw [Z3.size_zeroExt, size_toBv sorted]
    omega
  · omega

theorem value_widenValue (sorted : v.WellSorted) (fresh : Nat) {bits : Nat}
    (wider : v.bits ≤ bits) (denotes : v.denote m = some x) :
    Z3.value m (widenValue fresh v bits) = x := by
  unfold widenValue
  split_ifs with same narrower
  · exact value_toBv sorted fresh denotes
  · rw [Z3.value_zeroExt]
    exact value_toBv sorted fresh denotes
  · omega

variable {cond : Formula} {freshBase freshIncoming : Nat}

section

variable (baseSorted : base.WellSorted) (incomingSorted : incoming.WellSorted)
include baseSorted incomingSorted

theorem sizes_mergeValues :
    Z3.size (widenValue freshIncoming incoming (max base.bits incoming.bits)) =
      Z3.size (widenValue freshBase base (max base.bits incoming.bits)) := by
  rw [size_widenValue incomingSorted _ (le_max_right _ _),
    size_widenValue baseSorted _ (le_max_left _ _)]

theorem denote_mergeValues_of_holds
    (holds : Z3.holds BV m cond)
    (denotes : incoming.denote m = some x) :
    (mergeValues freshBase freshIncoming cond base incoming).denote m = some x := by
  refine congrArg some ?_
  rw [Z3.value_ite_of_holds _ _ _ _ (sizes_mergeValues baseSorted incomingSorted) holds]
  exact value_widenValue incomingSorted _ (le_max_right _ _) denotes

theorem denote_mergeValues_of_not
    (fails : ¬ Z3.holds BV m cond)
    (denotes : base.denote m = some x) :
    (mergeValues freshBase freshIncoming cond base incoming).denote m = some x := by
  refine congrArg some ?_
  rw [Z3.value_ite_of_not _ _ _ _ (sizes_mergeValues baseSorted incomingSorted) fails]
  exact value_widenValue baseSorted _ (le_max_left _ _) denotes

end

end Values

/-! ## Reads of the merged memory -/

section Reads

variable {mem : SymMemory BV} {addr : Word} {size : Nat}

private theorem slice_wellSorted {value : SymValue BV} {writeAddr : Word} {writeSize : Nat}
    (sorted : value.WellSorted) (width : value.bits = writeSize * 8)
    (covered : SymMemory.Covers writeAddr writeSize addr size) (positive : 1 ≤ size) :
    (SymMemory.slice value writeAddr writeSize addr size).WellSorted := by
  obtain ⟨-, -, starts, ends⟩ := covered
  unfold SymMemory.slice
  dsimp only
  split_ifs
  · exact sorted
  · exact sorted.extract (by omega) (by omega)

theorem readConcrete_sorted (sorted : mem.Sized) (positive : 1 ≤ size) :
    (mem.readConcrete addr size).WellSorted ∧ (mem.readConcrete addr size).bits = size * 8 := by
  have wide : normalizeBvBits (size * 8) = size * 8 := by
    simp only [normalizeBvBits]
    omega
  unfold SymMemory.readConcrete
  cases logged : mem.loggedRead addr size with
  | some value =>
    obtain ⟨write, member, taken⟩ := exists_of_findSome?_eq_some logged
    obtain ⟨writeSorted, width⟩ := sorted write (mem_reverse.mp member)
    unfold SymMemory.takenFrom at taken
    split at taken
    · split at taken
      · rename_i covered
        cases taken
        exact ⟨slice_wellSorted writeSorted width covered positive,
          (slice_spec writeSorted width covered positive).1⟩
      · simp at taken
    · simp at taken
  | none =>
    cases mem.concreteWord addr size with
    | some word => exact ⟨by simp [ofWord, SymValue.WellSorted, wide]; omega, wide⟩
    | none =>
      refine ⟨?_, bits_default positive⟩
      dsimp only
      unfold SymMemory.defaultRead
      split
      · exact ⟨by rw [wide]; omega, Z3.size_newConst _ _⟩
      · simp [ofWord, SymValue.WellSorted, wide]
        omega

end Reads

namespace SymState

variable {self other : SymState BV Formula} {start : Nat} {addr : Word} {size : Nat}

structure WellSorted (state : SymState BV Formula) : Prop where
  registers : ∀ key value, state.registers.lookup key = some value → value.WellSorted
  memory : state.memory.Sized

private theorem bits_mergedByte (selfSorted : self.WellSorted) (otherSorted : other.WellSorted)
    (entry : Word × Nat) : (mergedByte start self other entry).bits = 8 := by
  have base : (self.memory.readConcrete entry.1 1).bits = _ :=
    (readConcrete_sorted selfSorted.memory le_rfl).2
  have incoming : (other.memory.readConcrete entry.1 1).bits = _ :=
    (readConcrete_sorted otherSorted.memory le_rfl).2
  simp only [mergedByte, mergeValues, bits.eq_2, base, incoming]
  rfl

/-- A merge only adds to the log: bytes at the addresses the memories mention,
and the second memory's writes at symbolic addresses. -/
theorem mergeMemory_eq (selfSorted : self.WellSorted) (otherSorted : other.WellSorted) :
    mergeMemory start self other = { self.memory with
      symbolicWrites := self.memory.symbolicWrites ++
        (addresses self other).zipIdx.map (fun entry =>
          (.ofWord entry.1 64, mergedByte start self other entry, 1)) ++
        other.memory.symbolicWrites.filter fun write => write.1.asConcrete.isNone } := by
  have loop : ∀ (entries : List (Word × Nat)) (memory : SymMemory BV),
      entries.foldl (fun memory entry => memory.writeAt (.ofWord entry.1 64) entry.1
        (SymMemory.adjustBits (mergedByte start self other entry) 8) 1) memory =
      { memory with symbolicWrites := memory.symbolicWrites ++ entries.map fun entry =>
          (.ofWord entry.1 64, mergedByte start self other entry, 1) } := fun entries => by
    induction entries with
    | nil => simp
    | cons entry rest ih =>
      intro memory
      have adjusted : SymMemory.adjustBits (mergedByte start self other entry) 8 =
          mergedByte start self other entry := by
        unfold SymMemory.adjustBits
        rw [if_pos (bits_mergedByte selfSorted otherSorted entry)]
      rw [foldl_cons, ih, adjusted]
      simp [SymMemory.writeAt, mergedByte, mergeValues, asConcrete]
  unfold mergeMemory
  rw [loop]

/-- What a merged byte gives a read it covers. -/
def takenByte (start : Nat) (self other : SymState BV Formula) (addr : Word) (size : Nat)
    (entry : Word × Nat) : Option (SymValue BV) :=
  SymMemory.takenFrom addr size (.ofWord entry.1 64, mergedByte start self other entry, 1)

/-- The newest logged write of a merge that covers a read: a merged byte, or
what covered it before. -/
theorem loggedRead_mergeMemory (selfSorted : self.WellSorted) (otherSorted : other.WellSorted) :
    (mergeMemory start self other).loggedRead addr size =
      ((addresses self other).zipIdx.reverse.findSome? (takenByte start self other addr size)).or
        (self.memory.loggedRead addr size) := by
  have silent : (other.memory.symbolicWrites.filter fun write =>
      write.1.asConcrete.isNone).reverse.findSome? (SymMemory.takenFrom addr size) = none := by
    refine List.findSome?_eq_none_iff.mpr fun write member => ?_
    have symbolic := (mem_filter.mp (mem_reverse.mp member)).2
    rw [SymMemory.takenFrom, isNone_iff_eq_none.mp symbolic]
  rw [mergeMemory_eq selfSorted otherSorted]
  unfold SymMemory.loggedRead
  rw [reverse_append, reverse_append, List.findSome?_append, silent, none_or,
    List.findSome?_append, ← map_reverse, List.findSome?_map]
  rfl

theorem covers_byte_iff {writeAddr : Word} (positive : 1 ≤ size) :
    SymMemory.Covers writeAddr 1 addr size ↔
      size = 1 ∧ writeAddr = addr ∧ addr.toNat + 1 < 2 ^ 64 := by
  unfold SymMemory.Covers
  constructor
  · rintro ⟨-, ends, starts, covers⟩
    have one : size = 1 := by omega
    subst one
    exact ⟨rfl, BitVec.eq_of_toNat_eq (by omega), by omega⟩
  · rintro ⟨rfl, rfl, inside⟩
    omega

/-- The byte of an address both memories are asked for. -/
def Mentioned (self other : SymState BV Formula) (addr : Word) (size : Nat) : Prop :=
  size = 1 ∧ addr ∈ addresses self other ∧ addr.toNat + 1 < 2 ^ 64

theorem takenByte_eq (positive : 1 ≤ size) (entry : Word × Nat) :
    takenByte start self other addr size entry =
      if size = 1 ∧ entry.1 = addr ∧ addr.toNat + 1 < 2 ^ 64 then
        some (mergedByte start self other entry)
      else none := by
  simp only [takenByte, SymMemory.takenFrom, ofWord, asConcrete]
  by_cases covered : size = 1 ∧ entry.1 = addr ∧ addr.toNat + 1 < 2 ^ 64
  · rw [if_pos ((covers_byte_iff positive).mpr covered), if_pos covered]
    obtain ⟨rfl, rfl, -⟩ := covered
    simp [SymMemory.slice]
  · rw [if_neg (mt (covers_byte_iff positive).mp covered), if_neg covered]

theorem readConcrete_merged_of_not_mentioned (selfSorted : self.WellSorted)
    (otherSorted : other.WellSorted) (positive : 1 ≤ size)
    (unmentioned : ¬ Mentioned self other addr size) :
    (mergeMemory start self other).readConcrete addr size =
      self.memory.readConcrete addr size := by
  have silent : (addresses self other).zipIdx.reverse.findSome?
      (takenByte start self other addr size) = none := by
    refine List.findSome?_eq_none_iff.mpr fun entry member => ?_
    rw [takenByte_eq positive, if_neg]
    rintro ⟨one, rfl, inside⟩
    exact unmentioned ⟨one, (mem_zipIdx' (mem_reverse.mp member)).2 ▸ getElem_mem _, inside⟩
  unfold SymMemory.readConcrete
  rw [loggedRead_mergeMemory selfSorted otherSorted, silent, none_or,
    mergeMemory_eq selfSorted otherSorted]
  rfl

theorem readConcrete_merged_of_mentioned (selfSorted : self.WellSorted)
    (otherSorted : other.WellSorted) (mentioned : Mentioned self other addr size) :
    ∃ i, (mergeMemory start self other).readConcrete addr size =
      mergedByte start self other (addr, i) := by
  obtain ⟨rfl, member, inside⟩ := mentioned
  obtain ⟨i, inRange, atIndex⟩ := getElem_of_mem member
  have entry : (addr, i) ∈ (addresses self other).zipIdx.reverse := by
    rw [mem_reverse, mem_zipIdx_iff_getElem?]
    simp [inRange, atIndex]
  obtain ⟨value, found⟩ := isSome_iff_exists.mp (List.findSome?_isSome_iff.mpr
    ⟨(addr, i), entry, by rw [takenByte_eq le_rfl, if_pos ⟨rfl, rfl, inside⟩]; rfl⟩ :
      ((addresses self other).zipIdx.reverse.findSome? (takenByte start self other addr 1)).isSome)
  obtain ⟨⟨base, j⟩, -, taken⟩ := exists_of_findSome?_eq_some found
  rw [takenByte_eq le_rfl] at taken
  split at taken
  · rename_i covered
    obtain ⟨-, rfl, -⟩ := covered
    refine ⟨j, ?_⟩
    unfold SymMemory.readConcrete
    rw [loggedRead_mergeMemory selfSorted otherSorted, found]
    exact (some.inj taken).symm
  · simp at taken

/-! ## Registers -/

theorem lookup_foldl_insert {K V : Type} [DecidableEq K] (f : K → Nat → V) {items : List K}
    {key : K} (member : key ∈ items) (map : HashMap K V) : ∃ i,
      (items.zipIdx.foldl (fun map entry => map.insert entry.1 (f entry.1 entry.2)) map).lookup key =
        some (f key i) := by
  induction items using List.reverseRecOn with
  | nil => simp at member
  | append_singleton rest last ih =>
    rw [zipIdx_append, foldl_append]
    simp only [zipIdx_cons, zipIdx_nil, foldl_cons, foldl_nil]
    by_cases same : key = last
    · subst same
      exact ⟨_, AList.lookup_insert _⟩
    · rw [AList.lookup_insert_ne same]
      refine ih ?_
      rcases mem_append.mp member with old | new
      · exact old
      · exact absurd (mem_singleton.mp new) same

theorem lookup_mergeRegisters (start : Nat) {key : String}
    (member : key ∈ registerKeys self other) :
    ∃ freshBase freshIncoming, (mergeRegisters start self other).lookup key =
      some (mergeValues freshBase freshIncoming other.pathCondition (baseRegister self other key)
        (incomingRegister self other key)) := by
  obtain ⟨i, found⟩ := lookup_foldl_insert (fun key i => mergeValues (start + 2 * i)
    (start + 2 * i + 1) other.pathCondition (baseRegister self other key)
    (incomingRegister self other key)) member ∅
  exact ⟨_, _, found⟩

theorem wellSorted_unknown (bits : Nat) :
    (.unknown (normalizeBvBits bits) 0 : SymValue BV).WellSorted :=
  le_max_right bits 1

theorem baseRegister_wellSorted (selfSorted : self.WellSorted) (key : String) :
    (baseRegister self other key).WellSorted := by
  unfold baseRegister
  cases found : self.registers.lookup key with
  | some value => exact selfSorted.registers key value found
  | none =>
    cases other.registers.lookup key with
    | some value => exact wellSorted_unknown _
    | none => exact le_refl 1

theorem incomingRegister_wellSorted (otherSorted : other.WellSorted) (key : String) :
    (incomingRegister self other key).WellSorted := by
  unfold incomingRegister
  cases found : other.registers.lookup key with
  | some value => exact otherSorted.registers key value found
  | none => exact wellSorted_unknown _

/-! ## Soundness -/

/-- What a state evaluates to in a model, the merged state does too. -/
structure Keeps (m : Model) (state merged : SymState BV Formula) : Prop where
  satisfies : merged.Satisfies m
  registers : ∀ key value x, state.registers.lookup key = some value → value.denote m = some x →
    ∃ merge, merged.registers.lookup key = some merge ∧ merge.denote m = some x
  memory : ∀ addr size, 1 ≤ size → size ≤ 8 → ∀ x,
    (state.memory.readConcrete addr size).denote m = some x →
      (merged.memory.readConcrete addr size).denote m = some x

/-- In a model of one path condition and not of the other, the merged state
evaluates as the state whose path condition holds. -/
def MergeSound (start : Nat) (self other : SymState BV Formula) : Prop :=
  ∀ m : Model, (self.Satisfies m → ¬ other.Satisfies m → Keeps m self (mergeWith start self other)) ∧
    (other.Satisfies m → ¬ self.Satisfies m → Keeps m other (mergeWith start self other))

/-- Where the second state's path condition holds and the first's does not, the
first memory already evaluates as the second, at the reads a merge leaves as
they were: all but single bytes at addresses below the last that a memory
mentions. -/
def MemoriesAgree (self other : SymState BV Formula) : Prop :=
  ∀ m : Model, other.Satisfies m → ¬ self.Satisfies m → ∀ addr size, 1 ≤ size → size ≤ 8 →
    ¬ Mentioned self other addr size → ∀ x,
      (other.memory.readConcrete addr size).denote m = some x →
        (self.memory.readConcrete addr size).denote m = some x

theorem satisfies_mergeWith {m : Model} (either : self.Satisfies m ∨ other.Satisfies m) :
    (mergeWith start self other).Satisfies m := by
  refine (holds_andAll m _).mpr fun formula member => ?_
  obtain rfl := mem_singleton.mp member
  exact (Z3.holds_or m _ _).mpr either

/-- A model of the state merged into alone is kept. -/
theorem keeps_self (selfSorted : self.WellSorted) (otherSorted : other.WellSorted) {m : Model}
    (holds : self.Satisfies m) (fails : ¬ other.Satisfies m) :
    Keeps m self (mergeWith start self other) := by
  refine ⟨satisfies_mergeWith (Or.inl holds), fun key value x found denotes => ?_,
    fun addr size positive _ x denotes => ?_⟩
  · have member : key ∈ registerKeys self other := mem_dedup.mpr (mem_append_left _
      (AList.lookup_isSome.mp (by rw [found]; rfl)))
    obtain ⟨freshBase, freshIncoming, merged⟩ := lookup_mergeRegisters start member
    refine ⟨_, merged, denote_mergeValues_of_not (baseRegister_wellSorted selfSorted key)
      (incomingRegister_wellSorted otherSorted key) fails ?_⟩
    simpa [baseRegister, found] using denotes
  · by_cases mentioned : Mentioned self other addr size
    · obtain ⟨i, reads⟩ := readConcrete_merged_of_mentioned selfSorted otherSorted mentioned
      obtain rfl := mentioned.1
      exact (congrArg _ reads).trans (denote_mergeValues_of_not
        (readConcrete_sorted selfSorted.memory le_rfl).1
        (readConcrete_sorted otherSorted.memory le_rfl).1 fails denotes)
    · exact (congrArg _ (readConcrete_merged_of_not_mentioned selfSorted otherSorted positive
        mentioned)).trans denotes

/-- A model of the merged-in state is kept exactly if both states agree where nothing is
mentioned. -/
theorem keeps_other_iff (selfSorted : self.WellSorted) (otherSorted : other.WellSorted) {m : Model}
    (holds : other.Satisfies m) :
    Keeps m other (mergeWith start self other) ↔ ∀ addr size, 1 ≤ size → size ≤ 8 →
      ¬ Mentioned self other addr size → ∀ x,
        (other.memory.readConcrete addr size).denote m = some x →
          (self.memory.readConcrete addr size).denote m = some x := by
  constructor
  · intro keeps addr size positive small unmentioned x denotes
    have merged := keeps.memory addr size positive small x denotes
    rwa [show (mergeWith start self other).memory.readConcrete addr size = _ from
      readConcrete_merged_of_not_mentioned selfSorted otherSorted positive unmentioned] at merged
  · intro agree
    refine ⟨satisfies_mergeWith (Or.inr holds), fun key value x found denotes => ?_,
      fun addr size positive small x denotes => ?_⟩
    · have member : key ∈ registerKeys self other := mem_dedup.mpr (mem_append_right _
        (AList.lookup_isSome.mp (by rw [found]; rfl)))
      obtain ⟨freshBase, freshIncoming, merged⟩ := lookup_mergeRegisters start member
      refine ⟨_, merged, denote_mergeValues_of_holds (baseRegister_wellSorted selfSorted key)
        (incomingRegister_wellSorted otherSorted key) holds ?_⟩
      simpa [incomingRegister, found] using denotes
    · by_cases mentioned : Mentioned self other addr size
      · obtain ⟨i, reads⟩ := readConcrete_merged_of_mentioned selfSorted otherSorted mentioned
        obtain rfl := mentioned.1
        exact (congrArg _ reads).trans (denote_mergeValues_of_holds
          (readConcrete_sorted selfSorted.memory le_rfl).1
          (readConcrete_sorted otherSorted.memory le_rfl).1 holds denotes)
      · exact (congrArg _ (readConcrete_merged_of_not_mentioned selfSorted otherSorted positive
          mentioned)).trans (agree addr size positive small mentioned x denotes)

/-- A merge loses nothing exactly when the memories agree where it does not
merge them. -/
theorem mergeSound_iff (selfSorted : self.WellSorted) (otherSorted : other.WellSorted) :
    MergeSound start self other ↔ MemoriesAgree self other := by
  constructor
  · intro sound m holds fails
    exact (keeps_other_iff selfSorted otherSorted holds).mp ((sound m).2 holds fails)
  · intro agree m
    exact ⟨fun holds fails => keeps_self selfSorted otherSorted holds fails, fun holds fails =>
      (keeps_other_iff selfSorted otherSorted holds).mpr (agree m holds fails)⟩

/-- A state with a register, whose path condition compares a symbol. -/
def branch (rax : Word) (memory : SymMemory Term) (constraint : Assignment → Bool) :
    SymState Term (Assignment → Bool) where
  registers := (∅ : HashMap String (SymValue Term)).insert "rax_1" (.concrete rax 64 0)
  memory := memory
  constraints := [constraint]
  pc := 0x400
  prevPc := none
  active := true
  exitStatus := none
  depth := 0

def withWord (word : Word) : SymMemory Term :=
  (SymMemory.new false).writeAt (.ofWord 0x1000 64) 0x1000 (.concrete word 64 0) 8

def zeroBranch : SymState Term (Assignment → Bool) :=
  branch 1 (withWord 1) fun m => m (.named "x") 64 == 0

def nonzeroBranch : SymState Term (Assignment → Bool) :=
  branch 2 (withWord 2) fun m => m (.named "x") 64 != 0

/-- After the merge the word reads as on the first branch, on both. -/
theorem zeroBranch_not_mergeSound : zeroBranch.pc = nonzeroBranch.pc ∧
    ¬ MergeSound 0 zeroBranch nonzeroBranch := by
  refine ⟨rfl, fun sound => ?_⟩
  have fails : ¬ zeroBranch.pathCondition (fun _ _ => 1) = true := by decide
  have keeps := (sound fun _ _ => 1).2 rfl fails
  have merged := keeps.memory 0x1000 8 (by decide) (by decide) 2 (by decide +kernel)
  revert merged
  decide +kernel

/-- One known byte; what is not written is symbolic. -/
def withByte (byte : Word) : SymMemory Term :=
  (SymMemory.new true).writeAt (.ofWord 0x1000 64) 0x1000 (.concrete byte 8 0) 1

/-- All other reads are of the default. -/
theorem readConcrete_withByte (byte : Word) {addr : Word} {size : Nat} (positive : 1 ≤ size)
    (small : size ≤ 8) (elsewhere : ¬ (size = 1 ∧ 0x1000 = addr)) :
    (withByte byte).readConcrete addr size = (withByte 0).defaultRead addr size := by
  have unlogged : (withByte byte).loggedRead addr size = none := by
    have uncovered : ¬ SymMemory.Covers 0x1000 1 addr size := fun covers =>
      have taken := (covers_byte_iff positive).mp covers
      elsewhere ⟨taken.1, taken.2.1⟩
    exact findSome?_eq_none_iff.mpr fun write member => by
      obtain rfl := mem_singleton.mp member
      exact if_neg uncovered
  have unknown : (withByte byte).concreteWord addr size = none := by
    refine Option.eq_none_iff_forall_ne_some.mpr fun word found => ?_
    have stored := ((SymMemory.concreteWord_spec (withByte byte) addr small).1 word found).2
    have only : ∀ i < size, addr + BitVec.ofNat 64 i = 0x1000 := by
      intro i inside
      obtain ⟨value, known, -⟩ := stored i inside
      by_contra other
      have missing : (∅ : HashMap Word Byte).lookup (addr + BitVec.ofNat 64 i) = some value :=
        (AList.lookup_insert_ne other).symm.trans known
      simp at missing
    have first := only 0 positive
    rw [BitVec.ofNat_eq_ofNat, BitVec.add_zero] at first
    refine elsewhere ⟨?_, first.symm⟩
    by_contra more
    have second := only 1 (by omega)
    rw [first] at second
    revert second
    decide
  rw [SymMemory.readConcrete, unlogged, unknown]
  rfl

/-- The merge keeps a register and a byte that differ. -/
theorem mergeSound_bytes : MergeSound 0 (branch 1 (withByte 7) fun m => m (.named "x") 64 == 0)
    (branch 2 (withByte 9) fun m => m (.named "x") 64 != 0) := by
  have sorted : ∀ rax byte constraint, (branch rax (withByte byte) constraint).WellSorted := by
    refine fun rax byte constraint => ⟨fun key value found => ?_, fun write member => ?_⟩
    · by_cases isRax : key = "rax_1"
      · subst isRax
        obtain rfl := Option.some.inj ((AList.lookup_insert _).symm.trans found)
        exact show 1 ≤ 64 by decide
      · have missing := (AList.lookup_insert_ne isRax).symm.trans found
        simp at missing
    · obtain rfl := mem_singleton.mp member
      exact ⟨show 1 ≤ 8 by decide, rfl⟩
  refine (mergeSound_iff (sorted _ _ _) (sorted _ _ _)).mpr
    fun m _ _ addr size positive small unmentioned x denotes => ?_
  have elsewhere : ¬ (size = 1 ∧ 0x1000 = addr) := by
    rintro ⟨rfl, rfl⟩
    exact unmentioned ⟨rfl, by decide +kernel, by decide⟩
  exact ((congrArg _ (readConcrete_withByte 7 positive small elsewhere)).trans
    (congrArg _ (readConcrete_withByte 9 positive small elsewhere)).symm).trans denotes

end SymState

end R2Sleigh.Sym
