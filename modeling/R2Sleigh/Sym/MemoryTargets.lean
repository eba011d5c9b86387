import R2Sleigh.Sym.MemoryRefines

/-!
Contract: the memory of the symbolic engine, byte by byte, at symbolic
addresses.

Owns `enumerateSymbolicAddresses`, `ByteWrite` and `ReadsLast`.

Does not own: wider accesses, or addresses with more targets than the limit.

The solver is an oracle, sound and complete for the formulas it is given.
-/

namespace R2Sleigh.Sym

open Lib Ssa SymMemory List Option

variable {BV Formula Model : Type} [Z3 BV Formula Model]
variable {bits : Nat} {ast : BV} {m : Model} {targets : List Word} {addr : SymValue BV}

/-! ## Targets -/

section Enumerate

variable (solve : List Formula → Option Model)

/-- The loop that asks for one more model, `remaining` targets below the limit.
At the limit it only asks whether there is another. -/
def enumerateFrom (addrBv : BV) (bits : Nat) : Nat → List Formula → List Word × Bool
  | 0, asserted => ([], (solve asserted).isSome)
  | remaining + 1, asserted =>
    match solve asserted with
    | none => ([], false)
    | some model =>
      -- A value that is no `u64` ends the loop.
      if Z3.value model addrBv < 2 ^ 64 then
        let value := BitVec.ofNat 64 (Z3.value model addrBv)
        let neq := Z3.not BV (Z3.eq addrBv (Z3.fromU64 value bits))
        let rest := enumerateFrom addrBv bits remaining (asserted ++ [neq])
        (value :: rest.1, rest.2)
      else ([], true)

/-- `fresh` numbers the constant that stands for an unknown address. -/
def enumerateSymbolicAddresses (fresh : Nat) : Enumerator BV Formula :=
  fun maxSymbolicTargets addr constraints =>
    if maxSymbolicTargets = 0 then ([], true)
    else enumerateFrom solve (addr.toBv fresh) addr.bits maxSymbolicTargets constraints

end Enumerate

/-- The address is concrete, or symbolic with at most `limit` values under the
constraints. -/
def Enumerable (limit : Nat) (constraints : List Formula) : SymValue BV → Prop
  | .concrete _ _ _ => True
  | .symbolic ast bits _ => Z3.size ast = bits ∧ ∃ targets : List Word, targets.length ≤ limit ∧
      ∀ m : Model, (∀ c ∈ constraints, Z3.holds BV m c) → ∃ t ∈ targets, Z3.value m ast = t.toNat
  | .unknown _ _ => False

section Complete

variable {solve : List Formula → Option Model}
variable (sound : ∀ formulas m, solve formulas = some m → ∀ c ∈ formulas, Z3.holds BV m c)
variable (complete : ∀ formulas, solve formulas = none →
  ¬ ∃ m : Model, ∀ c ∈ formulas, Z3.holds BV m c)

include sound complete

/-- The targets found are values of the address's width, and all values it can
have are among them. -/
theorem enumerateFrom_complete {addrBv : BV} {remaining : Nat} {asserted : List Formula}
    (width : Z3.size addrBv = bits) {left : List Word} (short : left.length ≤ remaining)
    (feasible : ∀ m : Model, (∀ c ∈ asserted, Z3.holds BV m c) →
      ∃ t ∈ left, Z3.value m addrBv = t.toNat) :
    (∀ t ∈ (enumerateFrom solve addrBv bits remaining asserted).1, t.toNat < 2 ^ bits) ∧
      ∀ m : Model, (∀ c ∈ asserted, Z3.holds BV m c) →
        ∃ t ∈ (enumerateFrom solve addrBv bits remaining asserted).1,
          Z3.value m addrBv = t.toNat := by
  induction remaining generalizing asserted left with
  | zero =>
    obtain rfl : left = [] := length_eq_zero_iff.mp (Nat.le_zero.mp short)
    refine ⟨nofun, fun m satisfies => ?_⟩
    obtain ⟨t, member, -⟩ := feasible m satisfies
    cases member
  | succ remaining ih =>
    rw [enumerateFrom]
    cases asked : solve asserted with
    | none => exact ⟨nofun, fun m satisfies => absurd ⟨m, satisfies⟩ (complete asserted asked)⟩
    | some model =>
      obtain ⟨t, member, isT⟩ := feasible model (sound asserted model asked)
      have value : BitVec.ofNat 64 (Z3.value model addrBv) = t := by
        rw [isT, BitVec.ofNat_toNat, BitVec.setWidth_eq]
      have small : t.toNat < 2 ^ bits := by
        rw [← isT, ← width]
        exact Z3.value_lt model addrBv
      have differs : ∀ m : Model, Z3.holds BV m (Z3.not BV (Z3.eq addrBv
          (Z3.fromU64 t bits))) ↔ Z3.value m addrBv ≠ t.toNat := fun m => by
        rw [Z3.holds_not, Z3.holds_eq m _ _ (width.trans (Z3.size_fromU64 t bits).symm),
          Z3.value_fromU64, Nat.mod_eq_of_lt small]
      dsimp only
      rw [if_pos (isT ▸ t.isLt), value]
      obtain ⟨belowRest, inRest⟩ := @ih
        (asserted ++ [Z3.not BV (Z3.eq addrBv (Z3.fromU64 t bits))]) (left.erase t) (by rw [length_erase_of_mem member]; omega)
        fun m satisfies => by
          rw [forall_mem_append] at satisfies
          obtain ⟨t', member', isT'⟩ := feasible m satisfies.1
          have other := (differs m).mp (satisfies.2 _ (mem_singleton_self _))
          refine ⟨t', (mem_erase_of_ne ?_).mpr member', isT'⟩
          rintro rfl
          exact other isT'
      refine ⟨forall_mem_cons.mpr ⟨small, belowRest⟩, fun m satisfies => ?_⟩
      by_cases same : Z3.value m addrBv = t.toNat
      · exact ⟨t, mem_cons_self, same⟩
      · obtain ⟨t', member', isT'⟩ := inRest m (forall_mem_append.mpr
          ⟨satisfies, forall_mem_singleton.mpr ((differs m).mpr same)⟩)
        exact ⟨t', mem_cons_of_mem _ member', isT'⟩

theorem enumerateSymbolicAddresses_complete {limit : Nat} {taint : Word}
    {constraints : List Formula} (fresh : Nat)
    (enumerable : Enumerable limit constraints (.symbolic ast bits taint)) :
    (∀ t ∈ (enumerateSymbolicAddresses solve fresh limit (.symbolic ast bits taint)
        constraints).1, t.toNat < 2 ^ bits) ∧
      ∀ m : Model, (∀ c ∈ constraints, Z3.holds BV m c) →
        ∃ t ∈ (enumerateSymbolicAddresses solve fresh limit (.symbolic ast bits taint)
          constraints).1, Z3.value m ast = t.toNat := by
  obtain ⟨width, targets, short, feasible⟩ := enumerable
  unfold enumerateSymbolicAddresses
  split
  · refine ⟨nofun, fun m satisfies => ?_⟩
    obtain ⟨t, member, -⟩ := feasible m satisfies
    rw [length_eq_zero_iff.mp (by omega : targets.length = 0)] at member
    cases member
  · exact enumerateFrom_complete sound complete width short feasible

end Complete

/-! ## Reads of one byte -/

/-- The last address. Nothing logged covers it: the end of the access overflows. -/
def lastAddress : Word := BitVec.allOnes 64

private theorem toNat_lastAddress : lastAddress.toNat = 2 ^ 64 - 1 := rfl

theorem ne_lastAddress_iff {x : Word} : x ≠ lastAddress ↔ x.toNat + 1 < 2 ^ 64 := by
  rw [ne_eq, ← BitVec.toNat_inj, toNat_lastAddress]
  omega

section ReadByte

variable {mem mem' : SymMemory BV} {addr v : SymValue BV} {x target : Word}

private theorem takenFrom_byte : takenFrom x 1 (addr, v, 1) =
    if addr.asConcrete = some x ∧ x ≠ lastAddress then some v else none := by
  unfold takenFrom
  cases concrete : addr.asConcrete with
  | none => simp
  | some writeAddr =>
    dsimp only
    by_cases same : writeAddr = x
    · subst same
      by_cases low : writeAddr ≠ lastAddress
      · have below := ne_lastAddress_iff.mp low
        rw [if_pos ⟨below, below, le_rfl, le_rfl⟩, if_pos ⟨rfl, low⟩, slice, Nat.sub_self,
          if_pos ⟨rfl, rfl⟩]
      · rw [if_neg fun covers => low (ne_lastAddress_iff.mpr covers.1),
          if_neg fun both => low both.2]
    · rw [if_neg, if_neg fun both => same (some.inj both.1)]
      rintro ⟨-, -, starts, ends⟩
      exact same (BitVec.toNat_inj.mp (by omega))

section

variable (log : mem'.symbolicWrites = mem.symbolicWrites ++ [(addr, v, 1)])
include log

theorem loggedRead_push :
    mem'.loggedRead x 1 = if addr.asConcrete = some x ∧ x ≠ lastAddress then some v
      else mem.loggedRead x 1 := by
  unfold loggedRead
  rw [log, reverse_append, reverse_singleton, singleton_append, List.findSome?_cons, takenFrom_byte]
  by_cases covered : addr.asConcrete = some x ∧ x ≠ lastAddress
  · rw [if_pos covered, if_pos covered]
  · rw [if_neg covered, if_neg covered]

theorem readConcrete_logged
    (concrete : addr.asConcrete = some x) (low : x ≠ lastAddress) : mem'.readConcrete x 1 = v := by
  rw [readConcrete, loggedRead_push log, if_pos ⟨concrete, low⟩]

end

theorem concreteWord_byte (mem : SymMemory BV) (x : Word) :
    mem.concreteWord x 1 = (mem.concrete.lookup x).map (·.setWidth 64) := by
  have start : x + BitVec.ofNat 64 0 = x := BitVec.add_zero x
  have word : ∀ byte : Byte, (0 : Word) ||| (byte.setWidth 64).shiftLeft (0 * 8) =
      byte.setWidth 64 := fun byte => by simp
  change ((mem.concrete.lookup (x + BitVec.ofNat 64 0)).map fun byte : Byte =>
    (0 : Word) ||| (byte.setWidth 64).shiftLeft (0 * 8)) >>= pure = _
  rw [start, bind_pure]
  exact map_congr fun byte _ => word byte

private theorem readConcrete_congr (logged : mem'.loggedRead x 1 = mem.loggedRead x 1)
    (mapped : mem'.concrete.lookup x = mem.concrete.lookup x)
    (mode : mem'.defaultSymbolic = mem.defaultSymbolic) :
    mem'.readConcrete x 1 = mem.readConcrete x 1 := by
  rw [readConcrete, readConcrete, logged, concreteWord_byte, concreteWord_byte, mapped,
    defaultRead, defaultRead, mode]

theorem readConcrete_unlogged (log : mem'.symbolicWrites = mem.symbolicWrites ++ [(addr, v, 1)])
    (elsewhere : ¬ (addr.asConcrete = some x ∧ x ≠ lastAddress))
    (mapped : mem'.concrete.lookup x = mem.concrete.lookup x)
    (mode : mem'.defaultSymbolic = mem.defaultSymbolic) :
    mem'.readConcrete x 1 = mem.readConcrete x 1 :=
  readConcrete_congr (by rw [loggedRead_push log, if_neg elsewhere]) mapped mode

end ReadByte

/-! ## Histories -/

structure ByteWrite (BV Formula : Type) where
  addr : SymValue BV
  value : SymValue BV
  constraints : List Formula

/-- The address in a model. An unknown one is made fresh at each use. -/
def SymValue.target (m : Model) : SymValue BV → Option Word
  | .concrete value _ _ => some value
  | .symbolic ast _ _ => some (BitVec.ofNat 64 (Z3.value m ast))
  | .unknown _ _ => none

/-- The memory after a history, oldest write first. -/
def runByteWrites (enumerate : Enumerator BV Formula) (maxSymbolicTargets : Nat)
    (defaultSymbolic : Bool) (history : List (ByteWrite BV Formula)) : Fresh (SymMemory BV) :=
  history.foldlM (fun mem write =>
      mem.writeWithConstraints enumerate write.addr write.value 1 write.constraints)
    { SymMemory.new defaultSymbolic with maxSymbolicTargets := maxSymbolicTargets }

def readAfter (enumerate : Enumerator BV Formula) (maxSymbolicTargets : Nat)
    (defaultSymbolic : Bool) (history : List (ByteWrite BV Formula)) (addr : SymValue BV)
    (constraints : List Formula) : Fresh (SymValue BV) := do
  let mem ← runByteWrites enumerate maxSymbolicTargets defaultSymbolic history
  mem.readWithConstraints enumerate addr 1 constraints

namespace ByteWrite

def byteValue (write : ByteWrite BV Formula) : SymValue BV := adjustBits write.value 8

/-- The byte that a write to a concrete address stores at an address, when it is
known. -/
def stored (x : Word) (write : ByteWrite BV Formula) : Option Byte :=
  if write.addr.asConcrete = some x then write.byteValue.asConcrete.map (·.setWidth 8) else none

structure Valid (limit : Nat) (write : ByteWrite BV Formula) : Prop where
  value : write.value.WellSorted
  address : Enumerable limit write.constraints write.addr

end ByteWrite

/-- What byte memory holds at an address in a model after a history, newest write
first: the byte written last, or the default. -/
def lastByte (m : Model) (defaultSymbolic : Bool) (history : List (ByteWrite BV Formula))
    (x : Word) : Option Nat :=
  match history.find? fun write => decide (write.addr.target m = some x) with
  | some write => write.byteValue.denote m
  | none => ((SymMemory.new defaultSymbolic : SymMemory BV).defaultRead x 1).denote m

def lastStored (m : Model) (defaultSymbolic : Bool) (history : List (ByteWrite BV Formula))
    (x : Word) : Option Nat :=
  match history.findSome? (ByteWrite.stored x) with
  | some byte => some byte.toNat
  | none => ((SymMemory.new defaultSymbolic : SymMemory BV).defaultRead x 1).denote m

def SatisfiesAll (m : Model) (history : List (ByteWrite BV Formula)) : Prop :=
  ∀ write ∈ history, ∀ c ∈ write.constraints, Z3.holds BV m c

/-! ## A write through its targets -/

/-- A value of one byte, of the width of its term. -/
def IsByte (v : SymValue BV) : Prop := v.bits = 8 ∧ v.WellSorted

/-- What a write through targets leaves: in a model that puts the address at `a`,
`a` reads as the value once it was a target, and every other address as before. -/
structure WroteThrough (addrBv : BV) (v : SymValue BV) (targets : List Word)
    (mem mem' : SymMemory BV) : Prop where
  concrete : mem'.concrete = mem.concrete
  mode : mem'.defaultSymbolic = mem.defaultSymbolic
  limit : mem'.maxSymbolicTargets = mem.maxSymbolicTargets
  bytes : (∀ x, IsByte (mem.readConcrete x 1)) → ∀ x, IsByte (mem'.readConcrete x 1)
  kept : (∀ x, IsByte (mem.readConcrete x 1)) → ∀ (m : Model) (a x : Word) n,
    Z3.value m addrBv = a.toNat → x ≠ a →
      (mem.readConcrete x 1).denote m = some n → (mem'.readConcrete x 1).denote m = some n
  shown : (∀ x, IsByte (mem.readConcrete x 1)) → ∀ (m : Model) (a : Word) n,
    Z3.value m addrBv = a.toNat → a ≠ lastAddress → v.denote m = some n →
      (a ∈ targets ∨ (mem.readConcrete a 1).denote m = some n) →
        (mem'.readConcrete a 1).denote m = some n

section Through

variable {addrBv : BV} {addr v : SymValue BV} {mem mem' mem'' : SymMemory BV}
variable {targets targets' : List Word}

theorem WroteThrough.refl (mem : SymMemory BV) : WroteThrough addrBv v [] mem mem where
  concrete := rfl
  mode := rfl
  limit := rfl
  bytes byte := byte
  kept _ _ _ _ _ _ _ reads := reads
  shown _ _ _ _ _ _ _ reads := reads.resolve_left not_mem_nil

theorem WroteThrough.trans (first : WroteThrough addrBv v targets mem mem')
    (second : WroteThrough addrBv v targets' mem' mem'') :
    WroteThrough addrBv v (targets ++ targets') mem mem'' where
  concrete := second.concrete.trans first.concrete
  mode := second.mode.trans first.mode
  limit := second.limit.trans first.limit
  bytes byte := second.bytes (first.bytes byte)
  kept byte m a x n isA other reads := second.kept (first.bytes byte) m a x n isA other
    (first.kept byte m a x n isA other reads)
  shown byte m a n isA low denotes known := by
    rw [mem_append, or_right_comm] at known
    refine second.shown (first.bytes byte) m a n isA low denotes (Or.symm ?_)
    exact known.imp_left (first.shown byte m a n isA low denotes)

theorem adjustBits_self (width : v.bits = bits) : adjustBits v bits = v := by
  rw [adjustBits, if_pos width]

/-- One target: the new value where the address is the target, else what was there. -/
theorem wroteThrough_writeTarget (width : Z3.size addrBv = addr.bits) (isByte : IsByte v)
    {target : Word} (small : target.toNat < 2 ^ addr.bits) (fresh : Nat) :
    WroteThrough addrBv v [target] mem (writeTarget addr v addrBv 1 mem target fresh).1 := by
  generalize written : writeTarget addr v addrBv 1 mem target fresh = result
  obtain ⟨mem', fresh'⟩ := result
  let existing := adjustBits (mem.readConcrete target 1) 8
  let merged : SymValue BV := .symbolic (Z3.ite (Z3.eq addrBv (Z3.fromU64 target addr.bits))
    (v.toBv fresh) (existing.toBv (fresh + 1))) 8 (existing.getTaint ||| v.getTaint ||| addr.getTaint)
  obtain rfl : { mem with symbolicWrites :=
      mem.symbolicWrites ++ [(.ofWord target addr.bits, merged, 1)] } = mem' :=
    congrArg Prod.fst written
  have holds : ∀ (m : Model) (a : Word), Z3.value m addrBv = a.toNat →
      (Z3.holds BV m (Z3.eq addrBv (Z3.fromU64 target addr.bits)) ↔ a = target) := fun m a isA => by
    rw [Z3.holds_eq m _ _ (width.trans (Z3.size_fromU64 _ _).symm), Z3.value_fromU64,
      Nat.mod_eq_of_lt small, isA, BitVec.toNat_inj]
  have elsewhere : ∀ x, x ≠ target ∨ x = lastAddress →
      ({ mem with symbolicWrites := mem.symbolicWrites ++
        [(.ofWord target addr.bits, merged, 1)] } : SymMemory BV).readConcrete x 1 =
        mem.readConcrete x 1 := fun x other => by
    refine readConcrete_unlogged rfl (fun both => ?_) rfl rfl
    exact other.elim (fun differs => differs (some.inj both.1).symm) both.2
  have there : target ≠ lastAddress →
      ({ mem with symbolicWrites := mem.symbolicWrites ++
        [(.ofWord target addr.bits, merged, 1)] } : SymMemory BV).readConcrete target 1 = merged :=
    fun low => readConcrete_logged rfl rfl low
  have sizes : (∀ x, IsByte (mem.readConcrete x 1)) →
      Z3.size (v.toBv fresh) = 8 ∧ Z3.size (existing.toBv (fresh + 1)) = 8 := fun byte => by
    have same : existing = mem.readConcrete target 1 := adjustBits_self (byte target).1
    rw [SymValue.size_toBv isByte.2, isByte.1, same, SymValue.size_toBv (byte target).2,
      (byte target).1]
    exact ⟨rfl, rfl⟩
  refine ⟨rfl, rfl, rfl, fun byte x => ?_, fun byte m a x n isA other reads => ?_,
    fun byte m a n isA low denotes known => ?_⟩
  · by_cases atTarget : x ≠ target ∨ x = lastAddress
    · rw [elsewhere x atTarget]
      exact byte x
    · obtain ⟨rfl, low⟩ : x = target ∧ x ≠ lastAddress := by
        simpa only [ne_eq, not_or, not_not] using atTarget
      rw [there low]
      obtain ⟨new, old⟩ := sizes byte
      exact ⟨rfl, by decide, (Z3.size_ite _ _ _ (new.trans old.symm)).trans new⟩
  · by_cases atTarget : x ≠ target ∨ x = lastAddress
    · rw [elsewhere x atTarget]
      exact reads
    · obtain ⟨rfl, low⟩ : x = target ∧ x ≠ lastAddress := by
        simpa only [ne_eq, not_or, not_not] using atTarget
      obtain ⟨new, old⟩ := sizes byte
      rw [there low]
      change some (Z3.value m _) = some n
      rw [Z3.value_ite_of_not m _ _ _ (new.trans old.symm)
        (mt (holds m a isA).mp fun same => other same.symm)]
      have same : existing = mem.readConcrete x 1 := adjustBits_self (byte x).1
      rw [same]
      exact congrArg some (SymValue.value_toBv (byte x).2 _ reads)
  · by_cases same : a = target
    · subst same
      obtain ⟨new, old⟩ := sizes byte
      rw [there low]
      change some (Z3.value m _) = some n
      rw [Z3.value_ite_of_holds m _ _ _ (new.trans old.symm) ((holds m a isA).mpr rfl)]
      exact congrArg some (SymValue.value_toBv isByte.2 _ denotes)
    · rw [elsewhere a (Or.inl same)]
      exact known.resolve_left fun member => same (mem_singleton.mp member)

theorem wroteThrough_foldlM (width : Z3.size addrBv = addr.bits) (isByte : IsByte v)
    (small : ∀ t ∈ targets, t.toNat < 2 ^ addr.bits) (mem : SymMemory BV) (fresh : Nat) :
    WroteThrough addrBv v targets mem
      (targets.foldlM (writeTarget addr v addrBv 1) mem fresh).1 := by
  induction targets generalizing mem fresh with
  | nil => exact .refl mem
  | cons target rest ih =>
    obtain ⟨smallTarget, smallRest⟩ := forall_mem_cons.mp small
    exact (wroteThrough_writeTarget width isByte smallTarget fresh).trans (ih smallRest _ _)

end Through

/-! ## The memory of a history -/

theorem isByte_ofWord (value : Word) : IsByte (.ofWord value 8 : SymValue BV) :=
  ⟨rfl, show 1 ≤ 8 by decide⟩

theorem isByte_defaultRead (mem : SymMemory BV) (x : Word) : IsByte (mem.defaultRead x 1) := by
  unfold defaultRead
  split
  · exact ⟨rfl, by decide, Z3.size_newConst _ _⟩
  · exact isByte_ofWord 0

theorem isByte_byteValue {write : ByteWrite BV Formula} (sorted : write.value.WellSorted) :
    IsByte write.byteValue :=
  ⟨bits_adjustBits (by decide), wellSorted_adjustBits sorted (by decide)⟩

theorem readConcrete_lastAddress (mem : SymMemory BV) : mem.readConcrete lastAddress 1 =
    match mem.concrete.lookup lastAddress with
    | some byte => .ofWord (byte.setWidth 64) 8
    | none => mem.defaultRead lastAddress 1 := by
  have nothing : mem.loggedRead lastAddress 1 = none := by
    refine List.findSome?_eq_none_iff.mpr fun write _ => ?_
    unfold takenFrom
    split
    · exact if_neg fun covers => absurd covers.2.1 (by decide)
    · rfl
  rw [readConcrete, nothing, concreteWord_byte]
  cases mem.concrete.lookup lastAddress <;> rfl

/-- A memory described by a history, newest write first. -/
structure Tracks (limit : Nat) (defaultSymbolic : Bool) (history : List (ByteWrite BV Formula))
    (mem : SymMemory BV) : Prop where
  limit : mem.maxSymbolicTargets = limit
  mode : mem.defaultSymbolic = defaultSymbolic
  bytes : ∀ x, IsByte (mem.readConcrete x 1)
  concrete : ∀ x, mem.concrete.lookup x = history.findSome? (ByteWrite.stored x)
  reads : ∀ m : Model, SatisfiesAll m history → ∀ x, x ≠ lastAddress → ∀ n,
    lastByte m defaultSymbolic history x = some n → (mem.readConcrete x 1).denote m = some n

private theorem tracks_new (limit : Nat) (defaultSymbolic : Bool) :
    Tracks limit defaultSymbolic ([] : List (ByteWrite BV Formula))
      { SymMemory.new defaultSymbolic with maxSymbolicTargets := limit } where
  limit := rfl
  mode := rfl
  bytes x := isByte_defaultRead _ x
  concrete _ := rfl
  reads _ _ _ _ _ held := held

section Step

variable {limit : Nat} {defaultSymbolic : Bool} {history : List (ByteWrite BV Formula)}
variable {write : ByteWrite BV Formula} {mem mem' : SymMemory BV}

theorem lastByte_cons {a : Word} (aims : write.addr.target m = some a) (x : Word) :
    lastByte m defaultSymbolic (write :: history) x =
      if a = x then write.byteValue.denote m else lastByte m defaultSymbolic history x := by
  unfold lastByte
  rw [List.find?_cons, aims]
  by_cases hits : a = x
  · rw [if_pos hits, decide_eq_true (congrArg some hits)]
  · rw [if_neg hits, decide_eq_false fun same => hits (some.inj same)]

theorem SatisfiesAll.of_cons (satisfies : SatisfiesAll m (write :: history)) :
    (∀ c ∈ write.constraints, Z3.holds BV m c) ∧ SatisfiesAll m history :=
  forall_mem_cons.mp satisfies

theorem Tracks.writeAt (tracks : Tracks limit defaultSymbolic history mem)
    (sorted : write.value.WellSorted) {target : Word}
    (concrete : write.addr.asConcrete = some target) :
    Tracks limit defaultSymbolic (write :: history)
      (mem.writeAt write.addr target write.byteValue 1) := by
  have isByte := isByte_byteValue sorted
  have aims : ∀ m : Model, write.addr.target m = some target := fun m => by
    cases isAddr : write.addr with
    | concrete value bits taint => rwa [isAddr] at concrete
    | symbolic | unknown => simp [isAddr, SymValue.asConcrete] at concrete
  have mapped : ∀ x, (mem.writeAt write.addr target write.byteValue 1).concrete.lookup x =
      (write.stored x).or (mem.concrete.lookup x) := fun x => by
    unfold SymMemory.writeAt ByteWrite.stored
    rw [concrete]
    cases isValue : write.byteValue.asConcrete with
    | none => simp
    | some word =>
      dsimp only
      have bytes : wordBytes word 1 = [word.setWidth 8] := by simp [wordBytes]
      rw [bytes, lookup_insertBytes _ _ _ (by simp)]
      by_cases same : target = x
      · rw [if_pos (congrArg some same), same, sub_self]
        rfl
      · have apart : (x - target).toNat ≠ 0 := fun zero =>
          same (sub_eq_zero.mp (BitVec.toNat_inj.mp zero)).symm
        rw [if_neg fun both => same (some.inj both),
          List.getElem?_eq_none (Nat.one_le_iff_ne_zero.mpr apart)]
  have untouched : ∀ x, x ≠ target → (mem.writeAt write.addr target write.byteValue 1).readConcrete
      x 1 = mem.readConcrete x 1 := fun x other => by
    have apart : write.addr.asConcrete ≠ some x := fun same =>
      other (some.inj (same.symm.trans concrete))
    refine readConcrete_unlogged rfl (fun both => apart both.1) ?_ rfl
    rw [mapped, ByteWrite.stored, if_neg apart]
    rfl
  refine ⟨tracks.limit, tracks.mode, fun x => ?_, fun x => ?_, fun m satisfies x low n held => ?_⟩
  · by_cases same : x = target
    · subst same
      by_cases low : x = lastAddress
      · subst low
        rw [readConcrete_lastAddress]
        split
        · exact isByte_ofWord _
        · exact isByte_defaultRead _ _
      · rw [readConcrete_logged (v := write.byteValue) rfl concrete low]
        exact isByte
    · rw [untouched x same]
      exact tracks.bytes x
  · rw [mapped, tracks.concrete, List.findSome?_cons]
    cases write.stored x <;> rfl
  · rw [lastByte_cons (aims m)] at held
    by_cases same : target = x
    · subst same
      rw [if_pos rfl] at held
      rw [readConcrete_logged (v := write.byteValue) rfl concrete low]
      exact held
    · rw [if_neg same] at held
      rw [untouched x (Ne.symm same)]
      exact tracks.reads m satisfies.of_cons.2 x low n held

theorem Tracks.writeThrough (tracks : Tracks limit defaultSymbolic history mem) {taint : Word}
    (isAddr : write.addr = .symbolic ast bits taint)
    (through : WroteThrough ast write.byteValue targets mem mem')
    (feasible : ∀ m : Model, (∀ c ∈ write.constraints, Z3.holds BV m c) →
      ∃ t ∈ targets, Z3.value m ast = t.toNat) :
    Tracks limit defaultSymbolic (write :: history) mem' := by
  refine ⟨through.limit.trans tracks.limit, through.mode.trans tracks.mode,
    through.bytes tracks.bytes, fun x => ?_, fun m satisfies x low n held => ?_⟩
  · rw [through.concrete, tracks.concrete, List.findSome?_cons, ByteWrite.stored, isAddr,
      if_neg (by simp [SymValue.asConcrete])]
  · obtain ⟨own, older⟩ := satisfies.of_cons
    obtain ⟨a, member, isA⟩ := feasible m own
    have aims : write.addr.target m = some a := by
      rw [isAddr, SymValue.target, isA, BitVec.ofNat_toNat, BitVec.setWidth_eq]
    rw [lastByte_cons aims] at held
    by_cases same : a = x
    · subst same
      rw [if_pos rfl] at held
      exact through.shown tracks.bytes m a n isA low held (Or.inl member)
    · rw [if_neg same] at held
      exact through.kept tracks.bytes m a x n isA (Ne.symm same) (tracks.reads m older x low n held)

theorem WroteThrough.log {v : SymValue BV} {entry : SymValue BV}
    (symbolic : addr.asConcrete = none) (through : WroteThrough ast v targets mem mem') :
    WroteThrough ast v targets mem
      { mem' with symbolicWrites := mem'.symbolicWrites ++ [(addr, entry, 1)] } := by
  have same : ∀ x, ({ mem' with symbolicWrites := mem'.symbolicWrites ++ [(addr, entry, 1)] } :
      SymMemory BV).readConcrete x 1 = mem'.readConcrete x 1 := fun x =>
    readConcrete_unlogged rfl (by simp [symbolic]) rfl rfl
  refine ⟨through.concrete, through.mode, through.limit, fun byte x => ?_,
    fun byte m a x n isA other reads => ?_, fun byte m a n isA low denotes known => ?_⟩
  · rw [same]
    exact through.bytes byte x
  · rw [same]
    exact through.kept byte m a x n isA other reads
  · rw [same]
    exact through.shown byte m a n isA low denotes known

end Step

/-! ## Runs -/

/-- In every model of the constraints of a history and of a read, the read gives
the byte written last at the address's value. Where that byte is an unknown value
nothing is asked. -/
def ReadsLast (enumerate : Enumerator BV Formula) (limit : Nat) (defaultSymbolic : Bool)
    (history : List (ByteWrite BV Formula)) (addr : SymValue BV) (constraints : List Formula)
    (fresh : Nat) : Prop :=
  ∀ m : Model, SatisfiesAll m history → (∀ c ∈ constraints, Z3.holds BV m c) →
    ∀ x n, addr.target m = some x → lastByte m defaultSymbolic history.reverse x = some n →
      (readAfter enumerate limit defaultSymbolic history addr constraints fresh).1.denote m = some n

def KnownAtLast (defaultSymbolic : Bool) (history : List (ByteWrite BV Formula))
    (addr : SymValue BV) (constraints : List Formula) : Prop :=
  ∀ m : Model, SatisfiesAll m history → (∀ c ∈ constraints, Z3.holds BV m c) →
    addr.target m = some lastAddress →
      ∀ n, lastByte m defaultSymbolic history.reverse lastAddress = some n →
        lastStored m defaultSymbolic history.reverse lastAddress = some n

section Runs

variable {solve : List Formula → Option Model}
variable (sound : ∀ formulas m, solve formulas = some m → ∀ c ∈ formulas, Z3.holds BV m c)
variable (complete : ∀ formulas, solve formulas = none →
  ¬ ∃ m : Model, ∀ c ∈ formulas, Z3.holds BV m c)
variable {limit : Nat} {defaultSymbolic : Bool} {history : List (ByteWrite BV Formula)}
variable {mem : SymMemory BV}

include sound complete in
theorem Tracks.write (unknown : Nat) {write : ByteWrite BV Formula} (valid : write.Valid limit)
    (tracks : Tracks limit defaultSymbolic history mem) (fresh : Nat) :
    Tracks limit defaultSymbolic (write :: history)
      (mem.writeWithConstraints (enumerateSymbolicAddresses solve unknown) write.addr write.value 1
        write.constraints fresh).1 := by
  have enumerable := valid.address
  cases isAddr : write.addr with
  | concrete target bits taint =>
    rw [← isAddr]
    have concrete : write.addr.asConcrete = some target := by rw [isAddr]; rfl
    have written := tracks.writeAt valid.value concrete
    rw [writeWithConstraints, concrete]
    exact written
  | symbolic ast bits taint =>
    rw [isAddr] at enumerable
    have width : Z3.size ast = (SymValue.symbolic ast bits taint).bits := enumerable.1
    obtain ⟨small, feasible⟩ := enumerateSymbolicAddresses_complete sound complete unknown enumerable
    rw [← tracks.limit] at small feasible
    unfold writeWithConstraints
    dsimp only [SymValue.asConcrete]
    generalize enumerateSymbolicAddresses solve unknown mem.maxSymbolicTargets
      (SymValue.symbolic ast bits taint) write.constraints = found at small feasible
    obtain ⟨targets, truncated⟩ := found
    dsimp only at small feasible ⊢
    have through := wroteThrough_foldlM width (isByte_byteValue valid.value) small mem (fresh + 1)
    cases targets with
    | nil => exact tracks.writeThrough isAddr ((WroteThrough.refl mem).log rfl) feasible
    | cons target rest =>
      cases truncated with
      | false => exact tracks.writeThrough isAddr through feasible
      | true => exact tracks.writeThrough isAddr (through.log rfl) feasible
  | unknown bits taint =>
    rw [isAddr] at enumerable
    cases enumerable

include sound complete in
/-- The memory after a run of byte writes is described by its history. -/
theorem tracks_runByteWrites (unknown : Nat) (valid : ∀ write ∈ history, write.Valid limit)
    (fresh : Nat) : Tracks limit defaultSymbolic history.reverse
      (runByteWrites (enumerateSymbolicAddresses solve unknown) limit defaultSymbolic history
        fresh).1 := by
  induction history using List.reverseRecOn with
  | nil => exact tracks_new limit defaultSymbolic
  | append_singleton rest last ih =>
    rw [forall_mem_append, forall_mem_singleton] at valid
    rw [runByteWrites, foldlM_append, reverse_append]
    exact (ih valid.1).write sound complete unknown valid.2 _

theorem denote_readTargets {addrBv : BV}
    (bytes : ∀ x, IsByte (mem.readConcrete x 1)) (width : Z3.size addrBv = addr.bits)
    (small : ∀ t ∈ targets, t.toNat < 2 ^ addr.bits) {a : Word} {n : Nat}
    (isA : Z3.value m addrBv = a.toNat) (holds : (mem.readConcrete a 1).denote m = some n)
    {result : SymValue BV} (isByte : IsByte result) (fresh : Nat)
    (known : a ∈ targets ∨ result.denote m = some n) :
    (targets.foldlM (mem.readTarget addr addrBv 1) result fresh).1.denote m = some n := by
  induction targets generalizing result fresh with
  | nil => exact known.resolve_left not_mem_nil
  | cons target rest ih =>
    obtain ⟨smallTarget, smallRest⟩ := forall_mem_cons.mp small
    obtain ⟨byteWidth, byteSorted⟩ := bytes target
    have taintKeeps : (withTaint (mem.readConcrete target 1) addr.getTaint).bits = 8 ∧
        (withTaint (mem.readConcrete target 1) addr.getTaint).WellSorted ∧
        (withTaint (mem.readConcrete target 1) addr.getTaint).denote m =
          (mem.readConcrete target 1).denote m := by
      generalize mem.readConcrete target 1 = v at byteWidth byteSorted
      cases v <;> exact ⟨byteWidth, byteSorted, rfl⟩
    obtain ⟨valueWidth, valueSorted, valueDenotes⟩ := taintKeeps
    have sizes : Z3.size ((withTaint (mem.readConcrete target 1) addr.getTaint).toBv fresh) =
        Z3.size (result.toBv (fresh + 1)) := by
      rw [SymValue.size_toBv valueSorted, SymValue.size_toBv isByte.2, valueWidth, isByte.1]
    have selects : Z3.holds BV m (Z3.eq addrBv (Z3.fromU64 target addr.bits)) ↔ a = target := by
      rw [Z3.holds_eq m _ _ (width.trans (Z3.size_fromU64 _ _).symm), Z3.value_fromU64,
        Nat.mod_eq_of_lt smallTarget, isA, BitVec.toNat_inj]
    have isNext : IsByte (mem.readTarget addr addrBv 1 result target fresh).1 :=
      ⟨rfl, by decide, (Z3.size_ite _ _ _ sizes).trans
        ((SymValue.size_toBv valueSorted _).trans valueWidth)⟩
    refine ih smallRest isNext _ ?_
    by_cases same : a = target
    · subst same
      refine Or.inr (congrArg some ?_)
      exact (Z3.value_ite_of_holds m _ _ _ sizes (selects.mpr rfl)).trans
        (SymValue.value_toBv valueSorted _ (valueDenotes.trans holds))
    · refine known.imp (fun member => (mem_cons.mp member).resolve_left same) fun denotes => ?_
      exact congrArg some ((Z3.value_ite_of_not m _ _ _ sizes (mt selects.mp same)).trans
        (SymValue.value_toBv isByte.2 _ denotes))

include sound complete in
/-- In a model of its constraints a read gives what the memory holds at the
address's value. -/
theorem denote_readWithConstraints (unknown : Nat)
    (tracks : Tracks limit defaultSymbolic history mem)
    {constraints : List Formula} (enumerable : Enumerable limit constraints addr) (fresh : Nat)
    (satisfies : ∀ c ∈ constraints, Z3.holds BV m c) {x : Word} {n : Nat}
    (aims : addr.target m = some x) (holds : (mem.readConcrete x 1).denote m = some n) :
    (mem.readWithConstraints (enumerateSymbolicAddresses solve unknown) addr 1 constraints
      fresh).1.denote m = some n := by
  cases addr with
  | concrete target bits taint =>
    obtain rfl := some.inj aims
    exact holds
  | symbolic ast bits taint =>
    have width : Z3.size ast = (SymValue.symbolic ast bits taint).bits := enumerable.1
    obtain ⟨small, feasible⟩ := enumerateSymbolicAddresses_complete sound complete unknown enumerable
    obtain ⟨t, member, isT⟩ := feasible m satisfies
    obtain rfl : t = x := by
      rw [SymValue.target, isT, BitVec.ofNat_toNat, BitVec.setWidth_eq] at aims
      exact some.inj aims
    rw [← tracks.limit] at small member
    unfold readWithConstraints
    dsimp only [SymValue.asConcrete]
    generalize enumerateSymbolicAddresses solve unknown mem.maxSymbolicTargets
      (SymValue.symbolic ast bits taint) constraints = found at small member
    obtain ⟨targets, truncated⟩ := found
    cases targets with
    | nil => cases member
    | cons target rest =>
      cases mem.defaultSymbolic with
      | true =>
        have isByte : IsByte (.symbolic (Z3.freshConst fresh "mem_sym" (1 * 8)) 8 taint :
            SymValue BV) := ⟨rfl, by decide, Z3.size_freshConst _ _ _⟩
        exact denote_readTargets tracks.bytes width small isT holds isByte (fresh + 2)
          (Or.inl member)
      | false =>
        have isByte : IsByte (.concrete 0 8 taint : SymValue BV) := ⟨rfl, show 1 ≤ 8 by decide⟩
        exact denote_readTargets tracks.bytes width small isT holds isByte (fresh + 1)
          (Or.inl member)
  | unknown bits taint => cases enumerable

theorem Tracks.denote_lastAddress (tracks : Tracks limit defaultSymbolic history mem) (m : Model) :
    ∃ n, (mem.readConcrete lastAddress 1).denote m = some n ∧
      lastStored m defaultSymbolic history lastAddress = some n := by
  rw [readConcrete_lastAddress, tracks.concrete, lastStored]
  cases history.findSome? (ByteWrite.stored lastAddress) with
  | some byte =>
    refine ⟨byte.toNat, congrArg some ?_, rfl⟩
    exact Nat.mod_eq_of_lt byte.isLt
  | none =>
    unfold defaultRead
    rw [tracks.mode]
    cases defaultSymbolic with
    | true | false => exact ⟨_, rfl, rfl⟩

include sound complete in
/-- After one-byte writes whose addresses can all be enumerated, a read gives in
every model the byte written last, exactly if what was written last at the last
address of the space is there a known byte at a concrete address. -/
theorem readsLast_iff (unknown : Nat) (valid : ∀ write ∈ history, write.Valid limit)
    {addr : SymValue BV} {constraints : List Formula}
    (enumerable : Enumerable limit constraints addr) (fresh : Nat) :
    ReadsLast (enumerateSymbolicAddresses solve unknown) limit defaultSymbolic history addr
        constraints fresh ↔
      KnownAtLast defaultSymbolic history addr constraints := by
  generalize ran : runByteWrites (enumerateSymbolicAddresses solve unknown) limit defaultSymbolic
    history fresh = result
  obtain ⟨mem, fresh'⟩ := result
  have tracks : Tracks limit defaultSymbolic history.reverse _ :=
    tracks_runByteWrites sound complete unknown valid fresh
  rw [ran] at tracks
  have runs : readAfter (enumerateSymbolicAddresses solve unknown) limit defaultSymbolic history addr
      constraints fresh = mem.readWithConstraints (enumerateSymbolicAddresses solve unknown) addr 1
        constraints fresh' := by
    change (fun ran : SymMemory BV × Nat => ran.1.readWithConstraints
      (enumerateSymbolicAddresses solve unknown) addr 1 constraints ran.2)
        (runByteWrites _ _ _ history fresh) = _
    rw [ran]
  have reads : ∀ m : Model, (∀ c ∈ constraints, Z3.holds BV m c) → ∀ x n,
      addr.target m = some x → (mem.readConcrete x 1).denote m = some n →
        (readAfter (enumerateSymbolicAddresses solve unknown) limit defaultSymbolic history addr
          constraints fresh).1.denote m = some n := fun m satisfies x n aims holds => by
    rw [runs]
    exact denote_readWithConstraints sound complete unknown tracks enumerable _ satisfies aims holds
  constructor
  · intro right m older own aims n held
    obtain ⟨k, read, stored⟩ := tracks.denote_lastAddress m
    have known := reads m own lastAddress k aims read
    rw [right m older own lastAddress n aims held] at known
    exact stored.trans known.symm
  · intro known m older own x n aims held
    refine reads m own x n aims ?_
    by_cases low : x = lastAddress
    · subst low
      obtain ⟨k, read, stored⟩ := tracks.denote_lastAddress m
      rw [read, ← stored]
      exact known m older own aims n held
    · exact tracks.reads m (fun write member => older write (mem_reverse.mp member)) x low n held

end Runs

/-! ## Two histories -/

/-- A sound and complete oracle. -/
noncomputable def findModel (formulas : List (Assignment → Bool)) : Option Assignment :=
  open Classical in
  if found : ∃ m : Assignment, ∀ c ∈ formulas, Z3.holds Term m c then some found.choose else none

theorem findModel_sound (formulas : List (Assignment → Bool)) (m : Assignment)
    (found : findModel formulas = some m) : ∀ c ∈ formulas, Z3.holds Term m c := by
  unfold findModel at found
  split at found
  · rename_i exists_model
    cases found
    exact exists_model.choose_spec
  · cases found

private theorem findModel_complete (formulas : List (Assignment → Bool))
    (none : findModel formulas = none) :
    ¬ ∃ m : Assignment, ∀ c ∈ formulas, Z3.holds Term m c := by
  unfold findModel at none
  split at none
  · cases none
  · assumption

/-- An unknown index with two values. -/
def idx : SymValue Term := .newSymbolic "idx" 64

def idxIsEither : Assignment → Bool :=
  Z3.or Term (Z3.eq (idx.toBv 0) (Z3.fromU64 0x1000 64)) (Z3.eq (idx.toBv 0) (Z3.fromU64 0x2000 64))

theorem value_idx {m : Assignment} (satisfies : ∀ c ∈ [idxIsEither], Z3.holds Term m c) :
    Z3.value m (idx.toBv 0) = 0x1000 ∨ Z3.value m (idx.toBv 0) = 0x2000 := by
  have sizes : ∀ word, Z3.size (idx.toBv 0) = Z3.size (Z3.fromU64 word 64 : Term) := fun _ => rfl
  have either := (Z3.holds_or m _ _).mp (satisfies _ (mem_singleton_self _))
  rw [Z3.holds_eq m _ _ (sizes _), Z3.holds_eq m _ _ (sizes _), Z3.value_fromU64,
    Z3.value_fromU64] at either
  exact either

theorem enumerable_idx : Enumerable 256 [idxIsEither] idx := by
  refine ⟨rfl, [0x1000, 0x2000], by decide, fun m satisfies => ?_⟩
  rcases value_idx satisfies with first | second
  · exact ⟨0x1000, by simp, first⟩
  · exact ⟨0x2000, by simp, second⟩

/-- A byte written through the index and read back through it. -/
theorem idx_readsLast : ReadsLast (enumerateSymbolicAddresses findModel 0) 256 false
    [⟨idx, .concrete 0xca 8 0, [idxIsEither]⟩] idx [idxIsEither] 0 := by
  refine (readsLast_iff findModel_sound findModel_complete 0 ?_ enumerable_idx 0).mpr ?_
  · exact forall_mem_singleton.mpr ⟨show 1 ≤ 8 by decide, enumerable_idx⟩
  · -- The index is never the last address.
    intro m _ satisfies aims
    have last : BitVec.ofNat 64 (Z3.value m (idx.toBv 0)) = lastAddress := some.inj aims
    rcases value_idx satisfies with first | second
    · rw [first] at last
      exact absurd last (by decide)
    · rw [second] at last
      exact absurd last (by decide)

def unknownAtLast : List (ByteWrite Term (Assignment → Bool)) :=
  [⟨.concrete lastAddress 64 0, .newSymbolic "b" 8, []⟩]

/-- The byte is lost: the address reads as zero. -/
theorem unknownAtLast_lost : (∀ write ∈ unknownAtLast, write.Valid 256) ∧
    ¬ ReadsLast (enumerateSymbolicAddresses findModel 0) 256 false unknownAtLast
      (.concrete lastAddress 64 0) [] 0 := by
  constructor
  · exact forall_mem_singleton.mpr ⟨⟨by decide, rfl⟩, trivial⟩
  · intro right
    have five := right (fun _ _ => 5) (by simp [SatisfiesAll, unknownAtLast]) (by simp) lastAddress 5
      rfl (by decide +kernel)
    have zero : (readAfter (enumerateSymbolicAddresses findModel 0) 256 false unknownAtLast
      (.concrete lastAddress 64 0) [] 0).1.denote (fun _ _ => 5 : Assignment) = some 0 := rfl
    exact absurd (zero.symm.trans five) (by decide)

end R2Sleigh.Sym
