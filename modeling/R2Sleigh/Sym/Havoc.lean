import R2Sleigh.Ssa.InterprocSummary
import R2Sleigh.Sym.SummaryBytes

/-!
Contract: call hooks made from what is known of the callee.

Owns `applyInterprocSummary` and `Permitted`.

A byte made fresh is read back at a known address, or at one of the targets enumerated for a
symbolic one; never at the last address.

Does not own the panic of a read of more than 8 known bytes where overflow is checked.
-/

namespace R2Sleigh.Sym

open Lib Ssa SymMemory List Option SymValue

variable {BV Formula Model : Type} [Z3Arith BV Formula Model]

/-- At most so many bytes of an effect are made fresh. -/
def defaultMaxInterprocHavoc : Nat := 0x40

/-- The value differs from a constant. -/
def SymState.constrainNe (state : SymState BV Formula) (value : SymValue BV) (rhs : Word) :
    Fresh (SymState BV Formula) := do
  let bv := value.toBv (← nextFresh)
  return { state with
    constraints := state.constraints ++ [Z3.not BV (Z3.eq bv (Z3.fromU64 rhs value.bits))] }

def interprocReturnValue (state : SymState BV Formula) (call : CallInfo BV)
    (summary : FunctionSemanticSummary) :
    Fresh (SymState BV Formula × Option (SymValue BV)) := do
  match summary.returnRelation with
  | .void => return (state, none)
  | .arg index => return (state, call.args[index]?)
  | .const value | .global value => return (state, some (.ofWord value call.retBits))
  | .heapAlloc =>
    let ret := symbolic (Z3.freshConst (← nextFresh) "interproc_heap_ptr" call.retBits)
      (normalizeBvBits call.retBits) 0
    return (← state.constrainNe ret 0, some ret)
  | .unknown => return (state, some (.unknown (normalizeBvBits call.retBits) 0))

section Hook

variable (enumerate : Enumerator BV Formula)

/-- The bytes of an effect that are made fresh. -/
def havocWidth (effect : SummaryMemoryEffect) : Nat :=
  max (min ((effect.location.range.bind (·.width)).getD defaultMaxInterprocHavoc)
    defaultMaxInterprocHavoc) 1

def startOffset (effect : SummaryMemoryEffect) : Word :=
  (effect.location.range.map (·.offsetLo)).getD 0

def havocByte (start : SymValue BV) (ptrBits : Nat) (taint : Word) (state : SymState BV Formula)
    (i : Nat) : Fresh (SymState BV Formula) := do
  let addr ← start.add (.ofWord (BitVec.ofNat 64 i) ptrBits)
  let byte := symbolic (Z3.freshConst (← nextFresh) "interproc_mem" 8)
    (normalizeBvBits 8) taint
  state.memWrite enumerate addr byte 1

def applyMemoryEffectAtBase (state : SymState BV Formula) (base : SymValue BV) (ptrBits : Nat)
    (effect : SummaryMemoryEffect) : Fresh (SymState BV Formula) := do
  let start ← base.add (.ofWord (startOffset effect) ptrBits)
  match effect.kind with
  | .read =>
    -- The value is dropped.
    let _ ← state.memRead enumerate start (havocWidth effect)
    return state
  | .write | .escape | .free =>
    (List.range (havocWidth effect)).foldlM (havocByte enumerate start ptrBits base.getTaint) state

def applyInterprocMemoryEffect (call : CallInfo BV) (state : SymState BV Formula)
    (effect : SummaryMemoryEffect) : Fresh (SymState BV Formula) :=
  match effect.location.region with
  | .arg index =>
    match call.args[index]? with
    | some base => applyMemoryEffectAtBase enumerate state base call.argBits effect
    | none => pure state
  | .global address =>
    applyMemoryEffectAtBase enumerate state (.ofWord address call.argBits) call.argBits effect
  | .heapReturn | .unknown => pure state

def applyInterprocSummary (summary : FunctionSemanticSummary) (callconv : CallConv)
    (state : SymState BV Formula) : Fresh (SymState BV Formula × CallHookResult) := do
  let call := callconv.collectCallInfo state (summaryArity summary)
  let state ← summary.memoryEffects.foldlM (applyInterprocMemoryEffect enumerate call) state
  let (state, value) ← interprocReturnValue state call summary
  match value with
  | some value => return (callconv.writeReturn state value, .fallthrough)
  | none => return (state, .fallthrough)

end Hook

/-! ## Over-approximation -/

/-- The byte can take any value under the path constraints. -/
def AnyValue (state : SymState BV Formula) (x : Word) : Prop :=
  ∀ v < 2 ^ 8, ∃ m : Model, (∀ c ∈ state.constraints, Z3.holds BV m c) ∧
    byteAt m state.memory x = some v

def InRange (range : Option SummaryMemoryRange) (pointer ptrBits : Nat) (x : Word) : Prop :=
  ∀ known, range = some known → ∃ offset : Int, known.Reaches offset ∧
    (x.toNat : Int) = (pointer + offset) % 2 ^ ptrBits

/-- An argument that denotes nothing may point anywhere. -/
def PointsInto (constraints : List Formula) (range : Option SummaryMemoryRange) (base : SymValue BV)
    (ptrBits : Nat) (x : Word) : Prop :=
  (∃ (bits : Nat) (taint : Word), base = .unknown bits taint) ∨
    ∃ m : Model, (∀ c ∈ constraints, Z3.holds BV m c) ∧
      ∃ pointer, base.denote m = some pointer ∧ InRange range pointer ptrBits x

/-- A summary lets the callee change a byte. -/
def Permitted (summary : FunctionSemanticSummary) (call : CallInfo BV) (constraints : List Formula)
    (x : Word) : Prop :=
  summary.writesGlobalMemory = true ∨ summary.touchesUnknownMemory = true ∨
    (∃ entry ∈ summary.argEffects.entries, entry.2.changes = true) ∨
    ∃ effect ∈ summary.memoryEffects, effect.kind.changes = true ∧
      match effect.location.region with
      | .arg index => ∃ base, call.args[index]? = some base ∧
          PointsInto constraints effect.location.range base call.argBits x
      | .global address => InRange effect.location.range address.toNat call.argBits x
      | .heapReturn => False
      | .unknown => True

/-- Every byte that the summary lets the callee change can take any value after the hook. -/
def OverApproximates (enumerate : Enumerator BV Formula) (summary : FunctionSemanticSummary)
    (callconv : CallConv) (state : SymState BV Formula) (fresh : Nat) : Prop :=
  ∀ x, Permitted summary (callconv.collectCallInfo state (summaryArity summary))
      state.constraints x →
    AnyValue (applyInterprocSummary enumerate summary callconv state fresh).1.1 x

/-! ## One write -/

section Writes

variable {enumerate : Enumerator BV Formula} {mem : SymMemory BV} {addr byte : SymValue BV}
variable {state : SymState BV Formula} {x : Word}

/-- A write at the address may land there: at a known address, or at an enumerated target. -/
def Aims (enumerate : Enumerator BV Formula) (limit : Nat) (constraints : List Formula)
    (addr : SymValue BV) (x : Word) : Prop :=
  match addr.asConcrete with
  | some target => target = x
  | none => x ∈ (enumerate limit addr constraints).1

theorem writeTarget_byte (addr : SymValue BV) (x : Word) (sized : mem.Sized) (isByte : IsByte byte)
    (addrBv : BV) (target : Word) (fresh : Nat) :
    (x ≠ target ∨ x = lastAddress →
      (writeTarget addr byte addrBv 1 mem target fresh).1.readConcrete x 1 = mem.readConcrete x 1) ∧
    ∀ (m : Model) n, byte.denote m = some n → byteAt m mem x = some n →
      byteAt m (writeTarget addr byte addrBv 1 mem target fresh).1 x = some n := by
  have same : adjustBits (mem.readConcrete target 1) (1 * 8) = mem.readConcrete target 1 :=
    adjustBits_self (sized.isByte target).1
  have elsewhere : x ≠ target ∨ x = lastAddress →
      (writeTarget addr byte addrBv 1 mem target fresh).1.readConcrete x 1 =
        mem.readConcrete x 1 := fun other => by
    refine readConcrete_unlogged rfl (fun both => ?_) rfl rfl
    exact other.elim (fun differs => differs (some.inj both.1).symm) both.2
  refine ⟨elsewhere, fun m n denotes old => ?_⟩
  by_cases other : x ≠ target ∨ x = lastAddress
  · unfold byteAt
    rw [elsewhere other]
    exact old
  · obtain ⟨rfl, low⟩ : x = target ∧ x ≠ lastAddress := by
      simpa only [ne_eq, not_or, not_not] using other
    obtain ⟨-, value⟩ := merged_spec isByte (sized.isByte x)
      (Z3.eq addrBv (Z3.fromU64 x addr.bits)) fresh (fresh + 1) 0
    have merged := value m n (fun _ => denotes) fun _ => old
    unfold byteAt writeTarget
    rw [same]
    rw [readConcrete_logged rfl rfl low]
    exact congrArg some merged

theorem writeTargets_byte (addr : SymValue BV) (x : Word) (isByte : IsByte byte) (addrBv : BV) :
    ∀ (targets : List Word) (mem : SymMemory BV) (fresh : Nat), mem.Sized →
      (targets.foldlM (writeTarget addr byte addrBv 1) mem fresh).1.Sized ∧
      (targets.foldlM (writeTarget addr byte addrBv 1) mem fresh).1.maxSymbolicTargets =
        mem.maxSymbolicTargets ∧
      ((∀ target ∈ targets, x ≠ target) ∨ x = lastAddress →
        (targets.foldlM (writeTarget addr byte addrBv 1) mem fresh).1.readConcrete x 1 =
          mem.readConcrete x 1) ∧
      ∀ (m : Model) n, byte.denote m = some n → byteAt m mem x = some n →
        byteAt m (targets.foldlM (writeTarget addr byte addrBv 1) mem fresh).1 x = some n
  | [], mem, fresh, sized => ⟨sized, rfl, fun _ => rfl, fun _ _ _ old => old⟩
  | target :: rest, mem, fresh, sized => by
    obtain ⟨missed, persists⟩ := writeTarget_byte addr x sized isByte addrBv target fresh
    have sizedNext : (writeTarget addr byte addrBv 1 mem target fresh).1.Sized :=
      sized.writeTarget isByte.2 isByte.1 le_rfl addrBv target fresh
    obtain ⟨sizedAll, sameLimit, missedRest, persistsRest⟩ := writeTargets_byte addr x isByte addrBv
      rest (writeTarget addr byte addrBv 1 mem target fresh).1 (fresh + 2) sizedNext
    refine ⟨sizedAll, sameLimit, fun other => ?_, fun m n denotes old => ?_⟩
    · have otherRest : (∀ later ∈ rest, x ≠ later) ∨ x = lastAddress :=
        other.imp_left fun apart later member => apart later (mem_cons_of_mem _ member)
      have otherTarget : x ≠ target ∨ x = lastAddress :=
        other.imp_left fun apart => apart target mem_cons_self
      exact (missedRest otherRest).trans (missed otherTarget)
    · exact persistsRest m n denotes (persists m n denotes old)

/-- What a write of a byte leaves at an address. -/
structure WroteByte (enumerate : Enumerator BV Formula) (state : SymState BV Formula)
    (addr byte : SymValue BV) (after : SymState BV Formula) : Prop where
  memoryOnly : after = { state with memory := after.memory }
  sized : after.memory.Sized
  limit : after.memory.maxSymbolicTargets = state.memory.maxSymbolicTargets
  missed : ∀ x, ¬ Aims enumerate state.memory.maxSymbolicTargets state.constraints addr x ∨
    x = lastAddress → after.memory.readConcrete x 1 = state.memory.readConcrete x 1
  persists : ∀ (m : Model) x n, byte.denote m = some n → byteAt m state.memory x = some n →
    byteAt m after.memory x = some n
  shown : ∀ (m : Model) x n,
    Aims enumerate state.memory.maxSymbolicTargets state.constraints addr x → x ≠ lastAddress →
    (addr.isConcrete = false → addr.denote m = some x.toNat) → byte.denote m = some n →
      byteAt m after.memory x = some n

/-- An address that is known or a term of its width, all of whose targets fit the width. -/
def Addressable (enumerate : Enumerator BV Formula) (limit : Nat) (constraints : List Formula)
    (addr : SymValue BV) : Prop :=
  match addr with
  | .concrete _ _ _ => True
  | .symbolic ast bits _ => Z3.size ast = bits ∧
      ∀ target ∈ (enumerate limit addr constraints).1, target.toNat < 2 ^ bits
  | .unknown _ _ => False

theorem wroteByte_targets (sized : state.memory.Sized) (isByte : IsByte byte) {ast : BV} {bits : Nat}
    {taint : Word} (sizeAst : Z3.size ast = bits)
    (small : ∀ target ∈ (enumerate state.memory.maxSymbolicTargets (.symbolic ast bits taint)
      state.constraints).1, target.toNat < 2 ^ bits) (fresh : Nat) :
    WroteByte enumerate state (.symbolic ast bits taint) byte { state with
      memory := ((enumerate state.memory.maxSymbolicTargets (.symbolic ast bits taint)
        state.constraints).1.foldlM (SymMemory.writeTarget (.symbolic ast bits taint) byte ast 1)
          state.memory fresh).1 } := by
  have all := fun x => writeTargets_byte (.symbolic ast bits taint) x isByte ast
    (enumerate state.memory.maxSymbolicTargets (.symbolic ast bits taint) state.constraints).1
    state.memory fresh sized
  have width : Z3.size ast = (symbolic ast bits taint).bits := sizeAst
  have through := wroteThrough_foldlM width isByte small state.memory fresh
  refine ⟨rfl, (all 0).1, (all 0).2.1, fun x other => (all x).2.2.1 (other.imp_left ?_),
    fun m x n denotes old => (all x).2.2.2 m n denotes old, fun m x n aims low isX denotes => ?_⟩
  · intro missed target member same
    subst same
    exact missed member
  · exact through.shown sized.isByte m x n (some.inj (isX rfl)) low denotes (Or.inl aims)

theorem WroteByte.logged {ast : BV} {bits : Nat} {taint : Word} {after : SymState BV Formula}
    (wrote : WroteByte enumerate state (.symbolic ast bits taint) byte after)
    {after' : SymState BV Formula} (log : after' = { after with memory := { after.memory with
      symbolicWrites := after.memory.symbolicWrites ++ [(.symbolic ast bits taint, byte, 1)] } })
    (isByte : IsByte byte) :
    WroteByte enumerate state (.symbolic ast bits taint) byte after' := by
  subst log
  have reads : ∀ x, ({ after.memory with symbolicWrites := after.memory.symbolicWrites ++
      [(.symbolic ast bits taint, byte, 1)] } : SymMemory BV).readConcrete x 1 =
        after.memory.readConcrete x 1 := fun x =>
    readConcrete_unlogged rfl (fun both => nomatch both.1) rfl rfl
  refine ⟨?_, wrote.sized.push isByte.2 isByte.1 rfl, wrote.limit,
    fun x other => (reads x).trans (wrote.missed x other), fun m x n denotes old => ?_,
    fun m x n aims low isX denotes => ?_⟩
  · rw [wrote.memoryOnly]
  · exact (congrArg (denote m) (reads x)).trans (wrote.persists m x n denotes old)
  · exact (congrArg (denote m) (reads x)).trans (wrote.shown m x n aims low isX denotes)

private theorem memWrite_wroteByte (sized : state.memory.Sized) (isByte : IsByte byte)
    (notConcrete : byte.isConcrete = false)
    (addressable : Addressable enumerate state.memory.maxSymbolicTargets state.constraints addr)
    (fresh : Nat) :
    WroteByte enumerate state addr byte (state.memWrite enumerate addr byte 1 fresh).1 := by
  have width : adjustBits byte (1 * 8) = byte := adjustBits_self isByte.1
  have noWord : byte.asConcrete = none :=
    isSome_eq_false_iff.mp notConcrete |> isNone_iff_eq_none.mp
  cases addr with
  | concrete target bits taint =>
    have concrete : (concrete target bits taint : SymValue BV).asConcrete = some target := rfl
    rw [memWrite_byte concrete isByte]
    refine ⟨rfl, sized.writeAt isByte.2 isByte.1 _, rfl, fun x other => ?_,
      fun m x n denotes old => ?_, fun m x n aims low _ denotes => ?_⟩
    · by_cases same : x = target
      · subst same
        obtain rfl : x = lastAddress := other.resolve_left fun missed => missed rfl
        show SymMemory.readConcrete (writeAt _ _ _ _ _) _ _ = _
        rw [readConcrete_lastAddress, readConcrete_lastAddress, lookup_writeAt_byte, if_pos rfl,
          noWord]
        rfl
      · exact readConcrete_writeAt_ne concrete same
    · by_cases same : x = target
      · subst same
        rcases byteAt_writeAt_self concrete isByte m with isNew | isOld
        · exact isNew.trans denotes
        · exact isOld.trans old
      · exact (congrArg (denote m) (readConcrete_writeAt_ne concrete same)).trans old
    · obtain rfl : target = x := aims
      exact (congrArg (denote m) (readConcrete_writeAt_self concrete low)).trans denotes
  | symbolic ast bits taint =>
    obtain ⟨sizeAst, small⟩ := addressable
    have wrote := wroteByte_targets sized isByte sizeAst small (fresh + 1)
    generalize targetsMem : ((enumerate state.memory.maxSymbolicTargets (.symbolic ast bits taint)
      state.constraints).1.foldlM (SymMemory.writeTarget (.symbolic ast bits taint) byte ast 1)
        state.memory (fresh + 1)).1 = mem' at wrote
    unfold SymState.memWrite SymMemory.writeWithConstraints
    rw [width]
    generalize enumerate state.memory.maxSymbolicTargets (.symbolic ast bits taint)
      state.constraints = answer at targetsMem
    obtain ⟨targets, truncated⟩ := answer
    cases targets with
    | nil =>
      obtain rfl : state.memory = mem' := targetsMem
      exact wrote.logged rfl isByte
    | cons target rest =>
      subst targetsMem
      cases truncated with
      | false => exact wrote
      | true => exact wrote.logged rfl isByte
  | unknown _ _ => exact addressable.elim

end Writes

/-! ## Counting -/

section Counting

/-- The numbers of constants only grow. -/
def Grows {α : Type} (run : Fresh α) : Prop := ∀ n, n ≤ (run n).2

theorem grows_pure {α : Type} (a : α) : Grows (pure a : Fresh α) := fun _ => le_rfl

theorem grows_nextFresh : Grows nextFresh := fun n => Nat.le_succ n

theorem Grows.bind {α β : Type} {run : Fresh α} {next : α → Fresh β} (grows : Grows run)
    (growsNext : ∀ a, Grows (next a)) : Grows (run >>= next) := fun n =>
  le_trans (grows n) (growsNext _ _)

theorem grows_foldlM {α β : Type} {step : β → α → Fresh β} (grows : ∀ b a, Grows (step b a)) :
    ∀ (items : List α) (b : β), Grows (items.foldlM step b)
  | [], b => grows_pure b
  | item :: rest, b => by
    exact (grows b item).bind fun next => grows_foldlM grows rest next

theorem words_or_not (a b : SymValue BV) : (a.isConcrete = false ∨ b.isConcrete = false) ∨
    ∃ x xBits tx y yBits ty, a = .concrete x xBits tx ∧ b = .concrete y yBits ty := by
  cases a with
  | concrete x xBits tx =>
    cases b with
    | concrete y yBits ty => exact .inr ⟨x, xBits, tx, y, yBits, ty, rfl, rfl⟩
    | _ => exact .inl (.inr rfl)
  | _ => exact .inl (.inl rfl)

theorem grows_add (a b : SymValue BV) : Grows (a.add b) := by
  have grows : Grows (combineTerm .bvadd a b) := by
    refine Grows.bind (grows_nextFresh.bind fun _ => grows_nextFresh.bind fun _ => ?_)
      fun _ => grows_pure _
    split_ifs <;> exact grows_pure _
  rcases words_or_not a b with either | ⟨x, xBits, tx, y, yBits, ty, rfl, rfl⟩
  · rw [add, combine_eq_combineTerm _ _ either]
    exact grows
  · exact fun _ => le_rfl

theorem grows_memWrite (enumerate : Enumerator BV Formula) (state : SymState BV Formula)
    (addr value : SymValue BV) (size : Nat) : Grows (state.memWrite enumerate addr value size) := by
  unfold SymState.memWrite SymMemory.writeWithConstraints
  refine Grows.bind ?_ fun _ => grows_pure _
  have writes : ∀ addrBv (mem : SymMemory BV) target,
      Grows (writeTarget addr (adjustBits value (size * 8)) addrBv size mem target) :=
    fun _ _ _ => grows_nextFresh.bind fun _ => grows_nextFresh.bind fun _ => grows_pure _
  cases addr.asConcrete with
  | some target => exact grows_pure _
  | none =>
    dsimp only
    split_ifs
    · exact grows_pure _
    · exact grows_nextFresh.bind fun addrBv => (grows_foldlM (writes _) _ _).bind fun _ =>
        grows_pure _
    · exact grows_nextFresh.bind fun addrBv => (grows_foldlM (writes _) _ _).bind fun _ =>
        grows_pure _

private theorem grows_memRead (enumerate : Enumerator BV Formula) (state : SymState BV Formula)
    (addr : SymValue BV) (size : Nat) : Grows (state.memRead enumerate addr size) := by
  unfold SymState.memRead SymMemory.readWithConstraints
  have reads : ∀ addrBv (result : SymValue BV) target,
      Grows (state.memory.readTarget addr addrBv size result target) :=
    fun _ _ _ => grows_nextFresh.bind fun _ => grows_nextFresh.bind fun _ => grows_pure _
  cases addr.asConcrete with
  | some target => exact grows_pure _
  | none =>
    dsimp only
    have fromInitial : ∀ initial : SymValue BV,
        Grows (if (enumerate state.memory.maxSymbolicTargets addr state.constraints).1.isEmpty then
          pure initial else nextFresh >>= fun addrBv =>
            (enumerate state.memory.maxSymbolicTargets addr state.constraints).1.foldlM
              (state.memory.readTarget addr (addr.toBv addrBv) size) initial) := fun initial => by
      split_ifs
      · exact grows_pure _
      · exact grows_nextFresh.bind fun addrBv => grows_foldlM (reads _) _ _
    split
    · exact grows_nextFresh.bind fun _ => (grows_pure _).bind fromInitial
    · exact (grows_pure _).bind fromInitial

end Counting

/-! ## Addresses -/

section Addresses

variable {enumerate : Enumerator BV Formula} {a b : SymValue BV}

def SymValue.IsKnown (v : SymValue BV) : Prop :=
  match v with
  | .unknown _ _ => False
  | _ => True

theorem SymValue.IsKnown.toBv_eq (known : a.IsKnown) (n n' : Nat) : a.toBv n = a.toBv n' := by
  cases a with
  | concrete _ _ _ => rfl
  | symbolic _ _ _ => rfl
  | unknown _ _ => exact known.elim

theorem SymValue.IsKnown.value_congr (known : a.IsKnown) (sorted : a.WellSorted) {m m' : Model}
    (same : a.denote m' = a.denote m) (n : Nat) : Z3.value m' (a.toBv n) = Z3.value m (a.toBv n) := by
  cases denotes : a.denote m with
  | none => cases a <;> first | exact known.elim | cases denotes
  | some x =>
    rw [value_toBv sorted n denotes, value_toBv sorted n (same.trans denotes)]

theorem add_known (knownA : a.IsKnown) (knownB : b.IsKnown) (n : Nat) :
    (a.add b n).1 = (a.add b 0).1 := by
  have terms : (combineTerm .bvadd a b n).1 = (combineTerm .bvadd a b 0).1 := by
    unfold combineTerm normalizeWidths normalizeWith
    simp only [bind, StateT.bind, nextFresh, knownA.toBv_eq n 0, knownB.toBv_eq (n + 1) (0 + 1)]
    split_ifs <;> rfl
  rcases words_or_not a b with either | ⟨x, xBits, tx, y, yBits, ty, rfl, rfl⟩
  · rw [add, combine_eq_combineTerm _ _ either]
    exact terms
  · rfl

theorem add_spec (sortedA : a.WellSorted) (sortedB : b.WellSorted) (n : Nat) :
    (a.add b n).1.WellSorted ∧ (a.add b n).1.IsKnown ∧
      (a.IsKnown → b.IsKnown → ∀ m m' : Model, a.denote m' = a.denote m →
        b.denote m' = b.denote m → (a.add b n).1.denote m' = (a.add b n).1.denote m) := by
  rcases words_or_not a b with either | ⟨x, xBits, tx, y, yBits, ty, rfl, rfl⟩
  · obtain ⟨t, term, size, values⟩ := combineTerm_spec .bvadd sortedA sortedB n
    have wide : 1 ≤ max a.bits b.bits := le_trans sortedA.one_le_bits (le_max_left _ _)
    rw [add, combine_eq_combineTerm _ _ either, term]
    refine ⟨⟨wide, size⟩, trivial, fun knownA knownB m m' sameA sameB => congrArg some ?_⟩
    rw [values m, values m', knownA.value_congr sortedA sameA, knownB.value_congr sortedB sameB]
  · have wide : 1 ≤ max xBits yBits := le_trans sortedA.one_le_bits (le_max_left xBits yBits)
    exact ⟨wide, trivial, fun _ _ _ _ _ _ => rfl⟩

theorem wellSorted_ofWord (word : Word) (bits : Nat) :
    (ofWord word bits : SymValue BV).WellSorted := le_max_right _ _

/-- Each target is a value of the address under the constraints. -/
def SoundTargets (enumerate : Enumerator BV Formula) : Prop :=
  ∀ limit constraints ast bits taint target, Z3.size ast = bits →
    target ∈ (enumerate limit (.symbolic ast bits taint) constraints).1 →
      ∃ m : Model, (∀ c ∈ constraints, Z3.holds BV m c) ∧ Z3.value m ast = target.toNat

theorem SoundTargets.addressable (sound : SoundTargets enumerate) (known : a.IsKnown)
    (sorted : a.WellSorted) (limit : Nat) (constraints : List Formula) :
    Addressable enumerate limit constraints a := by
  cases a with
  | concrete _ _ _ => trivial
  | symbolic ast bits taint =>
    refine ⟨sorted.2, fun target member => ?_⟩
    obtain ⟨m, -, value⟩ := sound limit constraints ast bits taint target sorted.2 member
    rw [← value, ← sorted.2]
    exact Z3.value_lt m ast
  | unknown _ _ => exact known.elim

theorem enumerateFrom_sound {solve : List Formula → Option Model}
    (sound : ∀ formulas m, solve formulas = some m → ∀ c ∈ formulas, Z3.holds BV m c)
    {addrBv : BV} {bits : Nat} : ∀ (remaining : Nat) (asserted : List Formula) (target : Word),
      target ∈ (enumerateFrom solve addrBv bits remaining asserted).1 →
        ∃ m : Model, (∀ c ∈ asserted, Z3.holds BV m c) ∧ Z3.value m addrBv = target.toNat
  | 0, _, _, member => absurd member not_mem_nil
  | remaining + 1, asserted, target, member => by
    rw [enumerateFrom] at member
    cases asked : solve asserted with
    | none =>
      rw [asked] at member
      exact absurd member not_mem_nil
    | some model =>
      rw [asked] at member
      dsimp only at member
      split at member
      · rename_i small
        rcases mem_cons.mp member with rfl | later
        · refine ⟨model, sound asserted model asked, ?_⟩
          rw [BitVec.toNat_ofNat, Nat.mod_eq_of_lt small]
        · obtain ⟨m, satisfies, value⟩ := enumerateFrom_sound sound remaining _ target later
          exact ⟨m, fun c inAsserted => satisfies c (mem_append_left _ inAsserted), value⟩
      · exact absurd member not_mem_nil

/-- With a sound solver each target enumerated is a value of the address. -/
theorem soundTargets_enumerate {solve : List Formula → Option Model}
    (sound : ∀ formulas m, solve formulas = some m → ∀ c ∈ formulas, Z3.holds BV m c)
    (unknown : Nat) : SoundTargets (enumerateSymbolicAddresses solve unknown : Enumerator BV Formula) := by
  intro limit constraints ast bits taint target _ member
  unfold enumerateSymbolicAddresses at member
  split at member
  · exact absurd member not_mem_nil
  · exact enumerateFrom_sound sound limit constraints target member

end Addresses

/-! ## Runs of writes -/

section Runs

variable {enumerate : Enumerator BV Formula}

def freshByte (number : Nat) (taint : Word) : SymValue BV :=
  .symbolic (Z3.freshConst number "interproc_mem" 8) (normalizeBvBits 8) taint

private theorem isByte_freshByte (number : Nat) (taint : Word) :
    IsByte (freshByte number taint : SymValue BV) :=
  ⟨rfl, by decide, Z3.size_freshConst _ _ _⟩

/-- Fresh bytes, of constants numbered from `first` on, written at a list of addresses. -/
inductive HavocRun (enumerate : Enumerator BV Formula) (first : Nat) :
    SymState BV Formula → List (SymValue BV) → SymState BV Formula → Prop where
  | done (state : SymState BV Formula) : HavocRun enumerate first state [] state
  | write {state after final : SymState BV Formula} {addr : SymValue BV} {number : Nat} {taint : Word}
      {later : List (SymValue BV)} (isFresh : first ≤ number)
      (wrote : WroteByte enumerate state addr (freshByte number taint) after)
      (rest : HavocRun enumerate first after later final) :
      HavocRun enumerate first state (addr :: later) final

variable {first : Nat} {state middle final : SymState BV Formula} {addrs more : List (SymValue BV)}

theorem HavocRun.append (run : HavocRun enumerate first state addrs middle)
    (next : HavocRun enumerate first middle more final) :
    HavocRun enumerate first state (addrs ++ more) final := by
  induction run with
  | done _ => exact next
  | write isFresh wrote _ ih => exact .write isFresh wrote (ih next)

theorem HavocRun.frame (run : HavocRun enumerate first state addrs final)
    (sized : state.memory.Sized) : final = { state with memory := final.memory } ∧
      final.memory.Sized ∧ final.memory.maxSymbolicTargets = state.memory.maxSymbolicTargets := by
  induction run with
  | done _ => exact ⟨rfl, sized, rfl⟩
  | write _ wrote _ ih =>
    obtain ⟨memoryOnly, sizedFinal, limit⟩ := ih wrote.sized
    refine ⟨?_, sizedFinal, limit.trans wrote.limit⟩
    rw [memoryOnly, wrote.memoryOnly]

theorem HavocRun.missed (run : HavocRun enumerate first state addrs final) {x : Word}
    (missed : (∀ addr ∈ addrs, ¬ Aims enumerate state.memory.maxSymbolicTargets state.constraints
      addr x) ∨ x = lastAddress) :
    final.memory.readConcrete x 1 = state.memory.readConcrete x 1 := by
  induction run with
  | done _ => rfl
  | @write state after _ addr _ _ later _ wrote _ ih =>
    have sameConstraints : after.constraints = state.constraints := by rw [wrote.memoryOnly]
    rw [wrote.limit, sameConstraints] at ih
    refine (ih (missed.imp_left fun none other member =>
      none other (mem_cons_of_mem _ member))).trans ?_
    exact wrote.missed x (missed.imp_left fun none => none addr mem_cons_self)

section Shown

variable {m : Model} {n : Nat}
variable (values : ∀ number, first ≤ number →
  Z3.value m (Z3.freshConst number "interproc_mem" 8 : BV) = n)

include values

theorem HavocRun.persists (run : HavocRun enumerate first state addrs final) {x : Word}
    (old : byteAt m state.memory x = some n) : byteAt m final.memory x = some n := by
  induction run with
  | done _ => exact old
  | @write _ _ _ _ number _ _ isFresh wrote _ ih =>
    exact ih (wrote.persists m x n (congrArg some (values number isFresh)) old)

/-- In a model that gives all fresh bytes one value, a byte that an address aims at and points to
has it. -/
theorem HavocRun.shown (run : HavocRun enumerate first state addrs final) {x : Word}
    (low : x ≠ lastAddress) {addr : SymValue BV} (member : addr ∈ addrs)
    (aims : Aims enumerate state.memory.maxSymbolicTargets state.constraints addr x)
    (isX : addr.isConcrete = false → addr.denote m = some x.toNat) :
    byteAt m final.memory x = some n := by
  induction run with
  | done _ => cases member
  | @write state after _ head number _ later isFresh wrote rest ih =>
    have sameConstraints : after.constraints = state.constraints := by rw [wrote.memoryOnly]
    rw [wrote.limit, sameConstraints] at ih
    rcases mem_cons.mp member with rfl | inLater
    · exact rest.persists values
        (wrote.shown m x n aims low isX (congrArg some (values number isFresh)))
    · exact ih inLater aims

end Shown

/-! ## Effects -/

theorem isKnown_ofWord (word : Word) (bits : Nat) : (ofWord word bits : SymValue BV).IsKnown :=
  trivial

/-- The addresses of an effect at a known base. -/
def effectAddrs (base : SymValue BV) (ptrBits : Nat) (effect : SummaryMemoryEffect) :
    List (SymValue BV) :=
  (List.range (havocWidth effect)).map fun i =>
    ((base.add (.ofWord (startOffset effect) ptrBits) 0).1.add
      (.ofWord (BitVec.ofNat 64 i) ptrBits) 0).1

variable (sound : SoundTargets enumerate) (sized : state.memory.Sized) {fresh : Nat}
variable (counted : first ≤ fresh)

include sound in
theorem havocBytes_run {start : SymValue BV} (sorted : start.WellSorted) (known : start.IsKnown)
    (ptrBits : Nat) (taint : Word) :
    ∀ (indices : List Nat) (state : SymState BV Formula) (fresh : Nat), state.memory.Sized →
      first ≤ fresh → HavocRun enumerate first state
        (indices.map fun i => (start.add (.ofWord (BitVec.ofNat 64 i) ptrBits) 0).1)
        (indices.foldlM (havocByte enumerate start ptrBits taint) state fresh).1
  | [], state, _, _, _ => .done state
  | i :: rest, state, fresh, sized, counted => by
    have offsetKnown : (ofWord (BitVec.ofNat 64 i) ptrBits : SymValue BV).IsKnown :=
      isKnown_ofWord _ _
    obtain ⟨addrSorted, addrKnown, -⟩ := add_spec sorted
      (wellSorted_ofWord (BitVec.ofNat 64 i) ptrBits) fresh
    have sameAddr := add_known known offsetKnown fresh
    have grown : fresh ≤ (start.add (.ofWord (BitVec.ofNat 64 i) ptrBits) fresh).2 :=
      grows_add _ _ fresh
    have wrote := memWrite_wroteByte sized
      (isByte_freshByte (start.add (.ofWord (BitVec.ofNat 64 i) ptrBits) fresh).2 taint) rfl
      (sound.addressable addrKnown addrSorted _ _)
      ((start.add (.ofWord (BitVec.ofNat 64 i) ptrBits) fresh).2 + 1)
    have later := grows_memWrite enumerate state
      (start.add (.ofWord (BitVec.ofNat 64 i) ptrBits) fresh).1
      (freshByte (start.add (.ofWord (BitVec.ofNat 64 i) ptrBits) fresh).2 taint) 1
      ((start.add (.ofWord (BitVec.ofNat 64 i) ptrBits) fresh).2 + 1)
    rw [foldlM_cons, map_cons, ← sameAddr]
    have countedNext := le_trans counted (le_trans grown (le_trans (Nat.le_succ _) later))
    exact .write (le_trans counted grown) wrote
      (havocBytes_run sorted known ptrBits taint rest _ _ wrote.sized countedNext)

def effectBase (call : CallInfo BV) (effect : SummaryMemoryEffect) : Option (SymValue BV) :=
  match effect.location.region with
  | .arg index => call.args[index]?
  | .global address => some (.ofWord address call.argBits)
  | .heapReturn | .unknown => none

theorem applyInterprocMemoryEffect_eq (call : CallInfo BV) (state : SymState BV Formula)
    (effect : SummaryMemoryEffect) : applyInterprocMemoryEffect enumerate call state effect =
      match effectBase call effect with
      | some base => applyMemoryEffectAtBase enumerate state base call.argBits effect
      | none => pure state := by
  unfold applyInterprocMemoryEffect effectBase
  cases effect.location.region with
  | arg index => cases call.args[index]? <;> rfl
  | global | heapReturn | unknown => rfl

variable (enumerate) in
private theorem grows_applyInterprocMemoryEffect (call : CallInfo BV) (state : SymState BV Formula)
    (effect : SummaryMemoryEffect) : Grows (applyInterprocMemoryEffect enumerate call state effect) := by
  have atBase : ∀ base : SymValue BV,
      Grows (applyMemoryEffectAtBase enumerate state base call.argBits effect) := fun base => by
    have bytes : ∀ (start : SymValue BV) (taint : Word) (state : SymState BV Formula) i,
        Grows (havocByte enumerate start call.argBits taint state i) := fun start taint state i =>
      (grows_add _ _).bind fun _ => grows_nextFresh.bind fun _ => grows_memWrite _ _ _ _ _
    refine (grows_add _ _).bind fun start => ?_
    cases effect.kind with
    | read => exact (grows_memRead _ _ _ _).bind fun _ => grows_pure _
    | write | escape | free => exact grows_foldlM (bytes _ _) _ _
  rw [applyInterprocMemoryEffect_eq]
  cases effectBase call effect with
  | some base => exact atBase base
  | none => exact grows_pure _

include sound sized counted in
/-- One effect writes fresh bytes; at a known base, at its addresses. -/
theorem applyInterprocMemoryEffect_run {call : CallInfo BV}
    (sortedArgs : ∀ value ∈ call.args, value.WellSorted) (effect : SummaryMemoryEffect) :
    ∃ addrs, HavocRun enumerate first state addrs
        (applyInterprocMemoryEffect enumerate call state effect fresh).1 ∧
      (addrs = [] ∨ effect.kind.changes = true ∧ (effectBase call effect).isSome) ∧
      ∀ base, effectBase call effect = some base → effect.kind.changes = true → base.IsKnown →
        addrs = effectAddrs base call.argBits effect := by
  rw [applyInterprocMemoryEffect_eq]
  cases isBase : effectBase call effect with
  | none => exact ⟨[], .done state, Or.inl rfl, fun base absent => nomatch absent⟩
  | some base =>
    have sorted : base.WellSorted := by
      unfold effectBase at isBase
      split at isBase
      · exact sortedArgs base (mem_of_getElem? isBase)
      · obtain rfl := some.inj isBase
        exact wellSorted_ofWord _ _
      · cases isBase
      · cases isBase
    obtain ⟨startSorted, startKnown, -⟩ := add_spec sorted
      (wellSorted_ofWord (startOffset effect) call.argBits) fresh
    have grown := grows_add base (.ofWord (startOffset effect) call.argBits) fresh
    have run := havocBytes_run sound startSorted startKnown call.argBits base.getTaint
      (List.range (havocWidth effect)) state _ sized (le_trans counted grown)
    have addresses : ∀ other, some base = some other → other.IsKnown →
        ((List.range (havocWidth effect)).map fun i =>
          ((base.add (.ofWord (startOffset effect) call.argBits) fresh).1.add
            (.ofWord (BitVec.ofNat 64 i) call.argBits) 0).1) =
          effectAddrs other call.argBits effect := by
      intro other same known
      obtain rfl := some.inj same
      unfold effectAddrs
      rw [add_known known (isKnown_ofWord (startOffset effect) call.argBits) fresh]
    unfold applyMemoryEffectAtBase
    cases kind : effect.kind with
    | read => exact ⟨[], .done state, Or.inl rfl, fun _ _ changes => nomatch changes⟩
    | write | escape | free =>
      exact ⟨_, run, Or.inr ⟨rfl, rfl⟩, fun other same _ => addresses other same⟩

/-- Every base at which memory may change is known. -/
def KnownBases (call : CallInfo BV) (effects : List SummaryMemoryEffect) : Prop :=
  ∀ effect ∈ effects, effect.kind.changes = true → ∀ base, effectBase call effect = some base →
    base.IsKnown

/-- An address at which an effect with a known base makes a byte fresh. -/
def EffectAddr (call : CallInfo BV) (effects : List SummaryMemoryEffect) (addr : SymValue BV) : Prop :=
  ∃ effect ∈ effects, effect.kind.changes = true ∧ ∃ base, effectBase call effect = some base ∧
    base.IsKnown ∧ addr ∈ effectAddrs base call.argBits effect

include sound in
theorem applyEffects_run {call : CallInfo BV} (sortedArgs : ∀ value ∈ call.args, value.WellSorted) :
    ∀ (effects : List SummaryMemoryEffect) (state : SymState BV Formula) (fresh : Nat),
      state.memory.Sized → first ≤ fresh → ∃ addrs,
        HavocRun enumerate first state addrs
          (effects.foldlM (applyInterprocMemoryEffect enumerate call) state fresh).1 ∧
        first ≤ (effects.foldlM (applyInterprocMemoryEffect enumerate call) state fresh).2 ∧
        (∀ addr, EffectAddr call effects addr → addr ∈ addrs) ∧
        (KnownBases call effects → ∀ addr ∈ addrs, EffectAddr call effects addr)
  | [], state, fresh, _, counted => by
    refine ⟨[], .done state, counted, fun addr effectAddr => ?_, fun _ addr member => ?_⟩
    · obtain ⟨effect, member, -⟩ := effectAddr
      cases member
    · cases member
  | effect :: rest, state, fresh, sized, counted => by
    obtain ⟨here, runHere, shape, atBase⟩ :=
      applyInterprocMemoryEffect_run sound sized counted sortedArgs effect
    have countedNext := le_trans counted
      (grows_applyInterprocMemoryEffect enumerate call state effect fresh)
    obtain ⟨later, runLater, countedLater, reached, only⟩ := applyEffects_run sortedArgs rest _ _
      (runHere.frame sized).2.1 countedNext
    rw [foldlM_cons]
    refine ⟨here ++ later, runHere.append runLater, countedLater, fun addr effectAddr => ?_,
      fun knownBases addr member => ?_⟩
    · obtain ⟨other, inEffects, changes, base, isBase, known, inAddrs⟩ := effectAddr
      rcases mem_cons.mp inEffects with rfl | inRest
      · rw [← atBase base isBase changes known] at inAddrs
        exact mem_append_left _ inAddrs
      · exact mem_append_right _
          (reached addr ⟨other, inRest, changes, base, isBase, known, inAddrs⟩)
    · rcases mem_append.mp member with inHere | inLater
      · rcases shape with none | ⟨changes, hasBase⟩
        · rw [none] at inHere
          cases inHere
        · obtain ⟨base, isBase⟩ := isSome_iff_exists.mp hasBase
          have known := knownBases effect mem_cons_self changes base isBase
          rw [atBase base isBase changes known] at inHere
          exact ⟨effect, mem_cons_self, changes, base, isBase, known, inHere⟩
      · obtain ⟨other, inRest, found⟩ := only (fun other inRest =>
          knownBases other (mem_cons_of_mem _ inRest)) addr inLater
        exact ⟨other, mem_cons_of_mem _ inRest, found⟩

end Runs

/-! ## The hook -/

section Hooks

variable {enumerate : Enumerator BV Formula} {summary : FunctionSemanticSummary}
variable {callconv : CallConv} {state : SymState BV Formula} {fresh : Nat}

variable (BV) in
def notNull (number bits : Nat) : Formula :=
  Z3.not BV (Z3.eq (Z3.freshConst number "interproc_heap_ptr" bits : BV)
    (Z3.fromU64 0 (normalizeBvBits bits)))

private theorem interprocReturnValue_spec (state : SymState BV Formula) (call : CallInfo BV)
    (summary : FunctionSemanticSummary) (fresh : Nat) :
    ∃ added, (interprocReturnValue state call summary fresh).1.1 =
        { state with constraints := state.constraints ++ added } ∧
      ∀ c ∈ added, ∃ number, fresh ≤ number ∧ c = notNull BV number call.retBits := by
  have nothing : ∃ added : List Formula, state =
        { state with constraints := state.constraints ++ added } ∧
      ∀ c ∈ added, ∃ number, fresh ≤ number ∧ c = notNull BV number call.retBits :=
    ⟨[], by rw [append_nil], fun c member => absurd member not_mem_nil⟩
  unfold interprocReturnValue
  cases summary.returnRelation with
  | heapAlloc =>
    refine ⟨_, rfl, fun c member => ⟨fresh, le_rfl, ?_⟩⟩
    exact mem_singleton.mp member
  | unknown | void | arg | const | global => exact nothing

theorem applyInterprocSummary_spec {effects : SymState BV Formula × Nat}
    (ran : summary.memoryEffects.foldlM (applyInterprocMemoryEffect enumerate
      (callconv.collectCallInfo state (summaryArity summary))) state fresh = effects) :
    (applyInterprocSummary enumerate summary callconv state fresh).1.1.memory = effects.1.memory ∧
      ∃ added, (applyInterprocSummary enumerate summary callconv state fresh).1.1.constraints =
          effects.1.constraints ++ added ∧
        ∀ c ∈ added, ∃ number, effects.2 ≤ number ∧ c = notNull BV number callconv.retBits := by
  obtain ⟨after, counter⟩ := effects
  obtain ⟨added, result, shape⟩ := interprocReturnValue_spec after
    (callconv.collectCallInfo state (summaryArity summary)) summary counter
  generalize returned : interprocReturnValue after
    (callconv.collectCallInfo state (summaryArity summary)) summary counter = outcome at result
  obtain ⟨⟨final, value⟩, last⟩ := outcome
  obtain rfl : final = { after with constraints := after.constraints ++ added } := result
  simp only [applyInterprocSummary, bind, StateT.bind, ran, returned]
  cases value with
  | none | some => exact ⟨rfl, added, rfl, shape⟩

/-- Constants numbered from here on occur in no register, no byte and no constraint. -/
def FreshFrom (state : SymState BV Formula) (first : Nat) : Prop :=
  ∀ (m : Model) (values : String → Nat), ∃ m' : Model,
    (∀ c ∈ state.constraints, Z3.holds BV m c → Z3.holds BV m' c) ∧
    (∀ key v, state.registers.lookup key = some v → v.denote m' = v.denote m) ∧
    (∀ x, byteAt m' state.memory x = byteAt m state.memory x) ∧
    ∀ number name bits, first ≤ number →
      Z3.value m' (Z3.freshConst number name bits : BV) = values name % 2 ^ bits

/-- An effect makes the byte fresh: the byte is one of the first of a write, escape or free at a
known base. -/
def Havocked (enumerate : Enumerator BV Formula) (summary : FunctionSemanticSummary)
    (call : CallInfo BV) (state : SymState BV Formula) (x : Word) : Prop :=
  ∃ addr, EffectAddr call summary.memoryEffects addr ∧
    Aims enumerate state.memory.maxSymbolicTargets state.constraints addr x

/-- Each permitted byte could take any value before, or lies below the last address and is made
fresh in a state that can be reached. -/
def HavocsPermitted (enumerate : Enumerator BV Formula) (summary : FunctionSemanticSummary)
    (callconv : CallConv) (state : SymState BV Formula) : Prop :=
  ∀ x, Permitted summary (callconv.collectCallInfo state (summaryArity summary))
      state.constraints x →
    AnyValue state x ∨
      (∃ m : Model, ∀ c ∈ state.constraints, Z3.holds BV m c) ∧ x ≠ lastAddress ∧
        Havocked enumerate summary (callconv.collectCallInfo state (summaryArity summary)) state x

theorem mem_collectCallInfo {arity : Nat} {v : SymValue BV}
    (member : v ∈ (callconv.collectCallInfo state arity).args) :
    (∃ key, state.registers.lookup key = some v) ∨
      v = .unknown (normalizeBvBits callconv.argBits) 0 := by
  obtain ⟨i, -, isArg⟩ := List.mem_map.mp member
  subst isArg
  cases callconv.argRegisters[i]? with
  | none => exact Or.inr rfl
  | some reg =>
    dsimp only
    unfold CallConv.readRegister
    cases findRegisterKey state reg with
    | none => exact Or.inr rfl
    | some key =>
      dsimp only [SymState.getRegisterSized]
      cases found : state.registers.lookup key with
      | none => exact Or.inr rfl
      | some value => exact Or.inl ⟨key, found⟩

theorem EffectAddr.denote_congr {arity : Nat} {addr : SymValue BV}
    {effects : List SummaryMemoryEffect}
    (sorted : ∀ key v, state.registers.lookup key = some v → v.WellSorted)
    (effectAddr : EffectAddr (callconv.collectCallInfo state arity) effects addr) (m m' : Model)
    (same : ∀ key v, state.registers.lookup key = some v → v.denote m' = v.denote m) :
    addr.WellSorted ∧ addr.IsKnown ∧ addr.denote m' = addr.denote m := by
  obtain ⟨effect, -, -, base, isBase, known, member⟩ := effectAddr
  obtain ⟨i, -, rfl⟩ := List.mem_map.mp member
  have baseFacts : base.WellSorted ∧ base.denote m' = base.denote m := by
    unfold effectBase at isBase
    split at isBase
    · rcases mem_collectCallInfo (mem_of_getElem? isBase) with ⟨key, found⟩ | rfl
      · exact ⟨sorted key base found, same key base found⟩
      · exact known.elim
    · obtain rfl := some.inj isBase
      exact ⟨wellSorted_ofWord _ _, rfl⟩
    · cases isBase
    · cases isBase
  obtain ⟨startSorted, startKnown, startSame⟩ := add_spec baseFacts.1
    (wellSorted_ofWord (startOffset effect) (callconv.collectCallInfo state arity).argBits) 0
  obtain ⟨addrSorted, addrKnown, addrSame⟩ := add_spec startSorted
    (wellSorted_ofWord (BitVec.ofNat 64 i) (callconv.collectCallInfo state arity).argBits) 0
  exact ⟨addrSorted, addrKnown, addrSame startKnown (isKnown_ofWord _ _) m m'
    (startSame known (isKnown_ofWord _ _) m m' baseFacts.2 rfl) rfl⟩

section Exact

variable (sound : SoundTargets enumerate) (sized : state.memory.Sized)
variable (sorted : ∀ key v, state.registers.lookup key = some v → v.WellSorted)
variable (positive : 1 ≤ callconv.retBits) (isFresh : FreshFrom state fresh)

include sorted in
theorem sorted_collectCallInfo (arity : Nat) :
    ∀ value ∈ (callconv.collectCallInfo state arity).args, value.WellSorted := by
  intro value member
  rcases mem_collectCallInfo member with ⟨key, found⟩ | rfl
  · exact sorted key value found
  · exact show 1 ≤ max callconv.argBits 1 from le_max_right _ _

include positive in
private theorem holds_notNull {m : Model} {number : Nat}
    (value : Z3.value m (Z3.freshConst number "interproc_heap_ptr" callconv.retBits : BV) =
      1 % 2 ^ callconv.retBits) : Z3.holds BV m (notNull BV number callconv.retBits) := by
  have normal : normalizeBvBits callconv.retBits = callconv.retBits := max_eq_left positive
  have one : 1 % 2 ^ callconv.retBits = 1 :=
    Nat.mod_eq_of_lt (Nat.one_lt_two_pow (Nat.one_le_iff_ne_zero.mp positive))
  unfold notNull
  rw [Z3.holds_not, Z3.holds_eq m _ _ (by rw [Z3.size_freshConst, Z3.size_fromU64, normal]), value,
    one, Z3.value_fromU64]
  simp

include sound sized sorted positive isFresh in
/-- A byte can take any value after the hook if it could before, or if it is made fresh. -/
theorem anyValue_of_havocked {x : Word}
    (reason : AnyValue state x ∨
      (∃ m : Model, ∀ c ∈ state.constraints, Z3.holds BV m c) ∧ x ≠ lastAddress ∧
        Havocked enumerate summary (callconv.collectCallInfo state (summaryArity summary)) state x) :
    AnyValue (applyInterprocSummary enumerate summary callconv state fresh).1.1 x := by
  intro v small
  obtain ⟨addrs, run, counted, reached, -⟩ := applyEffects_run sound
    (sorted_collectCallInfo sorted (summaryArity summary)) summary.memoryEffects state fresh sized
    (le_refl fresh)
  generalize ran : summary.memoryEffects.foldlM (applyInterprocMemoryEffect enumerate
    (callconv.collectCallInfo state (summaryArity summary))) state fresh = effects at run counted
  obtain ⟨memory, added, constraints, shape⟩ := applyInterprocSummary_spec ran
  obtain ⟨memoryOnly, -, -⟩ := run.frame sized
  have sameConstraints : effects.1.constraints = state.constraints := by rw [memoryOnly]
  -- A model with the byte's value, or with an address that aims at it.
  have before : ∃ m : Model, (∀ c ∈ state.constraints, Z3.holds BV m c) ∧
      (byteAt m state.memory x = some v ∨ ∃ addr ∈ addrs, x ≠ lastAddress ∧
        EffectAddr (callconv.collectCallInfo state (summaryArity summary)) summary.memoryEffects
          addr ∧
        Aims enumerate state.memory.maxSymbolicTargets state.constraints addr x ∧
        (addr.isConcrete = false → addr.denote m = some x.toNat)) := by
    rcases reason with any | ⟨⟨m, satisfies⟩, low, addr, effectAddr, aims⟩
    · obtain ⟨m, satisfies, isV⟩ := any v small
      exact ⟨m, satisfies, Or.inl isV⟩
    · obtain ⟨addrSorted, addrKnown, -⟩ := effectAddr.denote_congr sorted m m fun _ _ _ => rfl
      cases addr with
      | concrete target bits taint =>
        exact ⟨m, satisfies, Or.inr ⟨_, reached _ effectAddr, low, effectAddr, aims, nofun⟩⟩
      | symbolic ast bits taint =>
        obtain ⟨m', satisfies', value⟩ := sound _ _ ast bits taint x addrSorted.2 aims
        exact ⟨m', satisfies', Or.inr ⟨_, reached _ effectAddr, low, effectAddr, aims,
          fun _ => congrArg some value⟩⟩
      | unknown _ _ => exact addrKnown.elim
  obtain ⟨m, satisfies, cause⟩ := before
  obtain ⟨m', keeps, registers, bytes, values⟩ := isFresh m fun name =>
    if name = "interproc_mem" then v else 1
  have freshBytes : ∀ number, fresh ≤ number →
      Z3.value m' (Z3.freshConst number "interproc_mem" 8 : BV) = v := fun number later => by
    rw [values number _ _ later, if_pos rfl, Nat.mod_eq_of_lt small]
  refine ⟨m', fun c member => ?_, ?_⟩
  · rw [constraints, sameConstraints] at member
    rcases mem_append.mp member with old | new
    · exact keeps c old (satisfies c old)
    · obtain ⟨number, later, rfl⟩ := shape c new
      refine holds_notNull positive ?_
      rw [values number _ _ (le_trans counted later), if_neg (by decide)]
  · rw [memory]
    rcases cause with old | ⟨addr, member, low, effectAddr, aims, isX⟩
    · exact run.persists freshBytes ((bytes x).trans old)
    · refine run.shown freshBytes low member aims fun notConcrete => ?_
      rw [(effectAddr.denote_congr sorted m m' registers).2.2]
      exact isX notConcrete

include sound sized sorted in
/-- With known bases no other byte changes. -/
theorem havocked_of_anyValue {x : Word}
    (knownBases : KnownBases (callconv.collectCallInfo state (summaryArity summary))
      summary.memoryEffects)
    (any : AnyValue (applyInterprocSummary enumerate summary callconv state fresh).1.1 x) :
    AnyValue state x ∨
      (∃ m : Model, ∀ c ∈ state.constraints, Z3.holds BV m c) ∧ x ≠ lastAddress ∧
        Havocked enumerate summary (callconv.collectCallInfo state (summaryArity summary)) state x := by
  obtain ⟨addrs, run, -, -, only⟩ := applyEffects_run sound
    (sorted_collectCallInfo sorted (summaryArity summary)) summary.memoryEffects state fresh sized
    (le_refl fresh)
  generalize ran : summary.memoryEffects.foldlM (applyInterprocMemoryEffect enumerate
    (callconv.collectCallInfo state (summaryArity summary))) state fresh = effects at run
  obtain ⟨memory, added, constraints, -⟩ := applyInterprocSummary_spec ran
  obtain ⟨memoryOnly, -, -⟩ := run.frame sized
  have sameConstraints : effects.1.constraints = state.constraints := by rw [memoryOnly]
  have older : ∀ m : Model, (∀ c ∈ (applyInterprocSummary enumerate summary callconv state
      fresh).1.1.constraints, Z3.holds BV m c) → ∀ c ∈ state.constraints, Z3.holds BV m c := by
    intro m satisfies c member
    refine satisfies c ?_
    rw [constraints, sameConstraints]
    exact mem_append_left _ member
  by_cases havocked : x ≠ lastAddress ∧ Havocked enumerate summary
      (callconv.collectCallInfo state (summaryArity summary)) state x
  · obtain ⟨m, satisfies, -⟩ := any 0 (by decide)
    exact Or.inr ⟨⟨m, older m satisfies⟩, havocked⟩
  · left
    have unread : (∀ addr ∈ addrs, ¬ Aims enumerate state.memory.maxSymbolicTargets
        state.constraints addr x) ∨ x = lastAddress := by
      by_cases low : x = lastAddress
      · exact Or.inr low
      · exact Or.inl fun addr member aims =>
          havocked ⟨low, addr, only knownBases addr member, aims⟩
    have sameByte := run.missed unread
    intro v small
    obtain ⟨m, satisfies, isV⟩ := any v small
    refine ⟨m, older m satisfies, ?_⟩
    rw [byteAt, memory, sameByte] at isV
    exact isV

end Exact

/-- The hook over-approximates the callee if every permitted byte could take any value before or is
made fresh below the last address; where the bases of the effects are known, only then. -/
theorem havoc_overApproximates_iff {solve : List Formula → Option Model}
    (sound : ∀ formulas m, solve formulas = some m → ∀ c ∈ formulas, Z3.holds BV m c)
    (unknown : Nat) (summary : FunctionSemanticSummary) (callconv : CallConv)
    (positive : 1 ≤ callconv.retBits) (state : SymState BV Formula) (fresh : Nat)
    (sized : state.memory.Sized)
    (sorted : ∀ key v, state.registers.lookup key = some v → v.WellSorted)
    (isFresh : FreshFrom state fresh) :
    (HavocsPermitted (enumerateSymbolicAddresses solve unknown) summary callconv state →
      OverApproximates (enumerateSymbolicAddresses solve unknown) summary callconv state fresh) ∧
    (KnownBases (callconv.collectCallInfo state (summaryArity summary)) summary.memoryEffects →
      OverApproximates (enumerateSymbolicAddresses solve unknown) summary callconv state fresh →
        HavocsPermitted (enumerateSymbolicAddresses solve unknown) summary callconv state) := by
  have soundTargets : SoundTargets (enumerateSymbolicAddresses solve unknown :
      Enumerator BV Formula) := soundTargets_enumerate sound unknown
  exact ⟨fun condition x permitted => anyValue_of_havocked soundTargets sized sorted positive isFresh
      (condition x permitted),
    fun knownBases covers x permitted => havocked_of_anyValue soundTargets sized sorted knownBases
      (covers x permitted)⟩

end Hooks

/-! ## Two summaries -/

/-- The first argument is the pointer `0x2000`; memory is zero. -/
def pointerState : SymState Term (Assignment → Bool) where
  registers := (∅ : HashMap String (SymValue Term)).insert "RDI_0" (.concrete 0x2000 64 0)
  memory := .new false
  constraints := []
  pc := 0
  prevPc := none
  active := true
  exitStatus := none
  depth := 0

theorem lookup_pointerState {key : String} {v : SymValue Term}
    (found : pointerState.registers.lookup key = some v) : v = .concrete 0x2000 64 0 := by
  by_cases same : key = "RDI_0"
  · subst same
    exact (some.inj found).symm
  · rw [pointerState, AList.lookup_insert_ne same] at found
    cases found

theorem byteAt_pointerState (m : Assignment) (x : Word) :
    byteAt m pointerState.memory x = some 0 := rfl

private theorem freshFrom_pointerState : FreshFrom pointerState 0 := by
  intro m values
  refine ⟨assignmentOf (fun name => m (.named name)) fun _ name => values name,
    fun c member => absurd member not_mem_nil, fun key v found => ?_, fun x => ?_,
    fun _ _ _ _ => rfl⟩
  · rw [lookup_pointerState found]
    rfl
  · rw [byteAt_pointerState, byteAt_pointerState]

theorem sorted_pointerState : ∀ key v, pointerState.registers.lookup key = some v → v.WellSorted := by
  intro key v found
  rw [lookup_pointerState found]
  exact show 1 ≤ 64 by decide

/-- A write in a range. -/
def writing (region : SummaryMemoryRegion) (offsetHi : Word) (width : Nat) :
    FunctionSemanticSummary where
  id := 0
  name := none
  argCountHint := none
  directCallees := .empty
  callsiteCount := 0
  hasUnknownCalls := false
  argEffects := .empty
  memoryEffects := [⟨.write, region, some ⟨0, offsetHi, some width⟩⟩]
  returnRelation := .void
  readsGlobalMemory := false
  writesGlobalMemory := false
  touchesUnknownMemory := false

theorem args_pointerState : (CallConv.x8664Sysv.collectCallInfo pointerState
    (summaryArity (writing (.arg 0) 7 8))).args = [.concrete 0x2000 64 0] := by
  have key : findRegisterKey pointerState "RDI" = some "RDI_0" := by decide +kernel
  show [CallConv.x8664Sysv.readRegister pointerState "RDI"] = _
  unfold CallConv.readRegister
  rfl

private theorem offset_of_reaches {offsetHi : Word} {width : Nat} {offset : Int}
    (hi : offsetHi.toInt < width)
    (reaches : (⟨0, offsetHi, some width⟩ : SummaryMemoryRange).Reaches offset) :
    ∃ i : Nat, i < width ∧ offset = i := by
  obtain ⟨low, high⟩ := reaches
  have low : (0 : Int) ≤ offset := low
  have below : offset < width := by
    rcases high with atMost | ⟨known, isWidth, inAccess⟩
    · exact lt_of_le_of_lt atMost hi
    · obtain rfl := some.inj isWidth
      have start : (0 : BitVec 64).toInt = 0 := rfl
      rw [start] at inAccess
      omega
  exact ⟨offset.toNat, by omega, by omega⟩

/-- A callee that writes eight bytes at its first argument. -/
theorem writing_argument_overApproximates :
    OverApproximates (enumerateSymbolicAddresses findModel 0) (writing (.arg 0) 7 8) .x8664Sysv
      pointerState 0 := by
  refine (havoc_overApproximates_iff findModel_sound 0 (writing (.arg 0) 7 8) .x8664Sysv (by decide)
    pointerState 0 (sized_new false) sorted_pointerState freshFrom_pointerState).1 ?_
  rintro x (flag | flag | ⟨entry, member, -⟩ | ⟨effect, member, -, permitted⟩)
  · cases flag
  · cases flag
  · cases member
  · obtain rfl := mem_singleton.mp member
    obtain ⟨base, isBase, points⟩ := permitted
    cases isBase
    rcases points with ⟨_, _, isUnknown⟩ | ⟨_, -, pointer, isPointer, inRange⟩
    · cases isUnknown
    · obtain rfl := some.inj isPointer
      obtain ⟨offset, reaches, isX⟩ := inRange _ rfl
      obtain ⟨i, inside, rfl⟩ := offset_of_reaches (by decide) reaches
      have isX : x = BitVec.ofNat 64 (0x2000 + i) := by
        apply BitVec.eq_of_toNat_eq
        rw [BitVec.toNat_ofNat]
        have pointer : (0x2000 : Word).toNat % 2 ^ 64 = 0x2000 := rfl
        have width : (CallConv.x8664Sysv.collectCallInfo pointerState
          (summaryArity (writing (.arg 0) 7 8))).argBits = 64 := rfl
        rw [width] at isX
        omega
      right
      refine ⟨⟨fun _ _ => 0, fun c absent => absurd absent not_mem_nil⟩, ?_, ?_⟩
      · rw [isX]
        interval_cases i <;> decide
      · refine ⟨_, ⟨_, mem_singleton_self _, rfl, .concrete 0x2000 64 0, ?_, trivial,
          List.mem_map.mpr ⟨i, mem_range.mpr inside, rfl⟩⟩, ?_⟩
        · show (CallConv.x8664Sysv.collectCallInfo pointerState
            (summaryArity (writing (.arg 0) 7 8))).args[0]? = _
          rfl
        · rw [isX]
          interval_cases i <;> rfl

/-- Of a hundred bytes written at a global only 64 are made fresh. -/
theorem writing_hundred_misses :
    ¬ OverApproximates (enumerateSymbolicAddresses findModel 0) (writing (.global 0x1000) 99 100)
      .x8664Sysv pointerState 0 := by
  intro covers
  have soundTargets : SoundTargets (enumerateSymbolicAddresses findModel 0 :
      Enumerator Term (Assignment → Bool)) := soundTargets_enumerate findModel_sound 0
  have permitted : Permitted (writing (.global 0x1000) 99 100) (CallConv.x8664Sysv.collectCallInfo
      pointerState (summaryArity (writing (.global 0x1000) 99 100))) pointerState.constraints
        0x1040 := by
    refine Or.inr (Or.inr (Or.inr ⟨_, mem_singleton_self _, rfl, fun known isKnown => ?_⟩))
    cases isKnown
    exact ⟨0x40, ⟨by decide, Or.inl (by decide)⟩, by decide⟩
  have knownBases : KnownBases (CallConv.x8664Sysv.collectCallInfo pointerState
      (summaryArity (writing (.global 0x1000) 99 100))) (writing (.global 0x1000) 99
        100).memoryEffects := by
    intro effect member _ base isBase
    obtain rfl := mem_singleton.mp member
    cases isBase
    trivial
  rcases havocked_of_anyValue soundTargets (sized_new false) sorted_pointerState knownBases
    (covers 0x1040 permitted) with any | ⟨-, -, addr, effectAddr, aims⟩
  · obtain ⟨m, -, isOne⟩ := any 1 (by decide)
    cases isOne
  · obtain ⟨effect, member, -, base, isBase, -, inAddrs⟩ := effectAddr
    obtain rfl := mem_singleton.mp member
    cases isBase
    obtain ⟨i, inWindow, rfl⟩ := List.mem_map.mp inAddrs
    have inWindow : i < 64 := mem_range.mp inWindow
    have isX : ((0x1000 + 0 &&& lowMask 64) + BitVec.ofNat 64 i &&& lowMask 64 :
      Word) = 0x1040 := aims
    interval_cases i <;> exact absurd isX (by decide)

end R2Sleigh.Sym
