import Mathlib.Data.Int.ModEq
import Mathlib.Data.Nat.Prime.Basic
import R2Sleigh.Ssa.Equations
import R2Sleigh.Ssa.StrictCheck
import R2Sleigh.Types.AddrPattern

/-!
Contract: address patterns against the addresses of executions.

Owns `Describes`.
-/

namespace R2Sleigh.Types

open Il Lib Ssa List Option

variable {op : SSAOp} {dst : SSAVar} {r : Int} {func : SSAFunction}

/-! ## Multiples of a stride -/

/-- Modulo a number, the multiples of `s` are those of its greatest common divisor with
that number. -/
theorem exists_multiple {x : Int} {s n : Nat} (divides : (s.gcd n : Int) ∣ x) :
    ∃ i : Int, x ≡ i * s [ZMOD n] := by
  obtain ⟨q, rfl⟩ := divides
  refine ⟨q * s.gcdA n, ?_⟩
  have bezout := Nat.gcd_eq_gcd_ab s n
  refine Int.ModEq.symm (Int.modEq_iff_dvd.mpr ⟨q * s.gcdB n, ?_⟩)
  rw [bezout]
  ring

/-- A scale that does not vanish when it is cut to 32 bits loses none of its factors of
two. -/
theorem gcd_truncated_dvd {k : Nat} (kept : k % 2 ^ 32 ≠ 0) : (k % 2 ^ 32).gcd (2 ^ 64) ∣ k := by
  obtain ⟨t, -, isPower⟩ :=
    (Nat.dvd_prime_pow Nat.prime_two).mp (Nat.gcd_dvd_right (k % 2 ^ 32) (2 ^ 64))
  have divides : 2 ^ t ∣ k % 2 ^ 32 := isPower ▸ Nat.gcd_dvd_left _ _
  have small : 2 ^ t < 2 ^ 32 :=
    Nat.lt_of_le_of_lt (Nat.le_of_dvd (Nat.pos_of_ne_zero kept) divides) (Nat.mod_lt k (by decide))
  have below : t ≤ 32 := Nat.le_of_lt ((Nat.pow_lt_pow_iff_right (by decide)).mp small)
  rw [isPower, ← Nat.div_add_mod k (2 ^ 32)]
  exact Nat.dvd_add ((Nat.pow_dvd_pow 2 below).mul_right _) divides

/-! ## What a pattern says -/

/-- The variable with the address of a load or store. -/
def accessAddr : SSAOp → Option SSAVar
  | .Load _ _ addr | .Store _ addr _ => some addr
  | _ => none

/-- The address is the base plus the offset, or plus that and a multiple of the stride. -/
def Describes (value : SSAVar → Nat) (addr : SSAVar) : SSAVar × Nat × Option Nat → Prop
  | (base, offset, none) => (value addr : Int) ≡ value base + offset [ZMOD 2 ^ 64]
  | (base, offset, some stride) =>
    ∃ i : Int, (value addr : Int) ≡ value base + offset + i * stride [ZMOD 2 ^ 64]

section Patterns

variable (toUppercase : String → String) (defs : HashMap String SSAOp)

/-- The operations that a pattern is read from: the definition of the address, and that of
the index where it is scaled. -/
def patternOps (addr : SSAVar) : List SSAOp :=
  match defs.lookup (displayName toUppercase addr) with
  | some (.binary .IntAdd dst a b) =>
    .binary .IntAdd dst a b ::
      if (parseConstU64 a).isSome ∨ (parseConstU64 b).isSome then []
      else if (matchBasePlusScaledIndex toUppercase defs a b).isSome then
        (defs.lookup (displayName toUppercase b)).toList
      else (defs.lookup (displayName toUppercase a)).toList
  | some op => [op]
  | none => []

/-- The stride of a scaled index. -/
inductive Scales : SSAOp → Nat → Prop
  | mult {dst a b : SSAVar} {scale : Nat}
      (literal : (parseConstU64 a).or (parseConstU64 b) = some scale) :
      Scales (.binary .IntMult dst a b) (scale % 2 ^ 32)
  | left {dst a b : SSAVar} {shift : Nat} (literal : parseConstU64 b = some shift) :
      Scales (.binary .IntLeft dst a b) (2 ^ (shift % 2 ^ 32))

/-- The forms of addresses, with the operations they are read from. -/
inductive Form (addr : SSAVar) : SSAVar × Nat × Option Nat → List SSAOp → Prop
  | ptrAdd {dst base index : SSAVar} {elementSize : Nat}
      (defined : defs.lookup (displayName toUppercase addr) =
        some (.PtrAdd dst base index elementSize)) :
      Form addr (base, 0, some elementSize) [.PtrAdd dst base index elementSize]
  | ptrSub {dst base index : SSAVar} {elementSize : Nat}
      (defined : defs.lookup (displayName toUppercase addr) =
        some (.PtrSub dst base index elementSize)) :
      Form addr (base, 0, some elementSize) [.PtrSub dst base index elementSize]
  | offset {dst a b base literal : SSAVar} {offset : Nat}
      (defined : defs.lookup (displayName toUppercase addr) = some (.binary .IntAdd dst a b))
      (operands : (base = a ∧ literal = b) ∨ (base = b ∧ literal = a))
      (parses : parseConstU64 literal = some offset) :
      Form addr (base, offset, none) [.binary .IntAdd dst a b]
  | index {dst a b base index : SSAVar} {scaled : SSAOp} {stride : Nat}
      (defined : defs.lookup (displayName toUppercase addr) = some (.binary .IntAdd dst a b))
      (operands : (base = a ∧ index = b) ∨ (base = b ∧ index = a))
      (scaledIndex : defs.lookup (displayName toUppercase index) = some scaled)
      (scales : Scales scaled stride) :
      Form addr (base, 0, some stride) [.binary .IntAdd dst a b, scaled]
  | sub {dst a b : SSAVar} {offset : Nat}
      (defined : defs.lookup (displayName toUppercase addr) = some (.binary .IntSub dst a b))
      (parses : parseConstU64 b = some offset) :
      Form addr (a, offset, none) [.binary .IntSub dst a b]

variable {toUppercase defs}

theorem matchBasePlusScaledIndex_spec {base candidate base' : SSAVar} {stride : Nat}
    (matches' : matchBasePlusScaledIndex toUppercase defs base candidate = some (base', stride)) :
    base' = base ∧ ∃ scaled, defs.lookup (displayName toUppercase candidate) = some scaled ∧
      Scales scaled stride := by
  unfold matchBasePlusScaledIndex at matches'
  split at matches'
  · rename_i dst a b found
    split at matches'
    · rename_i scale isScale
      cases matches'
      exact ⟨rfl, _, found, .mult (by rw [isScale, some_or])⟩
    · rename_i notLeft
      split at matches'
      · rename_i scale isScale
        cases matches'
        exact ⟨rfl, _, found, .mult (by rw [notLeft, none_or, isScale])⟩
      · cases matches'
  · rename_i dst a b found
    obtain ⟨shift, isShift, isScale⟩ := bind_eq_some_iff.mp matches'
    obtain ⟨scale, shl, isPair⟩ := map_eq_some_iff.mp isScale
    cases isPair
    unfold checkedShlOne at shl
    split at shl
    · cases shl
      exact ⟨rfl, _, found, .left isShift⟩
    · cases shl
  · cases matches'

/-- The forms of the addresses in which a pattern is found. -/
theorem form_of_detects {addr : SSAVar} {pattern : SSAVar × Nat × Option Nat}
    (detects : detectAddrPattern toUppercase defs addr = some pattern) :
    Form toUppercase defs addr pattern (patternOps toUppercase defs addr) := by
  unfold detectAddrPattern at detects
  unfold patternOps
  cases defined : defs.lookup (displayName toUppercase addr) with
  | none => rw [defined] at detects; cases detects
  | some op =>
    rw [defined] at detects
    split at detects
    · rename_i isOp
      cases isOp
      cases detects
      exact .ptrAdd defined
    · rename_i isOp
      cases isOp
      cases detects
      exact .ptrSub defined
    · rename_i dst a b isOp
      cases isOp
      dsimp only
      split at detects
      · rename_i offset isOffset
        cases detects
        rw [if_pos (.inl (by rw [isOffset]; rfl))]
        exact .offset defined (.inr ⟨rfl, rfl⟩) isOffset
      · rename_i notA
        split at detects
        · rename_i offset isOffset
          cases detects
          rw [if_pos (.inr (by rw [isOffset]; rfl))]
          exact .offset defined (.inl ⟨rfl, rfl⟩) isOffset
        · rename_i notB
          rw [if_neg (by rw [notA, notB]; simp)]
          split at detects
          · rename_i base stride isMatch
            cases detects
            obtain ⟨rfl, scaled, found, scales⟩ := matchBasePlusScaledIndex_spec isMatch
            rw [if_pos (by rw [isMatch]; rfl), found]
            exact .index defined (.inl ⟨rfl, rfl⟩) found scales
          · rename_i noMatch
            obtain ⟨⟨base, stride⟩, isMatch, rfl⟩ := map_eq_some_iff.mp detects
            obtain ⟨rfl, scaled, found, scales⟩ := matchBasePlusScaledIndex_spec isMatch
            rw [if_neg (by rw [noMatch]; simp), found]
            exact .index defined (.inr ⟨rfl, rfl⟩) found scales
    · rename_i dst a b isOp
      cases isOp
      obtain ⟨offset, isOffset, rfl⟩ := map_eq_some_iff.mp detects
      exact .sub defined isOffset
    · cases detects

end Patterns

/-! ## Values along an execution -/

/-- The operation is at least 64 bits wide, or its result fits in its destination. -/
def Unwrapped (machine : Ssa.Machine) (op : SSAOp) : Prop :=
  ∀ dst r, op.dst = some dst → op.result machine.value = some r →
    8 ≤ dst.size ∨ (0 ≤ r ∧ r < 2 ^ (dst.size * 8))

/-- No literal is subtracted but zero, and a scale cut to 32 bits does not vanish where it
matters. -/
def Kept (value : SSAVar → Nat) : SSAOp → Prop
  | .binary .IntSub _ _ b => parseConstU64 b = some 0
  | .binary .IntMult _ a b =>
    (∀ scale, (parseConstU64 a).or (parseConstU64 b) = some scale → scale % 2 ^ 32 ≠ 0) ∨
      value a * value b % 2 ^ 64 = 0
  | _ => True

/-- Nothing else that the function defines has the display name of the variable. -/
def Named (toUppercase : String → String) (func : SSAFunction) (var : SSAVar) : Prop :=
  ∀ op dst, func.Contains op → op.dst = some dst →
    displayName toUppercase dst = displayName toUppercase var → dst = var

private theorem modEq_of_holds {machine : Ssa.Machine}
    (holds : machine.Holds op) (unwrapped : Unwrapped machine op) (isDst : op.dst = some dst)
    (computes : op.result machine.value = some r) : (machine.env dst : Int) ≡ r [ZMOD 2 ^ 64] := by
  rw [holds dst r isDst computes]
  rcases unwrapped dst r isDst computes with wide | ⟨nonneg, fits⟩
  · have divides : (2 ^ 64 : Int) ∣ 2 ^ (dst.size * 8) := pow_dvd_pow 2 (by omega)
    exact (Int.mod_modEq r _).of_dvd divides
  · rw [Int.emod_eq_of_lt nonneg fits]

theorem definition_of_lookup {toUppercase : String → String} {var : SSAVar}
    (named : Named toUppercase func var)
    (found : (buildDefMap toUppercase func).lookup (displayName toUppercase var) = some op)
    (notPhi : ∀ dst sources, op ≠ .Phi dst sources) : func.Contains op ∧ op.dst = some var := by
  obtain ⟨block, listed, isEntry⟩ := lookup_buildDefMap found
  obtain ⟨mem, dst, isDst, isKey⟩ := (mem_blockDefs_iff notPhi).mp isEntry
  obtain ⟨d, -, foundBlock⟩ := mem_filterMap.mp listed
  have contains : func.Contains op := ⟨d, block, foundBlock, mem⟩
  obtain rfl := named op dst contains isDst isKey
  exact ⟨contains, isDst⟩

section Executions

variable {toUppercase : String → String} {func : SSAFunction} {point : Point}

private theorem value_eq_env (ssa : func.StrictSsa)
    (contains : func.Contains op) (isDst : op.dst = some dst) (machine : Ssa.Machine) :
    machine.value dst = machine.env dst := by
  obtain ⟨d, block, found, mem⟩ := contains
  have notConst := (ssa.fresh found (SSAFunction.StrictSsa.mem_dsts mem isDst)).2
  rw [Ssa.Machine.value, constValue, notConst, if_neg (by simp)]

theorem modEq_of_lookup (ssa : func.StrictSsa) (solved : Solved func point) {var : SSAVar}
    {reader : SSAOp} (named : Named toUppercase func var)
    (found : (buildDefMap toUppercase func).lookup (displayName toUppercase var) = some op)
    (notPhi : ∀ dst sources, op ≠ .Phi dst sources) (used : var ∈ reader.sources)
    (reads : func.Earlier point.block point.opIdx reader ∨
      ∃ block, func.getBlock point.block = some block ∧ block.ops[point.opIdx]? = some reader)
    (unwrapped : Unwrapped point.machine op) (computes : op.result point.machine.value = some r) :
    func.Earlier point.block point.opIdx op ∧
      (point.machine.value var : Int) ≡ r [ZMOD 2 ^ 64] := by
  obtain ⟨contains, isDst⟩ := definition_of_lookup named found notPhi
  have earlier : func.Earlier point.block point.opIdx op := by
    rcases reads with before | ⟨block, foundBlock, here⟩
    · exact ssa.earlier_source solved.reach before used contains isDst
    · exact ssa.earlier_of_use solved.reach foundBlock here used contains isDst
  refine ⟨earlier, ?_⟩
  rw [value_eq_env ssa contains isDst]
  exact modEq_of_holds (solved.holds op earlier) unwrapped isDst computes

end Executions

/-! ## Forms -/

section Forms

variable {toUppercase : String → String} {defs : HashMap String SSAOp} {value : SSAVar → Nat}

theorem forall_pair {P : SSAOp → Prop} {x y : SSAOp} : (∀ used ∈ [x, y], P used) ↔ P x ∧ P y := by
  simp

/-- A scaled index is a multiple of its stride exactly if its scale is kept. -/
theorem scales_iff {stride : Nat} (scales : Scales op stride) (computes : op.result value = some r)
    (literals : ∀ src ∈ op.sources, ∀ k, parseConstU64 src = some k → value src = k) :
    (∃ i : Int, r ≡ i * stride [ZMOD 2 ^ 64]) ↔ Kept value op := by
  cases scales with
  | @mult dst a b scale literal =>
    obtain rfl : (value a : Int) * value b = r := some.inj computes
    have divides : scale ∣ value a * value b := by
      rcases or_eq_some_iff.mp literal with ofA | ⟨-, ofB⟩
      · rw [literals a (by simp [SSAOp.sources]) scale ofA]
        exact Nat.dvd_mul_right ..
      · rw [literals b (by simp [SSAOp.sources]) scale ofB]
        exact Nat.dvd_mul_left ..
    have vanishes : (value a : Int) * value b ≡ 0 [ZMOD 2 ^ 64] ↔
        value a * value b % 2 ^ 64 = 0 := by
      rw [Int.modEq_zero_iff_dvd, ← Nat.dvd_iff_mod_eq_zero]
      exact_mod_cast Int.natCast_dvd_natCast (m := 2 ^ 64) (n := value a * value b)
    constructor
    · rintro ⟨i, multiple⟩
      by_cases kept : scale % 2 ^ 32 = 0
      · rw [kept, Nat.cast_zero, mul_zero] at multiple
        exact .inr (vanishes.mp multiple)
      · refine .inl fun scale' literal' => ?_
        obtain rfl := some.inj (literal.symm.trans literal')
        exact kept
    · rintro (kept | zero)
      · obtain ⟨i, multiple⟩ := exists_multiple (x := (value a : Int) * value b)
          (s := scale % 2 ^ 32) (n := 2 ^ 64) (by
            exact_mod_cast Int.natCast_dvd_natCast.mpr
              ((gcd_truncated_dvd (kept scale literal)).trans divides))
        exact ⟨i, by exact_mod_cast multiple⟩
      · exact ⟨0, by rw [zero_mul]; exact vanishes.mpr zero⟩
  | @left dst a b shift literal =>
    have amount := literals b (by simp [SSAOp.sources]) shift literal
    obtain rfl : (value a : Int) * 2 ^ value b = r := some.inj computes
    refine iff_of_true ⟨value a * 2 ^ (shift - shift % 2 ^ 32), ?_⟩ trivial
    have whole : shift - shift % 2 ^ 32 + shift % 2 ^ 32 = shift :=
      Nat.sub_add_cancel (Nat.mod_le ..)
    rw [amount, Nat.cast_pow, Nat.cast_ofNat, mul_assoc, ← pow_add, whole]

/-- Whether a pattern describes an address, by the values of the operations it is read
from. -/
theorem Form.describes_iff {addr : SSAVar} {pattern : SSAVar × Nat × Option Nat}
    {ops : List SSAOp} (form : Form toUppercase defs addr pattern ops)
    (address : ∀ op ∈ ops, ∀ r, defs.lookup (displayName toUppercase addr) = some op →
      op.result value = some r → (value addr : Int) ≡ r [ZMOD 2 ^ 64])
    (indices : ∀ op ∈ ops, ∀ dst a b index r, .binary .IntAdd dst a b ∈ ops →
      defs.lookup (displayName toUppercase addr) = some (.binary .IntAdd dst a b) →
      index = a ∨ index = b → defs.lookup (displayName toUppercase index) = some op →
      op.result value = some r → (value index : Int) ≡ r [ZMOD 2 ^ 64])
    (literals : ∀ op ∈ ops, ∀ src ∈ op.sources, ∀ k, parseConstU64 src = some k → value src = k) :
    Describes value addr pattern ↔ ∀ op ∈ ops, Kept value op := by
  cases form with
  | @ptrAdd dst base index elementSize defined =>
    have here := address _ (mem_singleton_self _) _ defined rfl
    refine iff_of_true ⟨value index, ?_⟩ (by simp [Kept])
    rwa [Nat.cast_zero, add_zero]
  | @ptrSub dst base index elementSize defined =>
    have here := address _ (mem_singleton_self _) _ defined rfl
    refine iff_of_true ⟨-value index, ?_⟩ (by simp [Kept])
    rwa [Nat.cast_zero, add_zero, neg_mul, ← sub_eq_add_neg]
  | @offset dst a b base literal offset defined operands parses =>
    have here := address _ (mem_singleton_self _) _ defined rfl
    refine iff_of_true ?_ (by simp [Kept])
    have isOffset := literals _ (mem_singleton_self _) literal
      (by rcases operands with ⟨-, rfl⟩ | ⟨-, rfl⟩ <;> simp [SSAOp.sources]) offset parses
    show (value addr : Int) ≡ value base + offset [ZMOD 2 ^ 64]
    rw [← isOffset]
    rcases operands with ⟨rfl, rfl⟩ | ⟨rfl, rfl⟩
    · exact here
    · rw [add_comm]
      exact here
  | @index dst a b base index scaled stride defined operands scaledIndex scales =>
    have here := address _ (mem_cons_self) _ defined rfl
    have isOperand : index = a ∨ index = b := by
      rcases operands with ⟨-, rfl⟩ | ⟨-, rfl⟩
      · exact .inr rfl
      · exact .inl rfl
    obtain ⟨r, computes⟩ : ∃ r, scaled.result value = some r := by
      cases scales <;> exact ⟨_, rfl⟩
    have scaledHere := indices scaled (by simp) dst a b index r mem_cons_self defined isOperand
      scaledIndex computes
    have sum : (value addr : Int) ≡ value base + r [ZMOD 2 ^ 64] := by
      refine Int.ModEq.trans here ?_
      rcases operands with ⟨rfl, rfl⟩ | ⟨rfl, rfl⟩
      · exact scaledHere.add_left _
      · rw [add_comm]
        exact scaledHere.add_left _
    rw [forall_pair, and_iff_right (by trivial),
      ← scales_iff scales computes (literals scaled (by simp))]
    refine exists_congr fun i => ?_
    constructor
    · intro describes
      exact Int.ModEq.add_left_cancel' _ (sum.symm.trans describes)
    · intro multiple
      exact sum.trans (multiple.add_left _)
  | @sub dst a b offset defined parses =>
    have here := address _ (mem_singleton_self _) _ defined rfl
    have isOffset := literals _ (mem_singleton_self _) b (by simp [SSAOp.sources]) offset parses
    obtain ⟨-, -, -, small⟩ := parseConstU64_word parses
    rw [forall_mem_singleton]
    show (value addr : Int) ≡ value a + offset [ZMOD 2 ^ 64] ↔ parseConstU64 b = some 0
    rw [parses, Option.some.injEq]
    rw [isOffset] at here
    constructor
    · intro describes
      -- twice a subtracted literal is less than `2 ^ 64`
      have both := (here.symm.trans describes).dvd
      omega
    · rintro rfl
      simpa using here

end Forms

/-! ## Accesses -/

/-- In a run of a function in strict SSA form, the pattern of a load or store, read from
operations that do not wrap around below 64 bits, whose variables have display names of their
own and whose literals stand for themselves, describes the address exactly if no literal
other than zero is subtracted and no scale that matters vanishes when it is cut. -/
theorem detectAddrPattern_describes_iff {toUppercase : String → String} {bigEndian : Bool}
    {func : SSAFunction} (ssa : func.StrictSsa)
    {start point : Point} (starts : Starts func start) (leads : Leads bigEndian func start point)
    {block : SSABlock} {op : SSAOp} {addr : SSAVar} {pattern : SSAVar × Nat × Option Nat}
    (found : func.getBlock point.block = some block) (here : block.ops[point.opIdx]? = some op)
    (accesses : accessAddr op = some addr)
    (detects : detectAddrPattern toUppercase (buildDefMap toUppercase func) addr = some pattern)
    (named : ∀ used ∈ op :: patternOps toUppercase (buildDefMap toUppercase func) addr,
      ∀ var ∈ used.sources, Named toUppercase func var)
    (spelled : ∀ used ∈ patternOps toUppercase (buildDefMap toUppercase func) addr,
      ∀ src ∈ used.sources, Spelled src)
    (unwrapped : ∀ used ∈ patternOps toUppercase (buildDefMap toUppercase func) addr,
      Unwrapped point.machine used) :
    Describes point.machine.value addr pattern ↔
      ∀ used ∈ patternOps toUppercase (buildDefMap toUppercase func) addr,
        Kept point.machine.value used := by
  have solved := solved_of_leads ssa starts leads
  have form := form_of_detects detects
  have read : addr ∈ op.sources := by
    cases op with
    | Load _ _ _ => cases accesses; exact mem_singleton_self _
    | Store _ _ _ => cases accesses; exact mem_cons_self
    | _ => cases accesses
  have namedAddr := named op mem_cons_self addr read
  refine form.describes_iff (fun used mem r defined computes => ?_)
    (fun used mem dst a b index r isAdd defined isOperand scaledIndex computes => ?_)
    fun used mem src isSrc k parses =>
      ((spelled used mem src isSrc).value point.machine parses).1
  · have notPhi : ∀ dst sources, used ≠ .Phi dst sources := by
      rintro dst sources rfl
      cases computes
    exact (modEq_of_lookup ssa solved namedAddr defined notPhi read (.inr ⟨block, found, here⟩)
      (unwrapped used mem) computes).2
  · have notPhi : ∀ dst sources, used ≠ .Phi dst sources := by
      rintro dst sources rfl
      cases computes
    obtain ⟨contains, isDst⟩ := definition_of_lookup namedAddr defined (by simp)
    have earlier := ssa.earlier_of_use solved.reach found here read contains isDst
    have isSource : index ∈ (SSAOp.binary .IntAdd dst a b).sources := by
      rcases isOperand with rfl | rfl <;> simp [SSAOp.sources]
    exact (modEq_of_lookup ssa solved (named _ (mem_cons_of_mem _ isAdd) index isSource) scaledIndex
      notPhi isSource (.inl earlier) (unwrapped used mem) computes).2

/-! ## Accesses above and below a pointer -/

theorem executes_binary (bigEndian : Bool) {machine : Ssa.Machine} {op : BinaryOp} {a b : SSAVar}
    (computes : (SSAOp.binary op dst a b).result machine.value = some r)
    (bytes : ∀ space address, machine.memory space address < 256) :
    machine.Executes bigEndian (.binary op dst a b) false
      { machine with env := Function.update machine.env dst (r % 2 ^ (dst.size * 8)).toNat } := by
  have positive : (0 : Int) < 2 ^ (dst.size * 8) := by positivity
  have exact : (((r % 2 ^ (dst.size * 8)).toNat : Nat) : Int) = r % 2 ^ (dst.size * 8) :=
    Int.toNat_of_nonneg (Int.emod_nonneg r positive.ne')
  refine ⟨fun var notDst => ?_, fun var isDst => ?_, fun var r' isDst computes' => ?_, ?_, rfl, ?_,
    fun _ _ => rfl, bytes⟩
  · exact Function.update_of_ne (fun same => notDst (congrArg some same.symm)) _ _
  · obtain rfl := some.inj isDst
    show Function.update machine.env dst _ dst < _
    rw [Function.update_self]
    have below := Int.emod_lt_of_pos r positive
    rw [← exact] at below
    exact_mod_cast below
  · obtain rfl := some.inj isDst
    obtain rfl := some.inj (computes.symm.trans computes')
    show ((Function.update machine.env dst _ dst : Nat) : Int) = _
    rw [Function.update_self, exact]
  · intro _ _ _ isRead
    cases isRead
  · intro _ _ isWrite
    cases isWrite

theorem named_of_blocks {toUppercase : String → String} (ssa : func.StrictSsa) {var : SSAVar}
    (distinct : ∀ block ∈ func.blockList, ∀ op ∈ block.ops, ∀ dst ∈ op.dst,
      displayName toUppercase dst = displayName toUppercase var → dst = var) :
    Named toUppercase func var := by
  rintro op dst ⟨d, block, found, mem⟩ isDst
  have listed : block ∈ func.blockList :=
    mem_filterMap.mpr ⟨d, (ssa.listed d).mp (by rw [found]; rfl), found⟩
  exact distinct block listed op mem dst isDst

/-- Eight bytes above or below a pointer are loaded. -/
def besidePointer (op : BinaryOp) : List R2ILBlock :=
  [⟨0, 4, [.binary op ⟨.Unique, 0, 8⟩ ⟨.Unique, 16, 8⟩ ⟨.Const, 8, 8⟩,
    .Load ⟨.Unique, 8, 8⟩ .Ram ⟨.Unique, 0, 8⟩, .Return ⟨.Unique, 24, 8⟩], none⟩]

def loadAbove : SSAFunction := (fromBlocksRaw (besidePointer .IntAdd) none).get (by decide +kernel)

def loadBelow : SSAFunction := (fromBlocksRaw (besidePointer .IntSub) none).get (by decide +kernel)

def besideAddr : SSAVar := ⟨"tmp:0", 1, 8⟩

def besideBase : SSAVar := ⟨"tmp:10", 0, 8⟩

/-- All variables and all bytes are zero. -/
def zeroMachine : Ssa.Machine := ⟨fun _ => 0, fun _ _ => 0⟩

def besideMachine (op : BinaryOp) : Ssa.Machine :=
  { zeroMachine with
    env := Function.update zeroMachine.env besideAddr
      (((op.result 8 8 0 8).getD 0) % 2 ^ 64).toNat }

theorem leads_beside {op : BinaryOp} {block : SSABlock} (r : Int)
    (found : func.getBlock 0 = some block)
    (first : block.ops[0]? = some (.binary op besideAddr besideBase (.constant 8 8)))
    (computes : op.result 8 8 0 8 = some r) :
    Leads false func ⟨0, 0, zeroMachine⟩ ⟨0, 1, besideMachine op⟩ := by
  have literal : zeroMachine.value (.constant 8 8) = 8 := by decide +kernel
  have base : zeroMachine.value besideBase = 0 := by decide +kernel
  have result : (SSAOp.binary op besideAddr besideBase (.constant 8 8)).result zeroMachine.value =
      some r := by
    show op.result 8 8 (zeroMachine.value besideBase) (zeroMachine.value (.constant 8 8)) = some r
    rw [literal, base, computes]
  have executes := executes_binary false result fun _ _ => Nat.succ_pos 255
  rw [besideMachine, computes, getD_some]
  exact .single (.op found first executes)

theorem starts_zero (entry : func.entry = 0) : Starts func ⟨0, 0, zeroMachine⟩ :=
  ⟨entry.symm, rfl, fun _ => Nat.two_pow_pos _, fun _ _ => Nat.succ_pos 255⟩

/-- The block of `besidePointer` in SSA form. -/
def besideBlock (op : BinaryOp) : SSABlock where
  addr := 0
  size := 4
  phis := []
  ops := [.binary op besideAddr besideBase (.constant 8 8), .Load ⟨"tmp:8", 1, 8⟩ "Ram" besideAddr,
    .Return ⟨"tmp:18", 0, 8⟩]

/-- The pattern of an access below a pointer gives an address above it. -/
theorem loadBelow_not_described :
    loadBelow.StrictSsa ∧
      (∀ block ∈ loadBelow.blockList, ∀ reader ∈ block.ops, ∀ var ∈ reader.sources,
        Named id loadBelow var) ∧
      Starts loadBelow ⟨0, 0, zeroMachine⟩ ∧
      Leads false loadBelow ⟨0, 0, zeroMachine⟩ ⟨0, 1, besideMachine .IntSub⟩ ∧
      loadBelow.getBlock 0 = some (besideBlock .IntSub) ∧
      detectAddrPattern id (buildDefMap id loadBelow) besideAddr = some (besideBase, 8, none) ∧
      ¬ Describes (besideMachine .IntSub).value besideAddr (besideBase, 8, none) := by
  have ssa : loadBelow.StrictSsa :=
    SSAFunction.strictSsa_of_checksStrict (fun _ => [0]) (by decide +kernel)
  have found : loadBelow.getBlock 0 = some (besideBlock .IntSub) := by decide +kernel
  have address : (besideMachine .IntSub).value besideAddr = 2 ^ 64 - 8 := by decide +kernel
  have base : (besideMachine .IntSub).value besideBase = 0 := by decide +kernel
  have distinct : ∀ block ∈ loadBelow.blockList, ∀ reader ∈ block.ops, ∀ var ∈ reader.sources,
      ∀ block ∈ loadBelow.blockList, ∀ op ∈ block.ops, ∀ dst ∈ op.dst,
        displayName id dst = displayName id var → dst = var := by decide +kernel
  refine ⟨ssa, fun block listed reader mem var used =>
    named_of_blocks ssa (distinct block listed reader mem var used), starts_zero (by decide +kernel),
    leads_beside (-8) found rfl rfl, found, by decide +kernel, ?_⟩
  intro describes
  change ((besideMachine .IntSub).value besideAddr : Int) ≡
    (besideMachine .IntSub).value besideBase + (8 : Nat) [ZMOD 2 ^ 64] at describes
  exact absurd describes (by decide +kernel)

theorem detectAddrPattern_describes_iff_loadAbove :
    Describes (besideMachine .IntAdd).value besideAddr (besideBase, 8, none) ↔
      ∀ used ∈ patternOps id (buildDefMap id loadAbove) besideAddr,
        Kept (besideMachine .IntAdd).value used := by
  have ssa : loadAbove.StrictSsa :=
    SSAFunction.strictSsa_of_checksStrict (fun _ => [0]) (by decide +kernel)
  have found : loadAbove.getBlock 0 = some (besideBlock .IntAdd) := by decide +kernel
  have ops : patternOps id (buildDefMap id loadAbove) besideAddr =
      [.binary .IntAdd besideAddr besideBase (.constant 8 8)] := by decide +kernel
  have access : (besideBlock .IntAdd).ops[1]? = some (.Load ⟨"tmp:8", 1, 8⟩ "Ram" besideAddr) := rfl
  have distinct : ∀ used ∈ SSAOp.Load ⟨"tmp:8", 1, 8⟩ "Ram" besideAddr ::
      patternOps id (buildDefMap id loadAbove) besideAddr, ∀ var ∈ used.sources,
      ∀ block ∈ loadAbove.blockList, ∀ op ∈ block.ops, ∀ dst ∈ op.dst,
        displayName id dst = displayName id var → dst = var := by decide +kernel
  refine detectAddrPattern_describes_iff ssa (starts_zero (by decide +kernel))
    (leads_beside 8 found rfl rfl) found access rfl (by decide +kernel)
    (fun used mem var isUsed => named_of_blocks ssa (distinct used mem var isUsed)) ?_ ?_
  · intro used isUsed src isSrc isConst
    obtain rfl := mem_singleton.mp isUsed
    rcases mem_pair.mp isSrc with rfl | rfl
    · exact absurd isConst (by decide +kernel)
    · exact ⟨8, rfl, by decide⟩
  · intro used isUsed dst r isDst _
    obtain rfl := mem_singleton.mp isUsed
    cases isDst
    exact .inl (by decide)

end R2Sleigh.Types
