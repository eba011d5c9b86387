import R2Sleigh.Lift.Esil

/-!
Contract: the strings of the stack language against the operations they stand
for.

Owns `Plain`, `Means` and `SoundOn`.

No reading suits all operations: a difference takes its operands in order, a
negation writes 0 after its operand, and a compound assignment names the
assigned register last. The string of a compare-and-exchange lacks two commas.
Calls and returns move the stack, which the operations leave alone.
-/

namespace R2Sleigh.Lift

open Il Ssa List

variable {c : Char} {text : String} {texts : List String} {dst a b addr val target : Varnode}
  {i : Int} {size : Nat} {kind : BinaryOp} {space : SpaceId} {ordering : MemoryOrdering}

/-! ## Texts -/

private theorem splitCommas_ne_nil (text : List Char) : splitCommas text ≠ [] := by
  induction text with
  | nil => simp [splitCommas]
  | cons c rest ih =>
    rw [splitCommas]
    split
    · split <;> simp
    · exact absurd (by assumption) ih

theorem splitCommas_cons_of_ne {rest first : List Char} {others : List (List Char)}
    (plain : c ≠ ',') (splits : splitCommas rest = first :: others) :
    splitCommas (c :: rest) = (c :: first) :: others := by
  rw [splitCommas, splits]
  exact if_neg plain

theorem splitCommas_plain {text : List Char} (plain : ',' ∉ text) : splitCommas text = [text] := by
  induction text with
  | nil => rfl
  | cons c rest ih =>
    rw [mem_cons, not_or] at plain
    exact splitCommas_cons_of_ne (Ne.symm plain.1) (ih plain.2)

private theorem splitCommas_append {text : List Char} (rest : List Char) (plain : ',' ∉ text) :
    splitCommas (text ++ ',' :: rest) = text :: splitCommas rest := by
  induction text with
  | nil =>
    rw [nil_append, splitCommas]
    split
    · rename_i first others splits
      rw [if_pos rfl, splits]
    · exact absurd (by assumption) (splitCommas_ne_nil rest)
  | cons c text ih =>
    rw [mem_cons, not_or] at plain
    exact splitCommas_cons_of_ne (Ne.symm plain.1) (ih plain.2)

theorem splitCommas_commas (some : texts ≠ []) (plain : ∀ text ∈ texts, ',' ∉ text.toList) :
    splitCommas (commas texts).toList = texts.map String.toList := by
  induction texts with
  | nil => exact absurd rfl some
  | cons text rest ih =>
    cases rest with
    | nil => exact splitCommas_plain (plain text (by simp))
    | cons second rest =>
      have joined : (commas (text :: second :: rest)).toList =
          text.toList ++ ',' :: (commas (second :: rest)).toList := by
        simp [commas]
      rw [joined, splitCommas_append _ (plain text (by simp)),
        ih (by simp) fun text mem => plain text (mem_cons_of_mem _ mem)]
      rfl

structure Reads (context : EsilContext) (known : List Varnode) (text : String) (token : Token) :
    Prop where
  noComma : ',' ∉ text.toList
  reads : readToken context known text = some token

theorem evalEsil_commas {reading : Reading} {context : EsilContext} {known : List Varnode}
    {s : Machine} {tokens : List Token} {result : Except EsilError Machine}
    (some : texts ≠ []) (runs : evalTokens reading s tokens = result)
    (reads : List.Forall₂ (Reads context known) texts tokens) :
    evalEsil reading context known (commas texts) s = result := by
  have mapped : (texts.map String.toList).mapM
      (fun chars => readToken context known (String.ofList chars)) = .some tokens := by
    clear some runs
    induction reads with
    | nil => rfl
    | cons head _ ih =>
      simp only [map_cons, mapM_cons, String.ofList_toList, head.reads, ih]
      rfl
  have plain : ∀ text ∈ texts, ',' ∉ text.toList := by
    clear some mapped runs
    induction reads with
    | nil => simp
    | cons head _ ih =>
      exact forall_mem_cons.mpr ⟨head.noComma, ih⟩
  rw [evalEsil, splitCommas_commas some plain, mapped, ← runs]

/-! ## Reserved tokens -/

private theorem lookup_operators_eq_none (other : ∀ entry ∈ operators, text ≠ entry.1) :
    operators.lookup text = none := by
  rw [lookup_eq_none_iff]
  intro entry mem
  exact bne_iff_ne.mpr (other entry mem)

variable (n : Nat)

theorem digitsOf_toDigits : digitsOf (Nat.toDigits 10 n) = some n := by
  have digits : (Nat.toDigits 10 n).all Char.isDigit = true := by
    rw [all_eq_true]
    intro c mem
    exact Nat.isDigit_of_mem_toDigits (by decide) (by decide) mem
  rw [digitsOf, if_pos ⟨Nat.toDigits_ne_nil, digits⟩, Nat.ofDigitChars_ten_toDigits]

theorem bracketed_toDigits : bracketed (Nat.toDigits 10 n ++ [']']) = some n := by
  rw [bracketed, List.getLast?_concat, if_pos rfl, dropLast_concat, digitsOf_toDigits]

theorem toList_decimal : (decimal n).toList = Nat.toDigits 10 n := by
  rw [decimal, String.toList_ofList]

theorem reserved_of_toList {chars : List Char} (isText : text.toList = chars)
    (other : ∀ entry ∈ operators, entry.1.toList ≠ chars) : reserved text = shapedToken chars := by
  rw [reserved, isText, lookup_operators_eq_none, Option.none_or]
  rintro entry mem rfl
  exact other entry mem isText

private theorem shapedToken_of_digit (digit : c.isDigit = true) (rest : List Char) :
    shapedToken (c :: rest) = (digitsOf (c :: rest)).map .number := by
  unfold shapedToken
  split
  · rename_i same
    obtain ⟨rfl, -⟩ := List.cons.inj same
    exact absurd digit (by decide)
  · rename_i same
    obtain ⟨rfl, -⟩ := List.cons.inj same
    exact absurd digit (by decide)
  · rfl

private theorem reserved_decimal : reserved (decimal n) = some (.number n) := by
  have notOperator : ∀ entry ∈ operators, entry.1.toList.head?.all (! ·.isDigit) = true := by decide +kernel
  obtain ⟨c, rest, isDigits⟩ := exists_cons_of_ne_nil (Nat.toDigits_ne_nil : Nat.toDigits 10 n ≠ [])
  have digit : c.isDigit = true := by
    refine Nat.isDigit_of_mem_toDigits (b := 10) (n := n) (by decide) (by decide) ?_
    rw [isDigits]
    exact mem_cons_self
  have isText : (decimal n).toList = c :: rest := (toList_decimal n).trans isDigits
  rw [reserved_of_toList isText, shapedToken_of_digit digit, ← isDigits, digitsOf_toDigits]
  · rfl
  · intro entry mem same
    have notDigit := notOperator entry mem
    rw [same, List.head?_cons, Option.all_some, digit] at notDigit
    cases notDigit

theorem toList_sizeSuffix : (sizeSuffix n).toList = '[' :: (Nat.toDigits 10 n ++ [']']) := by
  simp [sizeSuffix, toList_decimal]

private theorem reserved_sizeSuffix : reserved (sizeSuffix n) = some (.load n) := by
  have notOperator : ∀ entry ∈ operators, entry.1.toList.head? ≠ some '[' := by decide
  rw [reserved_of_toList (toList_sizeSuffix n)]
  · show (bracketed (Nat.toDigits 10 n ++ [']'])).map Token.load = some (.load n)
    rw [bracketed_toDigits]
    rfl
  · intro entry mem same
    exact notOperator entry mem (by rw [same]; rfl)

theorem toList_storeSuffix :
    (storeSuffix n).toList = '=' :: '[' :: (Nat.toDigits 10 n ++ [']']) := by
  simp [storeSuffix, toList_sizeSuffix]

private theorem reserved_storeSuffix : reserved (storeSuffix n) = some (.store n) := by
  have notOperator : ∀ entry ∈ operators, entry.1.toList.take 2 ≠ ['=', '['] := by decide
  rw [reserved_of_toList (toList_storeSuffix n)]
  · show (bracketed (Nat.toDigits 10 n ++ [']'])).map Token.store = some (.store n)
    rw [bracketed_toDigits]
    rfl
  · intro entry mem same
    exact notOperator entry mem (by rw [same]; rfl)

theorem digitsOf_eq_none {text : List Char} (mem : c ∈ text)
    (notDigit : c.isDigit = false) : digitsOf text = none := by
  rw [digitsOf, if_neg]
  rintro ⟨-, digits⟩
  have digit := all_eq_true.mp digits c mem
  rw [notDigit] at digit
  cases digit

/-- A store without a comma before it is no token. -/
theorem reserved_fused (nonempty : text ≠ "") (plain : '=' ∉ text.toList) (n : Nat) :
    reserved (text ++ storeSuffix n) = none := by
  have short : ∀ entry ∈ operators, entry.1.toList.length ≤ 3 := by decide
  obtain ⟨c, rest, isText⟩ : ∃ c rest, text.toList = c :: rest :=
    exists_cons_of_ne_nil fun none => nonempty (String.toList_eq_nil_iff.mp none)
  have isFused : (text ++ storeSuffix n).toList =
      c :: (rest ++ '=' :: '[' :: Nat.toDigits 10 n ++ [']']) := by
    rw [String.toList_append, isText, toList_storeSuffix]
    simp
  rw [reserved_of_toList isFused]
  · unfold shapedToken
    split
    · rename_i same
      obtain ⟨-, rfl⟩ := List.cons.inj same
      rw [bracketed, if_pos List.getLast?_concat, dropLast_concat,
        digitsOf_eq_none (c := '=') (by simp) (by decide)]
      rfl
    · rename_i same
      obtain ⟨rfl, -⟩ := List.cons.inj same
      exact absurd (by rw [isText]; exact mem_cons_self) plain
    · rw [digitsOf_eq_none (c := '=') (by simp) (by decide)]
      rfl
  · intro entry mem same
    have long := short entry mem
    rw [same] at long
    simp only [length_cons, length_append, length_nil] at long
    omega

/-! ## Operands -/

/-- The varnodes of an operation that the language covers. -/
@[simp] def operandsOf : R2ILOp → List Varnode
  | .Copy dst src | .unary _ dst src => [dst, src]
  | .Load dst _ addr | .LoadLinked dst _ addr _ => [dst, addr]
  | .Store _ addr val => [addr, val]
  | .StoreConditional result _ addr val _ => result.toList ++ [addr, val]
  | .AtomicCAS dst _ addr expected replacement _ => [dst, addr, expected, replacement]
  | .LoadGuarded dst _ addr guard _ => [dst, addr, guard]
  | .StoreGuarded _ addr val guard _ => [addr, val, guard]
  | .binary _ dst a b => [dst, a, b]
  | .Piece dst hi lo => [dst, hi, lo]
  | .PtrAdd dst base index _ | .PtrSub dst base index _ => [dst, base, index]
  | .Branch target | .Call target | .Return target => [target]
  | .CBranch target cond => [target, cond]
  | _ => []

/-- Texts that the language can tell apart, from each other and from its own
tokens; the stack pointer is a register with the name that strings use. -/
structure Plain (context : EsilContext) (sp : Varnode) (op : R2ILOp) : Prop where
  injective : ∀ v ∈ sp :: operandsOf op, ∀ w ∈ sp :: operandsOf op,
    context.vn v = context.vn w → v = w
  noComma : ∀ v ∈ sp :: operandsOf op, ',' ∉ (context.vn v).toList
  noEquals : ∀ v ∈ sp :: operandsOf op, '=' ∉ (context.vn v).toList
  nonempty : ∀ v ∈ sp :: operandsOf op, context.vn v ≠ ""
  unreserved : ∀ v ∈ sp :: operandsOf op, reserved (context.vn v) = none
  spName : context.vn sp = stackRegForArch context.archName
  spRegister : sp.space = .Register
  spSize : 1 ≤ sp.size

section

variable {context : EsilContext} {known : List Varnode}

theorem readToken_of_reserved {token : Token}
    (isReserved : reserved text = some token) : readToken context known text = some token := by
  rw [readToken, isReserved]
  rfl

private theorem reads_operator {token : Token} (isOperator : (text, token) ∈ operators) :
    Reads context known text token := by
  have all : ∀ entry ∈ operators, ',' ∉ entry.1.toList ∧ reserved entry.1 = some entry.2 := by
    decide +kernel
  obtain ⟨noComma, isReserved⟩ := all _ isOperator
  exact ⟨noComma, readToken_of_reserved isReserved⟩

theorem operator {token : Token} (isOperator : (text, token) ∈ operators)
    (rest : Forall₂ (Reads context known) texts tokens) :
    Forall₂ (Reads context known) (text :: texts) (token :: tokens) :=
  .cons (reads_operator isOperator) rest

theorem comma_notMem_toDigits : ',' ∉ Nat.toDigits 10 n := fun mem =>
  absurd (Nat.isDigit_of_mem_toDigits (by decide) (by decide) mem) (by decide)

theorem reads_decimal : Reads context known (decimal n) (.number n) :=
  ⟨by rw [toList_decimal]; exact comma_notMem_toDigits n, readToken_of_reserved (reserved_decimal n)⟩

theorem reads_sizeSuffix : Reads context known (sizeSuffix n) (.load n) := by
  refine ⟨?_, readToken_of_reserved (reserved_sizeSuffix n)⟩
  rw [toList_sizeSuffix]
  simp [comma_notMem_toDigits n]

theorem reads_storeSuffix : Reads context known (storeSuffix n) (.store n) := by
  refine ⟨?_, readToken_of_reserved (reserved_storeSuffix n)⟩
  rw [toList_storeSuffix]
  simp [comma_notMem_toDigits n]

variable {sp : Varnode} {op : R2ILOp} (plain : Plain context sp op)
include plain

theorem Plain.reads {v : Varnode} (known : v ∈ sp :: operandsOf op) :
    Reads context (sp :: operandsOf op) (context.vn v) (.operand v) := by
  obtain ⟨w, found⟩ :
      ∃ w, (sp :: operandsOf op).find? (fun w => context.vn w = context.vn v) = some w :=
    Option.isSome_iff_exists.mp (List.find?_isSome.mpr ⟨v, known, by simp⟩)
  have same : context.vn w = context.vn v := by simpa using List.find?_some found
  have equal := plain.injective w (mem_of_find?_eq_some found) v known same
  refine ⟨plain.noComma v known, ?_⟩
  rw [readToken, plain.unreserved v known, Option.none_or, found, equal]
  rfl

theorem Plain.reads_stack :
    Reads context (sp :: operandsOf op) (stackRegForArch context.archName) (.operand sp) := by
  rw [← plain.spName]
  exact plain.reads mem_cons_self

theorem Plain.operand {v : Varnode} (known : v ∈ sp :: operandsOf op)
    (rest : Forall₂ (Reads context (sp :: operandsOf op)) texts tokens) :
    Forall₂ (Reads context (sp :: operandsOf op)) (context.vn v :: texts) (.operand v :: tokens) :=
  .cons (plain.reads known) rest

/-- The end of a string that assigns a result. -/
theorem Plain.assigns {v : Varnode} (known : v ∈ sp :: operandsOf op) :
    Forall₂ (Reads context (sp :: operandsOf op)) [context.vn v, "="] [.operand v, .assign] :=
  plain.operand known (operator (by decide) .nil)

end

/-! ## Meaning -/

/-- A missing result is the only error that an operation may have. -/
def orError : Option Machine → Except EsilError Machine
  | some s => .ok s
  | none => .error .noResult

theorem orError_injective : Function.Injective orError := by
  rintro (_ | first) (_ | second) same
  · rfl
  · cases same
  · cases same
  · exact congrArg some (Except.ok.inj same)

/-- Evaluating the string of an operation does what the operation does. -/
def Means (reading : Reading) (context : EsilContext) (sp : Varnode) (op : R2ILOp) (s : Machine) :
    Prop :=
  evalEsil reading context (sp :: operandsOf op) (opToEsil context op) s = orError (pcodeStep s op)

/-- The operations whose strings use the operators of the language only. -/
def IsCovered : R2ILOp → Bool
  | .Copy .. | .Load .. | .LoadLinked .. | .Store .. | .StoreConditional .. | .AtomicCAS ..
  | .LoadGuarded .. | .StoreGuarded .. | .Piece .. | .PtrAdd .. | .PtrSub .. | .Branch ..
  | .CBranch .. | .Call .. | .Return .. => true
  | .binary op _ _ _ => op ∉ ([.FloatAdd, .FloatSub, .FloatMult, .FloatDiv, .FloatEqual,
      .FloatNotEqual, .FloatLess, .FloatLessEqual] : List BinaryOp)
  | .unary op _ _ => op ∈ ([.IntNegate, .IntNot, .BoolNot] : List UnaryOp)
  | _ => false

/-- The operation with its memory in RAM, the only one the language has. -/
def inRam : R2ILOp → R2ILOp
  | .Load dst _ addr => .Load dst .Ram addr
  | .LoadLinked dst _ addr ordering => .LoadLinked dst .Ram addr ordering
  | .Store _ addr val => .Store .Ram addr val
  | .StoreConditional result _ addr val ordering => .StoreConditional result .Ram addr val ordering
  | .LoadGuarded dst _ addr guard ordering => .LoadGuarded dst .Ram addr guard ordering
  | .StoreGuarded _ addr val guard ordering => .StoreGuarded .Ram addr val guard ordering
  | op => op

def SameResult (size : Nat) : Option Int → Option Int → Prop
  | some i, some j => i ≡ j [ZMOD 256 ^ size]
  | none, none => True
  | _, _ => False

def isFlag (op : BinaryOp) : Bool := op ∈ ([.IntCarry, .IntSCarry, .IntSBorrow] : List BinaryOp)

/-- The address that a varnode names is also its value. -/
def NamesTarget (s : Machine) (target : Varnode) : Prop :=
  s.read target % 2 ^ 64 = target.offset % 2 ^ 64

/-- Pushing the program counter changes nothing, the stack pointer being
subtracted from the size of a pointer. -/
def PushesNothing (reading : Reading) (context : EsilContext) (sp : Varnode) (s : Machine) : Prop :=
  reading.swapped = false ∧
    2 * (s.read sp : Int) ≡ ptrSizeForArch context.archName [ZMOD 256 ^ sp.size] ∧
    s.load .Ram (s.read sp) (ptrSizeForArch context.archName) =
      s.pc % 256 ^ ptrSizeForArch context.archName

/-- When the string of an operation does what the operation does. -/
def SoundOn (reading : Reading) (context : EsilContext) (sp : Varnode) (op : R2ILOp) (s : Machine) :
    Prop :=
  match op with
  | .AtomicCAS .. | .Return _ => False
  | .binary kind dst a b => (isFlag kind → reading.flagsReplace) ∧
      (reading.swapped → SameResult dst.size (kind.result b.size a.size (s.read b) (s.read a))
        (kind.result a.size b.size (s.read a) (s.read b)))
  | .unary .IntNegate dst src => reading.swapped ∨
      2 * (s.read src : Int) ≡ 0 [ZMOD 256 ^ dst.size]
  | .Piece dst hi lo => reading.swapped →
      (((lo.size * 8) * 2 ^ s.read hi ||| s.read lo : Nat) : Int) ≡
        s.read hi * 256 ^ lo.size + s.read lo [ZMOD 256 ^ dst.size]
  | .PtrSub dst base index elementSize => reading.swapped →
      2 * (s.read base - s.read index * elementSize : Int) ≡ 0 [ZMOD 256 ^ dst.size]
  | .Branch target => NamesTarget s target
  | .CBranch target cond => s.read cond = 0 ∨ NamesTarget s target
  | .Call target => PushesNothing reading context sp s ∧ NamesTarget s target
  | op => pcodeStep s (inRam op) = pcodeStep s op

/-- Whether the string of an operation does what the operation does is known. -/
def Decides (reading : Reading) (context : EsilContext) (sp : Varnode) (op : R2ILOp) (s : Machine) :
    Prop :=
  Means reading context sp op s ↔ SoundOn reading context sp op s

/-! ## Machines -/

section Machines

variable {s : Machine}

theorem read_lt (vn : Varnode) : s.read vn < 256 ^ vn.size := by
  unfold Machine.read
  split
  · exact Nat.mod_lt _ (Nat.pow_pos (by decide))
  · exact Machine.load_lt

theorem residue_natCast (size n : Nat) : Machine.residue size n = n % 256 ^ size := by
  norm_cast

theorem store_residue (space : SpaceId) (addr size n : Nat) :
    s.store space addr size (Machine.residue size n) = s.store space addr size n := by
  rw [Machine.store_eq_store_iff, residue_natCast, Nat.mod_mod]

theorem jump_eq_jump_iff {target target' : Nat} :
    s.jump target = s.jump target' ↔ target % 2 ^ 64 = target' % 2 ^ 64 := by
  rw [Machine.ext_iff']
  exact and_iff_right rfl

private theorem writeResult_eq_iff {first second : Option Int} :
    writeResult s dst first = writeResult s dst second ↔ SameResult dst.size first second := by
  cases first <;> cases second <;> simp [writeResult, SameResult, Machine.write_eq_write_iff]

theorem write_eq_self_iff {vn : Varnode} (variable' : vn.space ≠ .Const) :
    s.write vn i = s ↔ i ≡ s.read vn [ZMOD 256 ^ vn.size] := by
  have own : s.read vn = s.load vn.space vn.offset vn.size := by
    rw [Machine.read, if_neg variable']
  rw [Machine.write, Machine.store_eq_self_iff, Nat.mod_eq_of_lt Machine.residue_lt, ← own,
    ← Machine.residue_eq_iff, residue_natCast, Nat.mod_eq_of_lt (read_lt vn)]

theorem read_jump (target : Nat) (vn : Varnode) : (s.jump target).read vn = s.read vn := by
  have load : ∀ size, (s.jump target).load vn.space vn.offset size =
      s.load vn.space vn.offset size := by
    intro size
    induction size with
    | zero => rfl
    | succ size ih =>
      rw [Machine.load, ih]
      rfl
  rw [Machine.read, Machine.read, load]

private theorem write_eq_self_of_store {vn : Varnode} (register : vn.space = .Register)
    {addr x : Nat} (same : ((s.write vn i).store .Ram addr size x).storage = s.storage) :
    s.write vn i = s := by
  rw [Machine.ext_iff']
  refine ⟨?_, rfl⟩
  funext space addr'
  by_cases ram : space = .Ram
  · rw [Machine.write, Machine.storage_store, if_neg]
    rintro ⟨isRegister, -⟩
    rw [ram, register] at isRegister
    cases isRegister
  · have byte := congrFun (congrFun same space) addr'
    rw [Machine.storage_store, if_neg fun inside => ram inside.1] at byte
    exact byte

end Machines

/-! ## Evaluation -/

section Evaluation

variable {reading : Reading} {s : Machine}

def resultUnder (reading : Reading) (op : BinaryOp) (aSize bSize x y : Nat) : Option Int :=
  if reading.swapped then op.result bSize aSize y x else op.result aSize bSize x y

private theorem evalTokens_binary (op : BinaryOp) (dst a b : Varnode) :
    evalTokens reading s [.operand a, .operand b, .binary op, .operand dst, .assign] =
      orError (writeResult s dst (resultUnder reading op a.size b.size (s.read a) (s.read b))) := by
  obtain ⟨swapped, flagsReplace⟩ := reading
  cases swapped with
  | false =>
    cases isResult : op.result a.size b.size (s.read a) (s.read b) <;>
      simp [isResult, resultUnder, orError, writeResult, Except.bind, bind, Except.map, pure,
        Except.pure]
  | true =>
    cases isResult : op.result b.size a.size (s.read b) (s.read a) <;>
      simp [isResult, resultUnder, orError, writeResult, Except.bind, bind, Except.map, pure,
        Except.pure]

/-- The operation that a flag is about. -/
def flagBase : BinaryOp → BinaryOp
  | .IntSBorrow => .IntSub
  | _ => .IntAdd

private theorem evalTokens_flag {op : BinaryOp} (dst a b : Varnode) (flag : isFlag op) :
    evalTokens reading s
        [.operand a, .operand b, .binary (flagBase op), .flag op, .operand dst, .assign] =
      if reading.flagsReplace then
        orError (writeResult s dst (resultUnder reading op a.size b.size (s.read a) (s.read b)))
      else .error .leftover := by
  obtain ⟨swapped, flagsReplace⟩ := reading
  cases op <;> try cases flag
  all_goals
    cases swapped <;> cases flagsReplace <;>
      simp [flagBase, BinaryOp.result, resultUnder, orError, writeResult, Except.bind, bind,
        Except.map, pure, Except.pure]

private theorem evalTokens_notEqual (dst a b : Varnode) :
    evalTokens reading s [.operand a, .operand b, .binary .IntEqual, .not, .operand dst, .assign] =
      orError (writeResult s dst
        (resultUnder reading .IntNotEqual a.size b.size (s.read a) (s.read b))) := by
  obtain ⟨swapped, flagsReplace⟩ := reading
  by_cases same : s.read a = s.read b
  · cases swapped <;>
      simp [BinaryOp.result, resultUnder, orError, writeResult, Except.bind, bind, Except.map, pure,
        Except.pure, truth, same]
  · have other : s.read b ≠ s.read a := Ne.symm same
    cases swapped <;>
      simp [BinaryOp.result, resultUnder, orError, writeResult, Except.bind, bind, Except.map, pure,
        Except.pure, truth, same, other]

end Evaluation

/-! ## Operations with two operands -/

section Binary

variable {reading : Reading} {context : EsilContext} {sp : Varnode} {s : Machine}

/-- Under a reading, the string of an operation computes a result with the
operands in the order of that reading. -/
theorem binary_means_iff
    (evaluates : evalEsil reading context (sp :: operandsOf (.binary kind dst a b))
      (opToEsil context (.binary kind dst a b)) s =
        orError (writeResult s dst
          (resultUnder reading kind a.size b.size (s.read a) (s.read b)))) :
    Means reading context sp (.binary kind dst a b) s ↔
      (reading.swapped → SameResult dst.size (kind.result b.size a.size (s.read b) (s.read a))
        (kind.result a.size b.size (s.read a) (s.read b))) := by
  rw [Means, evaluates, orError_injective.eq_iff, pcodeStep, writeResult_eq_iff, resultUnder]
  cases reading.swapped with
  | true => simp
  | false =>
    have same : ∀ result : Option Int, SameResult dst.size result result := by
      intro result
      cases result with
      | none => trivial
      | some i => exact Int.ModEq.refl i
    simp [same]

private theorem flag_means_iff
    (evaluates : evalEsil reading context (sp :: operandsOf (.binary kind dst a b))
      (opToEsil context (.binary kind dst a b)) s =
        if reading.flagsReplace then
          orError (writeResult s dst (resultUnder reading kind a.size b.size (s.read a) (s.read b)))
        else .error .leftover) :
    Means reading context sp (.binary kind dst a b) s ↔
      reading.flagsReplace ∧
      (reading.swapped → SameResult dst.size (kind.result b.size a.size (s.read b) (s.read a))
        (kind.result a.size b.size (s.read a) (s.read b))) := by
  cases replaces : reading.flagsReplace with
  | true =>
    rw [if_pos replaces] at evaluates
    rw [binary_means_iff evaluates]
    simp
  | false =>
    rw [if_neg (by rw [replaces]; decide)] at evaluates
    rw [Means, evaluates]
    cases pcodeStep s (.binary kind dst a b) <;> simp [orError]

theorem Plain.binary_means_iff (plain : Plain context sp (.binary kind dst a b))
    (covered : IsCovered (.binary kind dst a b)) :
    Decides reading context sp (.binary kind dst a b) s := by
  cases kind
  case IntCarry | IntSCarry | IntSBorrow =>
    refine (flag_means_iff ?_).trans (and_congr_left' (imp_iff_right rfl).symm)
    exact evalEsil_commas (by simp) (evalTokens_flag dst a b rfl) (plain.operand (by simp)
      (plain.operand (by simp) (operator (by decide) (operator (by decide)
      (plain.assigns (by simp))))))
  case IntNotEqual =>
    refine (Lift.binary_means_iff ?_).trans (and_iff_right fun flag => absurd flag (by decide)).symm
    exact evalEsil_commas (by simp) (evalTokens_notEqual _ _ _) (plain.operand (by simp)
      (plain.operand (by simp) (operator (by decide) (operator (by decide)
      (plain.assigns (by simp))))))
  case FloatAdd | FloatSub | FloatMult | FloatDiv | FloatEqual | FloatNotEqual | FloatLess |
      FloatLessEqual => cases covered
  all_goals
    refine (Lift.binary_means_iff ?_).trans (and_iff_right fun flag => absurd flag (by decide)).symm
    exact evalEsil_commas (by simp) (evalTokens_binary _ _ _ _) (plain.operand (by simp)
      (plain.operand (by simp) (operator (by decide) (plain.assigns (by simp)))))

end Binary

/-! ## Operations with one result -/

section Accesses

variable {reading : Reading} {context : EsilContext} {sp : Varnode} {op : R2ILOp} {s : Machine}

theorem means_inRam_iff (some : texts ≠ [])
    (runs : evalTokens reading s tokens = orError (pcodeStep s (inRam op)))
    (reads : Forall₂ (Reads context (sp :: operandsOf op)) texts tokens)
    (text : opToEsil context op = commas texts) :
    Means reading context sp op s ↔ pcodeStep s (inRam op) = pcodeStep s op := by
  rw [Means, text, evalEsil_commas some runs reads, orError_injective.eq_iff]

theorem evalTokens_load (dst addr : Varnode) :
    evalTokens reading s [.operand addr, .load dst.size, .operand dst, .assign] =
      .ok (s.write dst (s.load .Ram (s.read addr) dst.size)) := by
  simp [Except.bind, bind, Except.map, pure, Except.pure]

theorem evalTokens_store (addr val : Varnode) :
    evalTokens reading s [.operand val, .operand addr, .store val.size] =
      .ok (s.store .Ram (s.read addr) val.size (s.read val)) := by
  simp [Except.bind, bind, pure, Except.pure, store_residue]

private theorem evalTokens_storeConditional (dst addr val : Varnode) :
    evalTokens reading s
        [.operand val, .operand addr, .store val.size, .number 0, .operand dst, .assign] =
      .ok ((s.store .Ram (s.read addr) val.size (s.read val)).write dst 0) := by
  simp [Except.bind, bind, Except.map, pure, Except.pure, store_residue]

private theorem evalTokens_loadGuarded (dst addr guard : Varnode) :
    evalTokens reading s
        [.operand guard, .ifNonzero, .operand addr, .load dst.size, .operand dst, .assign, .close] =
      .ok (if s.read guard = 0 then s else s.write dst (s.load .Ram (s.read addr) dst.size)) := by
  by_cases zero : s.read guard = 0 <;> simp [zero, Except.bind, bind, Except.map, pure, Except.pure]

private theorem evalTokens_storeGuarded (addr val guard : Varnode) :
    evalTokens reading s
        [.operand guard, .ifNonzero, .operand val, .operand addr, .store val.size, .close] =
      .ok (if s.read guard = 0 then s else s.store .Ram (s.read addr) val.size (s.read val)) := by
  by_cases zero : s.read guard = 0 <;>
    simp [zero, Except.bind, bind, pure, Except.pure, store_residue]

private theorem evalTokens_copy (dst src : Varnode) :
    evalTokens reading s [.operand src, .operand dst, .assign] =
      .ok (s.write dst (s.read src)) := by
  simp [Except.bind, bind, Except.map, pure, Except.pure]

private theorem evalTokens_complement (dst src : Varnode) :
    evalTokens reading s [.operand src, .complement, .operand dst, .assign] =
      .ok (s.write dst (-(s.read src) - 1)) := by
  simp [Except.bind, bind, Except.map, pure, Except.pure]

private theorem evalTokens_not (dst src : Varnode) :
    evalTokens reading s [.operand src, .not, .operand dst, .assign] =
      .ok (s.write dst (truth (s.read src = 0))) := by
  by_cases zero : s.read src = 0 <;>
    simp [zero, truth, Except.bind, bind, Except.map, pure, Except.pure]

theorem toNat_mul_natCast (x y : Nat) : ((x : Int) * y).toNat = x * y := by
  rw [← Int.natCast_mul, Int.toNat_natCast]

private theorem evalTokens_ptrAdd (dst base index : Varnode) (elementSize : Nat) :
    evalTokens reading s [.operand base, .operand index, .number elementSize, .binary .IntMult,
        .binary .IntAdd, .operand dst, .assign] =
      .ok (s.write dst (s.read base + s.read index * elementSize)) := by
  obtain ⟨swapped, flagsReplace⟩ := reading
  cases swapped with
  | false =>
    simp [BinaryOp.result, toNat_mul_natCast, Except.bind, bind, Except.map, pure, Except.pure]
  | true =>
    simp [BinaryOp.result, toNat_mul_natCast, Except.bind, bind, Except.map, pure, Except.pure,
      Int.add_comm, Int.mul_comm]

private theorem Plain.copy_means_iff {src : Varnode} (plain : Plain context sp (.Copy dst src)) :
    Decides reading context sp (.Copy dst src) s := by
  exact means_inRam_iff (by simp) (evalTokens_copy dst src) (plain.operand (by simp)
    (plain.assigns (by simp))) rfl

private theorem Plain.load_means_iff (plain : Plain context sp (.Load dst space addr)) :
    Decides reading context sp (.Load dst space addr) s := by
  exact means_inRam_iff (by simp) (evalTokens_load dst addr) (plain.operand (by simp)
    (.cons (reads_sizeSuffix _) (plain.assigns (by simp)))) rfl

private theorem Plain.loadLinked_means_iff
    (plain : Plain context sp (.LoadLinked dst space addr ordering)) :
    Decides reading context sp (.LoadLinked dst space addr ordering) s := by
  exact means_inRam_iff (by simp) (evalTokens_load dst addr) (plain.operand (by simp)
    (.cons (reads_sizeSuffix _) (plain.assigns (by simp)))) rfl

private theorem Plain.store_means_iff (plain : Plain context sp (.Store space addr val)) :
    Decides reading context sp (.Store space addr val) s := by
  exact means_inRam_iff (by simp) (evalTokens_store addr val) (plain.operand (by simp)
    (plain.operand (by simp) (.cons (reads_storeSuffix _) .nil))) rfl

private theorem Plain.storeConditional_means_iff {result : Option Varnode}
    (plain : Plain context sp (.StoreConditional result space addr val ordering)) :
    Decides reading context sp (.StoreConditional result space addr val ordering) s := by
  cases result with
  | none =>
    exact means_inRam_iff (by simp) (evalTokens_store addr val) (plain.operand (by simp)
      (plain.operand (by simp) (.cons (reads_storeSuffix _) .nil))) rfl
  | some dst =>
    exact means_inRam_iff (by simp) (evalTokens_storeConditional dst addr val)
      (plain.operand (by simp) (plain.operand (by simp) (.cons (reads_storeSuffix _)
      (.cons (reads_decimal 0) (plain.assigns (by simp)))))) rfl

private theorem Plain.loadGuarded_means_iff {guard : Varnode}
    (plain : Plain context sp (.LoadGuarded dst space addr guard ordering)) :
    Decides reading context sp (.LoadGuarded dst space addr guard ordering) s := by
  refine means_inRam_iff (by simp) ((evalTokens_loadGuarded dst addr guard).trans ?_)
    (plain.operand (by simp) (operator (by decide) (plain.operand (by simp)
    (.cons (reads_sizeSuffix _) (plain.operand (by simp) (operator (by decide)
    (operator (by decide) .nil))))))) rfl
  rw [inRam, pcodeStep]
  split <;> rfl

private theorem Plain.storeGuarded_means_iff {guard : Varnode}
    (plain : Plain context sp (.StoreGuarded space addr val guard ordering)) :
    Decides reading context sp (.StoreGuarded space addr val guard ordering) s := by
  refine means_inRam_iff (by simp) ((evalTokens_storeGuarded addr val guard).trans ?_)
    (plain.operand (by simp) (operator (by decide) (plain.operand (by simp) (plain.operand (by simp)
    (.cons (reads_storeSuffix _) (operator (by decide) .nil)))))) rfl
  rw [inRam, pcodeStep]
  split <;> rfl

private theorem Plain.ptrAdd_means_iff {base index : Varnode} {elementSize : Nat}
    (plain : Plain context sp (.PtrAdd dst base index elementSize)) :
    Decides reading context sp (.PtrAdd dst base index elementSize) s := by
  exact means_inRam_iff (by simp) (evalTokens_ptrAdd dst base index elementSize)
    (plain.operand (by simp) (plain.operand (by simp) (.cons (reads_decimal _) (operator (by decide)
    (operator (by decide) (plain.assigns (by simp))))))) rfl

end Accesses

/-! ## Operations whose operands are ordered -/

section Ordered

variable {reading : Reading} {context : EsilContext} {sp : Varnode} {s : Machine}

theorem ok_means_iff {op : R2ILOp} {j : Int}
    (evaluates : evalEsil reading context (sp :: operandsOf op) (opToEsil context op) s =
      .ok (s.write dst i))
    (steps : pcodeStep s op = some (s.write dst j)) :
    Means reading context sp op s ↔ i ≡ j [ZMOD 256 ^ dst.size] := by
  rw [Means, evaluates, steps, orError, Except.ok.injEq, Machine.write_eq_write_iff]

private theorem evalTokens_negate (dst src : Varnode) :
    evalTokens reading s [.operand src, .number 0, .binary .IntSub, .operand dst, .assign] =
      .ok (s.write dst (if reading.swapped then -(s.read src) else s.read src)) := by
  obtain ⟨swapped, flagsReplace⟩ := reading
  cases swapped <;> simp [BinaryOp.result, Except.bind, bind, Except.map, pure, Except.pure]

theorem modEq_neg_iff {n : Int} : i ≡ -i [ZMOD n] ↔ 2 * i ≡ 0 [ZMOD n] := by
  have twice : i - -i = 2 * i - 0 := by omega
  rw [Int.modEq_comm, Int.modEq_comm (a := 2 * i), Int.modEq_iff_dvd, Int.modEq_iff_dvd, twice]

theorem Plain.unary_means_iff {kind : UnaryOp} {src : Varnode}
    (plain : Plain context sp (.unary kind dst src)) (covered : IsCovered (.unary kind dst src)) :
    Decides reading context sp (.unary kind dst src) s := by
  cases kind <;> try cases covered
  case IntNegate =>
    refine .trans (ok_means_iff (evalEsil_commas (by simp) (evalTokens_negate dst src)
      (plain.operand (by simp) (.cons (reads_decimal 0) (operator (by decide)
      (plain.assigns (by simp)))))) rfl) ?_
    rw [SoundOn]
    cases reading.swapped with
    | true => simp
    | false => simp [modEq_neg_iff]
  case IntNot =>
    exact means_inRam_iff (by simp) (evalTokens_complement dst src) (plain.operand (by simp)
      (operator (by decide) (plain.assigns (by simp)))) rfl
  case BoolNot =>
    exact means_inRam_iff (by simp) (evalTokens_not dst src) (plain.operand (by simp)
      (operator (by decide) (plain.assigns (by simp)))) rfl

private theorem shifted_or_eq {x y : Nat} (low : y < 256 ^ size) :
    x * 2 ^ (size * 8) ||| y = x * 256 ^ size + y := by
  have bits : (256 : Nat) ^ size = 2 ^ (size * 8) := by
    rw [Nat.mul_comm, Nat.pow_mul]
  rw [bits] at low ⊢
  rw [← Nat.shiftLeft_eq, Nat.shiftLeft_add_eq_or_of_lt low]

private theorem evalTokens_piece (dst hi lo : Varnode) :
    evalTokens reading s [.operand hi, .number (lo.size * 8), .binary .IntLeft, .operand lo,
        .binary .IntOr, .operand dst, .assign] =
      .ok (s.write dst (if reading.swapped then
        (((lo.size * 8) * 2 ^ s.read hi ||| s.read lo : Nat) : Int)
        else s.read hi * 256 ^ lo.size + s.read lo)) := by
  obtain ⟨swapped, flagsReplace⟩ := reading
  have amount : ((lo.size : Int) * 8).toNat = lo.size * 8 := toNat_mul_natCast lo.size 8
  cases swapped with
  | false =>
    have shifted : ((s.read hi : Int) * 2 ^ (lo.size * 8)).toNat = s.read hi * 2 ^ (lo.size * 8) := by
      exact_mod_cast Int.toNat_natCast (s.read hi * 2 ^ (lo.size * 8))
    simp [BinaryOp.result, amount, shifted, shifted_or_eq (read_lt lo), Except.bind, bind,
      Except.map, pure, Except.pure]
  | true =>
    have shifted : (((lo.size * 8 : Nat) : Int) * 2 ^ s.read hi).toNat =
        lo.size * 8 * 2 ^ s.read hi := by
      exact_mod_cast Int.toNat_natCast (lo.size * 8 * 2 ^ s.read hi)
    push_cast at shifted
    simp [BinaryOp.result, amount, shifted, Nat.or_comm, Except.bind, bind, Except.map, pure,
      Except.pure]

theorem Plain.piece_means_iff {hi lo : Varnode} (plain : Plain context sp (.Piece dst hi lo)) :
    Decides reading context sp (.Piece dst hi lo) s := by
  refine .trans (ok_means_iff (evalEsil_commas (by simp) (evalTokens_piece dst hi lo)
    (plain.operand (by simp) (.cons (reads_decimal _) (operator (by decide) (plain.operand (by simp)
    (operator (by decide) (plain.assigns (by simp)))))))) rfl) ?_
  rw [SoundOn]
  cases reading.swapped with
  | true => simp
  | false => simp [Int.ModEq.refl]

private theorem evalTokens_ptrSub (dst base index : Varnode) (elementSize : Nat) :
    evalTokens reading s [.operand base, .operand index, .number elementSize, .binary .IntMult,
        .binary .IntSub, .operand dst, .assign] =
      .ok (s.write dst (if reading.swapped then -(s.read base - s.read index * elementSize : Int)
        else s.read base - s.read index * elementSize)) := by
  obtain ⟨swapped, flagsReplace⟩ := reading
  cases swapped with
  | false =>
    simp [BinaryOp.result, toNat_mul_natCast, Except.bind, bind, Except.map, pure, Except.pure]
  | true =>
    simp [BinaryOp.result, toNat_mul_natCast, Except.bind, bind, Except.map, pure, Except.pure,
      Int.mul_comm]

private theorem Plain.ptrSub_means_iff {base index : Varnode} {elementSize : Nat}
    (plain : Plain context sp (.PtrSub dst base index elementSize)) :
    Decides reading context sp (.PtrSub dst base index elementSize) s := by
  refine .trans (ok_means_iff (evalEsil_commas (by simp) (evalTokens_ptrSub dst base index
    elementSize) (plain.operand (by simp) (plain.operand (by simp) (.cons (reads_decimal _)
    (operator (by decide) (operator (by decide) (plain.assigns (by simp)))))))) rfl) ?_
  rw [SoundOn]
  cases reading.swapped with
  | true =>
    rw [if_pos rfl, Int.modEq_comm, modEq_neg_iff]
    simp
  | false => simp [Int.ModEq.refl]

end Ordered

/-! ## Transfers -/

section Transfers

variable {reading : Reading} {context : EsilContext} {sp : Varnode} {s : Machine}

private theorem evalTokens_branch (target : Varnode) :
    evalTokens reading s [.operand target, .pc, .assign] = .ok (s.jump (s.read target)) := by
  simp [Except.bind, bind, Except.map, pure, Except.pure]

private theorem Plain.branch_means_iff (plain : Plain context sp (.Branch target)) :
    Decides reading context sp (.Branch target) s := by
  have evaluates : evalEsil reading context (sp :: operandsOf (.Branch target))
      (opToEsil context (.Branch target)) s = .ok (s.jump (s.read target)) :=
    evalEsil_commas (by simp) (evalTokens_branch target) (plain.operand (by simp)
      (operator (by decide) (operator (by decide) .nil)))
  rw [Decides, Means, evaluates, pcodeStep, orError, Except.ok.injEq, jump_eq_jump_iff]
  rfl

private theorem evalTokens_cbranch (target cond : Varnode) :
    evalTokens reading s [.operand cond, .ifNonzero, .operand target, .pc, .assign, .close] =
      .ok (if s.read cond = 0 then s else s.jump (s.read target)) := by
  by_cases zero : s.read cond = 0 <;> simp [zero, Except.bind, bind, Except.map, pure, Except.pure]

theorem Plain.cbranch_means_iff {cond : Varnode} (plain : Plain context sp (.CBranch target cond)) :
    Decides reading context sp (.CBranch target cond) s := by
  have evaluates : evalEsil reading context (sp :: operandsOf (.CBranch target cond))
      (opToEsil context (.CBranch target cond)) s =
        .ok (if s.read cond = 0 then s else s.jump (s.read target)) :=
    evalEsil_commas (by simp) (evalTokens_cbranch target cond) (plain.operand (by simp)
      (operator (by decide) (plain.operand (by simp) (operator (by decide) (operator (by decide)
      (operator (by decide) .nil))))))
  rw [Decides, Means, evaluates, pcodeStep, SoundOn]
  by_cases zero : s.read cond = 0
  · simp [zero, orError]
  · simp [zero, orError, jump_eq_jump_iff, NamesTarget]

private theorem evalTokens_return (size : Nat) :
    evalTokens reading s [.operand sp, .load size, .pc, .assign, .number size, .operand sp,
        .compound .IntAdd] =
      .ok ((s.jump (s.load .Ram (s.read sp) size)).write sp (s.read sp + size)) := by
  obtain ⟨swapped, flagsReplace⟩ := reading
  cases swapped with
  | false =>
    simp [BinaryOp.result, read_jump, Int.add_comm, Except.bind, bind, Except.map, pure,
      Except.pure]
  | true =>
    simp [BinaryOp.result, read_jump, Except.bind, bind, Except.map, pure, Except.pure]

private theorem evalTokens_call (size : Nat) (target : Varnode) :
    evalTokens reading s [.pc, .number size, .operand sp, .compound .IntSub, .operand sp,
        .store size, .operand target, .pc, .assign] =
      let moved := s.write sp (if reading.swapped then s.read sp - size else size - s.read sp)
      let pushed := moved.store .Ram (moved.read sp) size s.pc
      .ok (pushed.jump (pushed.read target)) := by
  obtain ⟨swapped, flagsReplace⟩ := reading
  have keeps : ∀ i, (s.write sp i).pc = s.pc := fun _ => rfl
  cases swapped <;>
    simp [BinaryOp.result, keeps, Except.bind, bind, Except.map, pure, Except.pure, store_residue]

private theorem ptrSize_cases (archName : String) : ptrSizeForArch archName = 8 ∨
    ptrSizeForArch archName = 2 ∨ ptrSizeForArch archName = 4 := by
  unfold ptrSizeForArch
  dsimp only
  split
  · exact .inl rfl
  · split
    · exact .inr (.inl rfl)
    · exact .inr (.inr rfl)

theorem ptrSize_not_modEq (archName : String) (positive : 1 ≤ size) :
    ¬ (ptrSizeForArch archName : Int) ≡ 0 [ZMOD 256 ^ size] := by
  intro same
  have byte : (256 : Int) ∣ 256 ^ size := Dvd.intro_left _ (pow_sub_one_mul (by omega) 256)
  have inByte := Int.ModEq.of_dvd byte same
  unfold Int.ModEq at inByte
  have sizes := ptrSize_cases archName
  omega

private theorem Plain.return_means_iff (plain : Plain context sp (.Return target)) :
    Decides reading context sp (.Return target) s := by
  have evaluates : evalEsil reading context (sp :: operandsOf (.Return target))
      (opToEsil context (.Return target)) s =
        .ok ((s.jump (s.load .Ram (s.read sp) (ptrSizeForArch context.archName))).write sp
          (s.read sp + ptrSizeForArch context.archName)) :=
    evalEsil_commas (by simp) (evalTokens_return _) (.cons plain.reads_stack
      (.cons (reads_sizeSuffix _) (operator (by decide) (operator (by decide)
      (.cons (reads_decimal _) (.cons plain.reads_stack (operator (by decide) .nil)))))))
  refine iff_of_false ?_ id
  rw [Means, evaluates, pcodeStep, orError, Except.ok.injEq]
  intro same
  have stays : s.write sp (s.read sp + ptrSizeForArch context.archName) = s := by
    rw [Machine.ext_iff']
    exact ⟨(Machine.ext_iff'.mp same).1, rfl⟩
  have notConst : sp.space ≠ .Const := by
    rw [plain.spRegister]
    decide
  rw [write_eq_self_iff notConst] at stays
  refine ptrSize_not_modEq context.archName plain.spSize ?_
  exact Int.ModEq.add_left_cancel' (s.read sp) (by simpa using stays)

/-- A stack pointer that is subtracted from the size of a pointer. -/
theorem moves_iff (reading : Reading) (context : EsilContext) (s : Machine)
    (register : sp.space = .Register) (positive : 1 ≤ sp.size) :
    s.write sp (if reading.swapped then (s.read sp : Int) - ptrSizeForArch context.archName
        else ptrSizeForArch context.archName - s.read sp) = s ↔
      reading.swapped = false ∧
        2 * (s.read sp : Int) ≡ ptrSizeForArch context.archName [ZMOD 256 ^ sp.size] := by
  have notConst : sp.space ≠ .Const := by
    rw [register]
    decide
  rw [write_eq_self_iff notConst]
  cases reading.swapped with
  | true =>
    simp only [if_true, Bool.true_eq_false, false_and, iff_false]
    intro same
    refine ptrSize_not_modEq context.archName positive ?_
    have moved := Int.ModEq.sub_left (s.read sp : Int) same
    simpa using moved
  | false =>
    simp only [Bool.false_eq_true, if_false, true_and]
    constructor
    · intro same
      have moved := (Int.ModEq.add_right (s.read sp : Int) same).symm
      rw [Int.sub_add_cancel, ← Int.two_mul] at moved
      exact moved
    · intro same
      have moved := (Int.ModEq.sub_right (s.read sp : Int) same).symm
      rw [Int.two_mul, Int.add_sub_cancel] at moved
      exact moved

private theorem Plain.call_means_iff (plain : Plain context sp (.Call target)) :
    Decides reading context sp (.Call target) s := by
  have evaluates : evalEsil reading context (sp :: operandsOf (.Call target))
      (opToEsil context (.Call target)) s = _ :=
    evalEsil_commas (by simp) (evalTokens_call _ target) (operator (by decide)
      (.cons (reads_decimal _) (.cons plain.reads_stack (operator (by decide)
      (.cons plain.reads_stack (.cons (reads_storeSuffix _) (plain.operand (by simp)
      (operator (by decide) (operator (by decide) .nil)))))))))
  have moves := moves_iff reading context s plain.spRegister plain.spSize
  rw [Decides, Means, evaluates, pcodeStep, orError, Except.ok.injEq, SoundOn, PushesNothing,
    ← and_assoc, ← moves]
  constructor
  · intro same
    have stays := write_eq_self_of_store plain.spRegister (Machine.ext_iff'.mp same).1
    rw [stays] at same
    have stored : s.store .Ram (s.read sp) (ptrSizeForArch context.archName) s.pc = s := by
      rw [Machine.ext_iff']
      exact ⟨(Machine.ext_iff'.mp same).1, rfl⟩
    rw [stored, jump_eq_jump_iff] at same
    exact ⟨⟨stays, (Machine.store_eq_self_iff.mp stored).symm⟩, same⟩
  · rintro ⟨⟨stays, pushed⟩, named⟩
    have stored := Machine.store_eq_self_iff.mpr pushed.symm
    rw [stays, stored, jump_eq_jump_iff]
    exact named

theorem mapM_eq_none {α β : Type} {f : α → Option β} {a : α} (fails : f a = none) :
    ∀ {l : List α}, a ∈ l → l.mapM f = none
  | b :: rest, mem => by
    rw [mapM_cons]
    rcases mem_cons.mp mem with rfl | later
    · rw [fails]
      rfl
    · rw [mapM_eq_none fails later]
      cases f b <;> rfl

private theorem evalEsil_badToken {known : List Varnode}
    (plain : ∀ text ∈ texts, ',' ∉ text.toList) (mem : text ∈ texts)
    (fails : readToken context known text = none) :
    evalEsil reading context known (commas texts) s = .error .badToken := by
  rw [evalEsil, splitCommas_commas (ne_nil_of_mem mem) plain,
    mapM_eq_none (a := text.toList) (by rw [String.ofList_toList, fails]) (mem_map_of_mem mem)]

private theorem Plain.cas_means_iff {expected replacement : Varnode}
    (plain : Plain context sp (.AtomicCAS dst space addr expected replacement ordering)) :
    Decides reading context sp (.AtomicCAS dst space addr expected replacement ordering) s := by
  have noComma := fun v => plain.noComma v
  have fails : readToken context
      (sp :: operandsOf (.AtomicCAS dst space addr expected replacement ordering))
      (context.vn addr ++ storeSuffix dst.size) = none := by
    have notOperand : ∀ v ∈ sp :: operandsOf (.AtomicCAS dst space addr expected replacement ordering),
        context.vn v ≠ context.vn addr ++ storeSuffix dst.size := by
      intro v mem same
      refine plain.noEquals v mem ?_
      rw [same, String.toList_append, toList_storeSuffix]
      simp
    rw [readToken, reserved_fused (plain.nonempty addr (by simp))
      (plain.noEquals addr (by simp)), Option.none_or,
      List.find?_eq_none.mpr fun v mem => by simpa using notOperand v mem]
    rfl
  have evaluates : evalEsil reading context
      (sp :: operandsOf (.AtomicCAS dst space addr expected replacement ordering))
      (opToEsil context (.AtomicCAS dst space addr expected replacement ordering)) s =
        .error .badToken := by
    refine evalEsil_badToken ?_ ?_ fails
    simp only [operandsOf, mem_cons, not_mem_nil, or_false, forall_eq_or_imp, forall_eq] at noComma
    · obtain ⟨-, plainDst, plainAddr, plainExpected, plainReplacement⟩ := noComma
      simp [toList_sizeSuffix, toList_storeSuffix, comma_notMem_toDigits, plainDst, plainAddr,
        plainExpected, plainReplacement]
    · simp
  refine iff_of_false ?_ id
  rw [Means, evaluates, pcodeStep, orError]
  intro same
  cases same

end Transfers

/-! ## All operations -/

/-- The string of an operation does what the operation does exactly if the
operation is sound under the reading. -/
theorem means_iff_soundOn (reading : Reading) (context : EsilContext) (sp : Varnode) (op : R2ILOp)
    (covered : IsCovered op) (plain : Plain context sp op) (s : Machine) :
    Means reading context sp op s ↔ SoundOn reading context sp op s := by
  cases op <;> try cases covered
  case Copy => exact plain.copy_means_iff
  case Load => exact plain.load_means_iff
  case LoadLinked => exact plain.loadLinked_means_iff
  case Store => exact plain.store_means_iff
  case StoreConditional => exact plain.storeConditional_means_iff
  case AtomicCAS => exact plain.cas_means_iff
  case LoadGuarded => exact plain.loadGuarded_means_iff
  case StoreGuarded => exact plain.storeGuarded_means_iff
  case binary => exact plain.binary_means_iff covered
  case unary => exact plain.unary_means_iff covered
  case Piece => exact plain.piece_means_iff
  case PtrAdd => exact plain.ptrAdd_means_iff
  case PtrSub => exact plain.ptrSub_means_iff
  case Branch => exact plain.branch_means_iff
  case CBranch => exact plain.cbranch_means_iff
  case Call => exact plain.call_means_iff
  case Return => exact plain.return_means_iff

section Example

/-- Registers of 8 bytes by their offsets. -/
def exampleContext : EsilContext where
  vn v := if v.offset = 0 then "rax" else if v.offset = 8 then "rcx" else "rsp"
  archName := "x86-64"

def rax : Varnode := ⟨.Register, 0, 8⟩
def rcx : Varnode := ⟨.Register, 8, 8⟩
def rsp : Varnode := ⟨.Register, 32, 8⟩

/-- `rax` is 1, and everything else is 0. -/
def exampleMachine : Machine where
  storage _ addr := if addr = 0 then 1 else 0
  pc := 0

theorem plain_sub : Plain exampleContext rsp (.binary .IntSub rax rax rcx) where
  injective := by decide +kernel
  noComma := by decide +kernel
  noEquals := by decide +kernel
  nonempty := by decide +kernel
  unreserved := by decide +kernel
  spName := by decide +kernel
  spRegister := rfl
  spSize := by decide

theorem plain_negate : Plain exampleContext rsp (.unary .IntNegate rax rax) where
  injective := by decide +kernel
  noComma := by decide +kernel
  noEquals := by decide +kernel
  nonempty := by decide +kernel
  unreserved := by decide +kernel
  spName := by decide +kernel
  spRegister := rfl
  spSize := by decide

theorem difference_means : Means ⟨false, true⟩ exampleContext rsp (.binary .IntSub rax rax rcx)
    exampleMachine := by
  refine (means_iff_soundOn _ _ _ _ rfl plain_sub _).mpr ⟨?_, ?_⟩
  · exact fun flag => absurd flag (by decide)
  · exact fun swapped => absurd swapped (by decide)

/-- No reading suits both a difference and a negation. -/
theorem no_reading_means : ¬ ∃ reading : Reading, ∀ (context : EsilContext) (sp : Varnode)
    (op : R2ILOp), IsCovered op → Plain context sp op → ∀ s, Means reading context sp op s := by
  rintro ⟨⟨swapped, flagsReplace⟩, means⟩
  have difference := (plain_sub.binary_means_iff rfl).mp (means _ _ _ rfl plain_sub exampleMachine)
  have negation := (plain_negate.unary_means_iff rfl).mp (means _ _ _ rfl plain_negate exampleMachine)
  cases swapped with
  | true =>
    have same : (-1 : Int) ≡ 1 [ZMOD 256 ^ 8] := by
      have both := difference.2 rfl
      exact both
    exact absurd same (by decide)
  | false =>
    rcases negation with swapped | same
    · cases swapped
    · exact absurd same (by decide +kernel)

end Example

end R2Sleigh.Lift
