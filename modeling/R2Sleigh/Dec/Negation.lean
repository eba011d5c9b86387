import Mathlib.Algebra.Ring.Int.Defs
import R2Sleigh.Dec.CExpr

/-!
Contract: the negation of conditions, and the value of an integer expression.

Owns `negateCondition` and `negateConditionExpr`.

Does not own: what arithmetic computes, and what variables and memory hold.

Derived equality of expressions is Lean's: the two differ on floating values
alone, and an integer expression has none.
-/

namespace R2Sleigh.Dec

variable {F : Type}

/-! ## The two negations -/

/-- The relation that holds where `op` does not. -/
def BinaryOp.negated : BinaryOp → Option BinaryOp
  | .eq => some .ne
  | .ne => some .eq
  | .lt => some .ge
  | .le => some .gt
  | .gt => some .le
  | .ge => some .lt
  | _ => none

/-- The arm of both negations for a binary operator. -/
def negateBinary (op : BinaryOp) (left right : CExpr F) : CExpr F :=
  match op.negated with
  | some op => .binary op left right
  | none => .unary .not (.binary op left right)

/-- `negate_condition_expr` of flags.rs. -/
def negateConditionExpr : CExpr F → CExpr F
  | .unary .not operand => operand
  | .binary op left right => negateBinary op left right
  | other => .unary .not other

def relationSignature : CExpr F → Option (CExpr F × CExpr F × BinaryOp)
  | .paren inner => relationSignature inner
  | .cast _ inner => relationSignature inner
  | .binary op left right =>
    match op with
    | .eq | .lt | .le | .gt | .ge => some (left, right, op)
    | _ => none
  | _ => none

def negatedDisjunction : BinaryOp → BinaryOp → Option BinaryOp
  | .eq, .lt | .lt, .eq => some .gt
  | .eq, .le | .le, .eq => some .gt
  | .eq, .gt | .gt, .eq => some .lt
  | .eq, .ge | .ge, .eq => some .lt
  | _, _ => none

section Structure

variable [DecidableEq (CExpr F)]

def negateDisjunctiveRelationPair (left right : CExpr F) : Option (CExpr F) := do
  let (lhsA, rhsA, opA) ← relationSignature left
  let (lhsB, rhsB, opB) ← relationSignature right
  if lhsA ≠ lhsB ∨ rhsA ≠ rhsB then none
  else
    let negatedOp ← negatedDisjunction opA opB
    return .binary negatedOp lhsA rhsA

/-- `negate_condition` of structure.rs. -/
def negateCondition : CExpr F → CExpr F
  | .unary .not operand => operand
  | .binary .or left right =>
    match negateDisjunctiveRelationPair left right with
    | some rewritten => rewritten
    | none => .unary .not (.binary .or left right)
  | .binary op left right => negateBinary op left right
  | other => .unary .not other

end Structure

/-! ## Integer values -/

/-- The integer types of C, of any positive width. -/
inductive IntType where
  | bool
  | int (bits : Nat) (positive : 0 < bits)
  | uint (bits : Nat) (positive : 0 < bits)

namespace IntType

def convert : IntType → Int → Int
  | .bool, value => if value = 0 then 0 else 1
  | .int bits _, value => value.bmod (2 ^ bits)
  | .uint bits _, value => value % 2 ^ bits

/-- The type `int`. -/
def plain : IntType := .int 32 (by decide)

def promote : IntType → IntType
  | .bool => plain
  | .int bits positive => if bits < 32 then plain else .int bits positive
  | .uint bits positive => if bits < 32 then plain else .uint bits positive

/-- The usual arithmetic conversions. -/
def common (first second : IntType) : IntType :=
  match first.promote, second.promote with
  | .int m positive, .int n positive' => if m ≤ n then .int n positive' else .int m positive
  | .uint m positive, .uint n positive' => if m ≤ n then .uint n positive' else .uint m positive
  | .int m positive, .uint n positive' => if m ≤ n then .uint n positive' else .int m positive
  | .uint m positive, .int n positive' => if n ≤ m then .uint m positive else .int n positive'
  | _, _ => plain

private theorem convert_zero (ty : IntType) : ty.convert 0 = 0 := by cases ty <;> simp [convert]

private theorem convert_odd (ty : IntType) {value : Int} (odd : value % 2 = 1) :
    ty.convert value % 2 = 1 := by
  have even {bits : Nat} (positive : 0 < bits) : (2 : Int) ∣ 2 ^ bits := by
    obtain ⟨less, rfl⟩ := Nat.exists_eq_succ_of_ne_zero (Nat.ne_of_gt positive)
    exact ⟨2 ^ less, Int.pow_succ' 2 less⟩
  cases ty with
  | bool =>
    have nonzero : value ≠ 0 := by omega
    simp [convert, nonzero]
  | int bits positive =>
    have divides : (2 : Int) ∣ ((2 ^ bits : Nat) : Int) := by exact_mod_cast even positive
    rw [convert, ← Int.emod_emod_of_dvd _ divides, Int.bmod_emod, Int.emod_emod_of_dvd _ divides,
      odd]
  | uint bits positive => rw [convert, Int.emod_emod_of_dvd _ (even positive), odd]

end IntType

structure Value where
  ty : IntType
  value : Int

namespace Value

/-- The value of a relation or a logical operator. -/
def ofBool (truth : Bool) : Value := ⟨.plain, if truth then 1 else 0⟩

def isTrue (v : Value) : Bool := v.value ≠ 0

def cast (ty : IntType) (v : Value) : Value := ⟨ty, ty.convert v.value⟩

@[simp] theorem isTrue_ofBool (truth : Bool) : (ofBool truth).isTrue = truth := by
  cases truth <;> rfl

/-- A value that conversions of a truth value lead to: they keep zero and odd numbers. -/
def Represents (v : Value) (truth : Bool) : Prop := if truth then v.value % 2 = 1 else v.value = 0

theorem represents_ofBool (truth : Bool) : (ofBool truth).Represents truth := by
  cases truth <;> rfl

theorem Represents.cast {v : Value} {truth : Bool} (represents : v.Represents truth)
    (ty : IntType) : (v.cast ty).Represents truth := by
  cases truth with
  | true => exact ty.convert_odd represents
  | false => exact (congrArg ty.convert represents).trans ty.convert_zero

theorem Represents.isTrue {v : Value} {truth : Bool} (represents : v.Represents truth) :
    v.isTrue = truth := by
  cases truth <;> simp [Represents] at represents <;> simp [Value.isTrue] <;> omega

end Value

/-- What a relation says about two values; `none` for the other operators. -/
def BinaryOp.relates (op : BinaryOp) (a b : Value) : Option Bool :=
  let ty := a.ty.common b.ty
  let x := ty.convert a.value
  let y := ty.convert b.value
  match op with
  | .eq => some (x = y)
  | .ne => some (x ≠ y)
  | .lt => some (x < y)
  | .le => some (x ≤ y)
  | .gt => some (x > y)
  | .ge => some (x ≥ y)
  | _ => none

theorem BinaryOp.relates_negated {op negated : BinaryOp} (isNegated : op.negated = some negated)
    (a b : Value) : ∃ truth, op.relates a b = some truth ∧ negated.relates a b = some !truth := by
  cases op <;> cases isNegated <;> refine ⟨_, rfl, congrArg some ?_⟩ <;> grind

/-- Of two values exactly one of `<`, `==` and `>` holds. -/
theorem BinaryOp.relates_disjunction {opA opB negated : BinaryOp}
    (isNegated : negatedDisjunction opA opB = some negated) (a b : Value) :
    ∃ first second, opA.relates a b = some first ∧ opB.relates a b = some second ∧
      negated.relates a b = some !(first || second) := by
  unfold negatedDisjunction at isNegated
  split at isNegated <;> cases isNegated <;> refine ⟨_, _, rfl, rfl, congrArg some ?_⟩ <;> grind

/-! ## The value of an expression -/

/-- What the value of an expression depends on, besides the operators of conditions. -/
structure Environment (F : Type) where
  /-- Types that have a name. -/
  named : CType → Option IntType
  unary : UnaryOp → Value → Option Value
  arithmetic : BinaryOp → Value → Value → Option Value
  /-- Literals, variables, memory and every other expression. -/
  atom : CExpr F → Option Value

def CType.intType (env : Environment F) : CType → Option IntType
  | .bool => some .bool
  | .int bits => if positive : 0 < bits then some (.int bits positive) else none
  | .uint bits => if positive : 0 < bits then some (.uint bits positive) else none
  | .pointer _ => some (.uint 64 (by decide))
  | .enum name => env.named (.enum name)
  | .typedef name => env.named (.typedef name)
  | _ => none

namespace CExpr

/-- The value of an expression; `none` where it has a side effect, no integer type or no
value. -/
def eval (env : Environment F) : CExpr F → Option Value
  | .paren inner => inner.eval env
  | .cast ty inner => do return (← inner.eval env).cast (← ty.intType env)
  | .unary op operand =>
    match op with
    | .not => do return .ofBool !(← operand.eval env).isTrue
    | .neg | .bitNot => do env.unary op (← operand.eval env)
    | _ => none
  | .binary op left right =>
    match op with
    | .and => do
        if (← left.eval env).isTrue then return .ofBool (← right.eval env).isTrue
        else return .ofBool false
    | .or => do
        if (← left.eval env).isTrue then return .ofBool true
        else return .ofBool (← right.eval env).isTrue
    | .eq | .ne | .lt | .le | .gt | .ge => do
        return .ofBool (← op.relates (← left.eval env) (← right.eval env))
    | .add | .sub | .mul | .div | .mod | .bitAnd | .bitOr | .bitXor | .shl | .shr => do
        env.arithmetic op (← left.eval env) (← right.eval env)
    | _ => none
  | other => env.atom other

/-- Whether an expression is non-zero. -/
def truth (env : Environment F) (expr : CExpr F) : Option Bool := (expr.eval env).map Value.isTrue

def IsInteger (env : Environment F) : CExpr F → Prop
  | .paren inner => inner.IsInteger env
  | .cast ty inner => (ty.intType env).isSome ∧ inner.IsInteger env
  | .unary _ operand => operand.IsInteger env
  | .binary _ left right => left.IsInteger env ∧ right.IsInteger env
  | _ => True

theorem truth_not (env : Environment F) (operand : CExpr F) :
    (unary .not operand).truth env = (operand.truth env).map not := by
  simp only [truth, eval]
  cases operand.eval env <;> simp

private theorem truth_or (env : Environment F) (left right : CExpr F) :
    (binary .or left right).truth env =
      (left.truth env).bind fun first => if first then some true else right.truth env := by
  simp only [truth, eval]
  cases left.eval env with
  | none => rfl
  | some first =>
    cases isTrue : first.isTrue <;> cases right.eval env <;> simp [isTrue]

section

variable {op : BinaryOp} {left right : CExpr F} (env : Environment F)
  (isRelation : ∃ a b truth, op.relates a b = some truth)
include env isRelation

/-- A relation says of its operands' values what it says. -/
theorem eval_relation : (binary op left right).eval env =
      (do op.relates (← left.eval env) (← right.eval env)).map Value.ofBool := by
  have evaluated : (binary op left right).eval env = do
      return .ofBool (← op.relates (← left.eval env) (← right.eval env)) := by
    obtain ⟨_, _, _, relates⟩ := isRelation
    cases op <;> (first | rfl | cases relates)
  rw [evaluated]
  cases left.eval env <;> cases right.eval env <;> simp
  cases op.relates _ _ <;> rfl

theorem truth_relation :
    (binary op left right).truth env =
      (do op.relates (← left.eval env) (← right.eval env)) := by
  rw [truth, eval_relation env isRelation, Option.map_map]
  exact (Option.map_congr fun truth _ => Value.isTrue_ofBool truth).trans (Option.map_id' ..)

end

end CExpr

open CExpr Option

theorem truth_of_not (env : Environment F) (operand : CExpr F) :
    operand.truth env = ((unary .not operand).truth env).map not := by
  rw [truth_not, Option.map_map]
  cases operand.truth env with
  | none => rfl
  | some truth => exact congrArg some (Bool.not_not truth).symm

theorem truth_negateBinary (env : Environment F) (op : BinaryOp) (left right : CExpr F) :
    (negateBinary op left right).truth env = ((binary op left right).truth env).map not := by
  unfold negateBinary
  cases isNegated : op.negated with
  | none => exact truth_not env _
  | some negated =>
    have relates := BinaryOp.relates_negated isNegated
    obtain ⟨truth, holds, fails⟩ := relates ⟨.plain, 0⟩ ⟨.plain, 0⟩
    rw [truth_relation env ⟨_, _, _, holds⟩, truth_relation env ⟨_, _, _, fails⟩]
    cases left.eval env with
    | none => rfl
    | some a =>
      cases right.eval env with
      | none => rfl
      | some b =>
        obtain ⟨truth, holds, fails⟩ := relates a b
        exact fails.trans (congrArg (Option.map not) holds).symm

private theorem truth_negateConditionExpr (env : Environment F) (expr : CExpr F) :
    (negateConditionExpr expr).truth env = (expr.truth env).map not := by
  fun_cases negateConditionExpr expr with
  | case1 operand => exact truth_of_not env operand
  | case2 op left right => exact truth_negateBinary env op left right
  | case3 => exact truth_not env _

/-- Casts and parentheses keep the truth value of the relation in them. -/
theorem eval_relationSignature (env : Environment F) {left right : CExpr F} {op : BinaryOp} :
    ∀ (expr : CExpr F), expr.IsInteger env → relationSignature expr = some (left, right, op) →
      ∃ wrap : Bool → Value, (∀ truth, (wrap truth).Represents truth) ∧ expr.eval env =
        (do op.relates (← left.eval env) (← right.eval env)).map wrap
  | .paren inner, integer, signature => eval_relationSignature env inner integer signature
  | .cast ty inner, ⟨isType, integer⟩, signature => by
    obtain ⟨wrap, represents, evaluated⟩ := eval_relationSignature env inner integer signature
    obtain ⟨type, isType⟩ := isSome_iff_exists.mp isType
    refine ⟨fun truth => (wrap truth).cast type, fun truth => (represents truth).cast type, ?_⟩
    rw [eval, evaluated, isType]
    cases (do op.relates (← left.eval env) (← right.eval env)) <;> rfl
  | .binary op' l r, _, signature => by
    refine ⟨Value.ofBool, Value.represents_ofBool, ?_⟩
    have isRelation : op' = op ∧ l = left ∧ r = right ∧
        ∃ a b truth, op'.relates a b = some truth := by
      cases op' <;> cases signature <;> exact ⟨rfl, rfl, rfl, ⟨.plain, 0⟩, ⟨.plain, 0⟩, _, rfl⟩
    obtain ⟨rfl, rfl, rfl, isRelation⟩ := isRelation
    exact eval_relation env isRelation

section Structure

variable [DecidableEq (CExpr F)]

/-- Two relations merged have the same operands, in whatever casts and parentheses. -/
theorem negateDisjunctiveRelationPair_eq_some {left right merged : CExpr F}
    (rewritten : negateDisjunctiveRelationPair left right = some merged) :
    ∃ lhs rhs opA opB negatedOp, relationSignature left = some (lhs, rhs, opA) ∧
      relationSignature right = some (lhs, rhs, opB) ∧
      negatedDisjunction opA opB = some negatedOp ∧ merged = .binary negatedOp lhs rhs := by
  obtain ⟨⟨lhs, rhs, opA⟩, first, rewritten⟩ := bind_eq_some_iff.mp rewritten
  obtain ⟨⟨lhs', rhs', opB⟩, second, rewritten⟩ := bind_eq_some_iff.mp rewritten
  dsimp only at rewritten
  by_cases differ : lhs ≠ lhs' ∨ rhs ≠ rhs'
  · rw [if_pos differ] at rewritten
    cases rewritten
  · rw [if_neg differ] at rewritten
    obtain ⟨negatedOp, isNegated, isMerged⟩ := bind_eq_some_iff.mp rewritten
    obtain ⟨rfl, rfl⟩ := (not_or.mp differ).imp not_not.mp not_not.mp
    exact ⟨lhs, rhs, opA, opB, negatedOp, first, second, isNegated, (some.inj isMerged).symm⟩

theorem truth_negateDisjunctiveRelationPair (env : Environment F) {left right merged : CExpr F}
    (integer : (binary .or left right).IsInteger env)
    (rewritten : negateDisjunctiveRelationPair left right = some merged) :
    merged.truth env = ((binary .or left right).truth env).map not := by
  obtain ⟨lhs, rhs, opA, opB, negatedOp, first, second, isNegated, rfl⟩ :=
    negateDisjunctiveRelationPair_eq_some rewritten
  obtain ⟨wrapA, representsA, evalA⟩ := eval_relationSignature env left integer.1 first
  obtain ⟨wrapB, representsB, evalB⟩ := eval_relationSignature env right integer.2 second
  have relates := BinaryOp.relates_disjunction isNegated
  obtain ⟨_, _, -, -, isRelation⟩ := relates ⟨.plain, 0⟩ ⟨.plain, 0⟩
  rw [truth_or, truth_relation env ⟨_, _, _, isRelation⟩, truth, truth, evalA, evalB]
  cases lhs.eval env with
  | none => rfl
  | some a =>
    cases rhs.eval env with
    | none => rfl
    | some b =>
      obtain ⟨holdsA, holdsB, isA, isB, fails⟩ := relates a b
      simp only [bind_eq_bind, bind_some, isA, isB, fails, map_some,
        (representsA holdsA).isTrue, (representsB holdsB).isTrue]
      cases holdsA <;> rfl

/-- The negation of a condition has the opposite truth value. -/
theorem truth_negateCondition (env : Environment F) {expr : CExpr F}
    (integer : expr.IsInteger env) :
    (negateCondition expr).truth env = (expr.truth env).map not := by
  fun_cases negateCondition expr with
  | case1 operand => exact truth_of_not env operand
  | case2 left right merged rewritten =>
    exact truth_negateDisjunctiveRelationPair env integer rewritten
  | case3 left right kept => exact truth_not env _
  | case4 op left right notOr => exact truth_negateBinary env op left right
  | case5 => exact truth_not env _

/-- Both negations of an integer condition are non-zero exactly where it is zero, and a
disjunction becomes one relation only when its two relations have the same operands. -/
theorem negations_opposite (env : Environment F) {expr : CExpr F} (integer : expr.IsInteger env) :
    (negateCondition expr).truth env = (expr.truth env).map not ∧
      (negateConditionExpr expr).truth env = (expr.truth env).map not ∧
      ∀ left right, expr = .binary .or left right → negateCondition expr = .unary .not expr ∨
        ∃ lhs rhs opA opB negatedOp, relationSignature left = some (lhs, rhs, opA) ∧
          relationSignature right = some (lhs, rhs, opB) ∧
          negateCondition expr = .binary negatedOp lhs rhs := by
  refine ⟨truth_negateCondition env integer, truth_negateConditionExpr env expr, ?_⟩
  rintro left right rfl
  rw [negateCondition]
  cases rewritten : negateDisjunctiveRelationPair left right with
  | none => exact .inl rfl
  | some merged =>
    obtain ⟨lhs, rhs, opA, opB, negatedOp, first, second, -, rfl⟩ :=
      negateDisjunctiveRelationPair_eq_some rewritten
    exact .inr ⟨lhs, rhs, opA, opB, negatedOp, first, second, rfl⟩

end Structure

/-- Variables that hold one value. -/
def constantEnvironment (value : Int) : Environment Empty where
  named _ := none
  unary _ _ := none
  arithmetic _ _ _ := none
  atom _ := some ⟨.plain, value⟩

open Classical in
/-- With `a = b = 5`, `a == b || (char)(a < b)` and its negation `a > b`. -/
theorem negations_opposite_merged :
    let env := constantEnvironment 5
    let relation (op : BinaryOp) : CExpr Empty := .binary op (.var "a") (.var "b")
    let expr : CExpr Empty := .binary .or (relation .eq) (.cast (.int 8) (relation .lt))
    expr.truth env = some true ∧ (negateCondition expr).truth env = some false ∧
      (negateConditionExpr expr).truth env = some false := by
  intro env relation expr
  have integer : expr.IsInteger env := ⟨⟨trivial, trivial⟩, rfl, trivial, trivial⟩
  obtain ⟨merged, kept, -⟩ := negations_opposite env integer
  have holds : expr.truth env = some true := by rfl
  exact ⟨holds, merged.trans (congrArg (Option.map not) holds),
    kept.trans (congrArg (Option.map not) holds)⟩

end R2Sleigh.Dec
