import R2Sleigh.Ssa.ConstEval

/-!
Contract: the bitvector terms of the solver library, as the symbolic engine
uses them.

Owns `Z3`, `Z3Arith` and `Term`.

The library is a parameter. A law asks for well-sorted arguments where the
library does.
-/

namespace R2Sleigh.Sym

open Ssa (Word)

/-- Bitvector terms, formulas and models. -/
class Z3 (BV : Type) (Formula Model : outParam Type) where
  size : BV → Nat
  value : Model → BV → Nat
  holds : Model → Formula → Prop
  fromU64 : Word → Nat → BV
  newConst : String → Nat → BV
  /-- The constants made fresh, told apart by a number. -/
  freshConst : Nat → String → Nat → BV
  zeroExt : BV → Nat → BV
  extract : BV → Nat → Nat → BV
  ite : Formula → BV → BV → BV
  eq : BV → BV → Formula
  not : Formula → Formula
  and : Formula → Formula → Formula
  or : Formula → Formula → Formula
  value_lt : ∀ m t, value m t < 2 ^ size t
  size_fromU64 : ∀ v bits, size (fromU64 v bits) = bits
  value_fromU64 : ∀ m v bits, value m (fromU64 v bits) = v.toNat % 2 ^ bits
  size_newConst : ∀ name bits, size (newConst name bits) = bits
  size_freshConst : ∀ n name bits, size (freshConst n name bits) = bits
  size_zeroExt : ∀ t extra, size (zeroExt t extra) = size t + extra
  value_zeroExt : ∀ m t extra, value m (zeroExt t extra) = value m t
  size_extract : ∀ t high low, low ≤ high → high < size t →
    size (extract t high low) = high - low + 1
  value_extract : ∀ m t high low, low ≤ high → high < size t →
    value m (extract t high low) = value m t / 2 ^ low % 2 ^ (high - low + 1)
  size_ite : ∀ c a b, size a = size b → size (ite c a b) = size a
  value_ite_of_holds : ∀ m c a b, size a = size b → holds m c → value m (ite c a b) = value m a
  value_ite_of_not : ∀ m c a b, size a = size b → ¬ holds m c → value m (ite c a b) = value m b
  holds_eq : ∀ m a b, size a = size b → (holds m (eq a b) ↔ value m a = value m b)
  holds_not : ∀ m c, holds m (not c) ↔ ¬ holds m c
  holds_and : ∀ m c d, holds m (and c d) ↔ holds m c ∧ holds m d
  holds_or : ∀ m c d, holds m (or c d) ↔ holds m c ∨ holds m d
  /-- A model may give the constants any values. -/
  exists_model : ∀ assign : String → Nat → Nat, ∃ m, ∀ name bits,
    value m (newConst name bits) = assign name bits % 2 ^ bits

/-! ## Terms as functions of an assignment -/

inductive Symbol where
  | named (name : String)
  | fresh (number : Nat) (name : String)
deriving DecidableEq, Repr

abbrev Assignment := Symbol → Nat → Nat

/-- The named constants have one value for each width, the fresh ones one for all. -/
def assignmentOf (named : String → Nat → Nat) (fresh : Nat → String → Nat) : Assignment
  | .named name, bits => named name bits
  | .fresh number name, _ => fresh number name

structure Term where
  bits : Nat
  eval : Assignment → Nat
  bounded : ∀ m, eval m < 2 ^ bits

namespace Term

def ofFunction (bits : Nat) (f : Assignment → Nat) : Term :=
  ⟨bits, fun m => f m % 2 ^ bits, fun _ => Nat.mod_lt _ (Nat.two_pow_pos bits)⟩

theorem eval_lt_of_le (t : Term) {bits : Nat} (le : t.bits ≤ bits) (m : Assignment) :
    t.eval m < 2 ^ bits :=
  lt_of_lt_of_le (t.bounded m) (Nat.pow_le_pow_right (by decide) le)

def zeroExt (t : Term) (extra : Nat) : Term :=
  ⟨t.bits + extra, t.eval, t.eval_lt_of_le (Nat.le_add_right _ _)⟩

/-- One of two terms; the wider width where the two differ. -/
def ite (c : Assignment → Bool) (a b : Term) : Term :=
  ⟨max a.bits b.bits, fun m => if c m then a.eval m else b.eval m, fun m => by
    split
    · exact a.eval_lt_of_le (le_max_left _ _) m
    · exact b.eval_lt_of_le (le_max_right _ _) m⟩

end Term

instance : Z3 Term (Assignment → Bool) Assignment where
  size := Term.bits
  value m t := t.eval m
  holds m c := c m = true
  fromU64 v bits := .ofFunction bits fun _ => v.toNat
  newConst name bits := .ofFunction bits fun m => m (.named name) bits
  freshConst n name bits := .ofFunction bits fun m => m (.fresh n name) bits
  zeroExt := Term.zeroExt
  extract t high low := .ofFunction (high - low + 1) fun m => t.eval m / 2 ^ low
  ite := Term.ite
  eq a b m := a.eval m == b.eval m
  not c m := !c m
  and c d m := c m && d m
  or c d m := c m || d m
  value_lt m t := t.bounded m
  size_fromU64 _ _ := rfl
  value_fromU64 _ _ _ := rfl
  size_newConst _ _ := rfl
  size_freshConst _ _ _ := rfl
  size_zeroExt _ _ := rfl
  value_zeroExt _ _ _ := rfl
  size_extract _ _ _ _ _ := rfl
  value_extract _ _ _ _ _ _ := rfl
  size_ite _ a b same := by
    change max a.bits b.bits = a.bits
    have same : a.bits = b.bits := same
    simp [same]
  value_ite_of_holds m c a b _ holds := if_pos holds
  value_ite_of_not m c a b _ fails := if_neg fails
  holds_eq m a b _ := by simp
  holds_not m c := by simp
  holds_and m c d := by simp
  holds_or m c d := by simp
  exists_model assign := ⟨assignmentOf assign fun _ _ => 0, fun _ _ => rfl⟩

/-! ## Arithmetic -/

/-- The operations on two terms of one width. -/
inductive BvOp where
  | bvadd | bvsub | bvmul | bvudiv | bvsdiv | bvurem | bvsrem
  | bvand | bvor | bvxor
  | bvshl | bvlshr | bvashr
deriving DecidableEq, Repr

def BvOp.apply {w : Nat} : BvOp → BitVec w → BitVec w → BitVec w
  | .bvadd, x, y => x + y
  | .bvsub, x, y => x - y
  | .bvmul, x, y => x * y
  | .bvudiv, x, y => x.smtUDiv y
  | .bvsdiv, x, y => x.smtSDiv y
  | .bvurem, x, y => x.umod y
  | .bvsrem, x, y => x.srem y
  | .bvand, x, y => x &&& y
  | .bvor, x, y => x ||| y
  | .bvxor, x, y => x ^^^ y
  | .bvshl, x, y => x <<< y
  | .bvlshr, x, y => x >>> y
  | .bvashr, x, y => x.sshiftRight' y

inductive BvUnary where
  | bvneg | bvnot
deriving DecidableEq, Repr

def BvUnary.apply {w : Nat} : BvUnary → BitVec w → BitVec w
  | .bvneg, x => -x
  | .bvnot, x => ~~~x

/-- The comparisons of two terms of one width. -/
inductive BvRel where
  | bvult | bvule | bvslt | bvsle
deriving DecidableEq, Repr

def BvRel.apply {w : Nat} : BvRel → BitVec w → BitVec w → Bool
  | .bvult, x, y => x.ult y
  | .bvule, x, y => x.ule y
  | .bvslt, x, y => x.slt y
  | .bvsle, x, y => x.sle y

/-- The value of a term as a bitvector of a width. -/
def Z3.word {BV Formula Model : Type} [Z3 BV Formula Model] (w : Nat) (m : Model) (t : BV) :
    BitVec w :=
  BitVec.ofNat w (Z3.value m t)

/-- Arithmetic on terms. -/
class Z3Arith (BV : Type) (Formula Model : outParam Type) extends Z3 BV Formula Model where
  binary : BvOp → BV → BV → BV
  unary : BvUnary → BV → BV
  compare : BvRel → BV → BV → Formula
  concat : BV → BV → BV
  signExt : BV → Nat → BV
  size_binary : ∀ op a b w, size a = w → size b = w → size (binary op a b) = w
  value_binary : ∀ m op a b w, size a = w → size b = w →
    value m (binary op a b) = (op.apply (Z3.word w m a) (Z3.word w m b)).toNat
  size_unary : ∀ op t, size (unary op t) = size t
  value_unary : ∀ m op t, value m (unary op t) = (op.apply (Z3.word (size t) m t)).toNat
  holds_compare : ∀ m rel a b w, size a = w → size b = w →
    (holds m (compare rel a b) ↔ rel.apply (Z3.word w m a) (Z3.word w m b) = true)
  size_concat : ∀ a b, size (concat a b) = size a + size b
  value_concat : ∀ m a b, value m (concat a b) = value m a * 2 ^ size b + value m b
  size_signExt : ∀ t extra, size (signExt t extra) = size t + extra
  value_signExt : ∀ m t extra, value m (signExt t extra) =
    ((Z3.word (size t) m t).signExtend (size t + extra)).toNat

namespace Term

/-- A term computed from two others, in the width of the first. -/
def binary (op : BvOp) (a b : Term) : Term :=
  ⟨a.bits, fun m => (op.apply (BitVec.ofNat a.bits (a.eval m)) (BitVec.ofNat a.bits (b.eval m))).toNat,
    fun _ => BitVec.isLt _⟩

def concat (a b : Term) : Term :=
  ⟨a.bits + b.bits, fun m => a.eval m * 2 ^ b.bits + b.eval m, fun m => by
    calc a.eval m * 2 ^ b.bits + b.eval m < a.eval m * 2 ^ b.bits + 2 ^ b.bits :=
          Nat.add_lt_add_left (b.bounded m) _
      _ = (a.eval m + 1) * 2 ^ b.bits := (Nat.succ_mul _ _).symm
      _ ≤ 2 ^ a.bits * 2 ^ b.bits := Nat.mul_le_mul_right _ (a.bounded m)
      _ = 2 ^ (a.bits + b.bits) := (Nat.pow_add _ _ _).symm⟩

end Term

instance : Z3Arith Term (Assignment → Bool) Assignment where
  binary := Term.binary
  unary op t := ⟨t.bits, fun m => (op.apply (BitVec.ofNat t.bits (t.eval m))).toNat,
    fun _ => BitVec.isLt _⟩
  compare rel a b m := rel.apply (BitVec.ofNat a.bits (a.eval m)) (BitVec.ofNat a.bits (b.eval m))
  concat := Term.concat
  signExt t extra := ⟨t.bits + extra,
    fun m => ((BitVec.ofNat t.bits (t.eval m)).signExtend (t.bits + extra)).toNat,
    fun _ => BitVec.isLt _⟩
  size_binary _ _ _ _ same _ := same
  value_binary m op a b w same _ := by
    subst same
    rfl
  size_unary _ _ := rfl
  value_unary _ _ _ := rfl
  holds_compare m rel a b w same _ := by
    subst same
    rfl
  size_concat _ _ := rfl
  value_concat _ _ _ := rfl
  size_signExt _ _ := rfl
  value_signExt _ _ _ := rfl

end R2Sleigh.Sym
