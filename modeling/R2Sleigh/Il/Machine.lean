import Mathlib.Data.Int.ModEq
import R2Sleigh.Il.PcodeValue

/-!
Contract: machines that P-code operations change.

Owns `Machine` and `pcodeStep`.

Does not own: floating point, and operations whose effect the processor
specification leaves open.

An operation that divides by zero has no effect to compare with.
-/

namespace R2Sleigh.Il

open BitVec

structure Machine where
  storage : SpaceId → Nat → BitVec 8
  pc : Nat

namespace Machine

variable (s : Machine)

def load (space : SpaceId) (addr : Nat) : Nat → Nat
  | 0 => 0
  | size + 1 => load space addr size + 256 ^ size * (s.storage space (addr + size)).toNat

def store (space : SpaceId) (addr size value : Nat) : Machine :=
  { s with storage := fun space' addr' =>
      if space' = space ∧ addr ≤ addr' ∧ addr' < addr + size then
        BitVec.ofNat 8 (value / 256 ^ (addr' - addr))
      else s.storage space' addr' }

/-- A constant is its own value. -/
def read (vn : Varnode) : Nat :=
  if vn.space = .Const then vn.offset % 256 ^ vn.size else s.load vn.space vn.offset vn.size

/-- The residue of an integer in some bytes. -/
def residue (size : Nat) (i : Int) : Nat := (i % 256 ^ size).toNat

def write (vn : Varnode) (i : Int) : Machine :=
  s.store vn.space vn.offset vn.size (residue vn.size i)

def jump (target : Nat) : Machine := { s with pc := target % 2 ^ 64 }

end Machine

/-! ## Operations -/

def writeResult (s : Machine) (dst : Varnode) (result : Option Int) : Option Machine :=
  result.map (s.write dst)

/-- The target of a direct transfer is the address of its varnode, that of an
indirect one the varnode's value. A conditional store succeeds and reports 0. -/
def pcodeStep (s : Machine) : R2ILOp → Option Machine
  | .Copy dst src => some (s.write dst (s.read src))
  | .Load dst space addr | .LoadLinked dst space addr _ =>
    some (s.write dst (s.load space (s.read addr) dst.size))
  | .Store space addr val => some (s.store space (s.read addr) val.size (s.read val))
  | .StoreConditional result space addr val _ =>
    let stored := s.store space (s.read addr) val.size (s.read val)
    match result with
    | some dst => some (stored.write dst 0)
    | none => some stored
  | .AtomicCAS dst space addr expected replacement _ =>
    let old := s.load space (s.read addr) dst.size
    let stored := if old = s.read expected then
        s.store space (s.read addr) dst.size (s.read replacement)
      else s
    some (stored.write dst old)
  | .LoadGuarded dst space addr guard _ =>
    if s.read guard = 0 then some s else some (s.write dst (s.load space (s.read addr) dst.size))
  | .StoreGuarded space addr val guard _ =>
    if s.read guard = 0 then some s
    else some (s.store space (s.read addr) val.size (s.read val))
  | .binary op dst a b => writeResult s dst (op.result a.size b.size (s.read a) (s.read b))
  | .unary op dst src => writeResult s dst (op.result src.size (s.read src))
  | .Piece dst hi lo => some (s.write dst (s.read hi * 256 ^ lo.size + s.read lo))
  | .Subpiece dst src offset => some (s.write dst (s.read src / 256 ^ offset))
  | .PtrAdd dst base index elementSize =>
    some (s.write dst (s.read base + s.read index * elementSize))
  | .PtrSub dst base index elementSize =>
    some (s.write dst (s.read base - s.read index * elementSize))
  | .Branch target | .Call target => some (s.jump target.offset)
  | .CBranch target cond => if s.read cond = 0 then some s else some (s.jump target.offset)
  | .BranchInd target | .CallInd target | .Return target => some (s.jump (s.read target))
  | .Nop => some s
  | _ => none

/-! ## Bytes -/

namespace Machine

variable {s : Machine} {space : SpaceId} {addr size : Nat}

theorem load_lt : s.load space addr size < 256 ^ size := by
  induction size with
  | zero => exact Nat.one_pos
  | succ size ih =>
    have byte : (s.storage space (addr + size)).toNat ≤ 255 := by
      omega
    have product := Nat.mul_le_mul_left (256 ^ size) byte
    rw [load, Nat.pow_succ]
    omega

theorem bytes_eq_iff (x y : Nat) : ∀ size,
    (∀ i < size, BitVec.ofNat 8 (x / 256 ^ i) = BitVec.ofNat 8 (y / 256 ^ i)) ↔
      x % 256 ^ size = y % 256 ^ size
  | 0 => by simp [Nat.mod_one]
  | size + 1 => by
    have byte : BitVec.ofNat 8 (x / 256 ^ size) = BitVec.ofNat 8 (y / 256 ^ size) ↔
        x / 256 ^ size % 256 = y / 256 ^ size % 256 := by
      rw [← toNat_inj, toNat_ofNat, toNat_ofNat]
    rw [Nat.mod_pow_succ, Nat.mod_pow_succ]
    constructor
    · intro same
      rw [(bytes_eq_iff x y size).mp fun i below => same i (by omega),
        byte.mp (same size (Nat.lt_succ_self size))]
    · intro same i below
      have low : x % 256 ^ size = y % 256 ^ size := by
        have residues := congrArg (· % 256 ^ size) same
        simpa only [Nat.add_mul_mod_self_left, Nat.mod_mod] using residues
      have high : x / 256 ^ size % 256 = y / 256 ^ size % 256 := by
        rw [low] at same
        exact Nat.eq_of_mul_eq_mul_left (Nat.pow_pos (by decide)) (Nat.add_left_cancel same)
      rcases Nat.lt_succ_iff_lt_or_eq.mp below with inside | rfl
      · exact (bytes_eq_iff x y size).mpr low i inside
      · exact byte.mpr high

theorem storage_store {addr' : Nat} {space' : SpaceId} {value : Nat} :
    (s.store space addr size value).storage space' addr' =
      if space' = space ∧ addr ≤ addr' ∧ addr' < addr + size then
        BitVec.ofNat 8 (value / 256 ^ (addr' - addr))
      else s.storage space' addr' := rfl

theorem ext_iff' {s' : Machine} : s = s' ↔ s.storage = s'.storage ∧ s.pc = s'.pc := by
  cases s
  cases s'
  simp

theorem store_eq_store_iff {x y : Nat} : s.store space addr size x = s.store space addr size y ↔
    x % 256 ^ size = y % 256 ^ size := by
  rw [← bytes_eq_iff x y size]
  constructor
  · intro same i below
    have byte := congrFun (congrFun (congrArg storage same) space) (addr + i)
    rw [storage_store, storage_store, if_pos ⟨rfl, by omega, by omega⟩,
      if_pos ⟨rfl, by omega, by omega⟩, Nat.add_sub_cancel_left] at byte
    exact byte
  · intro same
    rw [ext_iff']
    refine ⟨?_, rfl⟩
    funext space' addr'
    rw [storage_store, storage_store]
    split
    · exact same _ (by omega)
    · rfl

private theorem store_load : s.store space addr size (s.load space addr size) = s := by
  rw [ext_iff']
  refine ⟨?_, rfl⟩
  funext space' addr'
  rw [storage_store]
  split
  · rename_i inside
    obtain ⟨rfl, above, below⟩ := inside
    obtain ⟨i, rfl⟩ := Nat.exists_eq_add_of_le above
    have byte : ∀ size, i < size → BitVec.ofNat 8 (s.load space' addr size / 256 ^ i) =
        s.storage space' (addr + i) := by
      intro size inside
      induction size with
      | zero => omega
      | succ size ih =>
        rcases Nat.lt_succ_iff_lt_or_eq.mp inside with earlier | rfl
        · have split : 256 ^ size = 256 ^ i * (256 * 256 ^ (size - i - 1)) := by
            rw [← Nat.pow_succ', ← Nat.pow_add]
            congr 1
            omega
          rw [← ih earlier, load, split, Nat.mul_assoc,
            Nat.add_mul_div_left _ _ (Nat.pow_pos (by decide)), ← toNat_inj,
            toNat_ofNat, toNat_ofNat, Nat.mul_assoc]
          exact Nat.add_mul_mod_self_left _ _ _
        · rw [load, Nat.add_mul_div_left _ _ (Nat.pow_pos (by decide)),
            Nat.div_eq_of_lt load_lt, Nat.zero_add, ofNat_toNat, setWidth_eq]
    rw [Nat.add_sub_cancel_left]
    exact byte size (by omega)
  · rfl

theorem store_eq_self_iff {x : Nat} : s.store space addr size x = s ↔
    x % 256 ^ size = s.load space addr size := by
  have reloaded : s.store space addr size x = s ↔
      s.store space addr size x = s.store space addr size (s.load space addr size) := by
    rw [store_load]
  rw [reloaded, store_eq_store_iff, Nat.mod_eq_of_lt load_lt]

theorem residue_lt {i : Int} : residue size i < 256 ^ size := by
  have positive : (0 : Int) < 256 ^ size := Int.pow_pos (by decide)
  unfold residue
  have cast : ((256 ^ size : Nat) : Int) = 256 ^ size := by push_cast; rfl
  omega

theorem residue_eq_iff {i j : Int} : residue size i = residue size j ↔ i ≡ j [ZMOD 256 ^ size] := by
  have positive : (0 : Int) < 256 ^ size := Int.pow_pos (by decide)
  unfold residue Int.ModEq
  omega

theorem write_eq_write_iff {vn : Varnode} {i j : Int} :
    s.write vn i = s.write vn j ↔ i ≡ j [ZMOD 256 ^ vn.size] := by
  rw [write, write, store_eq_store_iff, Nat.mod_eq_of_lt residue_lt, Nat.mod_eq_of_lt residue_lt,
    residue_eq_iff]

end Machine

end R2Sleigh.Il
