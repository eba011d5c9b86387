import Mathlib.Data.List.Basic

/-!
Contract: numerals in a base up to sixteen.

Owns `hexDigit`, `readDigits` and `readHex`.
-/

namespace R2Sleigh.Lib

/-- The value of a hexadecimal digit. -/
def hexDigit (c : Char) : Option Nat :=
  if '0' ≤ c ∧ c ≤ '9' then some (c.toNat - '0'.toNat)
  else if 'a' ≤ c ∧ c ≤ 'f' then some (c.toNat - 'a'.toNat + 10)
  else if 'A' ≤ c ∧ c ≤ 'F' then some (c.toNat - 'A'.toNat + 10)
  else none

/-- One more digit at the end of a numeral. -/
def pushDigit (base value : Nat) (c : Char) : Option Nat :=
  (hexDigit c).map fun digit => base * value + digit

/-- The value of digits of a base up to 16. -/
def readDigits (base : Nat) (text : List Char) : Option Nat := text.foldlM (pushDigit base) 0

/-- The value of the hexadecimal digits at the start of a text, and what follows
them. -/
def readHex : Nat → List Char → Nat × List Char
  | value, [] => (value, [])
  | value, c :: rest =>
    match pushDigit 16 value c with
    | some value => readHex value rest
    | none => (value, c :: rest)

/-- No hexadecimal digit starts this text. -/
def EndsHex (rest : List Char) : Prop := ∀ c, rest.head? = some c → hexDigit c = none

theorem hexDigit_digitChar {d : Nat} (small : d < 16) : hexDigit d.digitChar = some d := by
  have all : ∀ d : Fin 16, hexDigit d.val.digitChar = some d.val := by decide
  exact all ⟨d, small⟩

section Base

variable (base : Nat)

theorem mem_toDigits (two : 1 < base) (n : Nat) :
    ∀ c ∈ Nat.toDigits base n, ∃ d, d < base ∧ c = d.digitChar := by
  induction n using Nat.strongRecOn with
  | ind n ih =>
    intro c mem
    rw [Nat.toDigits_eq_if two] at mem
    split at mem
    · rename_i small
      exact ⟨n, small, List.mem_singleton.mp mem⟩
    · have positive : 0 < n := by omega
      rcases List.mem_append.mp mem with early | last
      · exact ih _ (Nat.div_lt_self positive two) c early
      · exact ⟨n % base, Nat.mod_lt _ (by omega), List.mem_singleton.mp last⟩

theorem foldlM_toDigits {push : Nat → Char → Option Nat} (two : 1 < base)
    (pushes : ∀ value d, d < base → push value d.digitChar = some (base * value + d)) (n : Nat) :
    (Nat.toDigits base n).foldlM push 0 = some n := by
  induction n using Nat.strongRecOn with
  | ind n ih =>
    rw [Nat.toDigits_eq_if two]
    split
    · rename_i small
      simp [pushes 0 n small]
    · have positive : 0 < n := by omega
      have digit : n % base < base := Nat.mod_lt _ (by omega)
      rw [List.foldlM_append, ih _ (Nat.div_lt_self positive two)]
      simp [pushes _ _ digit, Nat.div_add_mod]

theorem pushDigit_digitChar (sixteen : base ≤ 16) (value d : Nat) (small : d < base) :
    pushDigit base value d.digitChar = some (base * value + d) := by
  rw [pushDigit, hexDigit_digitChar (Nat.lt_of_lt_of_le small sixteen), Option.map_some]

theorem readDigits_toDigits (two : 1 < base) (sixteen : base ≤ 16) (n : Nat) :
    readDigits base (Nat.toDigits base n) = some n :=
  foldlM_toDigits base two (pushDigit_digitChar base sixteen) n

end Base

theorem readHex_append {text rest : List Char} (ends : EndsHex rest) :
    ∀ {value result : Nat}, text.foldlM (pushDigit 16) value = some result →
      readHex value (text ++ rest) = (result, rest) := by
  induction text with
  | nil =>
    intro value result folds
    obtain rfl : value = result := Option.some.inj folds
    cases rest with
    | nil => rfl
    | cons c more =>
      have stops : pushDigit 16 value c = none := by rw [pushDigit, ends c rfl, Option.map_none]
      rw [List.nil_append, readHex, stops]
  | cons c text ih =>
    intro value result folds
    obtain ⟨next, pushes, others⟩ := Option.bind_eq_some_iff.mp folds
    rw [List.cons_append, readHex, pushes]
    exact ih others

end R2Sleigh.Lib
