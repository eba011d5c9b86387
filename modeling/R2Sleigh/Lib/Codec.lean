import Mathlib.Data.List.AList

/-!
Contract: codecs that read back what they write, whatever follows it.

Owns `Codec` and `refine`.
-/

namespace R2Sleigh.Lib

open List

/-- A decoder consumes exactly what the encoder wrote. -/
structure Codec (α : Type) where
  encode : α → List UInt8
  decode : List UInt8 → Option (α × List UInt8)
  decode_encode : ∀ a rest, decode (encode a ++ rest) = some (a, rest)

namespace Codec

variable {α β : Type}

/-- Values described by other values. -/
def refine (codec : Codec α) (describe : β → α) (build : α → Option β)
    (built : ∀ b, build (describe b) = some b) : Codec β where
  encode b := codec.encode (describe b)
  decode bytes := do
    let (a, rest) ← codec.decode bytes
    let b ← build a
    return (b, rest)
  decode_encode b rest := by
    simp only [codec.decode_encode, built, bind, Option.bind, pure]

def byte : Codec UInt8 where
  encode b := [b]
  decode
    | [] => none
    | b :: rest => some (b, rest)
  decode_encode _ _ := rfl

/-! ## Numbers -/

/-- Groups of seven bits, the lowest first; all but the last have the high bit
set. -/
def encodeNat (n : Nat) : List UInt8 :=
  if n < 128 then [UInt8.ofNat n] else UInt8.ofNat (n % 128 + 128) :: encodeNat (n / 128)
termination_by n
decreasing_by omega

theorem encodeNat_of_lt {n : Nat} (small : n < 128) : encodeNat n = [UInt8.ofNat n] := by
  rw [encodeNat, if_pos small]

def decodeNat : List UInt8 → Option (Nat × List UInt8)
  | [] => none
  | b :: rest =>
    if b.toNat < 128 then some (b.toNat, rest)
    else do
      let (high, rest) ← decodeNat rest
      return (b.toNat - 128 + 128 * high, rest)

theorem decodeNat_encodeNat (n : Nat) (rest : List UInt8) :
    decodeNat (encodeNat n ++ rest) = some (n, rest) := by
  fun_induction encodeNat n with
  | case1 n small =>
    have value : (UInt8.ofNat n).toNat = n := UInt8.toNat_ofNat_of_lt' (by
      show n < 256
      omega)
    rw [singleton_append, decodeNat, value, if_pos small]
  | case2 n large ih =>
    have value : (UInt8.ofNat (n % 128 + 128)).toNat = n % 128 + 128 :=
      UInt8.toNat_ofNat_of_lt' (by
        show n % 128 + 128 < 256
        omega)
    rw [cons_append, decodeNat, value, if_neg (by omega), ih]
    show some (n % 128 + 128 - 128 + 128 * (n / 128), rest) = some (n, rest)
    have parts : n % 128 + 128 - 128 + 128 * (n / 128) = n := by omega
    rw [parts]

def nat : Codec Nat := ⟨encodeNat, decodeNat, decodeNat_encodeNat⟩

/-! ## Compound values -/

def pair (first : Codec α) (second : Codec β) : Codec (α × β) where
  encode p := first.encode p.1 ++ second.encode p.2
  decode bytes := do
    let (a, bytes) ← first.decode bytes
    let (b, bytes) ← second.decode bytes
    return ((a, b), bytes)
  decode_encode p rest := by
    simp only [append_assoc, first.decode_encode, second.decode_encode, bind, Option.bind, pure]

def bool : Codec Bool :=
  byte.refine (fun b => if b then 1 else 0)
    (fun b => if b = 0 then some false else if b = 1 then some true else none)
    (by decide)

/-- The members of a type in the order of a list that has them all. -/
def enumeration [DecidableEq β] (members : List β) (complete : ∀ b, b ∈ members) : Codec β :=
  nat.refine members.idxOf (fun i => members[i]?) fun b =>
    List.getElem?_idxOf (complete b)

def option (codec : Codec α) : Codec (Option α) where
  encode
    | none => [0]
    | some a => 1 :: codec.encode a
  decode
    | [] => none
    | tag :: bytes =>
      if tag = 0 then some (none, bytes)
      else if tag = 1 then (codec.decode bytes).map (Prod.map some id)
      else none
  decode_encode
    | none, _ => rfl
    | some a, rest => by
      show (codec.decode (codec.encode a ++ rest)).map (Prod.map some id) = some (some a, rest)
      rw [codec.decode_encode]
      rfl

/-- As many values as a count says. -/
def decodeMany (codec : Codec α) : Nat → List UInt8 → Option (List α × List UInt8)
  | 0, bytes => some ([], bytes)
  | count + 1, bytes => do
      let (a, bytes) ← codec.decode bytes
      let (tail, bytes) ← codec.decodeMany count bytes
      return (a :: tail, bytes)

theorem decodeMany_flatMap (codec : Codec α) (rest : List UInt8) : ∀ l : List α,
    codec.decodeMany l.length (l.flatMap codec.encode ++ rest) = some (l, rest)
  | [] => rfl
  | a :: l => by
    simp only [length_cons, decodeMany, flatMap_cons, append_assoc,
      codec.decode_encode, decodeMany_flatMap codec rest l, bind, Option.bind, pure]

def list (codec : Codec α) : Codec (List α) where
  encode l := encodeNat l.length ++ l.flatMap codec.encode
  decode bytes := do
    let (count, bytes) ← decodeNat bytes
    codec.decodeMany count bytes
  decode_encode l rest := by
    simp only [append_assoc, decodeNat_encodeNat, bind, Option.bind]
    exact codec.decodeMany_flatMap rest l

def string : Codec String :=
  (list byte).refine (fun s => s.toUTF8.data.toList) (fun bytes => String.fromUTF8? bytes.toByteArray)
    fun s => by
      have bytes : s.toUTF8.data.toList.toByteArray = s.toUTF8 := ByteArray.ext (by simp)
      rw [bytes]
      exact dif_pos s.isValidUTF8

/-- Entries of a map; a later entry replaces an earlier one of the same key. -/
def insertEntries [DecidableEq α] (entries : List (α × β)) : AList fun _ : α => β :=
  entries.foldr (fun entry m => if entry.1 ∈ m then m else m.insert entry.1 entry.2) ∅

theorem insertEntries_entries [DecidableEq α] (l : List (Sigma fun _ : α => β))
    (nodup : l.NodupKeys) :
    insertEntries (l.map fun entry => (entry.1, entry.2)) = ⟨l, nodup⟩ := by
  induction l with
  | nil => rfl
  | cons entry l ih =>
    rw [nodupKeys_cons] at nodup
    have step : insertEntries ((entry :: l).map fun entry => (entry.1, entry.2)) =
        if entry.1 ∈ insertEntries (l.map fun entry => (entry.1, entry.2)) then
          insertEntries (l.map fun entry => (entry.1, entry.2))
        else (insertEntries (l.map fun entry => (entry.1, entry.2))).insert entry.1 entry.2 := rfl
    have absent : entry.1 ∉ (⟨l, nodup.2⟩ : AList fun _ : α => β) := nodup.1
    rw [step, ih nodup.2, if_neg absent]
    exact AList.ext (AList.entries_insert_of_notMem absent)

def map [DecidableEq α] (key : Codec α) (value : Codec β) : Codec (AList fun _ : α => β) :=
  (list (pair key value)).refine (fun m => m.entries.map fun entry => (entry.1, entry.2))
    (fun entries => some (insertEntries entries))
    fun m => congrArg some (insertEntries_entries m.entries m.nodupKeys)

end Codec

end R2Sleigh.Lib
