import R2Sleigh.Sym.StepTaint

/-!
Contract: the taint that memory keeps of what is written.

Owns `StoreRun`, `lastTaint` and `ReadsBack`.

A read takes the taint of the newest logged write that covers all of it, so that a newer write to
a part of it leaves no taint.
-/

namespace R2Sleigh.Sym

open Il Lib Ssa List

variable {BV Formula Model : Type}

/-- What is done to memory. -/
inductive StoreOp (BV Formula : Type) where
  | write (addr value : SymValue BV) (size : Nat) (constraints : List Formula)
  | writeBytes (addr : Word) (bytes : List Byte)

/-- The targets of a write: its address, or those found for it. -/
def targetsOf (enumerate : Enumerator BV Formula) (limit : Nat) (addr : SymValue BV)
    (constraints : List Formula) : List Word :=
  match addr.asConcrete with
  | some target => [target]
  | none => (enumerate limit addr constraints).1

section Memory

variable [Z3 BV Formula Model]

namespace SymMemory

/-! ## The log -/

section Log

variable {mem mem' : SymMemory BV} {addr value : SymValue BV} {target t : Word} {size s : Nat}

theorem taintAt_push (log : mem'.symbolicWrites = mem.symbolicWrites ++ [(addr, value, size)]) :
    mem'.taintAt t s = match addr.asConcrete with
      | some target => if Covers target size t s then value.getTaint else mem.taintAt t s
      | none => mem.taintAt t s := by
  unfold taintAt loggedRead
  rw [log, reverse_append, reverse_singleton, singleton_append, List.findSome?_cons]
  simp only [takenFrom]
  cases addr.asConcrete with
  | none => rfl
  | some target =>
    dsimp only
    by_cases covered : Covers target size t s
    · rw [if_pos covered, if_pos covered]
      exact SymValue.getTaint_slice value target t size s
    · rw [if_neg covered, if_neg covered]

theorem taintAt_writeTarget (addrBv : BV) (n : Nat) :
    (writeTarget addr value addrBv size mem target n).1.taintAt t s =
      if Covers target size t s then
        mem.taintAt target size ||| value.getTaint ||| addr.getTaint
      else mem.taintAt t s := by
  obtain ⟨ast, log⟩ : ∃ ast, (writeTarget addr value addrBv size mem target n).1.symbolicWrites =
      mem.symbolicWrites ++ [(.ofWord target addr.bits,
        .symbolic ast (SymValue.normalizeBvBits (size * 8))
          ((adjustBits (mem.readConcrete target size) (size * 8)).getTaint ||| value.getTaint |||
            addr.getTaint), size)] := ⟨_, rfl⟩
  rw [taintAt_push log, SymValue.getTaint_adjustBits, getTaint_readConcrete]
  rfl

private theorem eq_of_covers (covers : Covers target size t size) : target = t := by
  obtain ⟨-, -, starts, ends⟩ := covers
  exact BitVec.eq_of_toNat_eq (by omega)

/-- What a write of a value to targets leaves for a read: if one of them covers it the taint of the
value and, of a write that may go elsewhere, of what was there; else what it was before. -/
def LeavesTaint (mem mem' : SymMemory BV) (elsewhere : Prop) (value : SymValue BV) (size : Nat)
    (targets : List Word) (t : Word) (s : Nat) : Prop :=
  match targets.reverse.find? fun target => decide (Covers target size t s) with
  | some target => Contains (mem'.taintAt t s) value.getTaint ∧
      (elsewhere → Contains (mem'.taintAt t s) (mem.taintAt target size))
  | none => mem'.taintAt t s = mem.taintAt t s

theorem LeavesTaint.congr {last : SymMemory BV} {elsewhere : Prop} {value' : SymValue BV}
    {targets : List Word} (leaves : LeavesTaint mem mem' True value size targets t s)
    (same : last.taintAt t s = mem'.taintAt t s) (sameValue : value.getTaint = value'.getTaint) :
    LeavesTaint mem last elsewhere value' size targets t s := by
  unfold LeavesTaint at leaves ⊢
  rw [same, ← sameValue]
  split at leaves
  · exact ⟨leaves.1, fun _ => leaves.2 trivial⟩
  · exact leaves

/-- The targets of a write one after another: the last of them that covers a read counts. -/
theorem taintAt_writeTargets (addr value : SymValue BV) (addrBv : BV) (size : Nat) (t : Word)
    (s : Nat) : ∀ (targets : List Word) (mem : SymMemory BV) (n : Nat),
      LeavesTaint mem (targets.foldlM (writeTarget addr value addrBv size) mem n).1 True value size
        targets t s
  | [], mem, n => rfl
  | first :: rest, mem, n => by
    have step := taintAt_writeTargets addr value addrBv size t s rest
      (writeTarget addr value addrBv size mem first n).1
      (writeTarget addr value addrBv size mem first n).2
    have folds : ((first :: rest).foldlM (writeTarget addr value addrBv size) mem n).1 =
        (rest.foldlM (writeTarget addr value addrBv size)
          (writeTarget addr value addrBv size mem first n).1
          (writeTarget addr value addrBv size mem first n).2).1 := by
      rfl
    unfold LeavesTaint at step ⊢
    rw [folds, reverse_cons, List.find?_append]
    cases found : rest.reverse.find? fun target => decide (Covers target size t s) with
    | some target =>
      rw [found] at step
      obtain ⟨ofValue, ofExisting⟩ := step
      refine ⟨ofValue, fun _ => (ofExisting trivial).trans ?_⟩
      rw [taintAt_writeTarget]
      split_ifs with covered
      · obtain rfl := eq_of_covers covered
        exact ((contains_self _).or_left _).or_left _
      · exact contains_self _
    | none =>
      rw [found] at step
      rw [step, Option.none_or, List.find?_singleton, taintAt_writeTarget]
      by_cases covered : Covers first size t s
      · rw [if_pos covered, if_pos (decide_eq_true covered)]
        exact ⟨((contains_self _).or_right _).or_left _,
          fun _ => ((contains_self _).or_left _).or_left _⟩
      · rw [if_neg covered, if_neg (by simpa using covered)]

variable (enumerate : Enumerator BV Formula)

private theorem taintAt_write (mem : SymMemory BV) (addr value : SymValue BV) (size : Nat)
    (constraints : List Formula) (t : Word) (s n : Nat) :
    LeavesTaint mem (mem.writeWithConstraints enumerate addr value size constraints n).1
      (addr.asConcrete = none) value size
      (targetsOf enumerate mem.maxSymbolicTargets addr constraints) t s := by
  have sameTaint : (adjustBits value (size * 8)).getTaint = value.getTaint :=
    SymValue.getTaint_adjustBits value _
  unfold writeWithConstraints targetsOf
  cases isConcrete : addr.asConcrete with
  | some target =>
    have pushed : (mem.writeAt addr target (adjustBits value (size * 8)) size).taintAt t s = _ :=
      taintAt_push rfl
    rw [isConcrete, sameTaint] at pushed
    show LeavesTaint mem (mem.writeAt addr target (adjustBits value (size * 8)) size) _ _ _
      [target] _ _
    unfold LeavesTaint
    rw [reverse_singleton, List.find?_singleton, pushed]
    by_cases covered : Covers target size t s
    · simp only [if_pos covered, if_pos (decide_eq_true covered)]
      exact ⟨contains_self _, nofun⟩
    · simp only [if_neg covered, decide_eq_false covered, Bool.false_eq_true, if_false]
  | none =>
    generalize enumerate mem.maxSymbolicTargets addr constraints = found
    obtain ⟨targets, truncated⟩ := found
    -- What is logged under an address that is not known is not read.
    have unread : ∀ {mem' mem'' : SymMemory BV} {v : SymValue BV},
        mem''.symbolicWrites = mem'.symbolicWrites ++ [(addr, v, size)] →
          mem''.taintAt t s = mem'.taintAt t s := by
      intro mem' mem'' v log
      have pushed := taintAt_push (t := t) (s := s) log
      rw [isConcrete] at pushed
      exact pushed
    cases targets with
    | nil => exact unread rfl
    | cons first rest =>
      have written := taintAt_writeTargets addr (adjustBits value (size * 8)) (addr.toBv n) size
        t s (first :: rest) mem (n + 1)
      cases truncated with
      | true => exact written.congr (unread rfl) sameTaint
      | false => exact written.congr rfl sameTaint

theorem maxSymbolicTargets_writeTargets (addr value : SymValue BV) (addrBv : BV) (size : Nat) :
    ∀ (targets : List Word) (mem : SymMemory BV) (n : Nat),
      (targets.foldlM (writeTarget addr value addrBv size) mem n).1.maxSymbolicTargets =
        mem.maxSymbolicTargets
  | [], mem, n => rfl
  | first :: rest, mem, n => by
    exact maxSymbolicTargets_writeTargets addr value addrBv size rest _ _

theorem maxSymbolicTargets_write (mem : SymMemory BV) (addr value : SymValue BV) (size : Nat)
    (constraints : List Formula) (n : Nat) :
    (mem.writeWithConstraints enumerate addr value size constraints n).1.maxSymbolicTargets =
      mem.maxSymbolicTargets := by
  unfold writeWithConstraints
  cases addr.asConcrete with
  | some target => rfl
  | none =>
    generalize enumerate mem.maxSymbolicTargets addr constraints = found
    obtain ⟨targets, truncated⟩ := found
    have written := maxSymbolicTargets_writeTargets addr (adjustBits value (size * 8))
      (addr.toBv n) size targets mem (n + 1)
    cases targets with
    | nil => rfl
    | cons first rest => cases truncated <;> exact written

end Log

end SymMemory

/-! ## Histories -/

section Histories

variable (enumerate : Enumerator BV Formula) (limit : Nat)

/-- The memory that a history leaves, newest first. -/
inductive StoreRun : List (StoreOp BV Formula) → SymMemory BV → Prop where
  | new (defaultSymbolic : Bool) :
      StoreRun [] { SymMemory.new defaultSymbolic with maxSymbolicTargets := limit }
  | write {history : List (StoreOp BV Formula)} {mem : SymMemory BV} (run : StoreRun history mem)
      (addr value : SymValue BV) (size : Nat) (constraints : List Formula) (n : Nat) :
      StoreRun (.write addr value size constraints :: history)
        (mem.writeWithConstraints enumerate addr value size constraints n).1
  | writeBytes {history : List (StoreOp BV Formula)} {mem mem' : SymMemory BV}
      (run : StoreRun history mem) {checks : Bool} {addr : Word} {bytes : List Byte}
      (written : mem.writeBytes checks addr bytes = some mem') :
      StoreRun (.writeBytes addr bytes :: history) mem'

/-- An address may be a target: an unknown one may be any. -/
def Resolves (m : Model) : SymValue BV → Word → Prop
  | .concrete word _ _, target => target = word
  | .symbolic ast _ _, target => target = BitVec.ofNat 64 (Z3.value m ast)
  | .unknown _ _, _ => True

/-- The bytes of an access reach an address. -/
def Reaches (target : Word) (size : Nat) (x : Word) : Prop := (x - target).toNat < size

instance (target : Word) (size : Nat) (x : Word) : Decidable (Reaches target size x) :=
  inferInstanceAs (Decidable (_ < _))

omit [Z3 BV Formula Model] in
/-- The taint of what is written to an address last, the writes going to these targets. -/
def lastTaint : List (StoreOp BV Formula) → List Word → Word → Word
  | .write _ value size _ :: history, target :: targets, x =>
    if Reaches target size x then value.getTaint else lastTaint history targets x
  | .writeBytes addr bytes :: history, _ :: targets, x =>
    if Reaches addr bytes.length x then 0 else lastTaint history targets x
  | _, _, _ => 0

/-- The writes may go to these targets. -/
def Goes (m : Model) (op : StoreOp BV Formula) (target : Word) : Prop :=
  match op with
  | .write addr _ _ _ => Resolves m addr target
  | .writeBytes _ _ => True

/-- A read has the taint of every byte written last to what it covers. -/
def ReadsBack (history : List (StoreOp BV Formula)) (mem : SymMemory BV) (addr : SymValue BV)
    (size : Nat) (constraints : List Formula) : Prop :=
  ∀ (m : Model), (∀ c ∈ constraints, Z3.holds BV m c) → ∀ targets : List Word,
    List.Forall₂ (Goes m) history targets → ∀ target, Resolves m addr target →
      ∀ n x, Reaches target size x →
        Contains (mem.readWithConstraints enumerate addr size constraints n).1.getTaint
          (lastTaint history targets x)

variable (constraints : List Formula)

/-- Under the constraints of the read a write may reach an address. -/
def MayReach (addr : SymValue BV) (size : Nat) (x : Word) : Prop :=
  ∃ m : Model, (∀ c ∈ constraints, Z3.holds BV m c) ∧
    ∃ target, Resolves m addr target ∧ Reaches target size x

def MayMiss (addr : SymValue BV) (size : Nat) (x : Word) : Prop :=
  ∃ m : Model, (∀ c ∈ constraints, Z3.holds BV m c) ∧
    ∃ target, Resolves m addr target ∧ ¬ Reaches target size x

/-- The read of the addresses that matter finds them all in one write: a newer write that does not
cover the read leaves them no taint. -/
def FoundInOne : List (StoreOp BV Formula) → Word → Nat → (Word → Prop) → Prop
  | [], _, _, _ => True
  | .writeBytes addr bytes :: history, target, size, matters =>
    FoundInOne history target size fun x => matters x ∧ ¬ Reaches addr bytes.length x
  | .write addr value writeSize written :: history, target, size, matters =>
    let remain := fun x => matters x ∧ MayMiss constraints addr writeSize x
    match (targetsOf enumerate limit addr written).reverse.find? fun found =>
        decide (SymMemory.Covers found writeSize target size) with
    | some found => FoundInOne history found writeSize remain
    | none => (∀ x, matters x → MayReach constraints addr writeSize x → value.getTaint = 0) ∧
        FoundInOne history target size remain

def ReadsOneWrite (history : List (StoreOp BV Formula)) (addr : SymValue BV) (size : Nat) : Prop :=
  ∀ m : Model, (∀ c ∈ constraints, Z3.holds BV m c) → ∀ target, Resolves m addr target →
    target ∈ targetsOf enumerate limit addr constraints ∧
      FoundInOne enumerate limit constraints history target size (Reaches target size)

variable {enumerate limit constraints}
variable {history : List (StoreOp BV Formula)} {mem : SymMemory BV}

theorem StoreRun.hasLimit (run : StoreRun enumerate limit history mem) :
    mem.maxSymbolicTargets = limit := by
  induction run with
  | new defaultSymbolic => rfl
  | write _ addr value size constraints n ih =>
    rw [SymMemory.maxSymbolicTargets_write, ih]
  | writeBytes _ written ih =>
    rw [SymMemory.writeBytes_eq_some written]
    exact ih

omit [Z3 BV Formula Model] in
private theorem Reaches.of_covers {found t x : Word} {writeSize size : Nat}
    (covers : SymMemory.Covers found writeSize t size) (reaches : Reaches t size x) :
    Reaches found writeSize x := by
  obtain ⟨-, -, starts, ends⟩ := covers
  unfold Reaches at reaches ⊢
  rw [BitVec.toNat_sub] at reaches ⊢
  have tBound := t.isLt
  have foundBound := found.isLt
  have xBound := x.isLt
  omega

/-- Over a history: a read of addresses that one write covers has the taint written to them last. -/
theorem taintAt_lastTaint {m : Model} (satisfies : ∀ c ∈ constraints, Z3.holds BV m c)
    (run : StoreRun enumerate limit history mem) :
    ∀ {targets : List Word} {t : Word} {size : Nat} {matters : Word → Prop},
      FoundInOne enumerate limit constraints history t size matters →
      List.Forall₂ (Goes m) history targets → ∀ x, matters x → Reaches t size x →
        Contains (mem.taintAt t size) (lastTaint history targets x) := by
  induction run with
  | new defaultSymbolic =>
    intro targets t size matters _ goes x _ _
    exact contains_zero _
  | @writeBytes history mem mem' run checks addr bytes written ih =>
    intro targets t size matters found goes x isMatter reaches
    obtain ⟨target, rest, -, goesRest, rfl⟩ := List.forall₂_cons_left_iff.mp goes
    have sameLog : mem'.taintAt t size = mem.taintAt t size := by
      rw [SymMemory.writeBytes_eq_some written]
      rfl
    rw [sameLog, lastTaint]
    split_ifs with isByte
    · exact contains_zero _
    · exact ih found goesRest x ⟨isMatter, isByte⟩ reaches
  | @write history mem run addr value writeSize written n ih =>
    intro targets t size matters found goes x isMatter reaches
    obtain ⟨target, rest, goesHere, goesRest, rfl⟩ := List.forall₂_cons_left_iff.mp goes
    have leaves := SymMemory.taintAt_write enumerate mem addr value writeSize written t size n
    rw [run.hasLimit] at leaves
    unfold SymMemory.LeavesTaint at leaves
    rw [FoundInOne] at found
    cases isFound : (targetsOf enumerate limit addr written).reverse.find? fun found =>
        decide (SymMemory.Covers found writeSize t size) with
    | none =>
      rw [isFound] at leaves found
      obtain ⟨untainted, found⟩ := found
      rw [lastTaint]
      split_ifs with hit
      · rw [untainted x isMatter ⟨m, satisfies, target, goesHere, hit⟩]
        exact contains_zero _
      · rw [leaves]
        exact ih found goesRest x ⟨isMatter, m, satisfies, target, goesHere, hit⟩ reaches
    | some covering =>
      rw [isFound] at leaves found
      have covers : SymMemory.Covers covering writeSize t size := by
        simpa using List.find?_some isFound
      have reachesCovering := reaches.of_covers covers
      rw [lastTaint]
      split_ifs with hit
      · exact leaves.1
      · -- A known address is the target that covers the read.
        have notKnown : addr.asConcrete = none := by
          cases addr with
          | symbolic ast bits taint => rfl
          | unknown bits taint => rfl
          | concrete word bits taint =>
            have isWord : target = word := goesHere
            have member := mem_of_find?_eq_some isFound
            have isCovering : covering = word := by
              exact mem_singleton.mp member
            rw [isCovering, ← isWord] at reachesCovering
            exact absurd reachesCovering hit
        exact (leaves.2 notKnown).trans (ih found goesRest x
          ⟨isMatter, m, satisfies, target, goesHere, hit⟩ reachesCovering)

theorem contains_taintAt (mem : SymMemory BV) (addr : SymValue BV) (size : Nat) {target : Word} :
    ∀ {targets : List Word} (taint : Word), target ∈ targets →
      Contains (targets.foldl (fun taint target =>
        mem.taintAt target size ||| addr.getTaint ||| taint) taint) (mem.taintAt target size)
  | [], _, member => absurd member not_mem_nil
  | first :: rest, taint, member => by
    rw [foldl_cons]
    rcases mem_cons.mp member with rfl | isRest
    · exact (contains_foldl mem addr size rest _).trans (((contains_self _).or_left _).or_left _)
    · exact contains_taintAt mem addr size _ isRest

private theorem readsBack_of_oneWrite {addr : SymValue BV} {size : Nat}
    (run : StoreRun enumerate limit history mem)
    (one : ReadsOneWrite enumerate limit constraints history addr size) :
    ReadsBack enumerate history mem addr size constraints := by
  intro m satisfies targets goes target resolves n x reaches
  obtain ⟨isTarget, found⟩ := one m satisfies target resolves
  have last := taintAt_lastTaint satisfies run found goes x reaches reaches
  rw [SymMemory.getTaint_readWithConstraints]
  refine Contains.trans ?_ last
  unfold SymMemory.loadedTaint
  unfold targetsOf at isTarget
  cases isConcrete : addr.asConcrete with
  | some known =>
    rw [isConcrete] at isTarget
    rw [mem_singleton.mp isTarget]
    exact contains_self _
  | none =>
    rw [isConcrete] at isTarget
    rw [run.hasLimit]
    exact contains_taintAt mem addr size _ isTarget

end Histories

end Memory

/-- An operation keeps taint exactly when what it drops has none of its own, and over every history
a read that finds what it covers in one write has the taint of what was written last. -/
theorem taint_kept [Z3Arith BV Formula Model] (executor : SymExecutor BV Formula) :
    (∀ (state : SymState BV Formula) (op : SSAOp) (dst : SSAVar), op.dst = some dst →
      (KeepsTaint executor state op ↔ DropsNoTaint executor state op)) ∧
    ∀ (limit : Nat) (history : List (StoreOp BV Formula)) (mem : SymMemory BV) (addr : SymValue BV)
      (size : Nat) (constraints : List Formula), StoreRun executor.enumerate limit history mem →
      ReadsOneWrite executor.enumerate limit constraints history addr size →
        ReadsBack executor.enumerate history mem addr size constraints :=
  ⟨fun _ _ _ isDst => keepsTaint_iff isDst, fun _ _ _ _ _ _ run one => readsBack_of_oneWrite run one⟩

/-! ## A tainted register -/

namespace TaintedFlow

def a : SSAVar := ⟨"A", 0, 8⟩

def b : SSAVar := ⟨"B", 0, 8⟩

def c : SSAVar := ⟨"C", 1, 8⟩

def tainted : SymState Term (Assignment → Bool) :=
  { CpuIdLoop.start with
    registers := ((∅ : HashMap String (SymValue Term)).insert "A_0" (.concrete 1 64 1)).insert "B_0"
      (.concrete 2 64 0) }

/-- A tainted byte at `0x1000`. -/
def history : List (StoreOp Term (Assignment → Bool)) :=
  [.write (.concrete 0x1000 64 0) (.concrete 7 8 1) 1 []]

theorem sum_keepsTaint :
    KeepsTaint CpuIdLoop.executor tainted (.binary .IntAdd c a b) ∧
      ∃ mem, StoreRun CpuIdLoop.executor.enumerate 256 history mem ∧
        ReadsBack CpuIdLoop.executor.enumerate history mem (.concrete 0x1000 64 0) 1 [] := by
  have kept := taint_kept CpuIdLoop.executor
  have run : StoreRun CpuIdLoop.executor.enumerate 256 history _ :=
    .write (.new false) (.concrete 0x1000 64 0) (.concrete 7 8 1) 1 [] 0
  refine ⟨(kept.1 tainted (.binary .IntAdd c a b) c rfl).mpr fun src isDropped =>
    absurd isDropped not_mem_nil, _, run, kept.2 256 history _ _ 1 [] run ?_⟩
  intro m _ target resolves
  obtain rfl : target = 0x1000 := resolves
  exact ⟨mem_singleton.mpr rfl, trivial⟩

theorem notEqual_losesTaint :
    ¬ KeepsTaint CpuIdLoop.executor tainted (.binary .IntNotEqual c a b) := by
  intro keeps
  have contains := keeps c rfl _ [] 0 _ rfl (.concrete 1 1 0) rfl a (by decide)
  exact absurd contains (by decide +kernel)

end TaintedFlow

end R2Sleigh.Sym
