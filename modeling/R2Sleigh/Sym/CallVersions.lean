import R2Sleigh.Sym.SummaryBytes
import R2Sleigh.Sym.Unmodelled

/-!
Contract: the register versions that a summary reads and writes.

Owns `Path`, `currentKey` and `UsesCurrent`.

Does not own: states merged on the way, and hooks other than those of summaries.

The hook takes the highest version in the state, whichever was defined last.
-/

namespace R2Sleigh.Sym

open Il Lib Ssa List Option Except

variable {BV Formula Model : Type}

/-! ## Paths -/

inductive Event where
  | phi (dst src : SSAVar)
  | op (executed : SSAOp)

namespace Event

def dst : Event → Option SSAVar
  | .phi dst _ => some dst
  | .op executed => executed.dst

def sources : Event → List SSAVar
  | .phi _ src => [src]
  | .op executed => executed.sources

def isCall : Event → Bool
  | .op (.Call _) | .op (.CallInd _) => true
  | _ => false

def isCallDefine : Event → Bool
  | .op (.CallDefine _) => true
  | _ => false

end Event

/-- An event with the states before and after it, and the number of the next fresh constant. -/
structure Moment (BV Formula : Type) where
  before : SymState BV Formula
  number : Nat
  event : Event
  after : SymState BV Formula

section Paths

variable [Z3Arith BV Formula Model] (executor : SymExecutor BV Formula)

/-- What happens along a path: it goes on from the state that an operation leaves or from one that
it forks. -/
inductive Path : SymState BV Formula → List (Moment BV Formula) → SymState BV Formula → Prop where
  | done (state : SymState BV Formula) : Path state [] state
  | op {state after next final : SymState BV Formula} {op : SSAOp}
      {forked : List (SymState BV Formula)} {number number' : Nat}
      {rest : List (Moment BV Formula)}
      (steps : executor.step state op number = .ok ((after, .ok forked), number'))
      (goesOn : next = { after with depth := after.depth + 1 } ∨ next ∈ forked)
      (later : Path next rest final) : Path state (⟨state, number, .op op, next⟩ :: rest) final
  | phi {state final : SymState BV Formula} (dst src : SSAVar) {rest : List (Moment BV Formula)}
      (later : Path (executor.writeVar state dst (executor.readVar state src)) rest final) :
      Path state (⟨state, 0, .phi dst src,
        executor.writeVar state dst (executor.readVar state src)⟩ :: rest) final
  | enter {state final : SymState BV Formula} (pc : Word) (prevPc : Option Word)
      {rest : List (Moment BV Formula)} (later : Path { state with pc := pc, prevPc := prevPc } rest final) :
      Path state rest final

variable {executor} {state middle final : SymState BV Formula}
variable {moments more : List (Moment BV Formula)}

theorem Path.append (path : Path executor state moments middle)
    (next : Path executor middle more final) : Path executor state (moments ++ more) final := by
  induction path with
  | done _ => exact next
  | op steps goesOn _ ih => exact .op steps goesOn (ih next)
  | phi dst src _ ih => exact .phi dst src (ih next)
  | enter pc prevPc _ ih => exact .enter pc prevPc (ih next)

theorem path_phis (incoming : Option Word) :
    ∀ (phis : List PhiNode) (state : SymState BV Formula), ∃ moments,
      Path executor state moments (phis.foldl (executor.executePhi incoming) state)
  | [], state => ⟨[], .done state⟩
  | phi :: rest, state => by
    obtain ⟨moments, path⟩ := path_phis incoming rest (executor.executePhi incoming state phi)
    cases source : SymExecutor.phiSource incoming phi with
    | none =>
      have unchanged : executor.executePhi incoming state phi = state := by
        rw [SymExecutor.executePhi, source]
      rw [unchanged] at path
      exact ⟨moments, by rwa [foldl_cons, unchanged]⟩
    | some src =>
      have written : executor.executePhi incoming state phi =
          executor.writeVar state phi.dst (executor.readVar state src) := by
        rw [SymExecutor.executePhi, source]
      rw [written] at path
      exact ⟨_, by rw [foldl_cons, written]; exact .phi phi.dst src path⟩

/-- The operations of a block are executed along a path to its last state, and along one to each
state they fork. -/
theorem path_executeOps :
    ∀ (ops : List SSAOp) {state final : SymState BV Formula} {forked all : List (SymState BV Formula)}
      {n n' : Nat}, executor.executeOps ops state forked n = .ok ((final, .ok all), n') →
        (∃ moments, Path executor state moments final) ∧
          ∀ fork ∈ all, fork ∈ forked ∨ ∃ moments, Path executor state moments fork
  | [], state, final, forked, all, n, n', ran => by
    obtain ⟨same, -⟩ := exec_pure.mp ran
    obtain ⟨rfl, isAll⟩ := Prod.mk.inj same
    obtain rfl := ok.inj isAll
    exact ⟨⟨[], .done _⟩, fun fork mem => Or.inl mem⟩
  | op :: rest, state, final, forked, all, n, n', ran => by
    unfold SymExecutor.executeOps at ran
    by_cases stopped : (!state.active) = true
    · rw [if_pos stopped] at ran
      obtain ⟨same, -⟩ := exec_pure.mp ran
      obtain ⟨rfl, isAll⟩ := Prod.mk.inj same
      obtain rfl := ok.inj isAll
      exact ⟨⟨[], .done _⟩, fun fork mem => Or.inl mem⟩
    · rw [if_neg stopped] at ran
      obtain ⟨⟨after, result⟩, k, stepped, ran⟩ := exec_bind.mp ran
      cases result with
      | error message =>
        obtain ⟨same, -⟩ := exec_pure.mp ran
        cases (Prod.mk.inj same).2
      | ok new =>
        obtain ⟨⟨moments, path⟩, forks⟩ := path_executeOps rest ran
        refine ⟨⟨_, .op stepped (Or.inl rfl) path⟩, fun fork mem => ?_⟩
        rcases forks fork mem with before | ⟨moments, path⟩
        · rcases mem_append.mp before with old | isNew
          · exact Or.inl old
          · exact Or.inr ⟨_, .op stepped (Or.inr isNew) (.done fork)⟩
        · exact Or.inr ⟨_, .op stepped (Or.inl rfl) path⟩

theorem path_executeBlock {block : SSABlock} {all : List (SymState BV Formula)} {n n' : Nat}
    (ran : executor.executeBlock state block n = .ok ((final, .ok all), n')) :
    (∃ moments, Path executor state moments final) ∧
      ∀ fork ∈ all, ∃ moments, Path executor state moments fork := by
  obtain ⟨phiMoments, phis⟩ := path_phis state.prevPc block.phis state
  obtain ⟨⟨moments, path⟩, forks⟩ := path_executeOps block.ops ran
  refine ⟨⟨_, phis.append path⟩, fun fork mem => ?_⟩
  rcases forks fork mem with none | ⟨moments, path⟩
  · cases none
  · exact ⟨_, phis.append path⟩

/-! ## What an event leaves alone -/

omit [Z3Arith BV Formula Model] in
theorem lookup_writeVar_of_ne {dst : SSAVar} {value : SymValue BV} {key : String}
    (other : displayName executor.toUppercase dst ≠ key) :
    (executor.writeVar state dst value).registers.lookup key = state.registers.lookup key :=
  AList.lookup_insert_ne other.symm

theorem registers_memWrite {enumerate : Enumerator BV Formula} {addr value : SymValue BV}
    {size n n' : Nat} {after : SymState BV Formula}
    (writes : state.memWrite enumerate addr value size n = (after, n')) :
    after.registers = state.registers := by
  rw [← (Prod.mk.inj writes).1]

omit [Z3Arith BV Formula Model] in
theorem registers_jumpTo (state : SymState BV Formula) (target : SymValue BV) :
    (SymExecutor.jumpTo state target).registers = state.registers := by
  unfold SymExecutor.jumpTo
  split <;> rfl

private theorem valueOf_dst {op : SSAOp} {dst : SSAVar} {run : Exec (SymValue BV)}
    (isValue : executor.valueOf state op = some (dst, run)) : op.dst = some dst := by
  cases op with
  | Phi dst' sources =>
    obtain ⟨src, -, same⟩ := map_eq_some_iff.mp isValue
    exact congrArg some (Prod.mk.inj same).1
  | CallOther output userop inputs =>
    obtain ⟨dst', isOutput, same⟩ := map_eq_some_iff.mp isValue
    exact isOutput.trans (congrArg some (Prod.mk.inj same).1)
  | Store | Fence | StoreConditional | AtomicCAS | StoreGuarded | Branch | CBranch | BranchInd
  | Call | CallInd | Return | Nop | Unimplemented | Breakpoint => cases isValue
  | _ => exact congrArg some (Prod.mk.inj (some.inj isValue)).1

variable {op : SSAOp} {after : SymState BV Formula} {forked : List (SymState BV Formula)}
variable {n n' : Nat} {key : String}

omit [Z3Arith BV Formula Model] in
theorem eq_of_pure {new : List (SymState BV Formula)}
    (steps : (pure (state, .ok new) : Exec (SymExecutor.Outcome BV Formula)) n =
      .ok ((after, .ok forked), n')) : state = after ∧ new = forked := by
  obtain ⟨same, isNew⟩ := Prod.mk.inj (exec_pure.mp steps).1
  exact ⟨same, ok.inj isNew⟩

def LeavesKey (state : SymState BV Formula) (key : String) (after : SymState BV Formula)
    (forked : List (SymState BV Formula)) : Prop :=
  ∀ next, next = after ∨ next ∈ forked → next.registers.lookup key = state.registers.lookup key

theorem leavesKey_of_eq (same : after.registers = state.registers) : LeavesKey state key after [] := by
  rintro next (rfl | none)
  · rw [same]
  · cases none

theorem leavesKey_writeVar {written : SymState BV Formula} {dst : SSAVar} {value : SymValue BV}
    (same : written.registers = state.registers)
    (other : displayName executor.toUppercase dst ≠ key) :
    LeavesKey state key (executor.writeVar written dst value) [] := by
  rintro next (rfl | none)
  · rw [lookup_writeVar_of_ne other, same]
  · cases none

/-- An operation that is no call changes at most the key of its destination. -/
theorem step_leavesKey (noCall : ¬ (Event.op op).isCall = true)
    (steps : executor.step state op n = .ok ((after, .ok forked), n'))
    (other : ∀ dst, op.dst = some dst → displayName executor.toUppercase dst ≠ key) :
    LeavesKey state key after forked := by
  have computed : storingComputed executor state (executor.valueOf state op) n =
      .ok ((after, .ok forked), n') → LeavesKey state key after forked := by
    intro steps
    cases isValue : executor.valueOf state op with
    | none =>
      rw [isValue] at steps
      obtain ⟨rfl, rfl⟩ := eq_of_pure steps
      exact leavesKey_of_eq rfl
    | some found =>
      obtain ⟨dst, value⟩ := found
      rw [isValue] at steps
      obtain ⟨stored, k, -, steps⟩ := exec_bind.mp steps
      obtain ⟨rfl, rfl⟩ := eq_of_pure steps
      rintro next (rfl | none)
      · exact lookup_writeVar_of_ne (other dst (valueOf_dst isValue))
      · cases none
  cases op with
  | Call target | CallInd target => exact absurd rfl noCall
  | Store space addr val =>
    obtain ⟨written, k, writes, steps⟩ := exec_bind.mp steps
    obtain ⟨rfl, rfl⟩ := eq_of_pure steps
    exact leavesKey_of_eq (registers_memWrite (ok.inj writes))
  | StoreConditional result space addr val ordering =>
    obtain ⟨written, k, writes, steps⟩ := exec_bind.mp steps
    have keeps := registers_memWrite (ok.inj writes)
    cases result with
    | none =>
      obtain ⟨rfl, rfl⟩ := eq_of_pure steps
      exact leavesKey_of_eq keeps
    | some dst =>
      obtain ⟨rfl, rfl⟩ := eq_of_pure steps
      exact leavesKey_writeVar keeps (other dst rfl)
  | AtomicCAS dst space addr expected replacement ordering =>
    obtain ⟨old, k, -, steps⟩ := exec_bind.mp steps
    obtain ⟨cond, k, -, steps⟩ := exec_bind.mp steps
    have stored : ∀ {new : SymValue BV} {k : Nat}, (do
        let written ← state.memWrite executor.enumerate (executor.readVar state addr) new dst.size
        return (executor.writeVar written dst old, .ok []) :
          Exec (SymExecutor.Outcome BV Formula)) k = .ok ((after, .ok forked), n') →
        LeavesKey state key after forked := by
      intro new k steps
      obtain ⟨written, k, writes, steps⟩ := exec_bind.mp steps
      obtain ⟨rfl, rfl⟩ := eq_of_pure steps
      exact leavesKey_writeVar (registers_memWrite (ok.inj writes)) (other dst rfl)
    cases isCond : cond.asConcrete with
    | some v =>
      simp only [isCond] at steps
      exact stored steps
    | none =>
      simp only [isCond] at steps
      exact stored steps
  | StoreGuarded space addr val guard ordering =>
    simp only [SymExecutor.step] at steps
    cases isGuard : (executor.readVar state guard).asConcrete with
    | some g =>
      simp only [isGuard] at steps
      by_cases isZero : g ≠ 0
      · rw [if_pos isZero] at steps
        obtain ⟨written, k, writes, steps⟩ := exec_bind.mp steps
        obtain ⟨rfl, rfl⟩ := eq_of_pure steps
        exact leavesKey_of_eq (registers_memWrite (ok.inj writes))
      · rw [if_neg isZero] at steps
        obtain ⟨rfl, rfl⟩ := eq_of_pure steps
        exact leavesKey_of_eq rfl
    | none =>
      simp only [isGuard] at steps
      obtain ⟨old, k, -, steps⟩ := exec_bind.mp steps
      obtain ⟨taken, k, -, steps⟩ := exec_bind.mp steps
      obtain ⟨first, k, -, steps⟩ := exec_bind.mp steps
      obtain ⟨second, k, -, steps⟩ := exec_bind.mp steps
      obtain ⟨written, k, writes, steps⟩ := exec_bind.mp steps
      obtain ⟨rfl, rfl⟩ := eq_of_pure steps
      exact leavesKey_of_eq (registers_memWrite (ok.inj writes))
  | Branch target =>
    obtain ⟨rfl, rfl⟩ := eq_of_pure steps
    exact leavesKey_of_eq (registers_jumpTo _ _)
  | CBranch target cond =>
    simp only [SymExecutor.step] at steps
    cases isCond : (executor.readVar state cond).asConcrete with
    | some c =>
      simp only [isCond] at steps
      obtain ⟨rfl, rfl⟩ := eq_of_pure steps
      refine leavesKey_of_eq ?_
      split_ifs
      · exact registers_jumpTo _ _
      · rfl
    | none =>
      simp only [isCond] at steps
      obtain ⟨trueState, k, isTrue, steps⟩ := exec_bind.mp steps
      obtain ⟨falseState, k, isFalse, steps⟩ := exec_bind.mp steps
      obtain ⟨rfl, rfl⟩ := eq_of_pure steps
      have isTrue := (Prod.mk.inj (ok.inj isTrue)).1
      have isFalse := (Prod.mk.inj (ok.inj isFalse)).1
      rintro next (rfl | mem)
      · rw [← isFalse]
      · rw [mem_singleton.mp mem, registers_jumpTo, ← isTrue]
  | BranchInd target =>
    simp only [SymExecutor.step] at steps
    cases isTarget : (executor.readVar state target).asConcrete <;>
    · simp only [isTarget] at steps
      obtain ⟨rfl, rfl⟩ := eq_of_pure steps
      exact leavesKey_of_eq rfl
  | Return | Unimplemented =>
    obtain ⟨rfl, rfl⟩ := eq_of_pure steps
    exact leavesKey_of_eq rfl
  | _ => exact computed steps

/-- The event takes the state before it to the state after it. -/
def Moment.Happens (executor : SymExecutor BV Formula) (moment : Moment BV Formula) : Prop :=
  match moment.event with
  | .phi dst src =>
    moment.after = executor.writeVar moment.before dst (executor.readVar moment.before src)
  | .op executed => ∃ after forked number', executor.step moment.before executed moment.number =
      .ok ((after, .ok forked), number') ∧
        (moment.after = { after with depth := after.depth + 1 } ∨ moment.after ∈ forked)

theorem Path.uncons {moment : Moment BV Formula} (path : Path executor state (moment :: moments) final) :
    moment.before.registers = state.registers ∧ moment.Happens executor ∧
      Path executor moment.after moments final := by
  generalize isCons : moment :: moments = all at path
  induction path with
  | done _ => cases isCons
  | op steps goesOn later _ =>
    obtain ⟨rfl, rfl⟩ := List.cons.inj isCons
    exact ⟨rfl, ⟨_, _, _, steps, goesOn⟩, later⟩
  | phi dst src later _ =>
    obtain ⟨rfl, rfl⟩ := List.cons.inj isCons
    exact ⟨rfl, rfl, later⟩
  | enter pc prevPc _ ih => exact ih isCons

theorem Path.drop : ∀ {past : List (Moment BV Formula)} {state : SymState BV Formula},
    Path executor state (past ++ moments) final → ∃ middle, Path executor middle moments final
  | [], state, path => ⟨state, path⟩
  | _ :: _, _, path => path.uncons.2.2.drop

theorem Moment.Happens.leavesKey {moment : Moment BV Formula} (happens : moment.Happens executor)
    (noCall : ¬ moment.event.isCall = true)
    (other : ∀ dst, moment.event.dst = some dst → displayName executor.toUppercase dst ≠ key) :
    moment.after.registers.lookup key = moment.before.registers.lookup key := by
  obtain ⟨before, number, event, after⟩ := moment
  cases event with
  | phi dst src =>
    have written : after = executor.writeVar before dst (executor.readVar before src) := happens
    rw [written]
    exact lookup_writeVar_of_ne (other dst rfl)
  | op executed =>
    obtain ⟨left, forked, number', steps, goesOn⟩ := happens
    have leaves := step_leavesKey noCall steps other
    rcases goesOn with isNext | isForked
    · rw [isNext]
      exact leaves left (Or.inl rfl)
    · exact leaves after (Or.inr isForked)

theorem Path.leavesKey : ∀ {mid : List (Moment BV Formula)} {state : SymState BV Formula}
    {next : Moment BV Formula}, Path executor state (mid ++ next :: moments) final →
    (∀ moment ∈ mid, ¬ moment.event.isCall = true ∧
      ∀ dst, moment.event.dst = some dst → displayName executor.toUppercase dst ≠ key) →
    next.before.registers.lookup key = state.registers.lookup key
  | [], _, _, path, _ => by rw [path.uncons.1]
  | moment :: mid, state, next, path, leave => by
    obtain ⟨same, happens, later⟩ := path.uncons
    obtain ⟨noCall, other⟩ := leave moment mem_cons_self
    calc next.before.registers.lookup key
        = moment.after.registers.lookup key :=
          later.leavesKey fun next mem => leave next (mem_cons_of_mem _ mem)
      _ = moment.before.registers.lookup key := happens.leavesKey noCall other
      _ = state.registers.lookup key := by rw [same]

end Paths

/-! ## The search for a register -/

/-- The version of a register that a key names. -/
def versionOf (base key : String) : Option Nat :=
  match splitVersion key with
  | some (stem, version) => if eqIgnoreAsciiCase stem base then some version else none
  | none => none

/-- A key that is the register's name and has no version. -/
def IsBare (base key : String) : Prop := splitVersion key = none ∧ eqIgnoreAsciiCase key base = true

instance (base key : String) : Decidable (IsBare base key) := inferInstanceAs (Decidable (_ ∧ _))

/-- The first key with the highest version: keys that differ in case can share one. -/
structure IsHighest (keys : List String) (base key : String) : Prop where
  noBare : ∀ other ∈ keys, ¬ IsBare base other
  first : ∃ front back version, keys = front ++ key :: back ∧ versionOf base key = some version ∧
    (∀ other ∈ front, ∀ lower, versionOf base other = some lower → lower < version) ∧
    ∀ other ∈ back, ∀ lower, versionOf base other = some lower → lower ≤ version

section Search

variable {base key : String} {version : Nat}

theorem findKeyFrom_cons (noBare : ¬ IsBare base key) (rest : List String)
    (best : Option (Nat × String)) :
    findKeyFrom base (key :: rest) best = findKeyFrom base rest
      (match versionOf base key with
      | some version =>
        if best.all fun found => decide (found.1 < version) then some (version, key) else best
      | none => best) := by
  rw [findKeyFrom]
  unfold versionOf
  cases split : splitVersion key with
  | none =>
    have other : ¬ eqIgnoreAsciiCase key base = true := fun same => noBare ⟨split, same⟩
    simp only [if_neg other]
  | some found =>
    obtain ⟨stem, version⟩ := found
    by_cases isStem : eqIgnoreAsciiCase stem base = true
    · simp only [isStem, Bool.true_and, if_true]
      split_ifs <;> rfl
    · simp only [isStem, Bool.false_and, Bool.false_eq_true, if_false]

theorem findKeyFrom_lower (key : String) : ∀ {keys : List String},
    (∀ other ∈ keys, ¬ IsBare base other) →
    (∀ other ∈ keys, ∀ lower, versionOf base other = some lower → lower ≤ version) →
    findKeyFrom base keys (some (version, key)) = some key
  | [], _, _ => rfl
  | other :: rest, noBare, lower => by
    rw [findKeyFrom_cons (noBare other mem_cons_self)]
    have kept : (match versionOf base other with
        | some found =>
          if (some (version, key)).all fun best => decide (best.1 < found) then
            some (found, other) else some (version, key)
        | none => some (version, key)) = some (version, key) := by
      cases isVersion : versionOf base other with
      | none => rfl
      | some found =>
        have atMost := lower other mem_cons_self found isVersion
        simp [Nat.not_lt.mpr atMost]
    rw [kept]
    exact findKeyFrom_lower key (fun next mem => noBare next (mem_cons_of_mem _ mem))
      fun next mem => lower next (mem_cons_of_mem _ mem)

theorem findKeyFrom_highest (isVersion : versionOf base key = some version) {back : List String}
    (noBareBack : ∀ other ∈ back, ¬ IsBare base other)
    (atMost : ∀ other ∈ back, ∀ lower, versionOf base other = some lower → lower ≤ version)
    (noBareKey : ¬ IsBare base key) : ∀ {front : List String} {best : Option (Nat × String)},
    (∀ other ∈ front, ¬ IsBare base other) →
    (∀ other ∈ front, ∀ lower, versionOf base other = some lower → lower < version) →
    (∀ found ∈ best, found.1 < version) →
    findKeyFrom base (front ++ key :: back) best = some key
  | [], best, _, _, below => by
    rw [nil_append, findKeyFrom_cons noBareKey, isVersion]
    have all : (best.all fun found => decide (found.1 < version)) = true := by
      cases best with
      | none => rfl
      | some found => exact decide_eq_true (below found rfl)
    simp only [all, if_true]
    exact findKeyFrom_lower key noBareBack atMost
  | other :: front, best, noBare, lower, below => by
    rw [cons_append, findKeyFrom_cons (noBare other mem_cons_self)]
    refine findKeyFrom_highest isVersion noBareBack atMost noBareKey
      (fun next mem => noBare next (mem_cons_of_mem _ mem))
      (fun next mem => lower next (mem_cons_of_mem _ mem)) fun found isFound => ?_
    cases isOther : versionOf base other with
    | none =>
      rw [isOther] at isFound
      exact below found isFound
    | some next =>
      rw [isOther] at isFound
      dsimp only at isFound
      split_ifs at isFound
      · obtain rfl := some.inj isFound
        exact lower other mem_cons_self next isOther
      · exact below found isFound

theorem findKeyFrom_unnamed : ∀ {keys : List String} {best : Option (Nat × String)},
    (∀ other ∈ keys, versionOf base other = none ∧ ¬ IsBare base other) →
    findKeyFrom base keys best = best.map Prod.snd
  | [], _, _ => rfl
  | other :: rest, best, unnamed => by
    obtain ⟨noVersion, noBare⟩ := unnamed other mem_cons_self
    rw [findKeyFrom_cons noBare, noVersion]
    exact findKeyFrom_unnamed fun next mem => unnamed next (mem_cons_of_mem _ mem)

variable {state : SymState BV Formula}

theorem findRegisterKey_highest (highest : IsHighest state.registers.keys base key) :
    findRegisterKey state base = some key := by
  obtain ⟨noBare, front, back, version, isKeys, isVersion, below, atMost⟩ := highest
  rw [findRegisterKey, isKeys]
  rw [isKeys] at noBare
  refine findKeyFrom_highest isVersion (fun other mem => noBare other ?_) atMost
    (noBare key ?_) (fun other mem => noBare other ?_) below nofun
  · exact mem_append_right _ (mem_cons_of_mem _ mem)
  · exact mem_append_right _ mem_cons_self
  · exact mem_append_left _ mem

end Search

/-! ## Current versions -/

def summaryHook [Z3Arith BV Formula Model] (summary : FunctionSummary BV Formula)
    (callconv : CallConv) : CallHook BV Formula := fun state => do
  let (state, result) ← applySummary summary callconv state
  return (state, .ok result)

def FunctionSummary.KeepsRegisters (summary : FunctionSummary BV Formula) : Prop :=
  ∀ state call number, (summary.execute state call number).1.1.registers = state.registers

section Current

variable (executor : SymExecutor BV Formula) (callconv : CallConv)
variable (summary : FunctionSummary BV Formula)

def definedKey (base : String) (moment : Moment BV Formula) : Option String :=
  (moment.event.dst.map (displayName executor.toUppercase)).filter fun key =>
    (versionOf base key).isSome

/-- The version of a register that is current after a path: the one defined last, or that of the
entry. -/
def currentKey (past : List (Moment BV Formula)) (base : String) : String :=
  past.foldl (fun current moment => (definedKey executor base moment).getD current)
    (executor.toUppercase base ++ "_0")

def Reads (moment : Moment BV Formula) (src : SSAVar) : Prop :=
  src ∈ moment.event.sources ∧ src.isConst = false ∧ startsWith src.name "ram:" = false

def keyOf (src : SSAVar) : String := displayName executor.toUppercase src

/-- An event defines the version that a variable reads. -/
def DefinesKey (key : String) (moment : Moment BV Formula) : Prop :=
  moment.event.dst.map (displayName executor.toUppercase) = some key

/-- A version read after the call has its meaning from before it: it has not been defined again,
and if it was the current version of the return register another one has. -/
def ReadsFromBefore (past mid : List (Moment BV Formula)) (read : Moment BV Formula)
    (src : SSAVar) : Prop :=
  Reads read src ∧ (∀ moment ∈ mid, ¬ DefinesKey executor (keyOf executor src) moment) ∧
    (keyOf executor src = currentKey executor past callconv.retRegister →
      ∃ moment ∈ mid, (definedKey executor callconv.retRegister moment).isSome)

/-- The first read of the return register after the call, which only definitions at the boundary
of the call come before. -/
def ReadsReturn (past : List (Moment BV Formula)) (call : Moment BV Formula)
    (mid : List (Moment BV Formula)) (read : Moment BV Formula) (src : SSAVar) : Prop :=
  Reads read src ∧
    keyOf executor src = currentKey executor (past ++ call :: mid) callconv.retRegister ∧
    ∀ moment ∈ mid, ¬ moment.event.isCall = true ∧
      ((definedKey executor callconv.retRegister moment).isSome →
        moment.event.isCallDefine = true) ∧
      ∀ other, Reads moment other → versionOf callconv.retRegister (keyOf executor other) = none

variable [Z3Arith BV Formula Model]

def CallsSummary (call : Moment BV Formula) : Prop :=
  ∃ target addr, (call.event = .op (.Call target) ∨ call.event = .op (.CallInd target)) ∧
    (executor.readVar call.before target).asConcrete = some addr ∧
    executor.callHooks.lookup addr = some (summaryHook summary callconv)

/-- The values of the current versions of the argument registers. -/
def currentArgs (past : List (Moment BV Formula)) (state : SymState BV Formula) :
    List (SymValue BV) :=
  (List.range summary.arity).map fun i =>
    match callconv.argRegisters[i]? with
    | some reg => state.getRegisterSized (currentKey executor past reg) callconv.argBits
    | none => .unknown (SymValue.normalizeBvBits callconv.argBits) 0

def effectOf (call : Moment BV Formula) : SummaryEffect BV :=
  (summary.execute call.before (callconv.collectCallInfo call.before summary.arity) call.number).1.2

/-- The summary is run on the current versions of the argument registers, no version that is read
with its meaning from before the call is changed, and the return register is first read as the
result. -/
structure UsesCurrent (past : List (Moment BV Formula)) (call : Moment BV Formula)
    (future : List (Moment BV Formula)) : Prop where
  args : (callconv.collectCallInfo call.before summary.arity).args =
    currentArgs executor callconv summary past call.before
  kept : ∀ {mid read rest src}, future = mid ++ read :: rest →
    ReadsFromBefore executor callconv past mid read src →
    executor.readVar call.after src = executor.readVar call.before src
  returned : ∀ {mid read rest src value}, future = mid ++ read :: rest →
    ReadsReturn executor callconv past call mid read src →
    effectOf callconv summary call = .return (some value) →
    executor.readVar read.before src = SymMemory.adjustBits value callconv.retBits

omit [Z3Arith BV Formula Model] in
/-- The version of a register that is current is the highest one in the state, or the state has
no version of it. -/
def CurrentIsHighest (state : SymState BV Formula) (base current : String) : Prop :=
  IsHighest state.registers.keys base current ∨
    current ∉ state.registers.keys ∧
      ∀ other ∈ state.registers.keys, versionOf base other = none ∧ ¬ IsBare base other

/-- The current version of the return register is the highest one, it is not read after another
one is defined, and no definition at the boundary of the call comes before the first read. -/
structure ReturnIsHighest (past : List (Moment BV Formula)) (call : Moment BV Formula)
    (future : List (Moment BV Formula)) : Prop where
  ret : CurrentIsHighest call.before callconv.retRegister
    (currentKey executor past callconv.retRegister)
  retNamed : (versionOf callconv.retRegister (currentKey executor past callconv.retRegister)).isSome
  retEntry : currentKey executor past callconv.retRegister ∉ call.before.registers.keys →
    currentKey executor past callconv.retRegister = callconv.retRegister ++ "_0"
  unread : ∀ {mid read rest src}, future = mid ++ read :: rest → Reads read src →
    keyOf executor src = currentKey executor past callconv.retRegister →
    (∃ moment ∈ mid, (definedKey executor callconv.retRegister moment).isSome) →
    ∃ moment ∈ mid, DefinesKey executor (keyOf executor src) moment
  boundary : ∀ {mid read rest src}, future = mid ++ read :: rest →
    ReadsReturn executor callconv past call mid read src → ∀ moment ∈ mid,
      moment.event.isCallDefine = true → ¬ (definedKey executor callconv.retRegister moment).isSome

/-- When a call does so: the current versions of its argument registers are the highest ones, and
that of the return register if the summary returns something. -/
structure HasCurrentHighest (past : List (Moment BV Formula)) (call : Moment BV Formula)
    (future : List (Moment BV Formula)) : Prop where
  args : ∀ reg ∈ callconv.argRegisters.take summary.arity,
    CurrentIsHighest call.before reg (currentKey executor past reg)
  result : ∀ value, effectOf callconv summary call = .return (some value) →
    ReturnIsHighest executor callconv past call future

variable {executor callconv summary}
variable {past mid future : List (Moment BV Formula)} {call read : Moment BV Formula} {src : SSAVar}

omit [Z3Arith BV Formula Model] in
variable {state : SymState BV Formula}

private theorem readRegister_current {base current : String}
    (isHighest : CurrentIsHighest state base current) :
    callconv.readRegister state base = state.getRegisterSized current callconv.argBits := by
  unfold CallConv.readRegister
  rcases isHighest with highest | ⟨absent, unnamed⟩
  · rw [findRegisterKey_highest highest]
  · have isNone : findRegisterKey state base = none := findKeyFrom_unnamed unnamed
    have noValue : state.registers.lookup current = none := AList.lookup_eq_none.mpr absent
    rw [isNone, SymState.getRegisterSized, noValue]
    rfl

omit [Z3Arith BV Formula Model] in
private theorem collectCallInfo_current
    (isHighest : ∀ reg ∈ callconv.argRegisters.take summary.arity,
      CurrentIsHighest state reg (currentKey executor past reg)) :
    (callconv.collectCallInfo state summary.arity).args =
      currentArgs executor callconv summary past state := by
  refine map_congr_left fun i below => ?_
  cases isReg : callconv.argRegisters[i]? with
  | none => rfl
  | some reg =>
    have taken : reg ∈ callconv.argRegisters.take summary.arity := by
      refine mem_iff_getElem?.mpr ⟨i, ?_⟩
      rw [List.getElem?_take_of_lt (mem_range.mp below), isReg]
    exact readRegister_current (isHighest reg taken)

theorem registers_applySummary (keeps : summary.KeepsRegisters) (state : SymState BV Formula)
    (number : Nat) :
    (applySummary summary callconv state number).1.1.registers =
      match (summary.execute state (callconv.collectCallInfo state summary.arity) number).1.2 with
      | .return (some value) => state.registers.insert
          ((findRegisterKey state callconv.retRegister).getD (callconv.retRegister ++ "_0"))
          (SymMemory.adjustBits value callconv.retBits)
      | _ => state.registers := by
  have kept := keeps state (callconv.collectCallInfo state summary.arity) number
  simp only [applySummary, bind, StateT.bind]
  revert kept
  generalize summary.execute state (callconv.collectCallInfo state summary.arity) number = run
  obtain ⟨⟨left, effect⟩, number'⟩ := run
  intro kept
  replace kept : left.registers = state.registers := kept
  have sameKey : findRegisterKey left callconv.retRegister =
      findRegisterKey state callconv.retRegister := by
    rw [findRegisterKey, findRegisterKey, kept]
  cases effect with
  | terminate status => exact kept
  | «return» value =>
    cases value with
    | none => exact kept
    | some value =>
      show (callconv.writeReturn left value).registers = _
      simp only [CallConv.writeReturn, SymState.setRegister, sameKey, kept]

/-- The registers after a call: the result is written where the search finds the return
register. -/
theorem registers_call (keeps : summary.KeepsRegisters) (happens : call.Happens executor)
    (calls : CallsSummary executor callconv summary call) :
    call.after.registers =
      match effectOf callconv summary call with
      | .return (some value) => call.before.registers.insert
          ((findRegisterKey call.before callconv.retRegister).getD (callconv.retRegister ++ "_0"))
          (SymMemory.adjustBits value callconv.retBits)
      | _ => call.before.registers := by
  obtain ⟨before, number, event, after⟩ := call
  obtain ⟨target, addr, isCall, isAddr, isHook⟩ := calls
  -- Both calls run the hook of their target.
  have hooked : ∃ left forked number', SymExecutor.runHook before (summaryHook summary callconv)
      number = .ok ((left, .ok forked), number') ∧
        (after = { left with depth := left.depth + 1 } ∨ after ∈ forked) := by
    rcases isCall with isCall | isCall <;>
    · obtain rfl := isCall
      obtain ⟨left, forked, number', steps, goesOn⟩ := happens
      simp only [SymExecutor.step, isAddr, isHook, bind_some] at steps
      exact ⟨left, forked, number', steps, goesOn⟩
  obtain ⟨left, forked, number', ran, goesOn⟩ := hooked
  obtain ⟨⟨hooked, result⟩, k, hook, ran⟩ := exec_bind.mp ran
  obtain ⟨⟨applied, effect⟩, k', apply, hook⟩ := exec_bind.mp hook
  obtain ⟨same, -⟩ := exec_pure.mp hook
  obtain ⟨rfl, rfl⟩ := Prod.mk.inj same
  have isApplied : applied = (applySummary summary callconv before number).1.1 :=
    (congrArg (fun run => run.1.1) (ok.inj apply)).symm
  have left_registers : left.registers = applied.registers ∧ forked = [] := by
    cases effect with
    | fallthrough | jump | terminate =>
      obtain ⟨rfl, rfl⟩ := eq_of_pure ran
      exact ⟨rfl, rfl⟩
  obtain ⟨left_registers, rfl⟩ := left_registers
  rcases goesOn with rfl | mem
  · rw [left_registers, isApplied, registers_applySummary keeps]
    rfl
  · cases mem

theorem keyOf_written {current : String}
    (isHighest : CurrentIsHighest state callconv.retRegister current)
    (isEntry : current ∉ state.registers.keys → current = callconv.retRegister ++ "_0") :
    (findRegisterKey state callconv.retRegister).getD (callconv.retRegister ++ "_0") = current := by
  rcases isHighest with highest | ⟨absent, unnamed⟩
  · rw [findRegisterKey_highest highest, getD_some]
  · have none : findRegisterKey state callconv.retRegister = none := findKeyFrom_unnamed unnamed
    rw [none, getD_none, isEntry absent]

omit [Z3Arith BV Formula Model] in
theorem readVar_of_reads (reads : Reads read src) :
    executor.readVar state src = state.getRegisterSized (keyOf executor src) (src.size * 8) := by
  obtain ⟨-, noConst, noRam⟩ := reads
  simp only [SymExecutor.readVar, noConst, noRam, Bool.false_eq_true, if_false]
  rfl

/-- Between the call and the first read of the return register, its current version stays the
one that the call wrote. -/
theorem currentKey_between (base : String)
    (undefined : ∀ moment ∈ mid, ¬ (definedKey executor base moment).isSome)
    (noDst : call.event.dst = none) :
    currentKey executor (past ++ call :: mid) base = currentKey executor past base := by
  have stays : ∀ {moments : List (Moment BV Formula)} {current : String},
      (∀ moment ∈ moments, ¬ (definedKey executor base moment).isSome) →
      moments.foldl (fun current moment => (definedKey executor base moment).getD current) current =
        current := by
    intro moments
    induction moments with
    | nil => intro current _; rfl
    | cons moment rest ih =>
      intro current none
      have undefinedHere : definedKey executor base moment = .none :=
        not_isSome_iff_eq_none.mp (none moment mem_cons_self)
      rw [foldl_cons, undefinedHere, getD_none]
      exact ih fun next mem => none next (mem_cons_of_mem _ mem)
  unfold currentKey
  rw [foldl_append]
  refine stays fun moment mem => ?_
  rcases mem_cons.mp mem with rfl | isMid
  · simp [definedKey, noDst]
  · exact undefined moment isMid

theorem CallsSummary.isCall (calls : CallsSummary executor callconv summary call) :
    call.event.dst = none := by
  obtain ⟨target, addr, isCall | isCall, -⟩ := calls <;> rw [isCall] <;> rfl

private theorem lookup_call_of_ne (keeps : summary.KeepsRegisters) (happens : call.Happens executor)
    (calls : CallsSummary executor callconv summary call) {key : String}
    (other : key ≠
      (findRegisterKey call.before callconv.retRegister).getD (callconv.retRegister ++ "_0")) :
    call.after.registers.lookup key = call.before.registers.lookup key := by
  rw [registers_call keeps happens calls]
  split
  · exact AList.lookup_insert_ne other
  · rfl

/-- One call uses the current versions if they are the highest. -/
theorem usesCurrent_of_highest {final : SymState BV Formula} (keeps : summary.KeepsRegisters)
    (happens : call.Happens executor) (later : Path executor call.after future final)
    (calls : CallsSummary executor callconv summary call)
    (highest : HasCurrentHighest executor callconv summary past call future) :
    UsesCurrent executor callconv summary past call future := by
  refine ⟨collectCallInfo_current highest.args, ?_, ?_⟩
  · rintro mid read rest src isFuture ⟨reads, undefined, current⟩
    have kept : call.after.registers.lookup (keyOf executor src) =
        call.before.registers.lookup (keyOf executor src) := by
      cases effect : effectOf callconv summary call with
      | terminate _ => rw [registers_call keeps happens calls, effect]
      | «return» value =>
        cases value with
        | none => rw [registers_call keeps happens calls, effect]
        | some value =>
          have highest := highest.result value effect
          refine lookup_call_of_ne keeps happens calls fun isWritten => ?_
          rw [keyOf_written highest.ret highest.retEntry] at isWritten
          obtain ⟨moment, mem, defines⟩ :=
            highest.unread isFuture reads isWritten (current isWritten)
          exact undefined moment mem defines
    rw [readVar_of_reads reads, readVar_of_reads reads, SymState.getRegisterSized,
      SymState.getRegisterSized, kept]
  · intro mid read rest src value isFuture readsReturn returns
    have highest := highest.result value returns
    have written := keyOf_written highest.ret highest.retEntry
    have boundary := highest.boundary isFuture readsReturn
    obtain ⟨reads, isCurrent, before⟩ := readsReturn
    have undefined : ∀ moment ∈ mid,
        ¬ (definedKey executor callconv.retRegister moment).isSome := fun moment mem defines =>
      boundary moment mem ((before moment mem).2.1 defines) defines
    rw [currentKey_between callconv.retRegister undefined calls.isCall] at isCurrent
    have left : call.after.registers.lookup (keyOf executor src) =
        some (SymMemory.adjustBits value callconv.retBits) := by
      rw [registers_call keeps happens calls, returns, written, ← isCurrent]
      exact AList.lookup_insert _
    have unchanged : read.before.registers.lookup (keyOf executor src) =
        call.after.registers.lookup (keyOf executor src) := by
      rw [isFuture] at later
      refine later.leavesKey fun moment mem => ⟨(before moment mem).1, ?_⟩
      intro dst isDst sameKey
      refine undefined moment mem ?_
      rw [definedKey, isDst, map_some, sameKey, isCurrent, filter_some, if_pos highest.retNamed]
      rfl
    rw [readVar_of_reads reads, SymState.getRegisterSized, unchanged, left, getD_some]

/-- On a path whose calls find the current versions of their registers highest, every call with
a summary uses them. -/
theorem summaries_useCurrent {start final : SymState BV Formula}
    {moments : List (Moment BV Formula)} (keeps : summary.KeepsRegisters)
    (path : Path executor start moments final)
    (highest : ∀ past call future, moments = past ++ call :: future →
      CallsSummary executor callconv summary call →
        HasCurrentHighest executor callconv summary past call future) :
    ∀ past call future, moments = past ++ call :: future →
      CallsSummary executor callconv summary call →
        UsesCurrent executor callconv summary past call future := by
  intro past call future isSplit calls
  rw [isSplit] at path
  obtain ⟨middle, fromCall⟩ := path.drop
  obtain ⟨-, happens, later⟩ := fromCall.uncons
  exact usesCurrent_of_highest keeps happens later calls (highest past call future isSplit calls)

end Current

/-! ## Summaries that keep registers -/

section Keeps

variable [Z3Arith BV Formula Model] (enumerate : Enumerator BV Formula)

private theorem registers_fillByte (dst n : SymValue BV)
    (source : SymState BV Formula → SymValue BV → Fresh (SymValue BV)) (state : SymState BV Formula)
    (offset number : Nat) :
    (fillByte enumerate dst n source state offset number).1.registers = state.registers := by
  simp only [fillByte, bind, StateT.bind]
  split_ifs
  · rfl
  · rfl

theorem registers_fillBytes (dst n : SymValue BV) (bound : Word)
    (source : SymState BV Formula → SymValue BV → Fresh (SymValue BV)) (state : SymState BV Formula)
    (number : Nat) :
    (fillBytes enumerate dst n bound source state number).1.registers = state.registers := by
  have rounds : ∀ (offsets : List Nat) (state : SymState BV Formula) (number : Nat),
      (offsets.foldlM (fillByte enumerate dst n source) state number).1.registers =
        state.registers := by
    intro offsets
    induction offsets with
    | nil => intro state number; rfl
    | cons offset rest ih =>
      intro state number
      exact (ih _ _).trans (registers_fillByte enumerate dst n source state _ _)
  unfold fillBytes
  by_cases known : n.isConcrete = true
  · rw [if_pos known]
    exact rounds _ _ _
  · rw [if_neg known]
    exact (rounds _ _ _).trans rfl

private theorem memcpy_keepsRegisters (maxCopy : Word) :
    (memcpySummary enumerate maxCopy).KeepsRegisters := fun state _ number =>
  registers_fillBytes enumerate _ _ maxCopy _ state number

theorem memset_keepsRegisters (maxSet : Word) :
    (memsetSummary enumerate maxSet).KeepsRegisters := fun state _ number =>
  registers_fillBytes enumerate _ _ maxSet _ state number

end Keeps

/-! ## Two calls of `memcpy` -/

namespace MemcpyCall

def hooked : SymExecutor Term (Assignment → Bool) where
  checks := false
  toUppercase := id
  enumerate := noTargets
  callHooks := (∅ : HashMap Word (CallHook Term (Assignment → Bool))).insert 0x401000
    (summaryHook (memcpySummary noTargets defaultMaxMemcpy) .x8664Sysv)

def memcpyAddr : SSAVar := ⟨"ram:401000", 0, 8⟩

def rax (version : Nat) : SSAVar := ⟨"RAX", version, 8⟩

def rbx : SSAVar := ⟨"RBX", 1, 8⟩

/-- No byte is to be copied to `0x2000`. -/
def entered : SymState Term (Assignment → Bool) where
  registers := ((((∅ : HashMap String (SymValue Term)).insert "RDX_0" (.concrete 0 64 0)).insert
    "RSI_0" (.concrete 0x3000 64 0)).insert "RDI_0" (.concrete 0x2000 64 0)).insert
    "RAX_0" (.concrete 7 64 0)
  memory := .new false
  constraints := []
  pc := 0
  prevPc := none
  active := true
  exitStatus := none
  depth := 0

/-- The state after the call, which returns its first argument. -/
def returned : SymState Term (Assignment → Bool) :=
  { entered with
    registers := entered.registers.insert "RAX_0" (.concrete 0x2000 64 0)
    depth := 1 }

private theorem step_call : hooked.step entered (.Call memcpyAddr) 0 =
    .ok (({ returned with depth := 0 }, .ok []), 0) := rfl

def call : Moment Term (Assignment → Bool) := ⟨entered, 0, .op (.Call memcpyAddr), returned⟩

theorem calls (state : SymState Term (Assignment → Bool)) :
    CallsSummary hooked .x8664Sysv (memcpySummary noTargets defaultMaxMemcpy)
      ⟨entered, 0, .op (.Call memcpyAddr), state⟩ :=
  ⟨memcpyAddr, 0x401000, Or.inl rfl, rfl, rfl⟩

/-- A copy of a version of the return register. -/
def copy (state : SymState Term (Assignment → Bool)) (version : Nat) :
    Moment Term (Assignment → Bool) :=
  ⟨state, 0, .op (.Copy rbx (rax version)),
    { hooked.writeVar state rbx (hooked.readVar state (rax version)) with
      depth := state.depth + 1 }⟩

/-- The definition at the boundary of the call. -/
def define : Moment Term (Assignment → Bool) :=
  ⟨returned, 0, .op (.CallDefine (rax 1)),
    { hooked.writeVar returned (rax 1) (.newSymbolic "calldef_RAX_1" 64) with depth := 2 }⟩

theorem path_copy (state : SymState Term (Assignment → Bool)) (version : Nat) :
    Path hooked state [copy state version] (copy state version).after := by
  have steps : hooked.step state (.Copy rbx (rax version)) 0 =
      .ok ((hooked.writeVar state rbx (hooked.readVar state (rax version)), .ok []), 0) := rfl
  exact .op steps (Or.inl rfl) (.done _)

section

variable {moments : List (Moment Term (Assignment → Bool))}
  {final : SymState Term (Assignment → Bool)}

theorem path_call (later : Path hooked returned moments final) :
    Path hooked entered (call :: moments) final :=
  .op step_call (Or.inl rfl) later

private theorem path_define
    (later : Path hooked define.after moments final) :
    Path hooked returned (define :: moments) final := by
  have steps : hooked.step returned (.CallDefine (rax 1)) 0 =
      .ok ((hooked.writeVar returned (rax 1) (.newSymbolic "calldef_RAX_1" 64), .ok []), 0) := rfl
  exact .op steps (Or.inl rfl) later

end

theorem highest_entered {base : String} (isRegister : base ∈ ["RAX", "RDI", "RSI", "RDX"]) :
    CurrentIsHighest entered base
      (currentKey hooked ([] : List (Moment Term (Assignment → Bool))) base) := by
  have only : ∀ front back : List String, entered.registers.keys = front ++ (base ++ "_0") :: back →
      versionOf base (base ++ "_0") = some 0 →
      (∀ other ∈ front ++ back, versionOf base other = none) →
      (∀ other ∈ entered.registers.keys, ¬ IsBare base other) →
      IsHighest entered.registers.keys base (base ++ "_0") := by
    intro front back isKeys isVersion others noBare
    refine ⟨noBare, front, back, 0, isKeys, isVersion, fun other mem lower isLower => ?_,
      fun other mem lower isLower => ?_⟩
    · rw [others other (mem_append_left _ mem)] at isLower
      cases isLower
    · rw [others other (mem_append_right _ mem)] at isLower
      cases isLower
  simp only [mem_cons, not_mem_nil, or_false] at isRegister
  rcases isRegister with rfl | rfl | rfl | rfl
  · exact Or.inl (only [] ["RDI_0", "RSI_0", "RDX_0"] rfl rfl (by decide +kernel) (by decide +kernel))
  · exact Or.inl (only ["RAX_0"] ["RSI_0", "RDX_0"] rfl rfl (by decide +kernel) (by decide +kernel))
  · exact Or.inl (only ["RAX_0", "RDI_0"] ["RDX_0"] rfl rfl (by decide +kernel) (by decide +kernel))
  · exact Or.inl (only ["RAX_0", "RDI_0", "RSI_0"] [] rfl rfl (by decide +kernel)
      (by decide +kernel))

theorem memcpy_usesCurrent : UsesCurrent hooked .x8664Sysv
    (memcpySummary noTargets defaultMaxMemcpy) [] call [copy returned 0] := by
  refine summaries_useCurrent (memcpy_keepsRegisters noTargets defaultMaxMemcpy)
    (path_call (path_copy returned 0)) ?_ [] call [copy returned 0] rfl (calls _)
  intro past next future isSplit callsNext
  -- The copy is no call, so that the call is the first of the two.
  rcases past with _ | ⟨first, past⟩
  · obtain ⟨rfl, rfl⟩ := List.cons.inj isSplit
    have onlyRead : ∀ {mid rest : List (Moment Term (Assignment → Bool))}
        {read : Moment Term (Assignment → Bool)},
        [copy returned 0] = mid ++ read :: rest → mid = [] := by
      intro mid rest read isFuture
      rcases mid with _ | ⟨first, mid⟩
      · rfl
      · have tooLong := congrArg List.length isFuture
        simp at tooLong
    refine ⟨fun reg mem => highest_entered ?_, fun _ _ => ⟨highest_entered (by decide),
      by decide +kernel, fun absent => absurd ?_ absent, fun isFuture _ _ defines => ?_,
      fun isFuture _ moment mem => ?_⟩⟩
    · have isReg : reg ∈ ["RDI", "RSI", "RDX"] := mem
      exact mem_cons_of_mem _ isReg
    · decide +kernel
    · obtain ⟨moment, mem, -⟩ := defines
      rw [onlyRead isFuture] at mem
      exact absurd mem not_mem_nil
    · rw [onlyRead isFuture] at mem
      exact absurd mem not_mem_nil
  · obtain ⟨-, isRest⟩ := List.cons.inj isSplit
    rcases past with _ | ⟨second, past⟩
    · obtain ⟨rfl, -⟩ := List.cons.inj isRest
      obtain ⟨target, addr, isCall | isCall, -⟩ := callsNext <;> cases isCall
    · have tooLong := congrArg List.length isRest
      simp at tooLong

theorem callDefine_hidesResult :
    Path hooked entered [call, define, copy define.after 1] (copy define.after 1).after ∧
      CallsSummary hooked .x8664Sysv (memcpySummary noTargets defaultMaxMemcpy) call ∧
      ¬ UsesCurrent hooked .x8664Sysv (memcpySummary noTargets defaultMaxMemcpy) [] call
        [define, copy define.after 1] := by
  refine ⟨path_call (path_define (path_copy _ 1)), calls _, fun uses => ?_⟩
  have first : ReadsReturn hooked .x8664Sysv [] call [define] (copy define.after 1) (rax 1) := by
    refine ⟨⟨mem_singleton.mpr rfl, rfl, by decide +kernel⟩, by decide +kernel, ?_⟩
    intro moment mem
    obtain rfl := mem_singleton.mp mem
    exact ⟨nofun, fun _ => rfl, fun other reads => absurd reads.1 not_mem_nil⟩
  have read := uses.returned rfl first rfl
  cases read

end MemcpyCall

end R2Sleigh.Sym
