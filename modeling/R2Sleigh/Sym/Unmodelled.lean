import R2Sleigh.Sym.Explore

/-!
Contract: results of operations that the executor does not compute.

Owns `unmodelled`, `Runs` and `Unconstrained`.

The constants are named by the kind of the operation, or by the destination, so that two
executions may share one.
-/

namespace R2Sleigh.Sym

open Il Ssa Option SymValue

variable {BV Formula Model : Type}

def BinaryOp.isFloat : BinaryOp → Bool
  | .FloatAdd | .FloatSub | .FloatMult | .FloatDiv | .FloatEqual | .FloatNotEqual | .FloatLess
  | .FloatLessEqual => true
  | _ => false

def UnaryOp.isFloat : UnaryOp → Bool
  | .FloatNeg | .FloatAbs | .FloatSqrt | .FloatCeil | .FloatFloor | .FloatRound | .FloatNaN
  | .Int2Float | .Float2Int | .FloatFloat | .Trunc => true
  | _ => false

namespace SymExecutor

variable (executor : SymExecutor BV Formula)

/-- The destination of an operation whose result is not computed. -/
def unmodelled (state : SymState BV Formula) : SSAOp → Option SSAVar
  | .CallDefine dst | .CpuId dst | .New dst _ => some dst
  | .CallOther output _ _ => output
  | .StoreConditional result _ _ _ _ => result
  | .Extract dst _ position =>
    if (executor.readVar state position).isConcrete then none else some dst
  | .binary op dst _ _ => if BinaryOp.isFloat op then some dst else none
  | .unary .PopCount dst src | .unary .Lzcount dst src =>
    if (executor.readVar state src).isConcrete then none else some dst
  | .unary op dst _ => if UnaryOp.isFloat op then some dst else none
  | _ => none

/-- The name of the constant stored there; none where a known address makes the status of
a conditional store a success. -/
def resultName (state : SymState BV Formula) : SSAOp → Option String
  | .CallDefine dst => some ("calldef_" ++ displayName executor.toUppercase dst)
  | .CpuId _ => some "cpuid"
  | .New _ _ => some "alloc"
  | .CallOther _ _ _ => some "callother"
  | .StoreConditional _ _ addr _ _ =>
    if (executor.readVar state addr).isConcrete then none else some "store_conditional"
  | .Extract _ _ _ => some "extract"
  | .unary .PopCount _ _ => some "popcount"
  | .unary .Lzcount _ _ => some "lzcount"
  | _ => some "float_op"

/-- The constant an execution stores, by name and width. -/
def resultConstant (state : SymState BV Formula) (op : SSAOp) : Option (String × Nat) :=
  (executor.unmodelled state op).bind fun dst =>
    (executor.resultName state op).map fun name => (name, normalizeBvBits (dst.size * 8))

end SymExecutor

/-! ## Runs -/

structure Execution (BV Formula : Type) where
  state : SymState BV Formula
  op : SSAOp
  after : SymState BV Formula

section Runs

variable [Z3Arith BV Formula Model] (executor : SymExecutor BV Formula)

/-- The operation leaves a state and forks others. -/
def Steps (state : SymState BV Formula) (op : SSAOp) (after : SymState BV Formula)
    (forked : List (SymState BV Formula)) : Prop :=
  ∃ n n', executor.step state op n = .ok ((after, .ok forked), n')

/-- The executions along a path through blocks: a path goes on from the state that an
operation leaves or from one that it forks, and enters a block with its phis. -/
inductive Runs : SymState BV Formula → List (Execution BV Formula) → Prop where
  | done (state : SymState BV Formula) : Runs state []
  | step {state after next : SymState BV Formula} {op : SSAOp}
      {forked : List (SymState BV Formula)} {rest : List (Execution BV Formula)}
      (steps : Steps executor state op after forked)
      (goesOn : next = { after with depth := state.depth + 1 } ∨ next ∈ forked)
      (later : Runs next rest) : Runs state (⟨state, op, after⟩ :: rest)
  | enter {state : SymState BV Formula} (phis : List PhiNode) (pc : Word) (prevPc : Option Word)
      {rest : List (Execution BV Formula)}
      (later : Runs (phis.foldl (executor.executePhi prevPc)
        { state with pc := pc, prevPc := prevPc }) rest) : Runs state rest

/-- The destination of the execution, if its result is not computed, has this value. -/
def Execution.Assigned (e : Execution BV Formula) (m : Model) (value : Nat) : Prop :=
  ∀ dst, executor.unmodelled e.state e.op = some dst →
    ((e.after.registers.lookup (displayName executor.toUppercase dst)).bind (denote m)) = some value

/-- Whatever values are assigned to the executions, some interpretation of the constants
gives each destination its own. -/
def Unconstrained (executions : List (Execution BV Formula)) : Prop :=
  ∀ values : Nat → Nat,
    (∀ i e dst, executions[i]? = some e → executor.unmodelled e.state e.op = some dst →
      values i < 2 ^ normalizeBvBits (dst.size * 8)) →
    ∃ m : Model, ∀ (i : Nat) (e : Execution BV Formula), executions[i]? = some e →
      e.Assigned executor m (values i)

/-- No conditional store has a known address and a status, and no two executions store one
constant. -/
def MadeApart (executions : List (Execution BV Formula)) : Prop :=
  (∀ e ∈ executions, (executor.unmodelled e.state e.op).isSome →
    (executor.resultName e.state e.op).isSome) ∧
  ∀ (i j : Nat) (e e' : Execution BV Formula), executions[i]? = some e →
    executions[j]? = some e' → ∀ constant, executor.resultConstant e.state e.op = some constant →
      executor.resultConstant e'.state e'.op = some constant → i = j

/-! ## One execution -/

variable {executor}

omit [Z3Arith BV Formula Model] in
theorem lookup_writeVar (state : SymState BV Formula) (dst : SSAVar) (value : SymValue BV) :
    (executor.writeVar state dst value).registers.lookup (displayName executor.toUppercase dst) =
      some value :=
  AList.lookup_insert _

private theorem newSymbolic_max (name : String) (bits : Nat) :
    (newSymbolic name (max bits 1) : SymValue BV) = .newSymbolic name bits := by
  simp only [newSymbolic, normalizeBvBits, max_assoc, max_self]

omit [Z3Arith BV Formula Model] in
theorem asConcrete_of_not {value : SymValue BV} (symbolic : ¬ value.isConcrete = true) :
    value.asConcrete = none := by
  simpa [isConcrete] using symbolic

/-- What an execution stores whose result is not computed. -/
def resultValue (name : Option String) (bits : Nat) : SymValue BV :=
  match name with
  | some name => .newSymbolic name bits
  | none => .ofWord 0 bits

variable (executor) in
/-- Store the value that a computation gives. -/
def storing (state : SymState BV Formula) (dst : SSAVar) (run : Exec (SymValue BV)) :
    Exec (SymExecutor.Outcome BV Formula) := do
  return (executor.writeVar state dst (← run), .ok [])

variable (executor) in
/-- Store what an operation computes, if it computes a value. -/
def storingComputed (state : SymState BV Formula) :
    Option (SSAVar × Exec (SymValue BV)) → Exec (SymExecutor.Outcome BV Formula)
  | some (dst, run) => storing executor state dst run
  | none => return (state, .ok [])

theorem stores_of_eq {state after : SymState BV Formula} {op : SSAOp} {dst : SSAVar}
    {value : SymValue BV} {outcome : Except String (List (SymState BV Formula))} {n n' : Nat}
    (isStore : executor.step state op = storing executor state dst (pure value))
    (steps : executor.step state op n = .ok ((after, outcome), n')) :
    after.registers.lookup (displayName executor.toUppercase dst) = some value := by
  rw [isStore] at steps
  obtain ⟨same, -⟩ := Prod.mk.inj (Except.ok.inj steps)
  obtain ⟨rfl, -⟩ := Prod.mk.inj same
  exact lookup_writeVar _ _ _

/-- A count of bits is a new constant where the value is not known. -/
theorem stores_count {state after : SymState BV Formula} {dst src : SSAVar} {kind : UnaryOp}
    {name : String} {outcome : Except String (List (SymState BV Formula))} {n n' : Nat}
    (counts : unaryValue executor.checks (dst.size * 8) (executor.readVar state src) kind =
      pure (.newSymbolic name (dst.size * 8)))
    (steps : executor.step state (.unary kind dst src) n = .ok ((after, outcome), n')) :
    after.registers.lookup (displayName executor.toUppercase dst) =
      some (.newSymbolic name (dst.size * 8)) := by
  refine stores_of_eq ?_ steps
  show storing executor state dst (unaryValue executor.checks (dst.size * 8)
    (executor.readVar state src) kind) = _
  rw [counts]

private theorem step_unmodelled {state after : SymState BV Formula} {op : SSAOp} {dst : SSAVar}
    {outcome : Except String (List (SymState BV Formula))} {n n' : Nat}
    (steps : executor.step state op n = .ok ((after, outcome), n'))
    (isUnmodelled : executor.unmodelled state op = some dst) :
    after.registers.lookup (displayName executor.toUppercase dst) =
      some (resultValue (executor.resultName state op) (dst.size * 8)) := by
  cases op with
  | CallDefine | CpuId | New =>
    cases isUnmodelled
    exact stores_of_eq rfl steps
  | CallOther output userop inputs =>
    cases output with
    | none => cases isUnmodelled
    | some dst' =>
      cases isUnmodelled
      exact stores_of_eq rfl steps
  | binary op dst' a b =>
    cases op <;> first
      | (obtain rfl := some.inj isUnmodelled
         exact stores_of_eq rfl steps)
      | cases isUnmodelled
  | unary op dst' src =>
    cases op with
    | PopCount | Lzcount =>
      simp only [SymExecutor.unmodelled] at isUnmodelled
      split_ifs at isUnmodelled with isConcrete
      cases isUnmodelled
      exact stores_count (by rw [unaryValue, asConcrete_of_not isConcrete]) steps
    | FloatNeg | FloatAbs | FloatSqrt | FloatCeil | FloatFloor | FloatRound | FloatNaN
    | Int2Float | Float2Int | FloatFloat | Trunc =>
      cases isUnmodelled
      exact stores_of_eq rfl steps
    | _ => cases isUnmodelled
  | Extract dst' src position =>
    simp only [SymExecutor.unmodelled] at isUnmodelled
    split_ifs at isUnmodelled with isConcrete
    obtain rfl := some.inj isUnmodelled
    refine stores_of_eq ?_ steps
    have taken : executor.valueOf state (.Extract dst' src position) =
        some (dst', pure (.newSymbolic "extract" (dst'.size * 8))) := by
      simp only [SymExecutor.valueOf, asConcrete_of_not isConcrete]
    show storingComputed executor state
      (executor.valueOf state (.Extract dst' src position)) = _
    rw [taken]
    rfl
  | StoreConditional result space addr val ordering =>
    cases result with
    | none => cases isUnmodelled
    | some dst' =>
      obtain rfl := some.inj isUnmodelled
      obtain ⟨same, -⟩ := exec_pure.mp steps
      obtain ⟨rfl, -⟩ := Prod.mk.inj same
      rw [lookup_writeVar]
      by_cases known : (executor.readVar state addr).asConcrete.isSome = true
      · have isName : executor.resultName state
            (.StoreConditional (some dst') space addr val ordering) = none := if_pos known
        rw [if_pos known, isName]
        simp only [resultValue, ofWord, normalizeBvBits, max_assoc, max_self]
      · have isName : executor.resultName state
            (.StoreConditional (some dst') space addr val ordering) =
              some "store_conditional" := if_neg known
        rw [if_neg known, isName, newSymbolic_max]
        rfl
  | _ => cases isUnmodelled

/-! ## Runs -/

theorem Runs.steps {start : SymState BV Formula} {executions : List (Execution BV Formula)}
    (runs : Runs executor start executions) :
    ∀ e ∈ executions, ∃ forked, Steps executor e.state e.op e.after forked := by
  induction runs with
  | done => exact fun e mem => absurd mem List.not_mem_nil
  | step steps _ _ ih =>
    exact List.forall_mem_cons.mpr ⟨⟨_, steps⟩, ih⟩
  | enter _ _ _ _ ih => exact ih

section Values

variable {start : SymState BV Formula} {executions : List (Execution BV Formula)}

theorem denote_stored {e : Execution BV Formula} (runs : Runs executor start executions)
    (mem : e ∈ executions) {dst : SSAVar}
    (isUnmodelled : executor.unmodelled e.state e.op = some dst) (m : Model) :
    (e.after.registers.lookup (displayName executor.toUppercase dst)).bind (denote m) =
      match executor.resultName e.state e.op with
      | some name => some (Z3.value m
          (Z3.newConst name (normalizeBvBits (dst.size * 8)) : BV))
      | none => some 0 := by
  obtain ⟨forked, n, n', steps⟩ := runs.steps e mem
  rw [step_unmodelled steps isUnmodelled, bind_some]
  cases executor.resultName e.state e.op with
  | some name => rfl
  | none =>
    show some (0 % 2 ^ _) = some 0
    rw [Nat.zero_mod]

omit [Z3Arith BV Formula Model] in
private theorem resultConstant_eq {e : Execution BV Formula} {dst : SSAVar} {name : String}
    (isUnmodelled : executor.unmodelled e.state e.op = some dst)
    (isName : executor.resultName e.state e.op = some name) :
    executor.resultConstant e.state e.op =
      some (name, normalizeBvBits (dst.size * 8)) := by
  rw [SymExecutor.resultConstant, isUnmodelled, bind_some, isName, map_some]

omit [Z3Arith BV Formula Model] in
theorem of_resultConstant {e : Execution BV Formula} {constant : String × Nat}
    (isConstant : executor.resultConstant e.state e.op = some constant) :
    ∃ dst, executor.unmodelled e.state e.op = some dst ∧
      executor.resultName e.state e.op = some constant.1 ∧
      constant.2 = normalizeBvBits (dst.size * 8) := by
  obtain ⟨dst, isUnmodelled, named⟩ := bind_eq_some_iff.mp isConstant
  obtain ⟨name, isName, rfl⟩ := map_eq_some_iff.mp named
  exact ⟨dst, isUnmodelled, isName, rfl⟩

/-- Constants stored by one execution each may take any values. -/
theorem unconstrained_of_madeApart (runs : Runs executor start executions)
    (apart : MadeApart executor executions) : Unconstrained executor executions := by
  classical
  intro values bounded
  obtain ⟨named, single⟩ := apart
  -- The value assigned to the execution that stores a constant.
  have assign : ∃ assign : String → Nat → Nat, ∀ (i : Nat) (e : Execution BV Formula) constant,
      executions[i]? = some e → executor.resultConstant e.state e.op = some constant →
      assign constant.1 constant.2 = values i := by
    refine ⟨fun name bits =>
      if stored : ∃ (i : Nat) (e : Execution BV Formula), executions[i]? = some e ∧
        executor.resultConstant e.state e.op = some (name, bits) then values stored.choose else 0,
      fun i e constant isAt isConstant => ?_⟩
    have stored : ∃ (i : Nat) (e : Execution BV Formula), executions[i]? = some e ∧
        executor.resultConstant e.state e.op = some (constant.1, constant.2) :=
      ⟨i, e, isAt, isConstant⟩
    dsimp only
    rw [dif_pos stored]
    obtain ⟨e', isAt', isConstant'⟩ := stored.choose_spec
    rw [single _ i e' e isAt' isAt constant isConstant' isConstant]
  obtain ⟨assign, assigns⟩ := assign
  obtain ⟨m, interprets⟩ := @Z3.exists_model BV Formula Model _ assign
  refine ⟨m, fun i e isAt dst isUnmodelled => ?_⟩
  have mem := List.mem_of_getElem? isAt
  obtain ⟨name, isName⟩ := isSome_iff_exists.mp (named e mem (by rw [isUnmodelled]; rfl))
  rw [denote_stored runs mem isUnmodelled m, isName]
  dsimp only
  rw [interprets, assigns i e _ isAt (resultConstant_eq isUnmodelled isName),
    Nat.mod_eq_of_lt (bounded i e dst isAt isUnmodelled)]

theorem madeApart_of_unconstrained (runs : Runs executor start executions)
    (unconstrained : Unconstrained executor executions) : MadeApart executor executions := by
  have wide : ∀ bits, 1 < 2 ^ normalizeBvBits bits := fun bits =>
    Nat.one_lt_two_pow (by unfold normalizeBvBits; omega)
  constructor
  · -- A status that is known cannot be one.
    intro e mem isSome
    obtain ⟨dst, isUnmodelled⟩ := isSome_iff_exists.mp isSome
    obtain ⟨i, isAt⟩ := List.getElem?_of_mem mem
    obtain ⟨m, assigned⟩ := unconstrained (fun _ => 1) fun _ _ _ _ _ => wide _
    have isOne := assigned i e isAt dst isUnmodelled
    rw [denote_stored runs mem isUnmodelled m] at isOne
    cases isName : executor.resultName e.state e.op with
    | some name => rfl
    | none =>
      rw [isName] at isOne
      cases isOne
  · -- Of two executions with one constant, only the later is assigned one.
    intro i j e e' isAt isAt' constant isConstant isConstant'
    by_contra differ
    obtain ⟨m, assigned⟩ := unconstrained (fun k => if k = j then 1 else 0) fun k _ _ _ _ => by
      split_ifs
      · exact wide _
      · exact Nat.two_pow_pos _
    obtain ⟨dst, isUnmodelled, isName, isWidth⟩ := of_resultConstant isConstant
    obtain ⟨dst', isUnmodelled', isName', isWidth'⟩ := of_resultConstant isConstant'
    have first := assigned i e isAt dst isUnmodelled
    have second := assigned j e' isAt' dst' isUnmodelled'
    rw [denote_stored runs (List.mem_of_getElem? isAt) isUnmodelled m, isName, ← isWidth,
      if_neg differ] at first
    rw [denote_stored runs (List.mem_of_getElem? isAt') isUnmodelled' m, isName', ← isWidth',
      if_pos rfl] at second
    have same := first.symm.trans second
    cases same

end Values

/-- Along every run, the results that are not computed are unconstrained exactly if no two
executions store one constant and no conditional store has a known status. -/
theorem unconstrained_iff (executor : SymExecutor BV Formula) (start : SymState BV Formula)
    (executions : List (Execution BV Formula)) (runs : Runs executor start executions) :
    Unconstrained executor executions ↔ MadeApart executor executions :=
  ⟨madeApart_of_unconstrained runs, unconstrained_of_madeApart runs⟩

end Runs

/-! ## A loop that asks for the processor -/

namespace CpuIdLoop

def executor : SymExecutor Term (Assignment → Bool) where
  checks := false
  toUppercase := id
  enumerate := fun _ _ _ => ([], false)
  callHooks := ∅

def eax : SSAVar := ⟨"eax", 1, 4⟩

def start : SymState Term (Assignment → Bool) := ⟨∅, .new false, [], 0, none, true, none, 0⟩

/-- The state after the operation in a state. -/
def asked (state : SymState Term (Assignment → Bool)) : SymState Term (Assignment → Bool) :=
  executor.writeVar state eax (.newSymbolic "cpuid" 32)

/-- The state in which the block is entered again. -/
def again : SymState Term (Assignment → Bool) :=
  { asked start with depth := 1, pc := 0, prevPc := some 0 }

/-- The state behind the operation. -/
def behind : SymState Term (Assignment → Bool) := { asked start with depth := 1 }

def allocated : SymState Term (Assignment → Bool) :=
  executor.writeVar behind ⟨"ebx", 1, 4⟩ (.newSymbolic "alloc" 32)

/-- Two operations of different kinds, with results of one width. -/
def once : List (Execution Term (Assignment → Bool)) :=
  [⟨start, .CpuId eax, asked start⟩, ⟨behind, .New ⟨"ebx", 1, 4⟩ eax, allocated⟩]

def twice : List (Execution Term (Assignment → Bool)) :=
  [⟨start, .CpuId eax, asked start⟩, ⟨again, .CpuId eax, asked again⟩]

theorem steps (state : SymState Term (Assignment → Bool)) :
    Steps executor state (.CpuId eax) (asked state) [] := ⟨0, 0, rfl⟩

private theorem runs_once : Runs executor start once :=
  .step (steps start) (.inl rfl) (.step ⟨0, 0, rfl⟩ (.inl rfl) (.done _))

theorem runs_twice : Runs executor start twice :=
  .step (steps start) (.inl rfl) (.enter [] 0 (some 0) (.step (steps again) (.inl rfl) (.done _)))

theorem once_unconstrained : Unconstrained executor once := by
  refine (unconstrained_iff executor start once runs_once).mpr ⟨fun e mem _ => ?_, ?_⟩
  · obtain rfl | rfl : e = _ ∨ e = _ := by simpa [once] using mem
    · rfl
    · rfl
  · intro i j e e' isAt isAt' constant stores stores'
    have constants : (once.map fun e => executor.resultConstant e.state e.op) =
        [some ("cpuid", 32), some ("alloc", 32)] := rfl
    have first := congrArg (·[i]?) constants
    have second := congrArg (·[j]?) constants
    simp only [List.getElem?_map, isAt, isAt', Option.map_some, stores, stores'] at first second
    have distinct : [some ("cpuid", 32), some ("alloc", 32)].Nodup := by decide
    have bound : i < 2 := (List.getElem?_eq_some_iff.mp isAt).1
    exact (List.getElem?_inj bound distinct).mp (first.symm.trans second)

/-- The second time around the result is the one of the first time. -/
theorem twice_not_unconstrained : Runs executor start twice ∧ ¬ Unconstrained executor twice := by
  refine ⟨runs_twice, fun unconstrained => ?_⟩
  have apart := (madeApart_of_unconstrained runs_twice unconstrained).2 0 1 _ _ rfl rfl
    ("cpuid", 32) rfl rfl
  cases apart

end CpuIdLoop

end R2Sleigh.Sym
