import R2Sleigh.Ssa.SccpApply

/-!
Contract: executions of an SSA function.

Owns `Interpretation`.
-/

namespace R2Sleigh.Dec

open Ssa Lib

/-! ## Executions -/

/-- What operations compute from the values of their sources. -/
structure Interpretation (Val Mem : Type) where
  exec : SSAOp → List Val → Mem → Val × Mem
  copy : ∀ dst src v mem, exec (.Copy dst src) [v] mem = (v, mem)

structure State (Val Mem : Type) where
  env : SSAVar → Val
  mem : Mem

section Semantics

variable {Val Mem : Type} (I : Interpretation Val Mem)

def reads (σ : State Val Mem) (op : SSAOp) : List Val := op.sources.map σ.env

def execOp (σ : State Val Mem) (op : SSAOp) : State Val Mem where
  env v := if op.dst = some v then (I.exec op (reads σ op) σ.mem).1 else σ.env v
  mem := (I.exec op (reads σ op) σ.mem).2

def execOps (ops : List SSAOp) (σ : State Val Mem) : State Val Mem := ops.foldl (execOp I) σ

/-- The source of a phi for the block that execution comes from. -/
def sourceFor (phi : PhiNode) (pred : Option Nat) : Option SSAVar :=
  pred.bind fun p => (phi.sources.find? fun source => source.1 = p).map Prod.snd

/-- All phis take their values at once. A phi without a source keeps its
value. -/
def arrive (phis : List PhiNode) (pred : Option Nat) (σ : State Val Mem) : State Val Mem where
  env v := ((phis.find? fun phi => phi.dst = v).bind (sourceFor · pred)).elim (σ.env v) σ.env
  mem := σ.mem

/-- Operations that may leave the block. -/
def transfersControl : SSAOp → Bool
  | .Branch _ | .CBranch _ _ | .BranchInd _ => true
  | _ => false

/-- A step of a run: the operation at which the block is left, if it is not left
at its end, and the next block. -/
structure Step where
  exit : Option Nat
  next : Nat

def executed (ops : List SSAOp) : Option Nat → List SSAOp
  | none => ops
  | some e => ops.take (e + 1)

variable (func : SSAFunction)

/-- Steps along edges that leave each block at a transfer or at its end. -/
def Follows : Nat → List Step → Prop
  | _, [] => True
  | p, step :: rest => ∃ block target, func.getBlock p = some block ∧
      func.getBlock step.next = some target ∧ step.next ∈ func.successors p ∧
      (∀ e, step.exit = some e → ∃ op, block.ops[e]? = some op ∧ transfersControl op) ∧
      Follows step.next rest

def runSteps : Nat → State Val Mem → List Step → Nat × State Val Mem
  | p, σ, [] => (p, σ)
  | p, σ, step :: rest =>
    match func.getBlock p, func.getBlock step.next with
    | some block, some target =>
      runSteps step.next
        (arrive target.phis (some p) (execOps I (executed block.ops step.exit) σ)) rest
    | _, _ => (p, σ)

def runFrom (init : State Val Mem) (steps : List Step) : Nat × State Val Mem :=
  match func.getBlock func.entry with
  | some block => runSteps I func func.entry (arrive block.phis none init) steps
  | none => (func.entry, init)

end Semantics

/-! ## Sequences of operations -/

section Sequences

variable {Val Mem : Type} {I : Interpretation Val Mem}

theorem execOps_append (first second : List SSAOp) (σ : State Val Mem) :
    execOps I (first ++ second) σ = execOps I second (execOps I first σ) :=
  List.foldl_append

theorem execOps_frame {v : SSAVar} {ops : List SSAOp} (undefined : ∀ op ∈ ops, op.dst ≠ some v) :
    ∀ σ : State Val Mem, (execOps I ops σ).env v = σ.env v := by
  induction ops with
  | nil => exact fun _ => rfl
  | cons op ops ih =>
    intro σ
    rw [execOps, List.foldl_cons, ← execOps,
      ih fun op member => undefined op (List.mem_cons_of_mem _ member)]
    exact if_neg (undefined op List.mem_cons_self)

theorem execOp_copy (dst src : SSAVar) (σ : State Val Mem) :
    execOp I σ (.Copy dst src) =
      { env := fun v => if dst = v then σ.env src else σ.env v, mem := σ.mem } := by
  simp [execOp, reads, SSAOp.sources, SSAOp.dst, I.copy]

end Sequences

theorem find?_dst {phis : List PhiNode} (nodup : (phis.map PhiNode.dst).Nodup) {phi : PhiNode}
    (member : phi ∈ phis) : phis.find? (fun other => other.dst = phi.dst) = some phi := by
  cases found : phis.find? fun other => other.dst = phi.dst with
  | none => exact absurd (by simp) (List.find?_eq_none.mp found phi member)
  | some other =>
    have same : other.dst = phi.dst := by simpa using List.find?_some found
    rw [List.inj_on_of_nodup_map nodup (List.mem_of_find?_eq_some found) member same]

end R2Sleigh.Dec
