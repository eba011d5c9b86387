import R2Sleigh.Ssa.PrepChains

/-!
Contract: the passes that prepare roots end where stack roots do not rotate.

Owns `MayCarry`, `Steady` and `FlowsDown`.
-/

namespace R2Sleigh.Ssa.Family

open Il Lib List Option

/-! ## Stack roots that variables may get -/

/-- The sources of an operation whose stack roots it hands on, and what becomes of them. -/
def stackMoves : SSAOp → List (SSAVar × (StackAddressRoot → StackAddressRoot))
  | .Copy dst src | .New dst src | .unary .Cast dst src =>
    [(src, id), (src, normalizeCopiedStackRootForDst dst)]
  | .unary .Trunc _ src | .Subpiece _ src _ => [(src, id)]
  | .binary .IntAdd _ a b =>
    ((constValue b).toList.map fun delta => (a, (offsetBy · delta))) ++
      (constValue a).toList.map fun delta => (b, (offsetBy · delta))
  | .binary .IntSub _ a b => (constValue b).toList.map fun delta =>
    (a, fun base => ⟨base.base, saturate (base.offset - delta.toInt)⟩)
  | _ => []

/-- The stack roots of a variable, and those of its canonical root: a phi hands on what all of
its sources may carry. -/
inductive MayCarry (info : RegisterFamilyInfo) (items : List PrepItem) :
    SSAVar → StackAddressRoot → Prop
  | named {v : SSAVar} {r : StackAddressRoot} (named : stackBaseRootForName v.name = some r) :
      MayCarry info items v r
  | phi {familyState : FamilyRootState} {phi : PhiNode} {r : StackAddressRoot}
      (mem : (familyState, .inl phi) ∈ items) (entered : phi.sources ≠ [])
      (carried : ∀ source ∈ phi.sources,
        MayCarry info items (familySource info familyState source.2) r) :
      MayCarry info items phi.dst r
  | op {familyState : FamilyRootState} {op : SSAOp} {d src : SSAVar}
      {move : StackAddressRoot → StackAddressRoot} {r : StackAddressRoot}
      (mem : (familyState, .inr op) ∈ items) (isDst : op.dst = some d)
      (moves : (src, move) ∈ stackMoves op)
      (carried : MayCarry info items (familySource info familyState src) r) :
      MayCarry info items d (move r)

/-- The stack root of a variable after a number of turns. -/
def stackAt (info : RegisterFamilyInfo) (items : List PrepItem) (v : SSAVar) (t : Nat) :
    Option StackAddressRoot :=
  (factsAt info items t).stackAddressRoots.lookup v

/-- No turn puts another stack root in the place of the one that the variable has. -/
def Undisturbed (info : RegisterFamilyInfo) (items : List PrepItem) (v : SSAVar) : Prop :=
  ∀ t r, stackAt info items v t = some r → stackAt info items v (t + 1) = some r

/-- No stack root is replaced at the variable and where its chain of roots ends, or it takes its
stack root from a steady source of its phi, or from the sources of its operation, which are all
steady. -/
inductive Steady (info : RegisterFamilyInfo) (items : List PrepItem) : SSAVar → Prop
  | kept {v : SSAVar}
      (kept : ∀ t, Undisturbed info items (rootOf (factsAt info items t) v)) :
      Steady info items v
  | phi {familyState : FamilyRootState} {phi : PhiNode} {source : Nat × SSAVar}
      (mem : (familyState, .inl phi) ∈ items) (isSource : source ∈ phi.sources)
      (steady : Steady info items (familySource info familyState source.2)) :
      Steady info items phi.dst
  | op {familyState : FamilyRootState} {op : SSAOp} {d : SSAVar}
      (mem : (familyState, .inr op) ∈ items) (isDst : op.dst = some d)
      (steady : ∀ move ∈ stackMoves op,
        Steady info items (familySource info familyState move.1)) :
      Steady info items d

variable {info : RegisterFamilyInfo} {items : List PrepItem} {item : PrepItem}
  {facts facts' : DecompilePrepFacts} {familyState : FamilyRootState} {v w d e s : SSAVar}
  {r : StackAddressRoot}

private theorem trim_cons {c : Char} (visible : isWhitespace c = false) (text : List Char) :
    ∃ rest, trim (c :: text) = c :: rest := by
  rw [trim, dropWhile_cons_of_neg (by rw [visible]; exact Bool.false_ne_true), trimEnd,
    reverse_cons, dropWhile_append]
  split
  · exact ⟨[], by rw [dropWhile_cons_of_neg (by rw [visible]; exact Bool.false_ne_true)]; rfl⟩
  · exact ⟨_, by rw [reverse_append, reverse_singleton, singleton_append]⟩

private theorem stackBaseRootForName_const (isConst : v.isConst = true) :
    stackBaseRootForName v.name = none := by
  obtain ⟨rest, name⟩ : ∃ rest, v.name.toList = 'c' :: rest := by
    obtain ⟨rest, split⟩ := List.isPrefixOf_iff_prefix.mp isConst
    exact ⟨_, split.symm⟩
  obtain ⟨rest', trimmed⟩ := trim_cons (c := 'c') (by decide) rest
  have apart : ∀ names : List String, (∀ n ∈ names, n.toList.head? ≠ some 'c') →
      toAsciiLowercase (.ofList (trim v.name.toList)) ∉ names := by
    intro names others mem
    refine others _ mem ?_
    rw [name, trimmed, toAsciiLowercase, String.toList_ofList, String.toList_ofList, map_cons]
    rfl
  unfold stackBaseRootForName
  rw [if_neg (apart _ (by decide)), if_neg (apart _ (by decide))]

/-! ## What is carried -/

section Carried

/-- Chains and stack roots agree with what variables may carry. -/
structure Carried (info : RegisterFamilyInfo) (items : List PrepItem)
    (facts : DecompilePrepFacts) : Prop where
  next : ∀ v w r, facts.next v = some w → MayCarry info items w r → MayCarry info items v r
  stack : ∀ v r, facts.stackAddressRoots.lookup v = some r →
    MayCarry info items v r ∧ ∃ item ∈ items, itemDst item = some v

theorem Carried.of_ends (carried : Carried info items facts) (ends : Ends facts.next v e)
    (carries : MayCarry info items e r) : MayCarry info items v r := by
  obtain ⟨n, chain⟩ := ends
  induction chain with
  | stop _ => exact carries
  | step moves _ ih => exact carried.next _ _ r moves (ih carries)

/-- The stack root of a source, from those of the source and of the end of its chain. -/
def resolvedStackRoot (info : RegisterFamilyInfo) (familyState : FamilyRootState) (src : SSAVar)
    (stackRoots : StackRoots) (roots : DecompilePrepFacts) : Option StackAddressRoot :=
  ((stackRoots.lookup src).or
    (stackRoots.lookup (rootOf roots (familySource info familyState src)))).or
      (stackBaseRootForName (rootOf roots (familySource info familyState src)).name)

variable (grounded : Grounded info items facts) (fresh : FreshItems items)
include grounded fresh

theorem resolveStackRoot_eq (src : SSAVar) : resolveStackRoot info familyState src facts =
    resolvedStackRoot info familyState src facts.stackAddressRoots facts := by
  rw [resolveStackRoot, resolveValueRoot_eq fun _ => grounded.next_of_input fresh]
  rfl

theorem Carried.of_resolved (carried : Carried info items facts) {src : SSAVar}
    (resolves : resolveStackRoot info familyState src facts = some r) :
    MayCarry info items (familySource info familyState src) r := by
  have ends := grounded.ends (familySource info familyState src)
  rw [resolveStackRoot_eq grounded fresh, resolvedStackRoot, or_eq_some_iff, or_eq_some_iff]
    at resolves
  rcases resolves with (own | ⟨-, atEnd⟩) | ⟨-, named⟩
  · obtain ⟨carries, item, mem, isDst⟩ := carried.stack src r own
    rwa [familySource, if_pos (fresh.fresh item mem src isDst).1]
  · exact carried.of_ends ends (carried.stack _ r atEnd).1
  · exact carried.of_ends ends (.named named)

end Carried

/-- What all the variables that an item reads may carry, its destination may. -/
theorem MayCarry.of_reads (mem : item ∈ items) (isDst : itemDst item = some d)
    (nonempty : rootReads info item ≠ [])
    (carried : ∀ s ∈ rootReads info item, MayCarry info items s r) : MayCarry info items d r := by
  obtain ⟨familyState, phi | op⟩ := item
  · obtain rfl := some.inj isDst
    refine .phi mem (fun none => nonempty ?_) fun source isSource => carried _ ?_
    · rw [rootReads, List.map_eq_nil_iff, List.map_eq_nil_iff]
      exact none
    · exact List.mem_map.mpr ⟨_, List.mem_map.mpr ⟨source, isSource, rfl⟩, rfl⟩
  · have single {src} (moves : (src, id) ∈ stackMoves op)
        (reads : rootReads info (familyState, .inr op) = [familySource info familyState src]) :
        MayCarry info items d r :=
      .op mem isDst moves (carried _ (by rw [reads]; exact mem_singleton_self _))
    cases op with
    | Copy | New | Subpiece => exact single mem_cons_self rfl
    | unary kind dst src =>
      cases kind with
      | Cast | Trunc => exact single mem_cons_self rfl
      | _ => exact absurd rfl nonempty
    | _ => exact absurd rfl nonempty

theorem commonStackRoot_eq_some {sources : List (Nat × SSAVar)}
    (common : commonStackRoot info familyState facts sources = some r) :
    sources ≠ [] ∧ ∀ source ∈ sources, resolveStackRoot info familyState source.2 facts = some r := by
  cases sources with
  | nil => cases common
  | cons first rest =>
    obtain ⟨root', here, common⟩ := bind_eq_some_iff.mp common
    rw [ite_none_right_eq_some] at common
    obtain ⟨all, same⟩ := common
    cases same
    refine ⟨cons_ne_nil _ _, forall_mem_cons.mpr ⟨here, fun source mem => ?_⟩⟩
    exact of_decide_eq_true (all_eq_true.mp all source mem)

/-- The stack root that an operation sets is the one of a source, as it is handed on. -/
theorem stackUpdate_op {op : SSAOp}
    (isUpdate : stackUpdate info (familyState, .inr op) facts = some r) :
    ∃ move ∈ stackMoves op, ∃ root,
      resolveStackRoot info familyState move.1 facts = some root ∧ r = move.2 root := by
  have copied (dst src : SSAVar) (isUpdate : (resolveStackRoot info familyState src facts).map
        (normalizeCopiedStackRootForDst dst) = some r) :
      ∃ move ∈ stackMoves (.Copy dst src), ∃ root,
        resolveStackRoot info familyState move.1 facts = some root ∧ r = move.2 root := by
    obtain ⟨root, resolves, isRoot⟩ := map_eq_some_iff.mp isUpdate
    refine ⟨(src, normalizeCopiedStackRootForDst dst), mem_cons_of_mem _ (mem_singleton_self _),
      root, resolves, ?_⟩
    dsimp only
    exact isRoot.symm
  cases op with
  | Copy dst src | New dst src => exact copied dst src isUpdate
  | unary kind dst src =>
    cases kind with
    | Cast => exact copied dst src isUpdate
    | _ => cases isUpdate
  | binary kind dst a b =>
    cases kind with
    | IntAdd =>
      have isUpdate : stackAddressRootFromAdd info familyState facts a b = some r := isUpdate
      unfold stackAddressRootFromAdd at isUpdate
      split at isUpdate
      · rename_i root delta resolves isConst
        exact ⟨(a, (offsetBy · delta)), by simp [stackMoves, isConst], root, resolves,
          (some.inj isUpdate).symm⟩
      · split at isUpdate
        · rename_i root delta resolves isConst
          exact ⟨(b, (offsetBy · delta)), by simp [stackMoves, isConst], root, resolves,
            (some.inj isUpdate).symm⟩
        · cases isUpdate
    | IntSub =>
      have isUpdate : stackAddressRootFromSub info familyState facts a b = some r := isUpdate
      unfold stackAddressRootFromSub at isUpdate
      split at isUpdate
      · rename_i root delta resolves isConst
        exact ⟨_, by rw [stackMoves, isConst]; exact mem_singleton_self _, root, resolves,
          (some.inj isUpdate).symm⟩
      · cases isUpdate
    | _ => cases isUpdate
  | _ => cases isUpdate

private theorem stackUpdate_congr {op : SSAOp}
    (same : ∀ move ∈ stackMoves op, resolveStackRoot info familyState move.1 facts =
      resolveStackRoot info familyState move.1 facts') :
    stackUpdate info (familyState, .inr op) facts =
      stackUpdate info (familyState, .inr op) facts' := by
  cases op with
  | Copy dst src | New dst src =>
    exact congrArg (Option.map (normalizeCopiedStackRootForDst dst)) (same (src, id) mem_cons_self)
  | unary kind dst src =>
    cases kind with
    | Cast =>
      exact congrArg (Option.map (normalizeCopiedStackRootForDst dst))
        (same (src, id) mem_cons_self)
    | _ => rfl
  | binary kind dst a b =>
    cases kind with
    | IntAdd =>
      show stackAddressRootFromAdd info familyState facts a b =
        stackAddressRootFromAdd info familyState facts' a b
      unfold stackAddressRootFromAdd
      cases isConst : constValue b with
      | none =>
        cases isConst' : constValue a with
        | none =>
          cases resolveStackRoot info familyState a facts <;>
            cases resolveStackRoot info familyState a facts' <;> simp
        | some delta =>
          have right := same (b, (offsetBy · delta)) (by simp [stackMoves, isConst'])
          cases resolveStackRoot info familyState a facts <;>
            cases resolveStackRoot info familyState a facts' <;> simp [right]
      | some delta =>
        have left := same (a, (offsetBy · delta)) (by simp [stackMoves, isConst])
        cases isConst' : constValue a with
        | none => simp [left]
        | some delta' =>
          have right := same (b, (offsetBy · delta')) (by simp [stackMoves, isConst'])
          simp [left, right]
    | IntSub =>
      show stackAddressRootFromSub info familyState facts a b =
        stackAddressRootFromSub info familyState facts' a b
      unfold stackAddressRootFromSub
      cases isConst : constValue b with
      | none =>
        cases resolveStackRoot info familyState a facts <;>
          cases resolveStackRoot info familyState a facts' <;> simp
      | some delta =>
        have left := same _ (by rw [stackMoves, isConst]; exact mem_singleton_self _)
        simp only [left]
    | _ => rfl
  | _ => rfl

/-! ## Turns -/

theorem FreshItems.not_carries_const (fresh : FreshItems items) (isConst : v.isConst = true) :
    ¬ MayCarry info items v r := by
  intro carries
  have notConst {item} (mem : item ∈ items) (isDst : itemDst item = some v) : False := by
    rw [(fresh.fresh item mem v isDst).2] at isConst
    cases isConst
  cases carries with
  | named named =>
    rw [stackBaseRootForName_const isConst] at named
    cases named
  | phi mem => exact notConst mem rfl
  | op mem isDst => exact notConst mem isDst

section Visit

variable (grounded : Grounded info items facts) (fresh : FreshItems items) (mem : item ∈ items)
include grounded fresh mem

theorem visit_stack (isDst : itemDst item = some d) :
    (∀ u, u ≠ d → (visit info facts item).stackAddressRoots.lookup u =
      facts.stackAddressRoots.lookup u) ∧
    ∃ mid, Grounded info items mid ∧ Midway facts mid (visit info facts item) ∧
      ((visit info facts item).stackAddressRoots.lookup d = facts.stackAddressRoots.lookup d ∨
        ∃ r, stackUpdate info item mid = some r ∧
          (visit info facts item).stackAddressRoots.lookup d = some r) := by
  obtain ⟨mid, midway, sets⟩ := prepItem_sets info ⟨facts, false⟩ isDst
  exact ⟨fun u other => (sets.others u other).2, mid,
    ((grounded.visit fresh mem).1.congr fresh midway.next).1, midway, sets.stack⟩

theorem Carried.visit (carried : Carried info items facts) :
    Carried info items (Family.visit info facts item) := by
  cases isDst : itemDst item with
  | none => rwa [visit_of_no_dst facts isDst]
  | some d =>
    obtain ⟨others, own⟩ := grounded.visit_next fresh isDst
    have next : ∀ v w r, (Family.visit info facts item).next v = some w →
        MayCarry info items w r → MayCarry info items v r := by
      intro v w r moves carries
      by_cases isD : v = d
      · subst isD
        rcases own with same | ⟨e, -, isUpdate, set⟩
        · exact carried.next v w r (same.symm.trans moves) carries
        · obtain rfl := some.inj (set.symm.trans moves)
          obtain ⟨nonempty, takes⟩ := grounded.update_spec fresh isUpdate
          refine .of_reads mem isDst nonempty fun s isRead => ?_
          refine carried.of_ends (grounded.ends s) ?_
          rcases alike_taken item (rootOf facts s) with same | ⟨-, isConst⟩
          · rwa [same, ← takes s isRead]
          · rw [← takes s isRead] at isConst
            exact absurd carries (fresh.not_carries_const isConst)
      · exact carried.next v w r ((others v isD).symm.trans moves) carries
    obtain ⟨otherStacks, mid, groundedMid, midway, ownStack⟩ := visit_stack grounded fresh mem isDst
    refine ⟨next, fun v r isSet => ?_⟩
    have carriedMid : Carried info items mid := by
      refine ⟨fun v w r moves => next v w r ((midway.next v).symm.trans moves), ?_⟩
      rw [midway.stackRoots]
      exact carried.stack
    by_cases isD : v = d
    · subst isD
      rcases ownStack with same | ⟨r', isUpdate, set⟩
      · exact carried.stack v r (same.symm.trans isSet)
      · obtain rfl := some.inj (set.symm.trans isSet)
        refine ⟨?_, item, mem, isDst⟩
        obtain ⟨familyState, phi | op⟩ := item
        · obtain rfl := some.inj isDst
          obtain ⟨nonempty, all⟩ := commonStackRoot_eq_some isUpdate
          exact .phi mem nonempty fun source isSource =>
            carriedMid.of_resolved groundedMid fresh (all source isSource)
        · obtain ⟨move, moves, root, resolves, rfl⟩ := stackUpdate_op isUpdate
          exact .op mem isDst moves (carriedMid.of_resolved groundedMid fresh resolves)
    · exact carried.stack v r ((otherStacks v isD).symm.trans isSet)

end Visit

section Turns

variable (info) (fresh : FreshItems items)
include fresh

theorem carried_factsAt (t : Nat) : Carried info items (factsAt info items t) := by
  induction t with
  | zero => exact ⟨fun v w r moves => absurd moves nofun, fun v r isSet => absurd isSet nofun⟩
  | succ t ih =>
    rcases factsAt_succ info items t with same | ⟨item, mem, turn⟩
    · rw [same]
      exact ih
    · rw [turn]
      exact ih.visit (grounded_factsAt info fresh t) fresh mem

theorem stackAt_succ (mem : item ∈ items) (isDst : itemDst item = some d) (t : Nat) :
    stackAt info items d (t + 1) = stackAt info items d t ∨
      ∃ mid r, Grounded info items mid ∧
        Midway (factsAt info items t) mid (factsAt info items (t + 1)) ∧
        stackUpdate info item mid = some r ∧ stackAt info items d (t + 1) = some r := by
  rw [stackAt, stackAt]
  rcases factsAt_succ info items t with same | ⟨item', mem', turn⟩
  · exact .inl (by rw [same])
  · rw [turn]
    cases isDst' : itemDst item' with
    | none => exact .inl (by rw [visit_of_no_dst _ isDst'])
    | some d' =>
      obtain ⟨others, mid, grounded, midway, own⟩ :=
        visit_stack (grounded_factsAt info fresh t) fresh mem' isDst'
      by_cases isD : d = d'
      · subst isD
        obtain rfl := fresh.unique mem mem' isDst isDst'
        exact own.imp id fun ⟨r, isUpdate, isSet⟩ =>
          ⟨mid, r, grounded, midway, isUpdate, isSet⟩
      · exact .inl (others d isD)

theorem stackAt_none (never : ∀ item ∈ items, itemDst item ≠ some v) (t : Nat) :
    stackAt info items v t = none := by
  refine eq_none_iff_forall_ne_some.mpr fun r isSet => ?_
  obtain ⟨-, item, mem, isDst⟩ := (carried_factsAt info fresh t).stack v r isSet
  exact never item mem isDst

/-- A variable that may carry one stack root only is steady. -/
theorem steady_of_unique
    (unique : ∀ r r', MayCarry info items v r → MayCarry info items v r' → r = r') :
    Steady info items v := by
  refine .kept fun t s r isSet => ?_
  have up {r} := (carried_factsAt info fresh t).of_ends (r := r)
    ((grounded_factsAt info fresh t).ends v)
  obtain ⟨carries, item, mem, isDst⟩ := (carried_factsAt info fresh s).stack _ r isSet
  rcases stackAt_succ info fresh mem isDst s with same | ⟨-, r', -, -, -, set⟩
  · exact same.trans isSet
  · rw [set, unique r' r (up ((carried_factsAt info fresh (s + 1)).stack _ r' set).1) (up carries)]

/-- What an item sees of a source settles with the stack roots of that and of its end. -/
theorem settles_resolved {src : SSAVar}
    (settles : Settles (stackAt info items (familySource info familyState src)) ∧
      Settles fun t => stackAt info items
        (rootOf (factsAt info items t) (familySource info familyState src)) t) :
    Settles fun t => resolvedStackRoot info familyState src
      (factsAt info items t).stackAddressRoots (factsAt info items (t + 1)) := by
  have own : Settles (stackAt info items src) := by
    by_cases isInput : src.version = 0
    · exact .of_eq 0 fun t _ => stackAt_none info fresh (fun item mem isDst =>
        (fresh.fresh item mem src isDst).1 isInput) t
    · have settlesOwn := settles.1
      rwa [familySource, if_pos isInput] at settlesOwn
  have roots := settles_rootOf info fresh (familySource info familyState src)
  obtain ⟨bound, constant⟩ := roots.after
  have together := ((own.pair settles.2).pair roots).map fun all =>
    (all.1.1.or all.1.2).or (stackBaseRootForName all.2.name)
  refine together.of_eventually_eq bound fun t large => ?_
  rw [resolvedStackRoot, ← constant t (t + 1) large (by omega)]
  rfl

theorem resolveStackRoot_midway {mid : DecompilePrepFacts} {t : Nat}
    (grounded : Grounded info items mid)
    (midway : Midway (factsAt info items t) mid (factsAt info items (t + 1))) (src : SSAVar) :
    resolveStackRoot info familyState src mid = resolvedStackRoot info familyState src
      (factsAt info items t).stackAddressRoots (factsAt info items (t + 1)) := by
  have same : ∀ v, rootOf mid v = rootOf (factsAt info items (t + 1)) v := fun v => by
    refine grounded.rootOf_eq ?_
    rw [show mid.next = (factsAt info items (t + 1)).next from funext midway.next]
    exact (grounded_factsAt info fresh (t + 1)).ends v
  rw [resolveStackRoot_eq grounded fresh, resolvedStackRoot, resolvedStackRoot, same,
    midway.stackRoots]

/-- The stack root at the end of a chain settles with that of the destination, and of
something that its item reads. -/
theorem settles_stackAt_end (mem : item ∈ items) (isDst : itemDst item = some d)
    (own : Settles (stackAt info items d))
    (read : rootReads info item ≠ [] → ∃ s ∈ rootReads info item,
      Settles fun t => stackAt info items (rootOf (factsAt info items t) s) t) :
    Settles fun t => stackAt info items (rootOf (factsAt info items t) d) t := by
  obtain ⟨bound, constant⟩ := Settles.together (fun v t => rootOf (factsAt info items t) v)
    (d :: rootReads info item) fun v _ => settles_rootOf info fresh v
  obtain ⟨constantD, constantRead⟩ := forall_mem_cons.mp constant
  have grounded := grounded_factsAt info fresh bound
  cases moves : (factsAt info items bound).next d with
  | none =>
    refine own.of_eventually_eq bound fun t large => ?_
    rw [constantD t bound large le_rfl, rootOf_of_end moves]
  | some w =>
    obtain ⟨item', mem', isDst', nonempty, joined⟩ := grounded.moved d w moves
    obtain rfl := fresh.unique mem mem' isDst isDst'
    obtain ⟨s, isRead, settles⟩ := read nonempty
    rcases joined s isRead with same | ⟨isConst, -⟩
    · refine settles.of_eventually_eq bound fun t large => ?_
      rw [constantD t bound large le_rfl, same, constantRead s isRead t bound large le_rfl]
    · refine .of_eq (a := none) bound fun t large => ?_
      rw [constantD t bound large le_rfl]
      refine stackAt_none info fresh (fun item mem isDst => ?_) t
      rw [(fresh.fresh item mem _ isDst).2] at isConst
      cases isConst

theorem Steady.settles (steady : Steady info items v) : Settles (stackAt info items v) ∧
    Settles fun t => stackAt info items (rootOf (factsAt info items t) v) t := by
  induction steady with
  | @kept v kept =>
    obtain ⟨bound, constant⟩ := (settles_rootOf info fresh v).after
    -- no chain is there before the first turn
    refine ⟨.of_kept (kept 0), .of_eventually_eq (.of_kept (kept bound)) bound fun t large => ?_⟩
    rw [constant t bound large le_rfl]
  | @phi familyState phi source mem isSource _ ih =>
    obtain ⟨bound, constant⟩ := (settles_resolved info fresh ih).after
    have own : Settles (stackAt info items phi.dst) := by
      refine Settles.of_updates bound (fun stack => ∃ t, bound ≤ t ∧
        stack = resolvedStackRoot info familyState source.2
          (factsAt info items t).stackAddressRoots (factsAt info items (t + 1))) ?_
        fun t large => (stackAt_succ info fresh mem rfl t).imp id ?_
      · rintro _ _ ⟨t, large, rfl⟩ ⟨t', large', rfl⟩
        exact constant t t' large large'
      · rintro ⟨mid, r, grounded, midway, isUpdate, set⟩
        refine ⟨t, large, set.trans ?_⟩
        rw [← resolveStackRoot_midway info fresh grounded midway]
        exact ((commonStackRoot_eq_some isUpdate).2 source isSource).symm
    refine ⟨own, settles_stackAt_end info fresh mem rfl own fun _ =>
      ⟨_, List.mem_map.mpr ⟨_, List.mem_map.mpr ⟨source, isSource, rfl⟩, rfl⟩, ih.2⟩⟩
  | @op familyState op d mem isDst _ ih =>
    obtain ⟨bound, constant⟩ := Settles.together
      (fun (move : SSAVar × (StackAddressRoot → StackAddressRoot)) t =>
        resolvedStackRoot info familyState move.1 (factsAt info items t).stackAddressRoots
          (factsAt info items (t + 1))) (stackMoves op)
      fun move moves => settles_resolved info fresh (ih move moves)
    have own : Settles (stackAt info items d) := by
      refine Settles.of_updates bound (fun stack => ∃ t mid, bound ≤ t ∧
        Grounded info items mid ∧ Midway (factsAt info items t) mid (factsAt info items (t + 1)) ∧
        stack = stackUpdate info (familyState, .inr op) mid) ?_
        fun t large => (stackAt_succ info fresh mem isDst t).imp id ?_
      · rintro _ _ ⟨t, mid, large, grounded, midway, rfl⟩ ⟨t', mid', large', grounded', midway', rfl⟩
        refine stackUpdate_congr fun move moves => ?_
        rw [resolveStackRoot_midway info fresh grounded midway,
          resolveStackRoot_midway info fresh grounded' midway']
        exact constant move moves t t' large large'
      · rintro ⟨mid, r, grounded, midway, isUpdate, set⟩
        exact ⟨t, mid, large, grounded, midway, set.trans isUpdate.symm⟩
    refine ⟨own, settles_stackAt_end info fresh mem isDst own fun nonempty => ?_⟩
    obtain ⟨s, isRead⟩ := exists_mem_of_ne_nil _ nonempty
    obtain ⟨src, isSource, rfl⟩ := List.mem_map.mp isRead
    obtain ⟨move, moves⟩ : ∃ move, (src, move) ∈ stackMoves op := by
      cases op with
      | Copy | New | Subpiece =>
        obtain rfl := mem_singleton.mp isSource
        exact ⟨_, mem_cons_self⟩
      | unary kind dst src =>
        cases kind with
        | Cast | Trunc =>
          obtain rfl := mem_singleton.mp isSource
          exact ⟨_, mem_cons_self⟩
        | _ => exact absurd isSource not_mem_nil
      | _ => exact absurd isSource not_mem_nil
    exact ⟨_, isRead, (ih _ moves).2⟩

end Turns

/-! ## Passes -/

private theorem prepItem_facts (state : PrepState) (item : PrepItem) :
    (prepItem info state item).facts = visit info state.facts item := by
  have stack : ∀ (changed changed' : Bool) (facts : DecompilePrepFacts) d root,
      (PrepState.insertStack ⟨facts, changed⟩ d root).facts =
        (PrepState.insertStack ⟨facts, changed'⟩ d root).facts := by
    intro changed changed' facts d root
    cases root <;> rfl
  obtain ⟨facts, changed⟩ := state
  obtain ⟨familyState, phi | op⟩ := item
  · show (prepPhi info familyState ⟨facts, changed⟩ phi).facts =
      (prepPhi info familyState ⟨facts, false⟩ phi).facts
    unfold prepPhi
    dsimp only
    split
    · exact stack ..
    · exact stack ..
  · have inserted : (prepInsert info familyState ⟨facts, changed⟩ op).facts =
        (prepInsert info familyState ⟨facts, false⟩ op).facts := by
      cases op with
      | Copy | New => exact stack ..
      | unary kind _ _ =>
        cases kind with
        | Cast => exact stack ..
        | _ => rfl
      | binary kind _ _ _ =>
        cases kind with
        | IntAdd | IntSub => exact stack ..
        | _ => rfl
      | _ => rfl
    show (prepOp info familyState ⟨facts, changed⟩ op).facts =
      (prepOp info familyState ⟨facts, false⟩ op).facts
    unfold prepOp
    cases op.dst with
    | none => exact inserted
    | some d => simp only [PrepState.ensureIdentity, inserted]

theorem foldl_prepItem_facts (l : List PrepItem) : ∀ state : PrepState,
    (l.foldl (prepItem info) state).facts = l.foldl (visit info) state.facts := by
  induction l with
  | nil => exact fun _ => rfl
  | cons item rest ih =>
    intro state
    rw [foldl_cons, ih, prepItem_facts, foldl_cons]

private theorem present_visit (facts : DecompilePrepFacts) (item : PrepItem) (u : SSAVar)
    (present : (facts.canonicalValueRoots.lookup u).isSome) :
    ((visit info facts item).canonicalValueRoots.lookup u).isSome := by
  cases isDst : itemDst item with
  | none => rwa [visit_of_no_dst facts isDst]
  | some d =>
    obtain ⟨mid, -, sets⟩ := prepItem_sets info ⟨facts, false⟩ isDst
    rw [visit]
    by_cases isU : u = d
    · subst isU
      rcases sets.own with same | ⟨-, isSelf⟩ | ⟨e, -, isSet⟩
      · rwa [same]
      · rw [isSelf]
        rfl
      · rw [isSet]
        rfl
    · rcases (sets.others u isU).1 with same | ⟨-, isSelf⟩
      · rwa [same]
      · rw [isSelf]
        rfl

private theorem lookup_of_nextRoot {roots roots' : ValueRoots} {v : SSAVar}
    (same : nextRoot roots' v = nextRoot roots v)
    (present : (roots'.lookup v).isSome = (roots.lookup v).isSome) :
    roots'.lookup v = roots.lookup v := by
  unfold nextRoot at same
  cases found : roots.lookup v with
  | none =>
    rw [found, isSome_none, isSome_eq_false_iff, isNone_iff_eq_none] at present
    exact present
  | some w =>
    rw [found, isSome_some] at present
    obtain ⟨w', found'⟩ := isSome_iff_exists.mp present
    rw [found, found', filter_some, filter_some] at same
    rw [found']
    by_cases isSelf : w = v <;> by_cases isSelf' : w' = v
    · rw [isSelf, isSelf']
    · simp [isSelf, isSelf'] at same
    · simp [isSelf, isSelf'] at same
    · simpa [isSelf, isSelf'] using same

def factsAfter (info : RegisterFamilyInfo) (inStates : HashMap Nat FamilyRootState)
    (func : SSAFunction) (n : Nat) : DecompilePrepFacts :=
  (fun facts => (prepPass info inStates func facts).facts)^[n] ⟨∅, ∅⟩

section Passes

variable {inStates : HashMap Nat FamilyRootState} {func : SSAFunction}

theorem collectFactsFrom_isSome_iff : (∃ fuel, (collectFactsFrom info inStates func fuel).isSome) ↔
    ∃ n, (prepPass info inStates func (factsAfter info inStates func n)).changed = false := by
  have loop : ∀ fuel facts, prepLoop info inStates func (fuel + 1) facts =
      if (prepPass info inStates func facts).changed then
        prepLoop info inStates func fuel (prepPass info inStates func facts).facts
      else some (prepPass info inStates func facts).facts := by
    intro fuel facts
    rw [prepLoop]
    cases prepPass info inStates func facts with
    | mk next changed => cases changed <;> rfl
  let round (facts : DecompilePrepFacts) : DecompilePrepFacts × Bool :=
    ((prepPass info inStates func facts).facts, (prepPass info inStates func facts).changed)
  exact @returns_iff_of_rounds _ _ round (fun _ => rfl) loop ⟨∅, ∅⟩

private theorem factsAfter_eq (n : Nat) : factsAfter info inStates func n =
    factsAt info (prepItems info inStates func) (n * (prepItems info inStates func).length) := by
  induction n with
  | zero => rw [Nat.zero_mul]; rfl
  | succ n ih =>
    rw [factsAfter, Function.iterate_succ_apply', ← factsAfter, prepPass_eq, foldl_prepItem_facts,
      ih, factsAt, foldl_turns]

variable (fresh : FreshItems (prepItems info inStates func))
include fresh

/-- The loop returns: once all roots have settled, a pass changes nothing. -/
theorem collectFactsFrom_returns_of_steady
    (steady : ∀ v, Steady info (prepItems info inStates func) v) :
    ∃ fuel, (collectFactsFrom info inStates func fuel).isSome := by
  let items := prepItems info inStates func
  let present (u : SSAVar) (t : Nat) : Prop :=
    ((factsAt info items t).canonicalValueRoots.lookup u).isSome = true
  have kept : ∀ u t, present u t → present u (t + 1) := by
    intro u t isPresent
    show ((factsAt info items (t + 1)).canonicalValueRoots.lookup u).isSome = true
    rcases factsAt_succ info items t with same | ⟨item, -, turn⟩
    · rwa [same]
    · rw [turn]
      exact present_visit _ item u isPresent
  obtain ⟨bound, constant⟩ := Settles.together
    (fun u t => (((factsAt info items t).next u, stackAt info items u t), present u t))
    (items.filterMap itemDst) fun d mem => by
      obtain ⟨item, mem, isDst⟩ := mem_filterMap.mp mem
      exact ((settles_next info fresh mem isDst fun s _ => settles_rootOf info fresh s).pair
        ((steady d).settles info fresh).1).pair (Settles.of_monotone (kept d))
  refine collectFactsFrom_isSome_iff.mpr ⟨bound, ?_⟩
  by_contra changed
  rw [prepPass_eq, factsAfter_eq] at changed
  rcases foldl_raised (prepItem info) PrepState.changed _ _ (Bool.not_eq_false _ ▸ changed) with
    impossible | ⟨before, item, after, split, low, raises⟩
  · cases impossible
  set start := bound * items.length
  have early : ∀ k ≤ items.length, ((items.take k).foldl (prepItem info)
      ⟨factsAt info items start, false⟩).facts = factsAt info items (start + k) := fun k small =>
    (foldl_prepItem_facts _ _).trans (foldl_take_turns (visit info) items ⟨∅, ∅⟩ bound small)
  have length : before.length < items.length := by
    rw [show items = _ from split, length_append, length_cons]
    omega
  have here := early before.length (Nat.le_of_lt length)
  have there := early (before.length + 1) length
  rw [show items.take (before.length + 1) = before ++ [item] by
    rw [show items = _ from split, take_length_add_append]; rfl, foldl_append] at there
  rw [show items.take before.length = before by rw [show items = _ from split, take_left]] at here
  set state := before.foldl (prepItem info) ⟨factsAt info items start, false⟩
  have there : (prepItem info state item).facts =
      factsAt info items (start + (before.length + 1)) := there
  cases isDst : itemDst item with
  | none =>
    rw [prepItem_of_no_dst info _ isDst, low] at raises
    cases raises
  | some d =>
    have mem : d ∈ items.filterMap itemDst := mem_filterMap.mpr ⟨item, by
      rw [show items = _ from split]; simp, isDst⟩
    have large : bound ≤ start := Nat.le_mul_of_pos_right bound (Nat.zero_lt_of_lt length)
    obtain ⟨sameRoots, samePresent⟩ := Prod.mk.inj (constant d mem (start + (before.length + 1))
      (start + before.length) (by omega) (by omega))
    obtain ⟨sameNext, sameStack⟩ := Prod.mk.inj sameRoots
    rw [stackAt, stackAt] at sameStack
    rw [← here, ← there] at sameNext sameStack
    have samePresent : (((prepItem info state item).facts.canonicalValueRoots.lookup d).isSome = true)
        = ((state.facts.canonicalValueRoots.lookup d).isSome = true) := by
      rw [here, there]
      exact samePresent
    obtain ⟨mid, -, sets⟩ := prepItem_sets info state isDst
    rcases sets.flag raises with wasRaised | rootChanged | stackChanged
    · rw [low] at wasRaised
      cases wasRaised
    · exact rootChanged (lookup_of_nextRoot sameNext (Bool.eq_iff_iff.mpr (iff_of_eq samePresent)))
    · exact stackChanged sameStack

end Passes

/-! ## Ranks -/

/-- What an item reads lies below what it sets; of the sources of a phi one does at
least. -/
structure FlowsDown (rank : SSAVar → Nat) (items : List PrepItem) : Prop where
  constants : ∀ item ∈ items, ∀ d, itemDst item = some d → ∀ n width,
    rank (.constant n width) < rank d
  state : ∀ item ∈ items, ∀ d, itemDst item = some d → ∀ slot v,
    item.1.lookup slot = some v → rank v < rank d
  phi : ∀ familyState phi, (familyState, .inl phi) ∈ items →
    ∃ source ∈ phi.sources, rank source.2 < rank phi.dst
  op : ∀ familyState op d, (familyState, .inr op) ∈ items → op.dst = some d →
    ∀ src ∈ op.sources, rank src < rank d

theorem source_of_stackMoves {op : SSAOp} {move : SSAVar × (StackAddressRoot → StackAddressRoot)}
    (moves : move ∈ stackMoves op) : move.1 ∈ op.sources := by
  cases op with
  | Copy | New | Subpiece =>
    simp only [stackMoves, mem_cons, not_mem_nil, or_false] at moves
    rcases moves with rfl | rfl <;> exact mem_singleton_self _
  | unary kind _ _ =>
    cases kind <;> simp only [stackMoves, mem_cons, not_mem_nil, or_false] at moves
    all_goals
      rcases moves with rfl | rfl <;> exact mem_singleton_self _
  | binary kind _ _ _ =>
    cases kind <;> simp only [stackMoves, mem_append, List.mem_map, not_mem_nil] at moves
    · rcases moves with ⟨_, -, rfl⟩ | ⟨_, -, rfl⟩ <;> simp [SSAOp.sources]
    · obtain ⟨_, -, rfl⟩ := moves
      simp [SSAOp.sources]
  | _ => exact absurd moves not_mem_nil

/-- A variable that no item sets carries the root of its name alone. -/
theorem steady_of_undefined (fresh : FreshItems items) (undefined : ¬ ∃ item ∈ items, itemDst item = some v) :
    Steady info items v := by
  refine steady_of_unique info fresh fun r r' carries carries' => ?_
  have byName {r} (carries : MayCarry info items v r) : stackBaseRootForName v.name = some r := by
    cases carries with
    | named named => exact named
    | phi mem => exact absurd ⟨_, mem, rfl⟩ undefined
    | op mem isDst => exact absurd ⟨_, mem, isDst⟩ undefined
  exact some.inj ((byName carries).symm.trans (byName carries'))

/-- Where roots come from below every variable is steady. -/
theorem FlowsDown.steady {rank : SSAVar → Nat} (flows : FlowsDown rank items)
    (fresh : FreshItems items) (v : SSAVar) :
    Steady info items v := by
  have below {item d src} (mem : item ∈ items) (isDst : itemDst item = some d)
      (lower : rank src < rank d) : rank (familySource info item.1 src) < rank d := by
    unfold familySource
    split
    · exact lower
    · cases adapts : (info.memberFor src).bind fun mem =>
          (item.1.lookup ⟨mem.familyId, src.size⟩).bind fun root =>
            adaptFamilyRoot root src.size with
      | none => exact lower
      | some adapted =>
        obtain ⟨_, -, adapts⟩ := bind_eq_some_iff.mp adapts
        obtain ⟨root, found, adapts⟩ := bind_eq_some_iff.mp adapts
        exact holds_adaptFamilyRoot (rank · < rank d) (flows.constants item mem d isDst)
          (flows.state item mem d isDst _ _ found) adapts
  induction isRank : rank v using Nat.strongRecOn generalizing v with
  | _ _ ih =>
    subst isRank
    by_cases defined : ∃ item ∈ items, itemDst item = some v
    · obtain ⟨⟨familyState, phi | op⟩, mem, isDst⟩ := defined
      · obtain rfl := some.inj isDst
        obtain ⟨source, isSource, lower⟩ := flows.phi familyState phi mem
        exact .phi mem isSource (ih _ (below mem rfl lower) _ rfl)
      · refine .op mem isDst fun move moves => ih _ (below mem isDst ?_) _ rfl
        exact flows.op familyState op v mem isDst _ (source_of_stackMoves moves)
    · exact steady_of_undefined fresh defined

end R2Sleigh.Ssa.Family
