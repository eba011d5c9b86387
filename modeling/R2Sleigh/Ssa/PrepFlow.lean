import R2Sleigh.Lib.Chains
import R2Sleigh.Lib.Settling
import R2Sleigh.Ssa.PrepFacts

/-!
Contract: what one phi or operation does to the prepared facts.

Owns `rootUpdate` and `stackUpdate`.
-/

namespace R2Sleigh.Ssa.Family

open Il Lib Option

/-! ## Chains of roots -/

/-- The root of a variable, unless it is its own. -/
def nextRoot (roots : ValueRoots) (v : SSAVar) : Option SSAVar := (roots.lookup v).filter (· ≠ v)

private theorem canonicalWalk_of_ends {roots : ValueRoots} (fuel : Nat) :
    ∀ {n seen v e}, EndsIn (nextRoot roots) n v e → n < fuel →
      (∀ u ∈ seen, ∃ m, n < m ∧ EndsIn (nextRoot roots) m u e) →
      canonicalWalk roots fuel seen v = e := by
  induction fuel with
  | zero => exact fun _ impossible => absurd impossible (Nat.not_lt_zero _)
  | succ fuel ih =>
    intro n seen v e ends small left
    -- what was left before is farther from the end
    have fresh : v ∉ seen := by
      intro mem
      obtain ⟨m, farther, again⟩ := left v mem
      have same := (again.unique ends).1
      omega
    rw [canonicalWalk]
    cases found : roots.lookup v with
    | none =>
      have stops : nextRoot roots v = none := by rw [nextRoot, found]; rfl
      exact (ends.unique (.stop stops)).2.symm
    | some next =>
      by_cases same : next = v
      · have stops : nextRoot roots v = none := by
          rw [nextRoot, found, filter_some, if_neg (by simp [same])]
        dsimp only
        rw [if_pos (Or.inl same)]
        exact (ends.unique (.stop stops)).2.symm
      · have moves : nextRoot roots v = some next := by
          rw [nextRoot, found, filter_some, if_pos (by simp [same])]
        dsimp only
        rw [if_neg (not_or.mpr ⟨same, fresh⟩)]
        cases ends with
        | stop undefined => rw [moves] at undefined; cases undefined
        | @step n _ _ _ defined rest =>
          obtain rfl := some.inj (moves.symm.trans defined)
          refine ih rest (by omega) fun u mem => ?_
          rcases List.mem_cons.mp mem with rfl | mem
          · exact ⟨n + 1, by omega, .step defined rest⟩
          · obtain ⟨m, farther, again⟩ := left u mem
            exact ⟨m, by omega, again⟩

theorem canonicalizeValueRoot_of_ends {roots : ValueRoots} {v e : SSAVar}
    (ends : Ends (nextRoot roots) v e) : canonicalizeValueRoot v roots = e := by
  obtain ⟨n, ends⟩ := ends
  refine canonicalWalk_of_ends _ ends ?_ nofun
  have atMost := ends.le_length (roots.entries.map Sigma.fst) fun u isSome => by
    rw [nextRoot] at isSome
    cases found : roots.lookup u with
    | none => rw [found] at isSome; cases isSome
    | some w => exact AList.lookup_isSome.mp (by rw [found]; rfl)
  rw [List.length_map] at atMost
  omega

private theorem lookup_orInsertSelf (roots : ValueRoots) (e u : SSAVar) :
    (if (roots.lookup e).isSome then roots else roots.insert e e).lookup u =
      if u = e ∧ roots.lookup u = none then some u else roots.lookup u := by
  cases found : roots.lookup e with
  | none =>
    rw [if_neg (by simp), HashMap.lookup_insert_ite]
    by_cases same : u = e
    · subst same
      rw [if_pos rfl, if_pos ⟨rfl, found⟩]
    · rw [if_neg same, if_neg fun both => same both.1]
  | some w =>
    rw [if_pos (show (some w).isSome = true from rfl), if_neg]
    rintro ⟨rfl, absent⟩
    rw [found] at absent
    cases absent

/-- The destination gets the canonical root, which becomes its own root unless it
has one. -/
theorem lookup_insertCanonicalRoot (roots : ValueRoots) (dst root u : SSAVar) :
    (insertCanonicalRoot roots dst root).1.lookup u =
      if u = dst then some (canonicalizeValueRoot root roots)
      else if u = canonicalizeValueRoot root roots ∧ roots.lookup u = none then some u
      else roots.lookup u := by
  refine (lookup_orInsertSelf _ _ _).trans ?_
  rw [HashMap.lookup_insert_ite]
  by_cases isDst : u = dst
  · rw [if_pos isDst, if_pos isDst, if_neg (by simp)]
  · rw [if_neg isDst, if_neg isDst]

theorem nextRoot_eq_none_of_self {roots : ValueRoots} {v : SSAVar} (found : roots.lookup v = some v) :
    nextRoot roots v = none := by
  rw [nextRoot, found, filter_some, if_neg (by simp)]

theorem nextRoot_congr {roots roots' : ValueRoots} {v : SSAVar}
    (same : roots'.lookup v = roots.lookup v ∨ (roots.lookup v = none ∧ roots'.lookup v = some v)) :
    nextRoot roots' v = nextRoot roots v := by
  rcases same with same | ⟨absent, isSelf⟩
  · rw [nextRoot, nextRoot, same]
  · rw [nextRoot_eq_none_of_self isSelf, nextRoot, absent]
    rfl

/-! ## Passes as folds over items -/

/-- Each member with the state that it is reached in. -/
def scan {S A : Type} (effect : S → A → S) : S → List A → List (S × A)
  | _, [] => []
  | state, a :: rest => (state, a) :: scan effect (effect state a) rest

theorem foldl_scan {S A B : Type} (effect : S → A → S) (step : S → B → A → B) (l : List A) :
    ∀ (state : S) (b : B),
      l.foldl (fun acc a => (effect acc.1 a, step acc.1 acc.2 a)) (state, b) =
        (l.foldl effect state, (scan effect state l).foldl (fun b item => step item.1 b item.2) b) := by
  induction l with
  | nil => exact fun _ _ => rfl
  | cons a rest ih =>
    exact fun state b => ih (effect state a) (step state b a)

/-- A phi or an operation, with the family state it is reached in. -/
abbrev PrepItem := FamilyRootState × (PhiNode ⊕ SSAOp)

def itemDst (item : PrepItem) : Option SSAVar := item.2.elim (fun phi => some phi.dst) SSAOp.dst

def prepItem (info : RegisterFamilyInfo) (state : PrepState) (item : PrepItem) : PrepState :=
  item.2.elim (prepPhi info item.1 state) (prepOp info item.1 state)

def blockItems (info : RegisterFamilyInfo) (familyState : FamilyRootState) (block : SSABlock) :
    List PrepItem :=
  (scan (applyPhiFamilyEffect info) familyState block.phis).map (Prod.map id .inl) ++
    (scan (fun state op => applyOpFamilyEffect info op state)
      (block.phis.foldl (applyPhiFamilyEffect info) familyState) block.ops).map (Prod.map id .inr)

def prepItems (info : RegisterFamilyInfo) (inStates : HashMap Nat FamilyRootState)
    (func : SSAFunction) : List PrepItem :=
  func.blockOrder.flatMap fun addr =>
    ((func.getBlock addr).map (blockItems info ((inStates.lookup addr).getD ∅))).getD []

section

variable (info : RegisterFamilyInfo) (inStates : HashMap Nat FamilyRootState) (func : SSAFunction)
include info inStates func

private theorem prepBlock_eq
    (state : PrepState) (addr : Nat) :
    prepBlock info inStates func state addr =
      (((func.getBlock addr).map (blockItems info ((inStates.lookup addr).getD ∅))).getD []).foldl
        (prepItem info) state := by
  unfold prepBlock
  cases func.getBlock addr with
  | none => rfl
  | some block =>
    simp only [foldl_scan (applyPhiFamilyEffect info) (prepPhi info),
      foldl_scan (fun state op => applyOpFamilyEffect info op state) (prepOp info),
      map_some, getD_some, blockItems, List.foldl_append, List.foldl_map]
    rfl

theorem prepPass_eq
    (facts : DecompilePrepFacts) :
    prepPass info inStates func facts =
      (prepItems info inStates func).foldl (prepItem info) ⟨facts, false⟩ := by
  rw [prepPass, prepItems, List.foldl_flatMap]
  exact congrFun (congrFun (congrArg List.foldl (funext₂ (prepBlock_eq info inStates func))) _) _

end

/-! ## What an item sets -/

/-- Only the roots of `d` are set, to these values if at all; other variables may
become their own root. -/
structure Sets (d : SSAVar) (root : Option SSAVar) (stack : Option StackAddressRoot)
    (before after : PrepState) : Prop where
  others : ∀ u, u ≠ d →
    (after.facts.canonicalValueRoots.lookup u = before.facts.canonicalValueRoots.lookup u ∨
      (before.facts.canonicalValueRoots.lookup u = none ∧
        after.facts.canonicalValueRoots.lookup u = some u)) ∧
    after.facts.stackAddressRoots.lookup u = before.facts.stackAddressRoots.lookup u
  own : after.facts.canonicalValueRoots.lookup d = before.facts.canonicalValueRoots.lookup d ∨
    (before.facts.canonicalValueRoots.lookup d = none ∧
      after.facts.canonicalValueRoots.lookup d = some d) ∨
    ∃ e, root = some e ∧ after.facts.canonicalValueRoots.lookup d = some e
  stack : after.facts.stackAddressRoots.lookup d = before.facts.stackAddressRoots.lookup d ∨
    ∃ r, stack = some r ∧ after.facts.stackAddressRoots.lookup d = some r
  flag : after.changed = true → before.changed = true ∨
    after.facts.canonicalValueRoots.lookup d ≠ before.facts.canonicalValueRoots.lookup d ∨
    after.facts.stackAddressRoots.lookup d ≠ before.facts.stackAddressRoots.lookup d

theorem PrepState.ensureIdentity_eq (state : PrepState) (d : SSAVar) :
    state.ensureIdentity d = if (state.facts.canonicalValueRoots.lookup d).isSome then state
      else ⟨{ state.facts with
        canonicalValueRoots := state.facts.canonicalValueRoots.insert d d }, true⟩ := by
  cases found : (state.facts.canonicalValueRoots.lookup d).isSome <;>
    simp [ensureIdentity, ensureValueRootIdentity, found]

namespace Sets

variable {d : SSAVar} {root : Option SSAVar} {before after : PrepState}

theorem refl (d : SSAVar) (state : PrepState) : Sets d none none state state :=
  ⟨fun _ _ => ⟨.inl rfl, rfl⟩, .inl rfl, .inl rfl, .inl⟩

theorem insertRoot (state : PrepState) (d root : SSAVar) :
    Sets d (some (canonicalizeValueRoot root state.facts.canonicalValueRoots)) none state
      (state.insertRoot d root) := by
  have lookups := lookup_insertCanonicalRoot state.facts.canonicalValueRoots d root
  have here : (state.insertRoot d root).facts.canonicalValueRoots.lookup d =
      some (canonicalizeValueRoot root state.facts.canonicalValueRoots) :=
    (lookups d).trans (if_pos rfl)
  refine ⟨fun u other => ⟨?_, rfl⟩, .inr (.inr ⟨_, rfl, here⟩), .inl rfl, fun changed => ?_⟩
  · have lookup := lookups u
    rw [if_neg other] at lookup
    split at lookup
    · rename_i isNew
      exact .inr ⟨isNew.2, lookup⟩
    · exact .inl lookup
  · rcases Bool.or_eq_true _ _ ▸ changed with changed | changed
    · exact .inl changed
    · rw [here]
      exact .inr (.inl (Ne.symm (of_decide_eq_true changed)))

theorem insertStack (sets : Sets d root none before after) (stack : Option StackAddressRoot) :
    Sets d root stack before (after.insertStack d stack) := by
  have kept := sets.stack.resolve_right fun ⟨_, impossible, _⟩ => nomatch impossible
  cases stack with
  | none => exact sets
  | some r =>
    have lookups (u) : (insertStackRoot after.facts.stackAddressRoots d r).1.lookup u =
        if u = d then some r else after.facts.stackAddressRoots.lookup u := by
      unfold insertStackRoot
      split
      · rename_i found
        exact (ite_eq_right_iff.mpr fun same => by rw [same, found]).symm
      · exact HashMap.lookup_insert_ite _ _ _ _
    have here : (after.insertStack d (some r)).facts.stackAddressRoots.lookup d = some r :=
      (lookups d).trans (if_pos rfl)
    refine ⟨fun u other => ⟨(sets.others u other).1,
      ((lookups u).trans (if_neg other)).trans (sets.others u other).2⟩, sets.own,
      .inr ⟨r, rfl, here⟩, fun changed => ?_⟩
    rw [here, ← kept]
    by_cases found : after.facts.stackAddressRoots.lookup d = some r
    · refine (sets.flag ?_).imp id fun changed => changed.imp id (absurd kept)
      simpa [PrepState.insertStack, insertStackRoot, found] using changed
    · exact .inr (.inr (Ne.symm found))

theorem ensureIdentity {stack : Option StackAddressRoot} (sets : Sets d root stack before after) :
    Sets d root stack before (after.ensureIdentity d) := by
  rw [PrepState.ensureIdentity_eq]
  split
  · exact sets
  · rename_i unknown
    have found := not_isSome_iff_eq_none.mp unknown
    -- then nothing has been set before
    have absent : before.facts.canonicalValueRoots.lookup d = none := by
      rcases sets.own with same | ⟨-, isSelf⟩ | ⟨e, -, isSet⟩
      · exact same.symm.trans found
      · cases found.symm.trans isSelf
      · cases found.symm.trans isSet
    have isSelf : (after.facts.canonicalValueRoots.insert d d).lookup d = some d :=
      AList.lookup_insert _
    refine ⟨fun u other => ?_, .inr (.inl ⟨absent, isSelf⟩), sets.stack, fun _ => .inr (.inl ?_)⟩
    · rw [AList.lookup_insert_ne other]
      exact sets.others u other
    · rw [absent]
      exact fun same => nomatch isSelf.symm.trans same

end Sets

private theorem nextRoot_ensureIdentity (state : PrepState) (d u : SSAVar) :
    nextRoot (state.ensureIdentity d).facts.canonicalValueRoots u =
      nextRoot state.facts.canonicalValueRoots u := by
  rw [PrepState.ensureIdentity_eq]
  split
  · rfl
  · rename_i unknown
    refine nextRoot_congr ?_
    rw [HashMap.lookup_insert_ite]
    by_cases same : u = d
    · subst same
      exact .inr ⟨not_isSome_iff_eq_none.mp unknown, if_pos rfl⟩
    · exact .inl (if_neg same)

/-- The root that an item sets its destination to. -/
def rootUpdate (info : RegisterFamilyInfo) (item : PrepItem) (facts : DecompilePrepFacts) :
    Option SSAVar :=
  let resolve (src : SSAVar) := resolveValueRoot info item.1 src facts.canonicalValueRoots
  (match item.2 with
    | .inl phi => commonRoot (phi.sources.map fun source : Nat × SSAVar => resolve source.2)
    | .inr (.Copy _ src) | .inr (.unary .Cast _ src) | .inr (.New _ src) => some (resolve src)
    | .inr (.unary .Trunc dst src) | .inr (.Subpiece dst src _) =>
      some ((adaptFamilyRoot (resolve src) dst.size).getD (resolve src))
    | _ => none).map fun root => canonicalizeValueRoot root facts.canonicalValueRoots

/-- The stack root that an item sets its destination to, once its root is set. -/
def stackUpdate (info : RegisterFamilyInfo) (item : PrepItem) (facts : DecompilePrepFacts) :
    Option StackAddressRoot :=
  match item.2 with
  | .inl phi => commonStackRoot info item.1 facts phi.sources
  | .inr (.Copy dst src) | .inr (.unary .Cast dst src) | .inr (.New dst src) =>
    (resolveStackRoot info item.1 src facts).map (normalizeCopiedStackRootForDst dst)
  | .inr (.binary .IntAdd _ a b) => stackAddressRootFromAdd info item.1 facts a b
  | .inr (.binary .IntSub _ a b) => stackAddressRootFromSub info item.1 facts a b
  | _ => none

/-- The chains are those afterwards, the stack roots those before. -/
structure Midway (before mid after : DecompilePrepFacts) : Prop where
  next : ∀ u, nextRoot mid.canonicalValueRoots u = nextRoot after.canonicalValueRoots u
  stackRoots : mid.stackAddressRoots = before.stackAddressRoots

/-- The root of `d` is set first, if it is, and its stack root then. -/
theorem insert_sets (state : PrepState) (d : SSAVar) (root : Option SSAVar)
    (stack : DecompilePrepFacts → Option StackAddressRoot) :
    let mid := root.elim state (state.insertRoot d)
    let after := mid.insertStack d (stack mid.facts)
    Midway state.facts mid.facts after.facts ∧
      Sets d (root.map (canonicalizeValueRoot · state.facts.canonicalValueRoots))
        (stack mid.facts) state after := by
  refine ⟨⟨fun u => ?_, ?_⟩, ?_⟩
  · cases stack _ <;> rfl
  · cases root <;> rfl
  · cases root with
    | none => exact (Sets.refl d state).insertStack _
    | some root => exact (Sets.insertRoot state d root).insertStack _

section

variable (info : RegisterFamilyInfo)
include info

private theorem prepPhi_sets (familyState : FamilyRootState) (state : PrepState)
    (phi : PhiNode) : ∃ mid,
      Midway state.facts mid (prepPhi info familyState state phi).facts ∧
      Sets phi.dst (rootUpdate info (familyState, .inl phi) state.facts)
        (stackUpdate info (familyState, .inl phi) mid) state
        (prepPhi info familyState state phi) := by
  have sets (root) := insert_sets state phi.dst root fun facts =>
    commonStackRoot info familyState facts phi.sources
  rw [prepPhi, rootUpdate]
  dsimp only
  cases commonRoot (phi.sources.map fun source =>
      resolveValueRoot info familyState source.2 state.facts.canonicalValueRoots) with
  | none => exact ⟨_, sets none⟩
  | some root => exact ⟨_, sets (some root)⟩

private theorem prepInsert_sets (familyState : FamilyRootState)
    (state : PrepState) {op : SSAOp} {d : SSAVar} (isDst : op.dst = some d) :
    ∃ mid, Midway state.facts mid (prepInsert info familyState state op).facts ∧
      Sets d (rootUpdate info (familyState, .inr op) state.facts)
        (stackUpdate info (familyState, .inr op) mid) state
        (prepInsert info familyState state op) := by
  have copied (src) := insert_sets state d
    (some (resolveValueRoot info familyState src state.facts.canonicalValueRoots)) fun facts =>
      (resolveStackRoot info familyState src facts).map (normalizeCopiedStackRootForDst d)
  have truncated (root) := insert_sets state d (some root) fun _ => none
  have added (stack) := insert_sets state d none stack
  have unset := insert_sets state d none fun _ => none
  cases op with
  | Copy dst src | New dst src =>
    cases isDst
    exact ⟨_, copied src⟩
  | Subpiece dst src offset =>
    cases isDst
    exact ⟨_, truncated _⟩
  | unary kind dst src =>
    cases isDst
    cases kind with
    | Cast => exact ⟨_, copied src⟩
    | Trunc => exact ⟨_, truncated _⟩
    | _ => exact ⟨_, unset⟩
  | binary kind dst a b =>
    cases isDst
    cases kind with
    | IntAdd => exact ⟨_, added fun facts => stackAddressRootFromAdd info familyState facts a b⟩
    | IntSub => exact ⟨_, added fun facts => stackAddressRootFromSub info familyState facts a b⟩
    | _ => exact ⟨_, unset⟩
  | _ => exact ⟨_, unset⟩

theorem prepItem_sets (state : PrepState) {item : PrepItem} {d : SSAVar}
    (isDst : itemDst item = some d) : ∃ mid,
      Midway state.facts mid (prepItem info state item).facts ∧
      Sets d (rootUpdate info item state.facts) (stackUpdate info item mid) state
        (prepItem info state item) := by
  obtain ⟨familyState, phi | op⟩ := item
  · obtain rfl := some.inj isDst
    exact prepPhi_sets info familyState state phi
  · have isDst : op.dst = some d := isDst
    obtain ⟨mid, midway, sets⟩ := prepInsert_sets info familyState state isDst
    have unfolded : prepItem info state (familyState, .inr op) =
        (prepInsert info familyState state op).ensureIdentity d := by
      rw [prepItem, Sum.elim_inr, prepOp, isDst]
    rw [unfolded]
    refine ⟨mid, ⟨fun u => ?_, midway.stackRoots⟩, sets.ensureIdentity⟩
    exact (midway.next u).trans (nextRoot_ensureIdentity _ d u).symm

theorem prepItem_of_no_dst (state : PrepState) {item : PrepItem}
    (noDst : itemDst item = none) : prepItem info state item = state := by
  obtain ⟨familyState, phi | op⟩ := item
  · cases noDst
  · have noDst : op.dst = none := noDst
    rw [prepItem, Sum.elim_inr, prepOp, noDst]
    cases op with
    | unary | binary => cases noDst
    | _ => first | rfl | cases noDst

end

end R2Sleigh.Ssa.Family
