import R2Sleigh.Ssa.FamilyFlow
import R2Sleigh.Ssa.PrepFlow

/-!
Contract: the canonical roots that passes prepare stop changing.

Owns `rootReads`, `taken` and `Grounded`.

A constant can be narrowed after it was handed on. It is handed on along a
well-founded order, since a circle of items that read one another ends in itself.
-/

namespace R2Sleigh.Ssa.Family

open Il Lib List Option Relation

abbrev DecompilePrepFacts.next (facts : DecompilePrepFacts) (v : SSAVar) : Option SSAVar :=
  nextRoot facts.canonicalValueRoots v

/-- The canonical root of a variable. -/
def rootOf (facts : DecompilePrepFacts) (v : SSAVar) : SSAVar :=
  canonicalizeValueRoot v facts.canonicalValueRoots

/-! ## What items read -/

/-- The variable whose chain is followed for a source: for an input of the function, what
the state has for it. -/
def familySource (info : RegisterFamilyInfo) (familyState : FamilyRootState) (src : SSAVar) :
    SSAVar :=
  if src.version ≠ 0 then src
  else ((info.memberFor src).bind fun mem =>
    (familyState.lookup ⟨mem.familyId, src.size⟩).bind fun root =>
      adaptFamilyRoot root src.size).getD src

def rootReads (info : RegisterFamilyInfo) (item : PrepItem) : List SSAVar :=
  (match item.2 with
    | .inl phi => phi.sources.map Prod.snd
    | .inr (.Copy _ src) | .inr (.New _ src) | .inr (.unary .Cast _ src)
    | .inr (.unary .Trunc _ src) | .inr (.Subpiece _ src _) => [src]
    | _ => []).map (familySource info item.1)

/-- The root that an item sets, from that of what it reads. -/
def taken (item : PrepItem) (root : SSAVar) : SSAVar :=
  match item.2 with
  | .inr (.unary .Trunc dst _) | .inr (.Subpiece dst _ _) =>
    (adaptFamilyRoot root dst.size).getD root
  | _ => root

/-- Equal, or both constants. -/
def Alike (x y : SSAVar) : Prop := x = y ∨ (x.isConst = true ∧ y.isConst = true)

theorem Alike.symm {x y : SSAVar} (alike : Alike x y) : Alike y x := alike.imp Eq.symm And.symm

theorem Alike.trans {x y z : SSAVar} (first : Alike x y) (second : Alike y z) : Alike x z := by
  rcases first with rfl | ⟨isConst, isConst'⟩
  · exact second
  · rcases second with rfl | ⟨-, isConst''⟩
    · exact .inr ⟨isConst, isConst'⟩
    · exact .inr ⟨isConst, isConst''⟩

theorem alike_taken (item : PrepItem) (root : SSAVar) : Alike root (taken item root) := by
  have adapted : ∀ width, Alike root ((adaptFamilyRoot root width).getD root) := by
    intro width
    unfold adaptFamilyRoot
    split
    · exact .inl rfl
    · split
      · rename_i isConst
        cases constValue root with
        | none => exact .inl rfl
        | some value => exact .inr ⟨isConst, SSAVar.isConst_constant _ _⟩
      · exact .inl rfl
  unfold taken
  split
  · exact adapted _
  · exact adapted _
  · exact .inl rfl

theorem commonRoot_eq_some {l : List SSAVar} {root : SSAVar} (common : commonRoot l = some root) :
    l ≠ [] ∧ ∀ v ∈ l, v = root := by
  cases l with
  | nil => cases common
  | cons first rest =>
    rw [commonRoot, ite_none_right_eq_some] at common
    obtain ⟨all, same⟩ := common
    cases same
    refine ⟨cons_ne_nil _ _, forall_mem_cons.mpr ⟨rfl, fun v mem => ?_⟩⟩
    exact of_decide_eq_true (all_eq_true.mp all v mem)

variable {info : RegisterFamilyInfo} {items : List PrepItem} {item : PrepItem}
  {facts facts' : DecompilePrepFacts} {familyState : FamilyRootState} {v w d e s : SSAVar}

theorem rootOf_of_end (isEnd : facts.next v = none) : rootOf facts v = v :=
  canonicalizeValueRoot_of_ends (ends_of_undefined isEnd)

section Reads

variable (inputs : ∀ v : SSAVar, v.version = 0 → facts.next v = none)
include inputs

theorem resolveValueRoot_eq (var : SSAVar) :
    resolveValueRoot info familyState var facts.canonicalValueRoots =
      rootOf facts (familySource info familyState var) := by
  unfold resolveValueRoot familySource
  dsimp only
  by_cases isInput : var.version = 0
  · have isEnd : canonicalizeValueRoot var facts.canonicalValueRoots = var :=
      rootOf_of_end (inputs var isInput)
    rw [if_neg (not_not.mpr isEnd), if_neg (not_not.mpr isInput), if_neg (not_not.mpr isInput)]
    cases info.memberFor var with
    | none => exact isEnd.symm
    | some mem =>
      rw [bind_some]
      dsimp only
      cases familyState.lookup ⟨mem.familyId, var.size⟩ with
      | none => exact isEnd.symm
      | some root =>
        rw [bind_some]
        dsimp only
        cases adaptFamilyRoot root var.size with
        | none => exact isEnd.symm
        | some adapted => rfl
  · split
    · rfl
    · rename_i isEnd
      exact (not_not.mp isEnd).symm

private theorem rootUpdate_spec (ended : ∀ v, facts.next (rootOf facts v) = none)
    (constants : ∀ v : SSAVar, v.isConst = true → facts.next v = none)
    (isUpdate : rootUpdate info item facts = some e) :
    rootReads info item ≠ [] ∧ ∀ s ∈ rootReads info item, e = taken item (rootOf facts s) := by
  -- what is taken is an end
  have isEnd : ∀ s, canonicalizeValueRoot (taken item (rootOf facts s)) facts.canonicalValueRoots =
      taken item (rootOf facts s) := by
    intro s
    refine rootOf_of_end ?_
    rcases alike_taken item (rootOf facts s) with same | ⟨-, isConst⟩
    · rw [← same]
      exact ended s
    · exact constants _ isConst
  have single : ∀ src, rootReads info item = [familySource info item.1 src] →
      e = canonicalizeValueRoot (taken item
        (resolveValueRoot info item.1 src facts.canonicalValueRoots)) facts.canonicalValueRoots →
      rootReads info item ≠ [] ∧ ∀ s ∈ rootReads info item, e = taken item (rootOf facts s) := by
    rintro src reads rfl
    rw [reads, resolveValueRoot_eq inputs, isEnd]
    exact ⟨cons_ne_nil _ _, forall_mem_singleton.mpr rfl⟩
  obtain ⟨familyState, phi | op⟩ := item
  · obtain ⟨root, common, rfl⟩ := map_eq_some_iff.mp isUpdate
    obtain ⟨nonempty, all⟩ := commonRoot_eq_some common
    refine ⟨fun none => nonempty ?_, fun s mem => ?_⟩
    · rw [rootReads, List.map_eq_nil_iff, List.map_eq_nil_iff] at none
      rw [none, map_nil]
    · obtain ⟨src, isRead, rfl⟩ := List.mem_map.mp mem
      obtain ⟨source, isSource, rfl⟩ :=
        List.mem_map.mp (show src ∈ phi.sources.map Prod.snd from isRead)
      have here : resolveValueRoot info familyState source.2 facts.canonicalValueRoots = root :=
        all _ (List.mem_map.mpr ⟨source, isSource, rfl⟩)
      rw [resolveValueRoot_eq inputs] at here
      rw [← here]
      exact isEnd (familySource info familyState source.2)
  · cases op with
    | Copy dst src | New dst src | Subpiece dst src offset =>
      exact single src rfl (some.inj isUpdate).symm
    | unary kind dst src =>
      cases kind with
      | Cast | Trunc => exact single src rfl (some.inj isUpdate).symm
      | _ => cases isUpdate
    | _ => cases isUpdate

end Reads

/-! ## Chains that end -/

/-- No two items have one destination, and none is an input or a constant. -/
structure FreshItems (items : List PrepItem) : Prop where
  distinct : (items.filterMap itemDst).Nodup
  fresh : ∀ item ∈ items, ∀ d, itemDst item = some d → d.version ≠ 0 ∧ d.isConst = false

/-- The destination ends like everything that the item reads. -/
def Joined (info : RegisterFamilyInfo) (facts : DecompilePrepFacts) (item : PrepItem)
    (d : SSAVar) : Prop :=
  ∀ s ∈ rootReads info item, Alike (rootOf facts d) (rootOf facts s)

/-- What the root of a variable is taken from: the next one of its chain, or what a joined
item reads. -/
def Behind (info : RegisterFamilyInfo) (items : List PrepItem) (facts : DecompilePrepFacts)
    (s d : SSAVar) : Prop :=
  s.isConst = false ∧ (facts.next d = some s ∨
    ∃ item ∈ items, itemDst item = some d ∧ Joined info facts item d ∧ s ∈ rootReads info item)

/-- An end that may still be merged into another one, or that is no destination. -/
def Open (info : RegisterFamilyInfo) (items : List PrepItem) (facts : DecompilePrepFacts)
    (e : SSAVar) : Prop :=
  ∀ item ∈ items, itemDst item = some e → ¬ Joined info facts item e

structure Grounded (info : RegisterFamilyInfo) (items : List PrepItem)
    (facts : DecompilePrepFacts) : Prop where
  acyclic : ∀ v, ∃ e, Ends facts.next v e
  moved : ∀ v w, facts.next v = some w → ∃ item ∈ items, itemDst item = some v ∧
    rootReads info item ≠ [] ∧ Joined info facts item v
  founded : ∀ v, Open info items facts (rootOf facts v) → Acc (Behind info items facts) v

theorem FreshItems.open_of_const (fresh : FreshItems items) (isConst : e.isConst = true) :
    Open info items facts e := by
  intro item mem isDst
  rw [(fresh.fresh item mem e isDst).2] at isConst
  cases isConst

private theorem grounded_empty (info : RegisterFamilyInfo) (items : List PrepItem) :
    Grounded info items ⟨∅, ∅⟩ := by
  refine ⟨fun v => ⟨v, ends_of_undefined rfl⟩, fun v w moves => absurd moves nofun, fun v isOpen => ?_⟩
  have isEnd : ∀ u, rootOf ⟨∅, ∅⟩ u = u := fun u => rootOf_of_end rfl
  refine ⟨_, fun s behind => ?_⟩
  rcases behind.2 with moves | ⟨item, mem, isDst, joined, -⟩
  · cases moves
  · exact absurd joined (isOpen item mem isDst)

namespace Grounded

section

variable (grounded : Grounded info items facts)
include grounded

theorem ends (v : SSAVar) : Ends facts.next v (rootOf facts v) := by
  obtain ⟨e, ends⟩ := grounded.acyclic v
  rwa [rootOf, canonicalizeValueRoot_of_ends ends]

theorem next_rootOf (v : SSAVar) : facts.next (rootOf facts v) = none :=
  (grounded.ends v).next_eq_none

theorem rootOf_eq (ends : Ends facts.next v e) : rootOf facts v = e :=
  (grounded.ends v).unique ends

theorem rootOf_next (moves : facts.next v = some w) : rootOf facts v = rootOf facts w :=
  grounded.rootOf_eq ((ends_iff_of_step moves).mpr (grounded.ends w))

theorem alike_of_behind (behind : Behind info items facts s d) :
    Alike (rootOf facts d) (rootOf facts s) := by
  rcases behind.2 with moves | ⟨item, -, -, joined, isRead⟩
  · exact .inl (grounded.rootOf_next moves)
  · exact joined s isRead

variable (fresh : FreshItems items)
include fresh

theorem next_of_input (isInput : v.version = 0) : facts.next v = none := by
  refine eq_none_iff_forall_ne_some.mpr fun w moves => ?_
  obtain ⟨item, mem, isDst, -, -⟩ := grounded.moved v w moves
  exact (fresh.fresh item mem v isDst).1 isInput

theorem next_of_const (isConst : v.isConst = true) : facts.next v = none := by
  refine eq_none_iff_forall_ne_some.mpr fun w moves => ?_
  obtain ⟨item, mem, isDst, -, -⟩ := grounded.moved v w moves
  rw [(fresh.fresh item mem v isDst).2] at isConst
  cases isConst

theorem rootOf_const (isConst : v.isConst = true) : rootOf facts v = v :=
  rootOf_of_end (grounded.next_of_const fresh isConst)

/-- The end of a chain, unless it is a constant, is behind all of it. -/
theorem behind_of_ends (ends : Ends facts.next v e) (notConst : e.isConst = false) :
    ReflTransGen (Behind info items facts) e v := by
  obtain ⟨n, chain⟩ := ends
  induction chain with
  | stop _ => exact .refl
  | @step n v w e moves rest ih =>
    refine (ih notConst).tail ⟨?_, .inl moves⟩
    by_contra isConst
    have isConst : w.isConst = true := Bool.not_eq_false _ ▸ isConst
    have isEnd := ends_of_undefined (grounded.next_of_const fresh isConst)
    obtain rfl : e = w := Ends.unique ⟨n, rest⟩ isEnd
    rw [notConst] at isConst
    cases isConst

theorem update_spec (isUpdate : rootUpdate info item facts = some e) :
    rootReads info item ≠ [] ∧ ∀ s ∈ rootReads info item, e = taken item (rootOf facts s) :=
  rootUpdate_spec (fun _ => grounded.next_of_input fresh) grounded.next_rootOf
    (fun _ => grounded.next_of_const fresh) isUpdate

theorem update_end (isUpdate : rootUpdate info item facts = some e) : facts.next e = none := by
  obtain ⟨nonempty, takes⟩ := grounded.update_spec fresh isUpdate
  obtain ⟨s, isRead⟩ := exists_mem_of_ne_nil _ nonempty
  rw [takes s isRead]
  rcases alike_taken item (rootOf facts s) with same | ⟨-, isConst⟩
  · rw [← same]
    exact grounded.next_rootOf s
  · exact grounded.next_of_const fresh isConst

end

end Grounded

/-! ## One item -/

theorem FreshItems.unique (fresh : FreshItems items) {item' : PrepItem} (mem : item ∈ items)
    (mem' : item' ∈ items) (isDst : itemDst item = some d) (isDst' : itemDst item' = some d) :
    item' = item :=
  eq_of_filterMap_nodup fresh.distinct mem' mem isDst' isDst

/-- Nothing changes where an item that is not joined waits. -/
theorem Grounded.next_of_unjoined (grounded : Grounded info items facts) (fresh : FreshItems items)
    (mem : item ∈ items) (isDst : itemDst item = some d) (unjoined : ¬ Joined info facts item d) :
    facts.next d = none := by
  refine eq_none_iff_forall_ne_some.mpr fun w moves => ?_
  obtain ⟨item', mem', isDst', -, joined⟩ := grounded.moved d w moves
  rw [fresh.unique mem mem' isDst isDst'] at joined
  exact unjoined joined

/-- All chains end alike, and what is behind a variable was so before. -/
structure Similar (info : RegisterFamilyInfo) (items : List PrepItem)
    (facts facts' : DecompilePrepFacts) : Prop where
  alike : ∀ v, Alike (rootOf facts v) (rootOf facts' v)
  behind : ∀ s d, Behind info items facts' s d → TransGen (Behind info items facts) s d

theorem Similar.refl (info : RegisterFamilyInfo) (items : List PrepItem)
    (facts : DecompilePrepFacts) : Similar info items facts facts :=
  ⟨fun _ => .inl rfl, fun _ _ => .single⟩

theorem Similar.trans {facts'' : DecompilePrepFacts} (first : Similar info items facts facts')
    (second : Similar info items facts' facts'') : Similar info items facts facts'' :=
  ⟨fun v => (first.alike v).trans (second.alike v),
    fun s d behind => (second.behind s d behind).lift' id first.behind⟩

section Alike

variable (alike : ∀ v, Alike (rootOf facts v) (rootOf facts' v))
include alike

theorem joined_iff_of_alike : Joined info facts' item d ↔ Joined info facts item d :=
  forall₂_congr fun s _ =>
    ⟨fun joined => (alike d).trans (joined.trans (alike s).symm),
      fun joined => (alike d).symm.trans (joined.trans (alike s))⟩

/-- Chains may be moved along what is behind them, if they end alike. -/
theorem Grounded.of_alike (grounded : Grounded info items facts) (fresh : FreshItems items)
    (acyclic : ∀ v, ∃ e, Ends facts'.next v e)
    (moved : ∀ v w, facts'.next v = some w →
      (∃ item ∈ items, itemDst item = some v ∧ rootReads info item ≠ [] ∧
        Joined info facts item v) ∧
      (w.isConst = false → TransGen (Behind info items facts) w v)) :
    Grounded info items facts' ∧ Similar info items facts facts' := by
  have similar : Similar info items facts facts' := by
    refine ⟨alike, fun s d behind => ?_⟩
    obtain ⟨notConst, moves | ⟨item, mem, isDst, joined, isRead⟩⟩ := behind
    · exact (moved d s moves).2 notConst
    · exact .single ⟨notConst, .inr
        ⟨item, mem, isDst, (joined_iff_of_alike alike).mp joined, isRead⟩⟩
  refine ⟨⟨acyclic, fun v w moves => ?_, fun v isOpen => ?_⟩, similar⟩
  · obtain ⟨⟨item, mem, isDst, nonempty, joined⟩, -⟩ := moved v w moves
    exact ⟨item, mem, isDst, nonempty, (joined_iff_of_alike alike).mpr joined⟩
  · have wasOpen : Open info items facts (rootOf facts v) := by
      rcases alike v with same | ⟨isConst, -⟩
      · intro item mem isDst joined
        rw [same] at isDst joined
        exact isOpen item mem isDst ((joined_iff_of_alike alike).mpr joined)
      · exact fresh.open_of_const isConst
    exact Subrelation.accessible (fun {s d} => similar.behind s d)
      (grounded.founded v wasOpen).transGen

end Alike

section Step

variable (grounded : Grounded info items facts) (fresh : FreshItems items)
include grounded fresh

theorem Grounded.congr (same : ∀ u, facts'.next u = facts.next u) :
    Grounded info items facts' ∧ Similar info items facts facts' := by
  have ends : ∀ v, Ends facts'.next v (rootOf facts v) := fun v => by
    rw [show facts'.next = facts.next from funext same]
    exact grounded.ends v
  refine grounded.of_alike (fun v => .inl (canonicalizeValueRoot_of_ends (ends v)).symm) fresh
    (fun v => ⟨_, ends v⟩) fun v w moves => ?_
  rw [same] at moves
  exact ⟨grounded.moved v w moves, fun notConst => .single ⟨notConst, .inl moves⟩⟩

variable (mem : item ∈ items) (isDst : itemDst item = some d)
  (isUpdate : rootUpdate info item facts = some e) (apart : e ≠ d) (set : facts'.next d = some e) (others : ∀ u, u ≠ d → facts'.next u = facts.next u)
include mem isDst isUpdate apart set others

/-- A joined item moves chains to an end like the one they had. -/
theorem Grounded.move (joined : Joined info facts item d) :
    Grounded info items facts' ∧ Similar info items facts facts' := by
  obtain ⟨nonempty, takes⟩ := grounded.update_spec fresh isUpdate
  obtain ⟨s, isRead⟩ := exists_mem_of_ne_nil _ nonempty
  have fromS : Alike (rootOf facts s) e := by
    rw [takes s isRead]
    exact alike_taken item _
  have moves (v : SSAVar) := ends_set apart (grounded.update_end fresh isUpdate) set others
    (grounded.ends v)
  have alike : ∀ v, Alike (rootOf facts v) (rootOf facts' v) := by
    intro v
    rcases moves v with ⟨ends, -⟩ | ⟨ends, through⟩
    · exact .inl (canonicalizeValueRoot_of_ends ends).symm
    · rw [show rootOf facts' v = e from canonicalizeValueRoot_of_ends ends,
        ← grounded.rootOf_eq through]
      exact (joined s isRead).trans fromS
  refine grounded.of_alike alike fresh (fun v => ?_) fun v w moved => ?_
  · rcases moves v with ⟨ends, -⟩ | ⟨ends, -⟩
    · exact ⟨_, ends⟩
    · exact ⟨_, ends⟩
  · by_cases isD : v = d
    · subst isD
      obtain rfl := some.inj (set.symm.trans moved)
      refine ⟨⟨item, mem, isDst, nonempty, joined⟩, fun notConst => ?_⟩
      have same : rootOf facts s = e := fromS.resolve_right fun both => by
        rw [notConst] at both
        cases both.2
      have sNotConst : s.isConst = false := by
        by_contra isConst
        rw [grounded.rootOf_const fresh (Bool.not_eq_false _ ▸ isConst)] at same
        exact isConst (same ▸ notConst)
      have toS := grounded.behind_of_ends fresh (grounded.ends s) (by rw [same]; exact notConst)
      rw [same] at toS
      exact .tail' toS ⟨sNotConst, .inr ⟨item, mem, isDst, joined, isRead⟩⟩
    · rw [others v isD] at moved
      exact ⟨grounded.moved v w moved, fun notConst => .single ⟨notConst, .inl moved⟩⟩

/-- An item that was not joined merges the chains to its destination into another end, and
is joined afterwards. -/
theorem Grounded.merge (unjoined : ¬ Joined info facts item d) :
    Grounded info items facts' ∧ Joined info facts' item d ∧
      ∀ item' x, Joined info facts item' x → Joined info facts' item' x := by
  obtain ⟨nonempty, takes⟩ := grounded.update_spec fresh isUpdate
  have notConst := (fresh.fresh item mem d isDst).2
  have isEnd := grounded.next_of_unjoined fresh mem isDst unjoined
  have own : rootOf facts d = d := rootOf_of_end isEnd
  have roots : ∀ v, (rootOf facts v ≠ d ∧ rootOf facts' v = rootOf facts v) ∨
      (rootOf facts v = d ∧ rootOf facts' v = e) := by
    intro v
    rcases ends_set apart (grounded.update_end fresh isUpdate) set others (grounded.ends v) with
      ⟨ends, other⟩ | ⟨ends, through⟩
    · exact .inl ⟨other, canonicalizeValueRoot_of_ends ends⟩
    · exact .inr ⟨through.unique (ends_of_undefined isEnd), canonicalizeValueRoot_of_ends ends⟩
  have kept {v} (other : rootOf facts v ≠ d) : rootOf facts' v = rootOf facts v :=
    (roots v).elim And.right fun through => absurd through.1 other
  have merged {v} (through : rootOf facts v = d) : rootOf facts' v = e :=
    (roots v).elim (fun other => absurd through other.1) And.right
  have notD {x} (isConst : x.isConst = true) : x ≠ d := by
    rintro rfl
    rw [notConst] at isConst
    cases isConst
  have reads : ∀ s ∈ rootReads info item, rootOf facts s ≠ d ∧ Alike e (rootOf facts s) := by
    intro s isRead
    have alike := (alike_taken item (rootOf facts s)).symm
    rw [← takes s isRead] at alike
    refine ⟨fun same => ?_, alike⟩
    rcases alike with equal | ⟨-, isConst⟩
    · exact apart (equal.trans same)
    · exact notD isConst same
  have joins : ∀ item' x, Joined info facts item' x → Joined info facts' item' x := by
    intro item' x joined s isRead
    rcases joined s isRead with same | ⟨isConst, isConst'⟩
    · rcases roots s with ⟨other, isKept⟩ | ⟨through, isMerged⟩
      · rw [isKept, kept (same ▸ other)]
        exact .inl same
      · rw [isMerged, merged (same.trans through)]
        exact .inl rfl
    · rw [kept (notD isConst), kept (notD isConst')]
      exact .inr ⟨isConst, isConst'⟩
  have joined : Joined info facts' item d := by
    intro s isRead
    obtain ⟨other, alike⟩ := reads s isRead
    rw [merged own, kept other]
    exact alike
  have isOpen_of_alike {x y} (alike : Alike x y) (isOpen : Open info items facts' x) :
      Open info items facts' y := by
    rcases alike with rfl | ⟨-, isConst⟩
    · exact isOpen
    · exact fresh.open_of_const isConst
  have wasOpen {x} (isOpen : Open info items facts' x) : Open info items facts x :=
    fun item' mem' isDst' joined => isOpen item' mem' isDst' (joins item' x joined)
  -- an item that was joined by the merge ends in its own destination
  have behind_of {s u} (other : u ≠ d) (isOpen : Open info items facts' (rootOf facts' u))
      (behind : Behind info items facts' s u) : Behind info items facts s u := by
    obtain ⟨notConst', moves | ⟨item', mem', isDst', joined', isRead⟩⟩ := behind
    · exact ⟨notConst', .inl ((others u other).symm.trans moves)⟩
    · refine ⟨notConst', .inr ⟨item', mem', isDst', by_contra fun unjoined' => ?_, isRead⟩⟩
      have isSelf : rootOf facts u = u :=
        rootOf_of_end (grounded.next_of_unjoined fresh mem' isDst' unjoined')
      rw [kept (by rwa [isSelf]), isSelf] at isOpen
      exact isOpen item' mem' isDst' joined'
  have apartFrom : ∀ u, Acc (Behind info items facts) u → rootOf facts u ≠ d →
      Open info items facts' (rootOf facts u) → Acc (Behind info items facts') u := by
    intro u acc
    induction acc with
    | intro u _ ih =>
      intro other isOpen
      refine ⟨_, fun s behind => ?_⟩
      have before := behind_of (fun same => other (same ▸ own)) (by rwa [kept other]) behind
      have alike := grounded.alike_of_behind before
      refine ih s before (fun same => ?_) (isOpen_of_alike alike isOpen)
      rcases alike with equal | ⟨-, isConst⟩
      · exact other (equal.trans same)
      · exact notD isConst same
  have through : Open info items facts' e → ∀ u, Acc (Behind info items facts) u →
      rootOf facts u = d → Acc (Behind info items facts') u := by
    intro isOpen u acc
    induction acc with
    | intro u _ ih =>
      intro toD
      refine ⟨_, fun s behind => ?_⟩
      by_cases isD : u = d
      · subst isD
        have fromRead {s} (other : rootOf facts s ≠ u) (alike : Alike e (rootOf facts s)) :
            Acc (Behind info items facts') s :=
          apartFrom s (grounded.founded s (wasOpen (isOpen_of_alike alike isOpen))) other
            (isOpen_of_alike alike isOpen)
        rcases behind.2 with moves | ⟨item', mem', isDst', -, isRead⟩
        · obtain rfl := some.inj (set.symm.trans moves)
          have isSelf : rootOf facts e = e := rootOf_of_end (grounded.update_end fresh isUpdate)
          exact fromRead (by rwa [isSelf]) (.inl isSelf.symm)
        · rw [fresh.unique mem mem' isDst isDst'] at isRead
          obtain ⟨other, alike⟩ := reads s isRead
          exact fromRead other alike
      · have before := behind_of isD (by rwa [merged toD]) behind
        refine ih s before ?_
        rcases grounded.alike_of_behind before with equal | ⟨isConst, -⟩
        · exact equal.symm.trans toD
        · exact absurd toD (notD isConst)
  refine ⟨⟨fun v => ?_, fun v w moves => ?_, fun v isOpen => ?_⟩, joined, joins⟩
  · rcases ends_set apart (grounded.update_end fresh isUpdate) set others (grounded.ends v) with
      ⟨ends, -⟩ | ⟨ends, -⟩
    · exact ⟨_, ends⟩
    · exact ⟨_, ends⟩
  · by_cases isD : v = d
    · subst isD
      exact ⟨item, mem, isDst, nonempty, joined⟩
    · rw [others v isD] at moves
      obtain ⟨item', mem', isDst', nonempty', joined'⟩ := grounded.moved v w moves
      exact ⟨item', mem', isDst', nonempty', joins item' v joined'⟩
  · rcases roots v with ⟨other, isKept⟩ | ⟨toD, isMerged⟩
    · rw [isKept] at isOpen
      exact apartFrom v (grounded.founded v (wasOpen isOpen)) other isOpen
    · rw [isMerged] at isOpen
      refine through isOpen v (grounded.founded v ?_) toD
      rw [toD]
      intro item' mem' isDst'
      rwa [fresh.unique mem mem' isDst isDst']

end Step

/-! ## Turns -/

def visit (info : RegisterFamilyInfo) (facts : DecompilePrepFacts) (item : PrepItem) :
    DecompilePrepFacts := (prepItem info ⟨facts, false⟩ item).facts

/-- The facts after a number of turns of the items. -/
def factsAt (info : RegisterFamilyInfo) (items : List PrepItem) : Nat → DecompilePrepFacts :=
  turns (visit info) items ⟨∅, ∅⟩

theorem factsAt_succ (info : RegisterFamilyInfo) (items : List PrepItem) (t : Nat) :
    factsAt info items (t + 1) = factsAt info items t ∨
      ∃ item ∈ items, factsAt info items (t + 1) = visit info (factsAt info items t) item :=
  turns_succ (visit info) items ⟨∅, ∅⟩ t

theorem visit_of_no_dst (facts : DecompilePrepFacts) (noDst : itemDst item = none) :
    visit info facts item = facts := by
  rw [visit, prepItem_of_no_dst info _ noDst]

section Visit

variable (grounded : Grounded info items facts) (fresh : FreshItems items)
include grounded fresh

theorem Grounded.visit_next (isDst : itemDst item = some d) :
    (∀ u, u ≠ d → (visit info facts item).next u = facts.next u) ∧
      ((visit info facts item).next d = facts.next d ∨ ∃ e, e ≠ d ∧
        rootUpdate info item facts = some e ∧ (visit info facts item).next d = some e) := by
  obtain ⟨mid, -, sets⟩ := prepItem_sets info ⟨facts, false⟩ isDst
  refine ⟨fun u other => nextRoot_congr (sets.others u other).1, ?_⟩
  rcases sets.own with same | isSelf | ⟨e, isUpdate, isSet⟩
  · exact .inl (nextRoot_congr (.inl same))
  · exact .inl (nextRoot_congr (.inr isSelf))
  · by_cases isD : e = d
    · subst isD
      exact .inl ((nextRoot_eq_none_of_self isSet).trans (grounded.update_end fresh isUpdate).symm)
    · refine .inr ⟨e, isD, isUpdate, ?_⟩
      rw [DecompilePrepFacts.next, nextRoot, visit, isSet, filter_some, if_pos (by simpa using isD)]

/-- A visit keeps the invariant and joined items; all chains end alike unless it joins its
own item. -/
theorem Grounded.visit (mem : item ∈ items) :
    Grounded info items (Family.visit info facts item) ∧
      (∀ item' x, Joined info facts item' x → Joined info (Family.visit info facts item) item' x) ∧
      (Similar info items facts (Family.visit info facts item) ∨
        ∃ d, itemDst item = some d ∧ ¬ Joined info facts item d ∧
          Joined info (Family.visit info facts item) item d) := by
  have ofSimilar (both : Grounded info items (Family.visit info facts item) ∧
      Similar info items facts (Family.visit info facts item)) :
      Grounded info items (Family.visit info facts item) ∧
        (∀ item' x, Joined info facts item' x →
          Joined info (Family.visit info facts item) item' x) ∧
        (Similar info items facts (Family.visit info facts item) ∨
          ∃ d, itemDst item = some d ∧ ¬ Joined info facts item d ∧
            Joined info (Family.visit info facts item) item d) :=
    ⟨both.1, fun _ _ => (joined_iff_of_alike both.2.alike).mpr, .inl both.2⟩
  cases isDst : itemDst item with
  | none =>
    rw [isDst] at ofSimilar
    exact ofSimilar (grounded.congr fresh fun u => by rw [visit_of_no_dst facts isDst])
  | some d =>
    rw [isDst] at ofSimilar
    obtain ⟨others, own⟩ := grounded.visit_next fresh isDst
    rcases own with same | ⟨e, apart, isUpdate, set⟩
    · refine ofSimilar (grounded.congr fresh fun u => ?_)
      by_cases isD : u = d
      · rw [isD, same]
      · exact others u isD
    · by_cases joined : Joined info facts item d
      · exact ofSimilar (grounded.move fresh mem isDst isUpdate apart set others joined)
      · obtain ⟨grounded', joined', joins⟩ :=
          grounded.merge fresh mem isDst isUpdate apart set others joined
        exact ⟨grounded', joins, .inr ⟨d, rfl, joined, joined'⟩⟩

end Visit

section Turns

variable (info) (fresh : FreshItems items)
include fresh

theorem grounded_factsAt (t : Nat) : Grounded info items (factsAt info items t) := by
  induction t with
  | zero => exact grounded_empty info items
  | succ t ih =>
    rcases factsAt_succ info items t with same | ⟨item, mem, turn⟩
    · rw [same]
      exact ih
    · rw [turn]
      exact (ih.visit fresh mem).1

/-- From some turn on all chains end alike. -/
theorem exists_similar : ∃ bound, ∀ t, bound ≤ t →
    Similar info items (factsAt info items bound) (factsAt info items t) := by
  let joined (item : PrepItem) (t : Nat) : Prop :=
    ∀ d, itemDst item = some d → Joined info (factsAt info items t) item d
  have kept : ∀ item t, joined item t → joined item (t + 1) := by
    intro item t holds d isDst
    rcases factsAt_succ info items t with same | ⟨item', mem, turn⟩
    · rw [same]
      exact holds d isDst
    · rw [turn]
      exact ((grounded_factsAt info fresh t).visit fresh mem).2.1 item d (holds d isDst)
  obtain ⟨bound, constant⟩ := Settles.together joined items fun item _ =>
    Settles.of_monotone (kept item)
  refine ⟨bound, fun t large => ?_⟩
  induction t, large using Nat.le_induction with
  | base => exact .refl info items _
  | succ t large ih =>
    refine ih.trans ?_
    rcases factsAt_succ info items t with same | ⟨item, mem, turn⟩
    · rw [same]
      exact .refl info items _
    · have both := constant item mem t (t + 1) large (by omega)
      obtain ⟨-, -, similar | ⟨d, isDst, unjoined, joins⟩⟩ :=
        (grounded_factsAt info fresh t).visit fresh mem
      · rw [turn]
        exact similar
      · rw [← turn] at joins
        have now : joined item (t + 1) := fun d' isDst' => by
          obtain rfl := some.inj (isDst.symm.trans isDst')
          exact joins
        rw [← both] at now
        exact absurd (now d isDst) unjoined

/-- The chain of a destination settles with the roots of what its item reads. -/
theorem settles_next (mem : item ∈ items) (isDst : itemDst item = some d)
    (settled : ∀ s ∈ rootReads info item, Settles fun t => rootOf (factsAt info items t) s) :
    Settles fun t => (factsAt info items t).next d := by
  obtain ⟨bound, constant⟩ := Settles.together (fun s t => rootOf (factsAt info items t) s)
    (rootReads info item) settled
  refine Settles.of_updates bound (fun next => ∃ t, bound ≤ t ∧
    next = rootUpdate info item (factsAt info items t) ∧ next ≠ none) ?_ fun t large => ?_
  · rintro _ _ ⟨t, large, rfl, isSet⟩ ⟨t', large', rfl, isSet'⟩
    obtain ⟨e, isUpdate⟩ := ne_none_iff_exists'.mp isSet
    obtain ⟨e', isUpdate'⟩ := ne_none_iff_exists'.mp isSet'
    obtain ⟨nonempty, takes⟩ := (grounded_factsAt info fresh t).update_spec fresh isUpdate
    obtain ⟨-, takes'⟩ := (grounded_factsAt info fresh t').update_spec fresh isUpdate'
    obtain ⟨s, isRead⟩ := exists_mem_of_ne_nil _ nonempty
    rw [isUpdate, isUpdate', takes s isRead, takes' s isRead, constant s isRead t t' large large']
  · rcases factsAt_succ info items t with same | ⟨item', mem', turn⟩
    · rw [same]
      exact .inl rfl
    · have grounded := grounded_factsAt info fresh t
      rw [turn]
      cases isDst' : itemDst item' with
      | none => exact .inl (by rw [visit_of_no_dst _ isDst'])
      | some d' =>
        obtain ⟨others, own⟩ := grounded.visit_next fresh isDst'
        by_cases isD : d = d'
        · subst isD
          rw [fresh.unique mem mem' isDst isDst'] at own ⊢
          rcases own with same | ⟨e, -, isUpdate, set⟩
          · exact .inl same
          · exact .inr ⟨t, large, set.trans isUpdate.symm, by rw [set]; exact some_ne_none e⟩
        · exact .inl (others d isD)

/-- The canonical root of every variable settles. -/
theorem settles_rootOf (v : SSAVar) : Settles fun t => rootOf (factsAt info items t) v := by
  obtain ⟨bound, similar⟩ := exists_similar info fresh
  have grounded (t : Nat) := grounded_factsAt info fresh t
  have constants {c : SSAVar} (isConst : c.isConst = true) :
      Settles fun t => rootOf (factsAt info items t) c :=
    ⟨0, fun t _ => ((grounded t).rootOf_const fresh isConst).trans
      ((grounded 0).rootOf_const fresh isConst).symm⟩
  by_cases isConst : (rootOf (factsAt info items bound) v).isConst = true
  · have acc := ((grounded bound).founded v (fresh.open_of_const isConst)).transGen
    induction acc with
    | intro v _ ih =>
      by_cases vConst : v.isConst = true
      · exact constants vConst
      · have stays : ∀ t, bound ≤ t → (rootOf (factsAt info items t) v).isConst = true := by
          intro t large
          rcases (similar t large).alike v with same | ⟨-, isConst'⟩
          · rwa [← same]
          · exact isConst'
        cases moves : (factsAt info items bound).next v with
        | none =>
          rw [rootOf_of_end moves] at isConst
          exact absurd isConst vConst
        | some w =>
          obtain ⟨item, mem, isDst, -, joined⟩ := (grounded bound).moved v w moves
          have next := settles_next info fresh mem isDst fun s isRead => by
            by_cases sConst : s.isConst = true
            · exact constants sConst
            · refine ih s (.single ⟨Bool.eq_false_iff.mpr sConst, .inr
                ⟨item, mem, isDst, joined, isRead⟩⟩) ?_
              rcases joined s isRead with same | ⟨-, isConst'⟩
              · rwa [← same]
              · exact isConst'
          -- the chain from `v` starts in the same way from here on
          obtain ⟨first, same⟩ := next.after
          let start := max first bound
          cases moves' : (factsAt info items start).next v with
          | none =>
            have ends := stays start (Nat.le_max_right _ _)
            rw [rootOf_of_end moves'] at ends
            exact absurd ends vConst
          | some w' =>
            have follows : ∀ t, start ≤ t → rootOf (factsAt info items t) v =
                rootOf (factsAt info items t) w' := by
              intro t large
              refine (grounded t).rootOf_next ?_
              exact (same t start (by omega) (Nat.le_max_left _ _)).trans moves'
            have settled : Settles fun t => rootOf (factsAt info items t) w' := by
              by_cases wConst : w'.isConst = true
              · exact constants wConst
              · refine ih w' ((similar start (Nat.le_max_right _ _)).behind w' v
                  ⟨Bool.eq_false_iff.mpr wConst, .inl moves'⟩) ?_
                rcases (similar start (Nat.le_max_right _ _)).alike w' with same | ⟨isConst', -⟩
                · rw [same, ← follows start le_rfl]
                  exact stays start (Nat.le_max_right _ _)
                · exact isConst'
            exact settled.of_eventually_eq start follows
  · refine ⟨bound, fun t large => ?_⟩
    exact (((similar t large).alike v).resolve_right fun both => isConst both.1).symm

end Turns

end R2Sleigh.Ssa.Family
