import R2Sleigh.Ssa.SsaGraph

/-!
Contract: what each step of the pass does to the tables.

Owns `usesIn`, `lastDef` and `Tables`.
-/

namespace R2Sleigh.Ssa.GraphTables

open Il Lib List Option

variable {vars : List SSAVar} {after tables : GraphTables} {id blockId : Nat}
  {start : List GraphBlock} {done : List Site} {site : Site} {opSite : Nat × Nat}

/-! ## Lists side by side -/

section SideBySide

variable {A B : Type} {R : A → B → Prop} {l : List A} {l' : List B}

theorem exists_left_of_forall₂ (related : List.Forall₂ R l l') :
    ∀ {k : Nat} {b : B}, l'[k]? = some b → ∃ a, l[k]? = some a ∧ R a b := by
  induction related with
  | nil => exact nofun
  | cons here _ ih =>
    intro k b found
    cases k with
    | zero => exact ⟨_, rfl, some.inj found ▸ here⟩
    | succ k => exact ih found

theorem exists_right_of_forall₂ (related : List.Forall₂ R l l') {k : Nat} {a : A}
    (found : l[k]? = some a) : ∃ b, l'[k]? = some b ∧ R a b :=
  exists_left_of_forall₂ related.flip found

end SideBySide

/-! ## Values -/

/-- The identifier of a variable: the position of its value, cast. -/
def IsId (tables : GraphTables) (id : Nat) (var : SSAVar) : Prop :=
  ∃ k value, tables.values[k]? = some value ∧ value.var = var ∧ id = asU32 k

/-- The tables of values agree: one value for each variable. -/
structure Values (tables : GraphTables) : Prop where
  ids : ∀ {k value}, tables.values[k]? = some value → value.id = asU32 k
  nodup : (tables.values.map GraphValue.var).Nodup
  byVar : ∀ var id, tables.valueByVar.lookup var = some id ↔ tables.IsId id var
  defLength : tables.defOf.length = tables.values.length
  usesLength : tables.usesOf.length = tables.values.length

/-- New values at the end, without uses or definitions; nothing else changes. -/
structure Interned (vars : List SSAVar) (before after : GraphTables) : Prop where
  values : ∃ more, after.values = before.values ++ more ∧
    (∀ value ∈ more, value.var ∈ vars) ∧ (∀ var ∈ vars, var ∈ after.values.map GraphValue.var) ∧
    after.defOf = before.defOf ++ List.replicate more.length none ∧
    after.usesOf = before.usesOf ++ List.replicate more.length []
  insts : after.insts = before.insts
  blocks : after.blocks = before.blocks
  opInstBySite : after.opInstBySite = before.opInstBySite
  opSiteByInst : after.opSiteByInst = before.opSiteByInst

theorem Interned.refl (tables : GraphTables) : Interned [] tables tables :=
  ⟨⟨[], by simp⟩, rfl, rfl, rfl, rfl⟩

theorem Interned.trans {vars' : List SSAVar} {before mid : GraphTables}
    (first : Interned vars before mid) (second : Interned vars' mid after) :
    Interned (vars ++ vars') before after := by
  obtain ⟨more, values, inVars, known, defs, uses⟩ := first.values
  obtain ⟨more', values', inVars', known', defs', uses'⟩ := second.values
  refine ⟨⟨more ++ more', ?_, ?_, ?_, ?_, ?_⟩, second.insts.trans first.insts,
    second.blocks.trans first.blocks, second.opInstBySite.trans first.opInstBySite,
    second.opSiteByInst.trans first.opSiteByInst⟩
  · rw [values', values, append_assoc]
  · intro value mem
    rcases mem_append.mp mem with early | late
    · exact mem_append_left _ (inVars value early)
    · exact mem_append_right _ (inVars' value late)
  · intro var mem
    rcases mem_append.mp mem with early | late
    · rw [values', map_append]
      exact mem_append_left _ (known var early)
    · exact known' var late
  · rw [defs', defs, append_assoc, length_append, replicate_add]
  · rw [uses', uses, append_assoc, length_append, replicate_add]

theorem Interned.isId {before : GraphTables}
    (interned : Interned vars before after) {var : SSAVar} (isId : before.IsId id var) :
    after.IsId id var := by
  obtain ⟨more, values, -⟩ := interned.values
  obtain ⟨k, value, found, isVar, same⟩ := isId
  refine ⟨k, value, ?_, isVar, same⟩
  rw [values, List.getElem?_append_left (List.getElem?_eq_some_iff.mp found).1]
  exact found

theorem internValue_spec (values : Values tables) (var : SSAVar) :
    Values (tables.internValue var).2 ∧ Interned [var] tables (tables.internValue var).2 ∧
      (tables.internValue var).2.IsId (tables.internValue var).1 var := by
  unfold internValue
  cases found : tables.valueByVar.lookup var with
  | some id =>
    have isId := (values.byVar var id).mp found
    refine ⟨values, ⟨⟨[], by simp, by simp, ?_, by simp, by simp⟩, rfl, rfl, rfl, rfl⟩, isId⟩
    rintro _ mem
    obtain rfl := mem_singleton.mp mem
    obtain ⟨k, value, position, rfl, -⟩ := isId
    exact mem_map_of_mem (mem_of_getElem? position)
  | none =>
    have fresh : var ∉ tables.values.map GraphValue.var := by
      intro mem
      obtain ⟨value, inValues, isVar⟩ := mem_map.mp mem
      obtain ⟨k, position⟩ := mem_iff_getElem?.mp inValues
      have stored := (values.byVar var (asU32 k)).mpr ⟨k, value, position, isVar, rfl⟩
      rw [found] at stored
      cases stored
    have last : (tables.values ++ [(⟨asU32 tables.values.length, var⟩ : GraphValue)])[
        tables.values.length]? = some ⟨asU32 tables.values.length, var⟩ := List.getElem?_concat_length
    have positions : ∀ {k value}, (tables.values ++ [(⟨asU32 tables.values.length, var⟩ :
        GraphValue)])[k]? = some value → tables.values[k]? = some value ∨
          k = tables.values.length ∧ value = ⟨asU32 tables.values.length, var⟩ := by
      intro k value position
      rcases Nat.lt_or_ge k tables.values.length with early | late
      · rw [List.getElem?_append_left early] at position
        exact .inl position
      · have inside := (List.getElem?_eq_some_iff.mp position).1
        rw [length_append, length_singleton] at inside
        obtain rfl : k = tables.values.length := by omega
        exact .inr ⟨rfl, some.inj (position.symm.trans last)⟩
    refine ⟨⟨?_, ?_, ?_, ?_, ?_⟩, ⟨⟨[⟨asU32 tables.values.length, var⟩], rfl, by simp, by simp,
      rfl, rfl⟩, rfl, rfl, rfl, rfl⟩, tables.values.length, _, last, rfl, rfl⟩
    · intro k value position
      rcases positions position with early | ⟨rfl, rfl⟩
      · exact values.ids early
      · rfl
    · rw [map_append, map_singleton, ← concat_eq_append]
      exact List.Nodup.concat fresh values.nodup
    · intro other id
      by_cases same : other = var
      · subst same
        rw [AList.lookup_insert, Option.some.injEq]
        constructor
        · rintro rfl
          exact ⟨_, _, last, rfl, rfl⟩
        · rintro ⟨k, value, position, isVar, rfl⟩
          rcases positions position with early | ⟨rfl, -⟩
          · exact absurd (mem_map.mpr ⟨value, mem_of_getElem? early, isVar⟩) fresh
          · rfl
      · rw [AList.lookup_insert_ne same, values.byVar]
        constructor
        · rintro ⟨k, value, position, isVar, isId⟩
          refine ⟨k, value, ?_, isVar, isId⟩
          rw [List.getElem?_append_left (List.getElem?_eq_some_iff.mp position).1]
          exact position
        · rintro ⟨k, value, position, isVar, isId⟩
          rcases positions position with early | ⟨-, rfl⟩
          · exact ⟨k, value, early, isVar, isId⟩
          · exact absurd isVar.symm same
    · simp [values.defLength]
    · simp [values.usesLength]

private theorem internSources_spec (vars : List SSAVar) : ∀ {tables : GraphTables}, Values tables →
    Values (tables.internSources vars).2 ∧ Interned vars tables (tables.internSources vars).2 ∧
      List.Forall₂ (tables.internSources vars).2.IsId (tables.internSources vars).1 vars := by
  induction vars with
  | nil => exact fun {tables} values => ⟨values, .refl tables, .nil⟩
  | cons var rest ih =>
    intro tables values
    obtain ⟨valuesFirst, internedFirst, isId⟩ := internValue_spec values var
    obtain ⟨valuesRest, internedRest, areIds⟩ := ih valuesFirst
    exact ⟨valuesRest, internedFirst.trans internedRest, .cons (internedRest.isId isId) areIds⟩

private theorem internDst_spec (values : Values tables) (dst : Option SSAVar) :
    Values (tables.internDst dst).2 ∧ Interned dst.toList tables (tables.internDst dst).2 ∧
      Option.Rel (tables.internDst dst).2.IsId (tables.internDst dst).1 dst := by
  cases dst with
  | none => exact ⟨values, .refl tables, .none⟩
  | some var =>
    obtain ⟨valuesAfter, interned, isId⟩ := internValue_spec values var
    exact ⟨valuesAfter, interned, .some isId⟩

/-! ## Uses and definitions -/

def usesOfInputs (instId : Nat) (inputs : List Nat) (value : Nat) : List UseSite :=
  (inputs.zipIdx.filter fun input => input.1 = value).map fun input => ⟨instId, input.2⟩

/-- The uses of a value, read off the instructions. -/
def usesIn (insts : List GraphInst) (value : Nat) : List UseSite :=
  insts.flatMap fun inst => usesOfInputs inst.id inst.inputs value

/-- The last instruction that defines a value. -/
def lastDef (insts : List GraphInst) (value : Nat) : Option Nat :=
  (insts.filter fun inst => inst.output = some value).getLast?.map GraphInst.id

private theorem getElem?_addUses (instId : Nat) (inputs : List Nat) (usesOf : List (List UseSite))
    (value : Nat) : (addUses instId usesOf inputs)[value]? =
      usesOf[value]?.map (· ++ usesOfInputs instId inputs value) := by
  unfold addUses usesOfInputs
  generalize inputs.zipIdx = entries
  induction entries generalizing usesOf with
  | nil => simp
  | cons entry rest ih =>
    rw [foldl_cons, ih, List.getElem?_modify]
    by_cases here : entry.1 = value
    · subst here
      cases usesOf[entry.1]? <;> simp
    · cases usesOf[value]? <;> simp [here]

private theorem length_addUses (instId : Nat) (inputs : List Nat) (usesOf : List (List UseSite)) :
    (addUses instId usesOf inputs).length = usesOf.length := by
  exact foldl_kept length (fun _ _ _ => length_modify ..) usesOf

private theorem lastDef_concat (insts : List GraphInst) (inst : GraphInst) (value : Nat) :
    lastDef (insts ++ [inst]) value =
      if inst.output = some value then some inst.id else lastDef insts value := by
  unfold lastDef
  by_cases here : inst.output = some value
  · rw [if_pos here, filter_append, filter_singleton, decide_eq_true here]
    simp
  · rw [if_neg here, filter_append, filter_singleton, decide_eq_false here]
    simp

private theorem usesIn_concat (insts : List GraphInst) (inst : GraphInst) (value : Nat) :
    usesIn (insts ++ [inst]) value =
      usesIn insts value ++ usesOfInputs inst.id inst.inputs value := by
  simp [usesIn]

/-! ## Instructions -/

section Pass

variable (blockByAddr : HashMap Nat Nat)

def payloadOf : Site → InstPayload
  | .phi _ _ node => .Phi (node.sources.filterMap fun source => blockByAddr.lookup source.1)
  | .op _ _ node => .Op node

/-- An instruction with the contents of a site. -/
structure Represents (tables : GraphTables) (site : Site) (inst : GraphInst) : Prop where
  block : blockByAddr.lookup site.block.addr = some inst.block
  ordinal : inst.ordinal = site.ordinal
  inputs : List.Forall₂ tables.IsId inst.inputs site.sources
  output : Option.Rel tables.IsId inst.output site.dst
  payload : inst.payload = payloadOf blockByAddr site

/-- The tables after some sites, those of operation sites apart. -/
structure Tables (start : List GraphBlock) (done : List Site) (tables : GraphTables) : Prop where
  values : Values tables
  known : ∀ var, var ∈ tables.values.map GraphValue.var ↔ ∃ site ∈ done, var ∈ site.vars
  insts : List.Forall₂ (Represents blockByAddr tables) done tables.insts
  instIds : ∀ {k inst}, tables.insts[k]? = some inst → inst.id = asU32 k
  uses : tables.values.length ≤ 2 ^ 32 → ∀ value < tables.values.length,
    tables.usesOf[value]? = some (usesIn tables.insts value)
  defs : tables.values.length ≤ 2 ^ 32 → ∀ value < tables.values.length,
    tables.defOf[value]? = some (lastDef tables.insts value)
  blocks : tables.blocks = start.mapIdx fun k block =>
    { block with insts := block.insts ++
        (tables.insts.filter fun inst => inst.block = k).map GraphInst.id }

variable {blockByAddr}

theorem IsId.lt (small : tables.values.length ≤ 2 ^ 32)
    {var : SSAVar} (isId : tables.IsId id var) : id < tables.values.length := by
  obtain ⟨k, value, position, -, rfl⟩ := isId
  have inside := (List.getElem?_eq_some_iff.mp position).1
  rw [asU32_of_lt (Nat.lt_of_lt_of_le inside small)]
  exact inside

theorem usesOfInputs_eq_nil {instId value : Nat} {inputs : List Nat} (unused : value ∉ inputs) :
    usesOfInputs instId inputs value = [] := by
  rw [usesOfInputs, map_eq_nil_iff, filter_eq_nil_iff]
  rintro ⟨input, index⟩ mem
  rw [decide_eq_true_eq]
  rintro rfl
  exact unused (mem_of_getElem? (mk_mem_zipIdx_iff_getElem?.mp mem))

/-- Values that come later have no uses and no definition yet. -/
theorem Tables.fresh
    (here : Tables blockByAddr start done tables) (small : tables.values.length ≤ 2 ^ 32)
    {value : Nat} (late : tables.values.length ≤ value) :
    usesIn tables.insts value = [] ∧ lastDef tables.insts value = none := by
  have known : ∀ inst ∈ tables.insts, ∃ site, Represents blockByAddr tables site inst := by
    intro inst mem
    obtain ⟨k, position⟩ := mem_iff_getElem?.mp mem
    obtain ⟨site, -, represents⟩ := exists_left_of_forall₂ here.insts position
    exact ⟨site, represents⟩
  constructor
  · rw [usesIn, flatMap_eq_nil_iff]
    intro inst mem
    obtain ⟨site, represents⟩ := known inst mem
    refine usesOfInputs_eq_nil fun used => ?_
    obtain ⟨k, position⟩ := mem_iff_getElem?.mp used
    obtain ⟨var, -, isId⟩ := exists_right_of_forall₂ represents.inputs position
    exact absurd (isId.lt small) (Nat.not_lt.mpr late)
  · rw [lastDef, map_eq_none_iff, List.getLast?_eq_none_iff, filter_eq_nil_iff]
    intro inst mem
    rw [decide_eq_true_eq]
    intro defines
    obtain ⟨site, represents⟩ := known inst mem
    have output := represents.output
    rw [defines] at output
    generalize site.dst = dst at output
    cases output with
    | some isId => exact absurd (isId.lt small) (Nat.not_lt.mpr late)

theorem Represents.mono (interned : Interned vars tables after) {inst : GraphInst}
    (represents : Represents blockByAddr tables site inst) :
    Represents blockByAddr after site inst := by
  refine ⟨represents.block, represents.ordinal,
    represents.inputs.imp fun _ _ isId => interned.isId isId, ?_, represents.payload⟩
  have output := represents.output
  generalize site.dst = dst at output ⊢
  generalize inst.output = id at output ⊢
  cases output with
  | none => exact .none
  | some isId => exact .some (interned.isId isId)

theorem intern_site (values : Values tables) (sources : List SSAVar) (dst : Option SSAVar) :
    let interned := (tables.internSources sources).2
    let after := (interned.internDst dst).2
    Values after ∧ Interned (sources ++ dst.toList) tables after ∧
      List.Forall₂ after.IsId (tables.internSources sources).1 sources ∧
      Option.Rel after.IsId (interned.internDst dst).1 dst := by
  obtain ⟨valuesMid, internedSources, inputs⟩ := internSources_spec sources values
  obtain ⟨valuesAfter, internedDst, output⟩ := internDst_spec valuesMid dst
  exact ⟨valuesAfter, internedSources.trans internedDst,
    inputs.imp fun _ _ isId => internedDst.isId isId, output⟩

theorem getElem?_append_replicate {A : Type} (l : List A) (n : Nat) (a : A) {k : Nat}
    (inside : k < l.length + n) :
    (l ++ List.replicate n a)[k]? = if k < l.length then l[k]? else some a := by
  split_ifs with early
  · exact List.getElem?_append_left early
  · rw [List.getElem?_append_right (Nat.le_of_not_lt early), List.getElem?_replicate,
      if_pos (by omega)]

theorem Tables.addInst (here : Tables blockByAddr start done tables) (site : Site)
    (found : blockByAddr.lookup site.block.addr = some blockId) :
    Tables blockByAddr start (done ++ [site]) (tables.addInst blockId site.ordinal site.sources
      site.dst (payloadOf blockByAddr site)) := by
  obtain ⟨values, interned, inputs, output⟩ := intern_site here.values site.sources site.dst
  unfold GraphTables.addInst
  dsimp only
  generalize ((tables.internSources site.sources).2.internDst site.dst).1 = outputId at output ⊢
  generalize ((tables.internSources site.sources).2.internDst site.dst).2 = after at *
  obtain ⟨more, isMore, inVars, known, isDefs, isUses⟩ := interned.values
  have length : after.values.length = tables.values.length + more.length := by
    rw [isMore, length_append]
  have smallBefore : after.values.length ≤ 2 ^ 32 → tables.values.length ≤ 2 ^ 32 := by omega
  have usesBefore : after.values.length ≤ 2 ^ 32 → ∀ value < after.values.length,
      after.usesOf[value]? = some (usesIn tables.insts value) := by
    intro small value inside
    rw [isUses, getElem?_append_replicate _ _ _ (by rw [here.values.usesLength]; omega),
      here.values.usesLength]
    split_ifs with early
    · exact here.uses (smallBefore small) value early
    · rw [(here.fresh (smallBefore small) (Nat.le_of_not_lt early)).1]
  have defsBefore : after.values.length ≤ 2 ^ 32 → ∀ value < after.values.length,
      after.defOf[value]? = some (lastDef tables.insts value) := by
    intro small value inside
    rw [isDefs, getElem?_append_replicate _ _ _ (by rw [here.values.defLength]; omega),
      here.values.defLength]
    split_ifs with early
    · exact here.defs (smallBefore small) value early
    · rw [(here.fresh (smallBefore small) (Nat.le_of_not_lt early)).2]
  have represents : ∀ {s inst}, Represents blockByAddr after s inst →
      ∀ (usesOf : List (List UseSite)) (defOf : List (Option Nat)) (insts : List GraphInst)
        (blocks : List GraphBlock), Represents blockByAddr
          { after with usesOf := usesOf, defOf := defOf, insts := insts, blocks := blocks } s inst :=
    fun r _ _ _ _ => ⟨r.block, r.ordinal, r.inputs, r.output, r.payload⟩
  refine ⟨⟨values.ids, values.nodup, values.byVar, ?_, ?_⟩, ?_, ?_, ?_, ?_, ?_, ?_⟩
  · cases outputId with
    | none => exact values.defLength
    | some id =>
      rw [length_set]
      exact values.defLength
  · rw [length_addUses]
    exact values.usesLength
  · intro var
    constructor
    · intro mem
      rw [isMore, map_append, mem_append] at mem
      rcases mem with old | isNew
      · obtain ⟨s, inDone, isVar⟩ := (here.known var).mp old
        exact ⟨s, mem_append_left _ inDone, isVar⟩
      · obtain ⟨value, inMore, rfl⟩ := mem_map.mp isNew
        exact ⟨site, mem_append_right _ (mem_singleton.mpr rfl), inVars value inMore⟩
    · rintro ⟨s, mem, isVar⟩
      rcases mem_append.mp mem with inDone | isSite
      · rw [isMore, map_append]
        exact mem_append_left _ ((here.known var).mpr ⟨s, inDone, isVar⟩)
      · rw [mem_singleton.mp isSite] at isVar
        exact known var isVar
  · rw [interned.insts]
    refine rel_append (here.insts.imp fun s inst r => represents (r.mono interned) _ _ _ _) ?_
    exact .cons ⟨found, rfl, inputs, output, rfl⟩ .nil
  · intro k inst position
    rw [interned.insts] at position
    rcases Nat.lt_or_ge k tables.insts.length with early | late
    · rw [List.getElem?_append_left early] at position
      exact here.instIds position
    · have inside := (List.getElem?_eq_some_iff.mp position).1
      rw [length_append, length_singleton] at inside
      obtain rfl : k = tables.insts.length := by omega
      rw [List.getElem?_concat_length] at position
      cases position
      rfl
  · intro small value inside
    rw [getElem?_addUses, usesBefore small value inside, map_some, interned.insts, usesIn_concat]
  · intro small value inside
    rw [interned.insts, lastDef_concat, ← interned.insts]
    have before := defsBefore small value inside
    cases outputId with
    | none =>
      rw [if_neg nofun, before, interned.insts]
    | some id =>
      rw [List.getElem?_set]
      by_cases same : id = value
      · subst same
        rw [if_pos rfl, if_pos rfl, if_pos (by rw [values.defLength]; exact inside)]
      · rw [if_neg same, if_neg (by rw [Option.some.injEq]; exact same), before, interned.insts]
  · rw [interned.blocks, here.blocks, interned.insts]
    refine ext_getElem? fun k => ?_
    rw [List.getElem?_modify, List.getElem?_mapIdx, List.getElem?_mapIdx, filter_append,
      filter_singleton]
    cases start[k]? with
    | none => split_ifs <;> rfl
    | some block =>
      by_cases same : blockId = k
      · simp [same]
      · simp [same]

/-! ## Sites -/

/-- The instruction `id` is the operation at a site. -/
def OpAt (done : List Site) (id : Nat) (opSite : Nat × Nat) : Prop :=
  ∃ site, done[id]? = some site ∧ site.opSite = some opSite

/-- The tables of operation sites, in both directions. -/
structure OpTables (done : List Site) (tables : GraphTables) : Prop where
  instBySite : ∀ opSite id, tables.opInstBySite.lookup opSite = some id ↔ OpAt done id opSite
  siteByInst : ∀ opSite id, tables.opSiteByInst.lookup id = some opSite ↔ OpAt done id opSite

theorem opAt_concat :
    OpAt (done ++ [site]) id opSite ↔
      OpAt done id opSite ∨ id = done.length ∧ site.opSite = some opSite := by
  constructor
  · rintro ⟨s, position, isSite⟩
    rcases Nat.lt_or_ge id done.length with early | late
    · rw [List.getElem?_append_left early] at position
      exact .inl ⟨s, position, isSite⟩
    · have inside := (List.getElem?_eq_some_iff.mp position).1
      rw [length_append, length_singleton] at inside
      obtain rfl : id = done.length := by omega
      rw [List.getElem?_concat_length] at position
      exact .inr ⟨rfl, some.inj position ▸ isSite⟩
  · rintro (⟨s, position, isSite⟩ | ⟨rfl, isSite⟩)
    · refine ⟨s, ?_, isSite⟩
      rw [List.getElem?_append_left (List.getElem?_eq_some_iff.mp position).1]
      exact position
    · exact ⟨site, List.getElem?_concat_length, isSite⟩

theorem OpAt.lt (opAt : OpAt done id opSite) :
    id < done.length := by
  obtain ⟨site, position, -⟩ := opAt
  exact (List.getElem?_eq_some_iff.mp position).1

theorem OpTables.insert (here : OpTables done tables)
    (isSite : site.opSite = some opSite) (small : (done ++ [site]).length ≤ 2 ^ 32)
    (nodup : ((done ++ [site]).filterMap Site.opSite).Nodup)
    (byInst : after.opInstBySite = tables.opInstBySite.insert opSite (asU32 done.length))
    (bySite : after.opSiteByInst = tables.opSiteByInst.insert (asU32 done.length) opSite) :
    OpTables (done ++ [site]) after := by
  rw [length_append, length_singleton] at small
  rw [asU32_of_lt (by omega)] at byInst bySite
  have fresh : ∀ id, ¬ OpAt done id opSite := by
    rintro id ⟨s, position, same⟩
    rw [filterMap_append, filterMap_cons_some isSite, nodup_append] at nodup
    exact nodup.2.2 opSite (mem_filterMap.mpr ⟨s, mem_of_getElem? position, same⟩)
      opSite mem_cons_self rfl
  constructor
  · intro other id
    rw [byInst, opAt_concat, isSite, Option.some.injEq]
    by_cases same : other = opSite
    · subst same
      rw [AList.lookup_insert, Option.some.injEq]
      exact ⟨fun isId => .inr ⟨isId.symm, rfl⟩,
        fun either => (either.resolve_left (fresh id)).1.symm⟩
    · rw [AList.lookup_insert_ne same, here.instBySite]
      exact ⟨.inl, fun either => either.resolve_right fun last => same last.2.symm⟩
  · intro other id
    rw [bySite, opAt_concat, isSite, Option.some.injEq]
    by_cases same : id = done.length
    · subst same
      rw [AList.lookup_insert, Option.some.injEq]
      exact ⟨fun isOther => .inr ⟨rfl, isOther⟩,
        fun either => (either.resolve_left fun early => Nat.lt_irrefl _ early.lt).2⟩
    · rw [AList.lookup_insert_ne same, here.siteByInst]
      exact ⟨.inl, fun either => either.resolve_right fun last => same last.1⟩

theorem OpTables.keep (here : OpTables done tables) (isPhi : site.opSite = none)
    (byInst : after.opInstBySite = tables.opInstBySite)
    (bySite : after.opSiteByInst = tables.opSiteByInst) : OpTables (done ++ [site]) after := by
  have same : ∀ id opSite, OpAt (done ++ [site]) id opSite ↔ OpAt done id opSite := by
    intro id opSite
    rw [opAt_concat, isPhi]
    exact or_iff_left nofun
  constructor
  · intro opSite id
    rw [byInst, same]
    exact here.instBySite opSite id
  · intro opSite id
    rw [bySite, same]
    exact here.siteByInst opSite id

/-! ## The pass -/

/-- All tables agree with the sites passed; those of operation sites if there are
not too many and no site comes twice. -/
structure Passed (blockByAddr : HashMap Nat Nat) (start : List GraphBlock) (done : List Site)
    (tables : GraphTables) : Prop where
  agree : Tables blockByAddr start done tables
  ops : done.length ≤ 2 ^ 32 → (done.filterMap Site.opSite).Nodup → OpTables done tables

/-- The step of either loop. -/
def addSite (blockByAddr : HashMap Nat Nat) (blockId : Nat) (tables : GraphTables) :
    Site → GraphTables
  | .phi _ phiIdx node => addPhi blockByAddr blockId tables (node, phiIdx)
  | .op block opIdx node => addOp blockId block tables (node, opIdx)

private theorem addBlock_eq (tables : GraphTables) (block : SSABlock) :
    addBlock blockByAddr tables block = (blockByAddr.lookup block.addr).map fun blockId =>
      block.sites.foldl (addSite blockByAddr blockId) tables := by
  rw [addBlock]
  cases blockByAddr.lookup block.addr with
  | none => rfl
  | some blockId =>
    simp only [bind_eq_bind, bind_some, map_some, SSABlock.sites, foldl_append, foldl_map]
    rfl

private theorem Tables.withOps
    (here : Tables blockByAddr start done tables) (byInst : HashMap (Nat × Nat) Nat)
    (bySite : HashMap Nat (Nat × Nat)) : Tables blockByAddr start done
      { tables with opInstBySite := byInst, opSiteByInst := bySite } :=
  ⟨⟨here.values.ids, here.values.nodup, here.values.byVar, here.values.defLength,
    here.values.usesLength⟩, here.known,
    here.insts.imp fun _ _ r => ⟨r.block, r.ordinal, r.inputs, r.output, r.payload⟩, here.instIds,
    here.uses, here.defs, here.blocks⟩

theorem Passed.addSite (passed : Passed blockByAddr start done tables) (site : Site)
    (found : blockByAddr.lookup site.block.addr = some blockId) :
    Passed blockByAddr start (done ++ [site]) (addSite blockByAddr blockId tables site) := by
  have added := passed.agree.addInst site found
  obtain ⟨-, interned, -⟩ := intern_site passed.agree.values site.sources site.dst
  have opsBefore : (done ++ [site]).length ≤ 2 ^ 32 →
      ((done ++ [site]).filterMap Site.opSite).Nodup → OpTables done tables := by
    intro small nodup
    rw [length_append] at small
    rw [filterMap_append] at nodup
    exact passed.ops (by omega) (nodup_append.mp nodup).1
  cases site with
  | phi block phiIdx node =>
    refine ⟨added, fun small nodup => ?_⟩
    exact (opsBefore small nodup).keep rfl interned.opInstBySite interned.opSiteByInst
  | op block opIdx node =>
    refine ⟨added.withOps _ _, fun small nodup => ?_⟩
    refine (opsBefore small nodup).insert rfl small nodup ?_ ?_
    · exact congrArg₂ (fun ops id => AList.insert (block.addr, opIdx) (asU32 id) ops)
        interned.opInstBySite passed.agree.insts.length_eq.symm
    · exact congrArg₂ (fun sites id => AList.insert (asU32 id) (block.addr, opIdx) sites)
        interned.opSiteByInst passed.agree.insts.length_eq.symm

private theorem Passed.addSites (sites : List Site) :
    ∀ {done : List Site} {tables : GraphTables}, Passed blockByAddr start done tables →
      (∀ site ∈ sites, blockByAddr.lookup site.block.addr = some blockId) →
      Passed blockByAddr start (done ++ sites)
        (sites.foldl (GraphTables.addSite blockByAddr blockId) tables) := by
  induction sites with
  | nil => exact fun passed _ => by rw [append_nil]; exact passed
  | cons site rest ih =>
    intro done tables passed found
    have later := ih (passed.addSite site (found site mem_cons_self))
      fun s mem => found s (mem_cons_of_mem _ mem)
    rw [append_assoc] at later
    exact later

theorem block_of_mem_sites {block : SSABlock} (mem : site ∈ block.sites) :
    site.block = block := by
  rcases mem_append.mp mem with isPhi | isOp
  · obtain ⟨_, -, rfl⟩ := mem_map.mp isPhi
    rfl
  · obtain ⟨_, -, rfl⟩ := mem_map.mp isOp
    rfl

theorem Passed.addBlocks (blocks : List SSABlock) :
    ∀ {done : List Site} {tables : GraphTables}, Passed blockByAddr start done tables →
      (∀ block ∈ blocks, (blockByAddr.lookup block.addr).isSome) →
      ∃ after, blocks.foldlM (addBlock blockByAddr) tables = some after ∧
        Passed blockByAddr start (done ++ blocks.flatMap SSABlock.sites) after := by
  induction blocks with
  | nil => exact fun {_ tables} passed _ => ⟨tables, rfl, by simpa using passed⟩
  | cons block rest ih =>
    intro done tables passed found
    obtain ⟨blockId, isId⟩ := isSome_iff_exists.mp (found block mem_cons_self)
    have here := passed.addSites block.sites fun site mem => by
      rw [block_of_mem_sites mem]
      exact isId
    obtain ⟨after, run, passedAfter⟩ := ih here fun b mem => found b (mem_cons_of_mem _ mem)
    refine ⟨after, ?_, ?_⟩
    · rw [foldlM_cons, addBlock_eq, isId]
      exact run
    · rw [flatMap_cons, ← append_assoc]
      exact passedAfter

variable (blockByAddr) in
theorem passed_initial (start : List GraphBlock) :
    Passed blockByAddr start [] ⟨start, [], [], [], [], ∅, ∅, ∅⟩ := by
  refine ⟨⟨⟨nofun, nodup_nil, ?_, rfl, rfl⟩, by simp, .nil, nofun, fun _ => nofun,
    fun _ => nofun, ?_⟩, fun _ _ => ⟨?_, ?_⟩⟩
  · intro var id
    exact iff_of_false nofun (by rintro ⟨_, _, position, -⟩; cases position)
  · refine (mapIdx_eq_iff.mpr fun k => ?_).symm
    cases start[k]? <;> simp
  · intro opSite id
    exact iff_of_false (some_ne_none id).symm (by rintro ⟨_, position, -⟩; cases position)
  · intro opSite id
    exact iff_of_false (some_ne_none opSite).symm (by rintro ⟨_, position, -⟩; cases position)

end Pass

end R2Sleigh.Ssa.GraphTables
