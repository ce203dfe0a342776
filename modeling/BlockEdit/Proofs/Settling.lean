import BlockEdit.Proofs.Entries
import BlockEdit.Proofs.Reload

/-!
# Binding to a block at rest

The catalog says what a block is before anything is written in it. Then `type` comes first: it
chooses a subtype, and with it which parameters there are. Where a schema gives the `type` any
scalar type, or even that of a list, the `type` that chooses a subtype is not bound like the other
settings, so `Block.settle` says parameter by parameter what all the settings make of the block, and
`Block.Settles` that a block is what comes of it.

Main statements:

* **`Block.settles_bindSettings`**: binding settings to a block at rest settles it.
* **`Block.Settles.eq_settle`**, **`Block.Settles.eq_newSlot`**: what a parameter of a settled block
  is.
-/

namespace BlockEdit

/-! ### What is written in a block -/

namespace Block

open Slot (touch)

/-- The subtype that `type` chooses: its text without the blanks around it, when the block can have
a subtype of this name. -/
def chosen? (b : Block) (given : List (Text × Text)) : Option Text :=
  (Named.find? Slot.typeName given).bind fun type =>
    if b.hasSubtype (Text.trim type.2) then some (Text.trim type.2) else none

/-- The parameters that the catalog gives the block: its own, and those of the subtype that is
chosen. -/
def declared (b : Block) (given : List (Text × Text)) : List Slot :=
  b.info.parameters ++ ((b.chosen? given).bind b.subtypeSchema?).elim [] b.materialize

/-- What is odd about a key: its text does not read as the type of its parameter. A `type` that
chooses a subtype is not odd. -/
def oddities (b : Block) (given : List (Text × Text)) (written : Text × Text) : List Warning :=
  if written.1 = Slot.typeName ∧ (b.chosen? given).isSome then []
  else
    (Named.find? written.1 (b.declared given)).elim [] fun s =>
      match s.type.read written.2 with
      | .ok _ => []
      | .error e => [.invalidValue b.path written.1 e.message]

/-- What is odd about the `type` of a block with subtypes: it chooses none of them. -/
def typeOddities (b : Block) (given : List (Text × Text)) : List Warning :=
  match Named.find? Slot.typeName given with
  | some type =>
    if b.subtypeNames = [] ∨ (b.chosen? given).isSome then []
    else [.unknownType b.path (Text.trim type.2)]
  | none => []

/-! ### Blocks at rest -/

/-- Nothing was written in the block. -/
structure AtRest (b : Block) : Prop where
  /-- There is no subtype. -/
  subtype : b.info.subtype = none
  /-- There are no parameters of a subtype. -/
  live : b.info.subtypeParameters = []
  /-- There are no parameters of earlier subtypes. -/
  stash : b.info.stash = []
  /-- There are no warnings. -/
  warnings : b.info.warnings = []
  /-- No two parameters share a name. -/
  nodup : (Named.names b.info.parameters).Nodup
  /-- The parameters are as the catalog gives them. -/
  described : ∀ s ∈ b.info.parameters, ∃ p, Slot.ofSchema p = s
  /-- A block with subtypes has a `type`. -/
  type : b.subtypeNames ≠ [] → Slot.typeName ∈ Named.names b.info.parameters

/-- Nothing was written in a new block. -/
theorem atRest_fresh (name path : Text) (schema childSchema : Option BlockSchema) :
    (fresh name path schema childSchema).AtRest := by
  rcases schema with _ | schema
  · refine ⟨rfl, rfl, rfl, rfl, List.nodup_nil, ?_, fun h => absurd rfl h⟩
    intro s hs
    cases hs
  · refine ⟨rfl, rfl, rfl, rfl, nodup_schemaSlots schema, fun s hs => ?_, fun h => ?_⟩
    · rcases mem_schemaSlots hs with rfl | ⟨p, -, rfl⟩
      · exact ⟨_, rfl⟩
      · exact ⟨p, rfl⟩
    · refine type_mem_schemaSlots fun hnone => h ?_
      show schema.subtypeNames = []
      rw [BlockSchema.subtypeNames, hnone]
      rfl

/-- Whether something was written is told by the schema, the parameters, the subtype, the stash and
the warnings. -/
theorem AtRest.of_info {b c : Block} (h : b.AtRest) (hs : c.info.schema = b.info.schema)
    (hp : c.info.parameters = b.info.parameters) (ht : c.info.subtype = b.info.subtype)
    (hl : c.info.subtypeParameters = b.info.subtypeParameters)
    (hst : c.info.stash = b.info.stash) (hw : c.info.warnings = b.info.warnings) : c.AtRest := by
  have hnames : c.subtypeNames = b.subtypeNames := by
    rw [subtypeNames, hs]
    rfl
  refine ⟨ht.trans h.subtype, hl.trans h.live, hst.trans h.stash, hw.trans h.warnings, ?_, ?_, ?_⟩
  · rw [hp]
    exact h.nodup
  · rw [hp]
    exact h.described
  · rw [hnames, hp]
    exact h.type

/-- A block that is as the catalog describes it is at rest, whatever comment it gets. -/
theorem AsDescribed.atRest {catalog : Catalog} {b : Block} (h : AsDescribed catalog b)
    (comment : Text) : (b.commented comment).AtRest := by
  obtain ⟨included, userAdded, hinfo⟩ := h
  refine (atRest_fresh b.name b.path (catalog.lookup b.path) (catalog.wildcardFor b.path)).of_info
    ?_ ?_ ?_ ?_ ?_ ?_
  all_goals rw [commented, hinfo]; rfl

/-- What the settings make of a parameter that the catalog gives the block. -/
def settle (b : Block) (settings : List Setting) (o : Slot) : Slot :=
  match Named.find? Slot.typeName settings with
  | some type =>
    if b.hasSubtype (Text.trim type.value) ∧ o.name = Slot.typeName then
      { selectType (Text.trim type.value) o with comments := type.comments }
    else o.touch settings
  | none => o.touch settings

/-- The block `c` is what the block `b` becomes with all the settings. -/
structure Settles (b : Block) (settings : List Setting) (c : Block) : Prop where
  /-- The catalog says the same about both. -/
  schema : c.info.schema = b.info.schema
  /-- The active subtype is the one that `type` chooses. -/
  subtype : c.info.subtype = b.chosen? (settings.map Setting.written)
  /-- No two parameters share a name. -/
  nodup : (Named.names c.allParameters).Nodup
  /-- The parameters that the catalog gives the block are settled, and other settings make new
  ones. -/
  parameters : ∀ s, s ∈ c.allParameters ↔
    (∃ o ∈ b.declared (settings.map Setting.written), b.settle settings o = s) ∨
      ∃ given ∈ settings,
        given.key ∉ Named.names (b.declared (settings.map Setting.written)) ∧ b.newSlot given = s
  /-- There is one warning for each oddity. -/
  warnings : c.info.warnings.Perm (b.typeOddities (settings.map Setting.written) ++
    (settings.map Setting.written).flatMap (b.oddities (settings.map Setting.written)))

/-! ### Settings and what is written -/

variable {b c : Block} {settings : List Setting}

/-- What is written in settings has their keys. -/
theorem names_written (settings : List Setting) :
    Named.names (settings.map Setting.written) = Named.names settings :=
  Named.names_map fun _ _ => rfl

/-- What is written under a key is the text of the setting that has it. -/
theorem find?_written (n : Text) (settings : List Setting) :
    Named.find? n (settings.map Setting.written) =
      (Named.find? n settings).map Setting.written :=
  Named.find?_map (f := Setting.written) (fun _ => rfl) n settings

/-- A `type` chooses the subtype that it names, if the block can have it. -/
theorem chosen?_of_find? {type : Setting} (h : Named.find? Slot.typeName settings = some type) :
    b.chosen? (settings.map Setting.written) =
      if b.hasSubtype (Text.trim type.value) then some (Text.trim type.value) else none := by
  rw [chosen?, find?_written, h]
  rfl

/-- Without a `type` no subtype is chosen. -/
theorem chosen?_of_not_mem (h : Slot.typeName ∉ Named.names settings) :
    b.chosen? (settings.map Setting.written) = none := by
  rw [chosen?, find?_written, Named.find?_eq_none h]
  rfl

/-- Where no subtype is chosen, only the block's own parameters are left to it. -/
theorem declared_of_none {given : List (Text × Text)} (h : b.chosen? given = none) :
    b.declared given = b.info.parameters := by
  rw [declared, h]
  exact List.append_nil _

/-- Without a subtype that is chosen, every parameter takes the setting of its name. -/
theorem settle_of_none (h : b.chosen? (settings.map Setting.written) = none) (o : Slot) :
    b.settle settings o = o.touch settings := by
  rw [settle]
  split
  · next type htype =>
    rw [chosen?_of_find? htype] at h
    rw [if_neg fun hs => by rw [if_pos hs.1] at h; cases h]
  · rfl

/-- The order of settings with names of their own does not matter to a parameter. -/
theorem touch_perm {l : List Setting} (hp : l.Perm settings) (hn : (Named.names settings).Nodup)
    (o : Slot) : o.touch l = o.touch settings := by
  rw [touch, touch, Named.find?_perm hp ((hp.map Named.name).nodup_iff.mpr hn)]

/-- The oddity of a setting is what binding it complains about. -/
theorem oddities_eq_complaints {given : List (Text × Text)} {x : Setting}
    (hx : x.key = Slot.typeName → b.chosen? given = none) (hpath : c.path = b.path)
    (hfind : c.parameter? x.key = Named.find? x.key (b.declared given)) :
    b.oddities given x.written = c.complaints x := by
  have hother : ¬(x.written.1 = Slot.typeName ∧ (b.chosen? given).isSome) := by
    rintro ⟨hkey, hsome⟩
    rw [hx hkey] at hsome
    cases hsome
  rw [oddities, if_neg hother, complaints, hfind]
  unfold Slot.complaints
  rw [hpath]
  rfl

/-- A block at rest that gets no subtype settles when all its settings are bound at once. -/
theorem settles_bound (hb : b.AtRest) (hn : (Named.names settings).Nodup)
    (hnone : b.chosen? (settings.map Setting.written) = none) {l : List Setting}
    (hl : l.Perm settings)
    (hc : c = b.warnAll (b.typeOddities (settings.map Setting.written))) :
    b.Settles settings (c.bound l) := by
  have hln : (Named.names l).Nodup := (hl.map Named.name).nodup_iff.mpr hn
  have hdeclared := declared_of_none hnone
  have hall : c.allParameters = b.info.parameters := by
    rw [hc]
    show b.info.parameters ++ b.info.subtypeParameters = b.info.parameters
    rw [hb.live, List.append_nil]
  have hnew : ∀ x, c.newSlot x = b.newSlot x := fun x => by rw [hc]; rfl
  refine ⟨by rw [hc]; rfl, ?_, nodup_bound (hall ▸ hb.nodup) hln, fun s => ?_, ?_⟩
  · rw [hnone, hc]
    exact hb.subtype
  · rw [mem_allParameters_bound, hall, hdeclared]
    refine or_congr (exists_congr fun o => and_congr_right fun _ => ?_) (exists_congr fun x => ?_)
    · rw [settle_of_none hnone, touch_perm hl hn]
    · rw [mem_newSettings, hl.mem_iff, hall, hnew, and_assoc]
  · have hwarnings : (c.bound l).info.warnings =
        b.typeOddities (settings.map Setting.written) ++ l.flatMap c.complaints := by
      rw [hc]
      show b.info.warnings ++ _ ++ _ = _
      rw [hb.warnings, List.nil_append]
    have hsame : (settings.map Setting.written).flatMap
        (b.oddities (settings.map Setting.written)) = settings.flatMap c.complaints := by
      rw [List.flatMap_map, List.flatMap_def, List.flatMap_def]
      refine congrArg List.flatten (List.map_congr_left fun x _ => ?_)
      refine oddities_eq_complaints (fun _ => hnone) (by rw [hc]; rfl) ?_
      rw [parameter?_eq_find?, hall, hdeclared]
    rw [hwarnings, hsame]
    exact List.Perm.append_left _ (hl.flatMap_right _)

/-- What choosing a subtype makes of the `type`, which takes the comment of the setting. -/
def chooseType (type : Setting) (o : Slot) : Slot :=
  if o.name = Slot.typeName then
    { selectType (Text.trim type.value) o with comments := type.comments }
  else o

/-- Choosing a subtype keeps the names of parameters. -/
theorem name_chooseType (type : Setting) (o : Slot) : (chooseType type o).name = o.name := by
  rw [chooseType]
  split
  · exact name_selectType _ o
  · rfl

/-- A block with subtypes at rest has a `type`. -/
theorem AtRest.type_mem (hb : b.AtRest) {subtype : Text} {schema : SubtypeSchema}
    (hs : b.subtypeSchema? subtype = some schema) :
    Slot.typeName ∈ Named.names b.info.parameters := by
  refine hb.type fun h => ?_
  rw [subtypeSchema?_eq_none (by rw [h]; rfl)] at hs
  cases hs

/-- No two parameters that the catalog gives a block share a name. -/
theorem AtRest.nodup_declared (hb : b.AtRest) (given : List (Text × Text)) :
    (Named.names (b.declared given)).Nodup := by
  rw [declared, Named.names_append, List.nodup_append]
  rcases (b.chosen? given).bind b.subtypeSchema? with _ | schema
  · exact ⟨hb.nodup, List.nodup_nil, fun n _ m hm => by cases hm⟩
  · refine ⟨hb.nodup, Named.nodup_ofList _, fun n hown m hsub => ?_⟩
    rintro rfl
    exact not_mem_of_mem_materialize hsub hown

/-- A `type` that names a subtype chooses it. -/
theorem bindType_of_schema (hb : b.AtRest) {type : Setting} {schema : SubtypeSchema}
    (hs : b.subtypeSchema? (Text.trim type.value) = some schema) :
    b.bindType type = { b with
      info :=
        { b.info with
          subtype := some (Text.trim type.value)
          subtypeParameters := b.materialize schema
          parameters := b.info.parameters.map (chooseType type) } } := by
  have hne : b.subtypeNames.isEmpty = false := by
    rw [Bool.eq_false_iff]
    intro h
    rw [subtypeSchema?_eq_none h] at hs
    cases hs
  have hselect : ∀ o : Slot, Named.name o = Slot.typeName →
      Named.name (selectType (Text.trim type.value) o) = Slot.typeName :=
    fun o ho => (name_selectType _ o).trans ho
  have hupdate : Named.update Slot.typeName
      (fun o : Slot => { o with comments := type.comments })
        (Named.update Slot.typeName (selectType (Text.trim type.value)) b.info.parameters) =
          b.info.parameters.map (chooseType type) := by
    rw [Named.update_update hselect, Named.update_eq_map hb.nodup]
    rfl
  have hhas : Named.has Slot.typeName (Named.update Slot.typeName
      (selectType (Text.trim type.value)) b.info.parameters) = true := by
    rw [Named.has_iff, Named.names_update hselect]
    exact hb.type_mem hs
  rw [bindType, hne, if_neg Bool.false_ne_true,
    switchSubtype?_of_unset hb.subtype hb.live hb.stash hs]
  dsimp only
  rw [updateParameter, if_pos hhas, hupdate]

/-! ### A `type` that chooses a subtype -/

section chosen

variable {type : Setting} {others : List Setting} {schema : SubtypeSchema}

/-- The `type` is found among the settings. -/
theorem find?_type (hn : (Named.names settings).Nodup) (hkey : type.key = Slot.typeName)
    (hperm : settings.Perm (type :: others)) :
    Named.find? Slot.typeName settings = some type := by
  have hfirst : Named.find? Slot.typeName (type :: others) = some type := by
    rw [Named.find?, if_pos (show Named.name type = _ from hkey)]
  exact (Named.find?_perm hperm hn _).symm.trans hfirst

/-- In front of the other settings the parameters are those that the catalog gives the block, with
the `type` chosen. -/
theorem allParameters_bindType (hb : b.AtRest)
    (hfound : Named.find? Slot.typeName settings = some type)
    (hs : b.subtypeSchema? (Text.trim type.value) = some schema) :
    (b.bindType type).allParameters =
      (b.declared (settings.map Setting.written)).map (chooseType type) := by
  have hdeclared : b.declared (settings.map Setting.written) =
      b.info.parameters ++ b.materialize schema := by
    rw [declared, chosen?_of_find? hfound, if_pos (by rw [hasSubtype, hs]; rfl), Option.bind_some,
      hs]
    rfl
  rw [bindType_of_schema hb hs, hdeclared, List.map_append]
  show b.info.parameters.map (chooseType type) ++ b.materialize schema = _
  refine congrArg _ ((List.map_id _).symm.trans (List.map_congr_left fun o ho => ?_))
  have hne : o.name ≠ Slot.typeName := fun h =>
    not_mem_of_mem_materialize (Named.mem_names.mpr ⟨o, ho, h⟩) (hb.type_mem hs)
  rw [chooseType, if_neg hne]
  rfl

/-- What the other settings make of them is what all the settings make of what the catalog gives. -/
theorem touch_chooseType (hn : (Named.names settings).Nodup) (hkey : type.key = Slot.typeName)
    (hperm : settings.Perm (type :: others))
    (hs : b.subtypeSchema? (Text.trim type.value) = some schema) (o : Slot) :
    (chooseType type o).touch others = b.settle settings o := by
  have hordered : (Named.names (type :: others)).Nodup :=
    (hperm.map Named.name).nodup_iff.mp hn
  rw [Named.names_cons, List.nodup_cons] at hordered
  rw [settle, find?_type hn hkey hperm]
  dsimp only
  by_cases ho : o.name = Slot.typeName
  · have hname : (chooseType type o).name = type.key := by
      rw [name_chooseType, ho, hkey]
    rw [if_pos ⟨by rw [hasSubtype, hs]; rfl, ho⟩,
      Slot.touch_of_not_mem (by rw [hname]; exact hordered.1), chooseType, if_pos ho]
  · rw [if_neg fun h => ho h.2, chooseType, if_neg ho, ← touch_perm hperm.symm hn,
      Slot.touch_cons, if_neg (by rw [hkey]; exact Ne.symm ho)]

/-- The oddities of all the settings are what the other settings complain about. -/
theorem oddities_bindType (hb : b.AtRest) (hn : (Named.names settings).Nodup)
    (hkey : type.key = Slot.typeName) (hperm : settings.Perm (type :: others))
    (hs : b.subtypeSchema? (Text.trim type.value) = some schema) :
    ((settings.map Setting.written).flatMap
      (b.oddities (settings.map Setting.written))).Perm
        (others.flatMap (b.bindType type).complaints) := by
  have hordered : (Named.names (type :: others)).Nodup :=
    (hperm.map Named.name).nodup_iff.mp hn
  rw [Named.names_cons, List.nodup_cons] at hordered
  have hfound := find?_type hn hkey hperm
  have hodd : b.oddities (settings.map Setting.written) type.written = [] := by
    rw [oddities, chosen?_of_find? hfound, if_pos (show b.hasSubtype _ = true by
      rw [hasSubtype, hs]; rfl)]
    exact if_pos ⟨hkey, rfl⟩
  have hothers : (others.map Setting.written).flatMap
      (b.oddities (settings.map Setting.written)) =
        others.flatMap (b.bindType type).complaints := by
    rw [List.flatMap_map, List.flatMap_def, List.flatMap_def]
    refine congrArg List.flatten (List.map_congr_left fun x hx => ?_)
    have hne : x.key ≠ Slot.typeName := fun h =>
      hordered.1 (Named.mem_names.mpr ⟨x, hx, h.trans hkey.symm⟩)
    refine oddities_eq_complaints (fun h => absurd h hne) ?_ ?_
    · rw [bindType_of_schema hb hs]
    · rw [parameter?_eq_find?, allParameters_bindType hb hfound hs,
        Named.find?_map (f := chooseType type) fun o => name_chooseType type o]
      rcases hfind : Named.find? x.key (b.declared (settings.map Setting.written)) with _ | o
      · rfl
      · have hname : o.name ≠ Slot.typeName :=
          fun h => hne ((Named.name_of_find? hfind).symm.trans h)
        rw [Option.map_some, chooseType, if_neg hname]
  rw [← hothers]
  refine ((hperm.map Setting.written).flatMap_right _).trans (.of_eq ?_)
  rw [List.map_cons, List.flatMap_cons, hodd, List.nil_append]

/-- A block at rest whose `type` chooses a subtype settles when its other settings are bound at
once. -/
theorem settles_bindType (hb : b.AtRest) (hn : (Named.names settings).Nodup)
    (hkey : type.key = Slot.typeName) (hperm : settings.Perm (type :: others))
    (hs : b.subtypeSchema? (Text.trim type.value) = some schema) :
    (Named.names (b.bindType type).allParameters).Nodup ∧
      b.Settles settings ((b.bindType type).bound others) := by
  have hordered : (Named.names (type :: others)).Nodup :=
    (hperm.map Named.name).nodup_iff.mp hn
  rw [Named.names_cons, List.nodup_cons] at hordered
  have hfound := find?_type hn hkey hperm
  have hall := allParameters_bindType hb hfound hs
  have hnames : Named.names (b.bindType type).allParameters =
      Named.names (b.declared (settings.map Setting.written)) := by
    rw [hall]
    exact Named.names_map fun o _ => name_chooseType type o
  have hnodup : (Named.names (b.bindType type).allParameters).Nodup :=
    hnames ▸ hb.nodup_declared _
  have hschema : (b.bindType type).info.schema = b.info.schema := by
    rw [bindType_of_schema hb hs]
  refine ⟨hnodup, hschema, ?_, nodup_bound hnodup hordered.2, fun s => ?_, ?_⟩
  · rw [chosen?_of_find? hfound, if_pos (by rw [hasSubtype, hs]; rfl)]
    show (b.bindType type).info.subtype = _
    rw [bindType_of_schema hb hs]
  · rw [mem_allParameters_bound]
    refine or_congr ?_ (exists_congr fun x => ?_)
    · rw [hall]
      constructor
      · rintro ⟨t, ht, h⟩
        obtain ⟨o, ho, rfl⟩ := List.mem_map.mp ht
        exact ⟨o, ho, (touch_chooseType hn hkey hperm hs o).symm.trans h⟩
      · rintro ⟨o, ho, h⟩
        exact ⟨_, List.mem_map_of_mem ho, (touch_chooseType hn hkey hperm hs o).trans h⟩
    -- The `type` itself never makes a new parameter, since the block has one.
    · have hnew : (b.bindType type).newSlot x = b.newSlot x := by
        rw [newSlot, newSlot, isKnown, isKnown, hschema]
      rw [mem_newSettings, hnames, hperm.mem_iff, List.mem_cons, hnew, and_assoc]
      constructor
      · exact fun h => ⟨Or.inr h.1, h.2⟩
      · rintro ⟨rfl | hx, hnot, h⟩
        · rw [hkey, declared, Named.names_append, List.mem_append] at hnot
          exact absurd (Or.inl (hb.type_mem hs)) hnot
        · exact ⟨hx, hnot, h⟩
  · have hquiet : b.typeOddities (settings.map Setting.written) = [] := by
      rw [typeOddities, find?_written, hfound, chosen?_of_find? hfound,
        if_pos (show b.hasSubtype _ = true by rw [hasSubtype, hs]; rfl)]
      exact if_pos (Or.inr rfl)
    have hwarnings : ((b.bindType type).bound others).info.warnings =
        others.flatMap (b.bindType type).complaints := by
      show (b.bindType type).info.warnings ++ _ = _
      rw [bindType_of_schema hb hs]
      show b.info.warnings ++ _ = _
      rw [hb.warnings, List.nil_append]
    rw [hwarnings, hquiet, List.nil_append]
    exact (oddities_bindType hb hn hkey hperm hs).symm

end chosen

/-! ### All the settings of a block -/

/-- **Binding settings** to a block at rest settles it. -/
theorem settles_bindSettings (hb : b.AtRest) (hn : (Named.names settings).Nodup) :
    b.Settles settings (b.bindSettings settings) := by
  have hall : b.allParameters = b.info.parameters := by
    rw [allParameters, hb.live, List.append_nil]
  have hwarned : ∀ ws, (Named.names (b.warnAll ws).allParameters).Nodup := by
    intro ws
    show (Named.names b.allParameters).Nodup
    rw [hall]
    exact hb.nodup
  rw [bindSettings]
  rcases splitType_cases settings with ⟨hnone, hsplit⟩ | ⟨type, others, hkey, hsplit, hperm⟩
  · have hquiet : b.typeOddities (settings.map Setting.written) = [] := by
      rw [typeOddities, find?_written, Named.find?_eq_none hnone]
      rfl
    rw [hsplit]
    show b.Settles settings (settings.foldl bindSetting b)
    have hrest : b = b.warnAll [] := (warnAll_nil b).symm
    rw [foldl_bindSetting_eq_bound hn (by rw [hrest]; exact hwarned [])]
    exact settles_bound hb hn (chosen?_of_not_mem hnone) (.refl _) (by rw [hquiet, warnAll_nil])
  · rw [hsplit]
    show b.Settles settings (others.foldl bindSetting (b.bindType type))
    have hfound := find?_type hn hkey hperm
    have hordered : (Named.names (type :: others)).Nodup :=
      (hperm.map Named.name).nodup_iff.mp hn
    rcases hs : b.subtypeSchema? (Text.trim type.value) with _ | schema
    · have hchosen : b.chosen? (settings.map Setting.written) = none := by
        rw [chosen?_of_find? hfound, hasSubtype, hs]
        rfl
      -- A `type` that chooses nothing is bound like the other settings, behind the warning.
      have hbind : b.bindType type =
          (b.warnAll (b.typeOddities (settings.map Setting.written))).bindSetting type := by
        rw [bindType, typeOddities, find?_written, hfound, hchosen]
        dsimp only [Option.map_some]
        by_cases he : b.subtypeNames = []
        · rw [if_pos (by rw [he]; rfl), if_pos (Or.inl he), warnAll_nil]
        · have hswitch : b.switchSubtype? (Text.trim type.value) = none := by
            rw [switchSubtype?, hs]
            rfl
          rw [if_neg (by rw [List.isEmpty_iff]; exact he), hswitch,
            if_neg (by rintro (h | h); exacts [he h, by cases h]), clearSubtype, hb.subtype]
          rfl
      rw [hbind, ← List.foldl_cons, foldl_bindSetting_eq_bound hordered (hwarned _)]
      exact settles_bound hb hn hchosen hperm.symm rfl
    · rw [Named.names_cons, List.nodup_cons] at hordered
      obtain ⟨hnodup, hsettles⟩ := settles_bindType hb hn hkey hperm hs
      rw [foldl_bindSetting_eq_bound hordered.2 hnodup]
      exact hsettles

/-! ### The parameters of a settled block -/

/-- A parameter that takes a setting was given its value. -/
theorem explicit_take (o : Slot) (x : Setting) : (o.take x).explicit = true := by
  rcases h : o.type.read x.value with e | v
  · rw [Slot.take_of_error h]
    rfl
  · rw [Slot.take_of_ok h]
    rfl

/-- The `type` holds the name of the subtype that was selected, as a text unless it is a list. -/
theorem selectType_spec (t : Text) (o : Slot) : (selectType t o).explicit = true ∧
    (selectType t o).type = o.type.relaxed ∧
      ∃ v, o.type.relaxed.read t = .ok v ∧ (selectType t o).value = some v := by
  rw [selectType]
  split
  · next s hs =>
    obtain ⟨w, hw, rfl⟩ := Slot.value_setValue hs
    have hconform := (Slot.checkValue_eq_ok.mp hw).1
    obtain ⟨kind, hkind⟩ : ∃ kind, o.type = .scalar kind := by
      rcases htype : o.type with kind | kind
      · exact ⟨kind, rfl⟩
      · rw [htype] at hconform
        cases hconform
    rw [hkind] at hconform
    cases kind with
    | string =>
      cases hconform
      exact ⟨rfl, hkind.trans (by rw [hkind]; rfl), _, by rw [hkind]; rfl, rfl⟩
    | _ => cases hconform
  · obtain ⟨v, hv⟩ := ValueType.exists_read_relaxed o.type t
    refine ⟨rfl, rfl, v, hv, ?_⟩
    show (o.type.relaxed.read t).toOption = some v
    rw [hv]
    rfl

/-- Settings keep the names of parameters. -/
theorem name_settle (b : Block) (settings : List Setting) (o : Slot) :
    (b.settle settings o).name = o.name := by
  rw [settle]
  split
  · split
    · exact name_selectType _ o
    · exact Slot.name_touch settings o
  · exact Slot.name_touch settings o

/-- Settings of other names make nothing of a parameter. -/
theorem settle_of_not_mem {o : Slot} (h : o.name ∉ Named.names settings) :
    b.settle settings o = o := by
  have htouch := Slot.touch_of_not_mem h
  rw [settle]
  split
  · next type htype =>
    rw [if_neg, htouch]
    rintro ⟨-, ho⟩
    rw [ho] at h
    exact h (Named.mem_names.mpr ⟨type, Named.find?_eq_some htype⟩)
  · exact htouch

/-- A parameter with a setting of its name takes it, unless it is the `type` that chooses a
subtype. -/
theorem settle_of_find? {o : Slot} {x : Setting} (hx : Named.find? o.name settings = some x)
    (ho : o.name = Slot.typeName → b.chosen? (settings.map Setting.written) = none) :
    b.settle settings o = o.take x := by
  have htouch : o.touch settings = o.take x := by
    rw [touch, hx]
    rfl
  rw [settle]
  split
  · next type htype =>
    rw [if_neg, htouch]
    rintro ⟨hsub, hname⟩
    have hnone := ho hname
    rw [chosen?_of_find? htype, if_pos hsub] at hnone
    cases hnone
  · exact htouch

/-- Settings give a value to just the parameters that they name. -/
theorem explicit_settle {o : Slot} (ho : o.explicit = false) :
    (b.settle settings o).explicit = true ↔ o.name ∈ Named.names settings := by
  by_cases hm : o.name ∈ Named.names settings
  · refine iff_of_true ?_ hm
    obtain ⟨x, hx⟩ := Named.exists_find? hm
    have htouch : (o.touch settings).explicit = true := by
      rw [touch, hx]
      exact explicit_take o x
    rw [settle]
    split
    · split
      · exact (selectType_spec _ o).1
      · exact htouch
    · exact htouch
  · rw [settle_of_not_mem hm, ho]
    exact iff_of_false Bool.false_ne_true hm

/-- What the catalog gives a block at rest is at its default and not set. -/
theorem AtRest.exists_of_mem_declared (hb : b.AtRest) {given : List (Text × Text)} {o : Slot}
    (ho : o ∈ b.declared given) : ∃ p, Slot.ofSchema p = o := by
  rcases List.mem_append.mp ho with ho | ho
  · exact hb.described o ho
  · rcases hs : (b.chosen? given).bind b.subtypeSchema? with _ | schema
    · rw [hs] at ho
      cases ho
    · rw [hs] at ho
      obtain ⟨p, -, hp⟩ := List.mem_map.mp (Named.mem_ofList ho)
      exact ⟨p, hp⟩

/-- A key that is written comes from a setting. -/
theorem exists_of_mem_written (hn : (Named.names settings).Nodup) {n t : Text}
    (h : (n, t) ∈ settings.map Setting.written) :
    ∃ x ∈ settings, x.key = n ∧ x.value = t ∧ Named.find? n settings = some x := by
  obtain ⟨x, hx, he⟩ := List.mem_map.mp h
  cases he
  exact ⟨x, hx, rfl, rfl, Named.find?_of_mem hn hx⟩

/-- A subtype that is chosen is named by the `type`. -/
theorem exists_of_chosen? {t : Text} (h : b.chosen? (settings.map Setting.written) = some t) :
    ∃ x, Named.find? Slot.typeName settings = some x ∧ Text.trim x.value = t ∧
      b.hasSubtype t = true := by
  rcases hx : Named.find? Slot.typeName settings with _ | x
  · rw [chosen?, find?_written, hx] at h
    cases h
  · rw [chosen?_of_find? hx] at h
    by_cases hhas : b.hasSubtype (Text.trim x.value) = true
    · rw [if_pos hhas] at h
      cases h
      exact ⟨x, rfl, rfl, hhas⟩
    · rw [if_neg hhas] at h
      cases h

namespace Settles

/-- The names of a settled block. -/
theorem mem_names_iff (h : b.Settles settings c) (n : Text) :
    n ∈ Named.names c.allParameters ↔
      n ∈ Named.names (b.declared (settings.map Setting.written)) ∨
        n ∈ Named.names settings := by
  constructor
  · intro hm
    obtain ⟨s, hs, rfl⟩ := Named.mem_names.mp hm
    rcases (h.parameters s).mp hs with ⟨o, ho, rfl⟩ | ⟨x, hx, -, rfl⟩
    · exact Or.inl (Named.mem_names.mpr ⟨o, ho, (name_settle b settings o).symm⟩)
    · exact Or.inr (Named.mem_names.mpr ⟨x, hx, (name_newSlot b x).symm⟩)
  · intro hm
    by_cases hd : n ∈ Named.names (b.declared (settings.map Setting.written))
    · obtain ⟨o, ho, rfl⟩ := Named.mem_names.mp hd
      exact Named.mem_names.mpr ⟨_, (h.parameters _).mpr (Or.inl ⟨o, ho, rfl⟩),
        name_settle b settings o⟩
    · obtain ⟨x, hx, rfl⟩ := Named.mem_names.mp (hm.resolve_left hd)
      exact Named.mem_names.mpr ⟨_, (h.parameters _).mpr (Or.inr ⟨x, hx, hd, rfl⟩),
        name_newSlot b x⟩

/-- **What a settled block has under a name**: the parameter that the catalog gives it, settled, or
else a new one. -/
theorem parameter? (h : b.Settles settings c) (m : Text) :
    c.parameter? m =
      ((Named.find? m (b.declared (settings.map Setting.written))).map (b.settle settings)).or
        ((Named.find? m settings).map b.newSlot) := by
  rw [parameter?_eq_find?]
  rcases ho : Named.find? m (b.declared (settings.map Setting.written)) with _ | o
  · have hnot := Named.find?_eq_none_iff.mp ho
    rw [Option.map_none, Option.none_or]
    rcases hx : Named.find? m settings with _ | x
    · refine Named.find?_eq_none fun hm => ?_
      exact ((h.mem_names_iff m).mp hm).elim hnot (Named.find?_eq_none_iff.mp hx)
    · obtain ⟨hmem, rfl⟩ := Named.find?_eq_some hx
      have hfound := Named.find?_of_mem h.nodup
        ((h.parameters (b.newSlot x)).mpr (Or.inr ⟨x, hmem, hnot, rfl⟩))
      rwa [show Named.name (b.newSlot x) = Named.name x from name_newSlot _ _] at hfound
  · obtain ⟨hmem, rfl⟩ := Named.find?_eq_some ho
    have hfound := Named.find?_of_mem h.nodup ((h.parameters _).mpr (Or.inl ⟨o, hmem, rfl⟩))
    rwa [show Named.name (b.settle settings o) = Named.name o from name_settle _ _ _] at hfound

/-- A parameter of a settled block that the catalog gives is the one of its name, settled. -/
theorem eq_settle (hb : b.AtRest) (h : b.Settles settings c) {s o : Slot}
    (hs : s ∈ c.allParameters) (ho : o ∈ b.declared (settings.map Setting.written))
    (hname : o.name = s.name) : s = b.settle settings o := by
  rcases (h.parameters s).mp hs with ⟨o', ho', rfl⟩ | ⟨x, -, hnew, rfl⟩
  · have hdeclared := hb.nodup_declared (settings.map Setting.written)
    have hfound := Named.find?_of_mem hdeclared ho
    rw [name_settle] at hname
    rw [show Named.name o = Named.name o' from hname, Named.find?_of_mem hdeclared ho'] at hfound
    rw [Option.some.inj hfound]
  · rw [name_newSlot] at hname
    exact absurd (Named.mem_names.mpr ⟨o, ho, hname⟩) hnew

/-- A parameter of a settled block that the catalog does not give is new. -/
theorem eq_newSlot (hn : (Named.names settings).Nodup) (h : b.Settles settings c) {s : Slot}
    {x : Setting} (hs : s ∈ c.allParameters)
    (hnew : s.name ∉ Named.names (b.declared (settings.map Setting.written)))
    (hx : Named.find? s.name settings = some x) : s = b.newSlot x := by
  rcases (h.parameters s).mp hs with ⟨o, ho, rfl⟩ | ⟨y, hy, -, rfl⟩
  · exact absurd (Named.mem_names.mpr ⟨o, ho, (name_settle b settings o).symm⟩) hnew
  · have hfound := Named.find?_of_mem hn hy
    rw [show Named.name y = (b.newSlot y).name from (name_newSlot b y).symm, hx] at hfound
    rw [Option.some.inj hfound]

/-- The `type` that chooses a subtype holds its name. -/
theorem exists_type (hb : b.AtRest) (h : b.Settles settings c) {t : Text}
    (ht : b.chosen? (settings.map Setting.written) = some t) :
    ∃ s o v, s ∈ c.allParameters ∧
      Named.find? Slot.typeName b.info.parameters = some o ∧ s.name = Slot.typeName ∧
      s.type = o.type.relaxed ∧ o.type.relaxed.read t = .ok v ∧ s.value = some v ∧
      (o.type.isArray = false → s.type = ValueType.string ∧ s.value = some (Value.ofText t)) := by
  obtain ⟨x, hx, rfl, hhas⟩ := exists_of_chosen? ht
  obtain ⟨schema, hschema⟩ := Option.isSome_iff_exists.mp hhas
  obtain ⟨o, ho⟩ := Named.exists_find? (hb.type_mem hschema)
  obtain ⟨hmem, hname⟩ := Named.find?_eq_some ho
  obtain ⟨-, hrelaxed, v, hv, hvalue⟩ := selectType_spec (Text.trim x.value) o
  have hsettle : b.settle settings o =
      { selectType (Text.trim x.value) o with comments := x.comments } := by
    rw [settle, hx]
    exact if_pos ⟨hhas, hname⟩
  refine ⟨b.settle settings o, o, v, (h.parameters _).mpr (Or.inl ⟨o, ?_, rfl⟩), ho,
    (name_settle b settings o).trans hname, by rw [hsettle]; exact hrelaxed, hv,
    by rw [hsettle]; exact hvalue, fun harray => ?_⟩
  · exact List.mem_append_left _ hmem
  · rw [hsettle]
    rcases htype : o.type with kind | kind
    · rw [htype] at hrelaxed hv
      cases hv
      exact ⟨hrelaxed, hvalue⟩
    · rw [htype] at harray
      cases harray

end Settles

end Block

end BlockEdit
