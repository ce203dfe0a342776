import BlockEdit.Proofs.Rebinding

/-!
# The settings of a section

A section is bound to a block that has not been set at all. Its `type` comes first and decides which
parameters there are; this is `Block.prepare`. What is left is to bind the settings at once to the
prepared block, the `type` among them. What is written for the block prepares the same block again,
so binding it gives an alike one.

Main statements:

* **`Block.bindSettings_eq_bound`**: a section is bound at once to the block that its `type`
  prepares.
* **`Block.alike_bindSettings`**: a block with the settings of a section and the block with what is
  written for it are alike.
-/

namespace BlockEdit

namespace Block

open Layout (writtenSlots setting)

/-- A block that nothing was bound to. -/
structure Pristine (b : Block) : Prop where
  /-- There is no subtype. -/
  subtype : b.info.subtype = none
  /-- There are no parameters of a subtype. -/
  live : b.info.subtypeParameters = []
  /-- There are no parameters of earlier subtypes. -/
  stash : b.info.stash = []
  /-- No two parameters share a name. -/
  nodup : (Named.names b.info.parameters).Nodup
  /-- No parameter is written. -/
  unwritten : ∀ s ∈ b.info.parameters, s.isWritten = false
  /-- A block with subtypes has a `type`, which is a text. -/
  type : b.subtypeNames ≠ [] → ∃ s, Named.find? Slot.typeName b.info.parameters = some s ∧
    s.type = ValueType.string

/-- The `type` setting without the blanks around its value, when it names a subtype. -/
def typed (b : Block) (given : Setting) : Setting :=
  if b.hasSubtype (Text.trim given.value) then { given with value := Text.trim given.value }
  else given

/-- The block with the parameters of the subtype that its `type` names. -/
def prepareType (b : Block) (given : Setting) : Block :=
  match b.subtypeSchema? (Text.trim given.value) with
  | some schema =>
    { b with
      info :=
        { b.info with
          subtype := some (Text.trim given.value)
          subtypeParameters := b.materialize schema } }
  | none =>
    if b.subtypeNames.isEmpty then b else b.warn (.unknownType b.path (Text.trim given.value))

/-- The block that the `type` of a section prepares. -/
def prepare (b : Block) (settings : List Setting) : Block :=
  (splitType settings).1.elim b b.prepareType

/-- The settings of a section, the `type` first. -/
def ordered (b : Block) (settings : List Setting) : List Setting :=
  ((splitType settings).1.map b.typed).toList ++ (splitType settings).2

variable {b : Block} {settings : List Setting}

/-! ### The `type` -/

/-- A block that can have no subtype has no schema for one. -/
theorem subtypeSchema?_eq_none (h : b.subtypeNames.isEmpty = true) (subtype : Text) :
    b.subtypeSchema? subtype = none := by
  rw [subtypeNames] at h
  rw [subtypeSchema?]
  rcases hs : b.info.schema with _ | schema
  · rfl
  · rw [hs] at h
    have hsubtypes : schema.subtypes = [] := List.map_eq_nil_iff.mp (List.isEmpty_iff.mp h)
    rw [Option.bind_some, BlockSchema.subtype?, hsubtypes]
    rfl

/-- Blanks around the value of a `type` do not matter to what it names. -/
theorem trim_typed (b : Block) (given : Setting) :
    Text.trim (b.typed given).value = Text.trim given.value := by
  rw [typed]
  split
  · exact Text.trim_trim given.value
  · rfl

/-- A `type` keeps its name when blanks are dropped. -/
theorem key_typed (b : Block) (given : Setting) : (b.typed given).key = given.key := by
  rw [typed]
  split
  · rfl
  · rfl

/-- A `type` keeps its comment when blanks are dropped. -/
theorem comments_typed (b : Block) (given : Setting) :
    (b.typed given).comments = given.comments := by
  rw [typed]
  split
  · rfl
  · rfl

/-- Only the name that a `type` gives counts for what it prepares. -/
theorem prepareType_congr {given other : Setting}
    (h : Text.trim other.value = Text.trim given.value) :
    b.prepareType other = b.prepareType given := by
  rw [prepareType, prepareType, h]

/-- A `type` that was bound is bound again as it is. -/
theorem typed_eq_self {given other : Setting} (h : other.value = (b.typed given).value) :
    b.typed other = other := by
  have htrim : Text.trim other.value = Text.trim given.value := by
    rw [h, trim_typed]
  rw [typed, htrim]
  split
  · next hsub =>
    have hvalue : other.value = Text.trim given.value := by
      rw [h, typed, if_pos hsub]
    rw [← hvalue]
  · rfl

/-- A text slot selects a subtype by taking its name. -/
theorem selectType_eq {s : Slot} (hs : s.type = ValueType.string) (subtype : Text) :
    selectType subtype s = s.give (some (Value.ofText subtype)) := by
  rw [selectType]
  split
  · next t ht =>
    obtain ⟨w, hw, rfl⟩ := Slot.value_setValue ht
    have hconform := (Slot.checkValue_eq_ok.mp hw).1
    rw [hs] at hconform
    cases hconform
    rfl
  · rw [Slot.relaxTo, hs]
    obtain ⟨name, type, cppType, required, default, value, userAdded, group, description, options,
      comments, explicit⟩ := s
    obtain rfl : type = ValueType.string := hs
    rfl

/-- The parameter that names the subtype keeps its name. -/
theorem name_selectType (subtype : Text) (s : Slot) : (selectType subtype s).name = s.name := by
  rw [selectType]
  split
  · next t ht =>
    obtain ⟨w, -, rfl⟩ := Slot.value_setValue ht
    rfl
  · rfl

/-- The parameter with the value that the parameters of an old subtype have for it. -/
def carried (old : List Slot) (s : Slot) : Slot :=
  match Named.find? s.name old with
  | some o => if o.type = s.type then s.copyState o else s
  | none => s

/-- A parameter keeps its name when it takes over a value. -/
theorem name_carried (old : List Slot) (s : Slot) : (carried old s).name = s.name := by
  rw [carried]
  split
  · split
    · rfl
    · rfl
  · rfl

/-- Values are carried over parameter by parameter. -/
theorem carryOver_eq_map (old slots : List Slot) : carryOver old slots = slots.map (carried old) :=
  rfl

/-- The names stay when values are carried over. -/
theorem names_carryOver (old slots : List Slot) :
    Named.names (carryOver old slots) = Named.names slots :=
  Named.names_map fun s _ => name_carried old s

/-- From no parameters nothing is carried over. -/
theorem carryOver_nil (slots : List Slot) : carryOver [] slots = slots :=
  (List.map_congr_left fun _ _ => rfl).trans (List.map_id slots)

/-- A block that had no subtype yet gets the parameters of its first one as they are. -/
theorem switchSubtype?_of_unset (hsubtype : b.info.subtype = none)
    (hlive : b.info.subtypeParameters = []) (hstash : b.info.stash = []) {subtype : Text}
    {schema : SubtypeSchema} (hs : b.subtypeSchema? subtype = some schema) :
    b.switchSubtype? subtype =
      some { b with
        info :=
          { b.info with
            subtype := some subtype
            subtypeParameters := b.materialize schema
            parameters := Named.update Slot.typeName (selectType subtype) b.info.parameters } } := by
  have hunstash : b.unstash subtype schema = (b.materialize schema, b.info.stash) := by
    rw [unstash, hstash]
    rfl
  rw [switchSubtype?, hs, Option.map_some, if_neg (by rw [hsubtype]; simp), hunstash, hlive]
  dsimp only
  rw [carryOver_nil, stashed, hsubtype]

/-- **Binding the `type`** is binding it as a setting to the block that it prepares. -/
theorem bindType_eq (hb : b.Pristine) {given : Setting} (hk : given.key = Slot.typeName) :
    b.bindType given = (b.prepareType given).bindSetting (b.typed given) := by
  obtain ⟨key, value, comments⟩ := given
  obtain rfl : key = Slot.typeName := hk
  rw [bindType, prepareType]
  split
  · next hempty =>
    have hnone := subtypeSchema?_eq_none hempty
    have htyped : b.typed ⟨Slot.typeName, value, comments⟩ = ⟨Slot.typeName, value, comments⟩ := by
      rw [typed, if_neg (by rw [hasSubtype, hnone]; exact Bool.false_ne_true)]
    simp only [htyped, hnone]
  · next hsubtypes =>
    rcases hschema : b.subtypeSchema? (Text.trim value) with _ | schema
    · have hswitch : b.switchSubtype? (Text.trim value) = none := by
        rw [switchSubtype?, hschema]
        rfl
      have hclear : b.clearSubtype = b := by
        rw [clearSubtype, hb.subtype]
      have htyped : b.typed ⟨Slot.typeName, value, comments⟩ =
          ⟨Slot.typeName, value, comments⟩ := by
        rw [typed, if_neg (by rw [hasSubtype, hschema]; exact Bool.false_ne_true)]
      simp only [hswitch, hclear, htyped]
    · have hne : b.subtypeNames ≠ [] := fun h => hsubtypes (by rw [h]; rfl)
      obtain ⟨s, hs, htype⟩ := hb.type hne
      have htyped : b.typed ⟨Slot.typeName, value, comments⟩ =
          ⟨Slot.typeName, Text.trim value, comments⟩ := by
        rw [typed, if_pos (by rw [hasSubtype, hschema]; rfl)]
      have hread : s.type.read (Text.trim value) = .ok (Value.ofText (Text.trim value)) := by
        rw [htype]
        rfl
      have hhas : Named.has Slot.typeName b.info.parameters = true := by
        rw [Named.has, hs]
        rfl
      have hname : ∀ t : Slot, Named.name t = Slot.typeName →
          Named.name (selectType (Text.trim value) t) = Slot.typeName :=
        fun t ht => (name_selectType _ t).trans ht
      have hhas' : Named.has Slot.typeName (Named.update Slot.typeName
          (selectType (Text.trim value)) b.info.parameters) = true := by
        rw [Named.has_iff, Named.names_update hname]
        exact Named.has_iff.mp hhas
      -- Both sides change the `type` in place; what they make of it is the same.
      have hupdate : Named.update Slot.typeName (fun t => { t with comments := comments })
          (Named.update Slot.typeName (selectType (Text.trim value)) b.info.parameters) =
            Named.update Slot.typeName
              (fun _ => s.take ⟨Slot.typeName, Text.trim value, comments⟩) b.info.parameters := by
        rw [Named.update_update hname]
        refine Named.update_congr hs ?_
        rw [Function.comp_apply, selectType_eq htype, Slot.take_of_ok hread]
        rfl
      have hfound : Block.parameter? { b with
          info :=
            { b.info with
              subtype := some (Text.trim value)
              subtypeParameters := b.materialize schema } } Slot.typeName = some s := by
        rw [parameter?, hs]
        rfl
      have hcomplaints : ∀ path : Text,
          s.complaints path ⟨Slot.typeName, Text.trim value, comments⟩ = [] := by
        intro path
        rw [Slot.complaints, hread]
      rw [switchSubtype?_of_unset hb.subtype hb.live hb.stash hschema, htyped]
      dsimp only
      rw [bindSetting_of_some hfound, hcomplaints, warnAll_nil, updateParameter, updateParameter,
        if_pos hhas', if_pos hhas, hupdate]

/-! ### All the settings -/

/-- The `type` is split off, when there is one. -/
theorem splitType_cases (settings : List Setting) :
    (Slot.typeName ∉ Named.names settings ∧ splitType settings = (none, settings)) ∨
      ∃ type others, type.key = Slot.typeName ∧ splitType settings = (some type, others) ∧
        settings.Perm (type :: others) := by
  induction settings with
  | nil => exact Or.inl ⟨List.not_mem_nil, rfl⟩
  | cons s settings ih =>
    by_cases hs : s.key = Slot.typeName
    · refine Or.inr ⟨s, settings, hs, ?_, .refl _⟩
      rw [splitType, List.find?_cons_of_pos (by simpa using hs),
        List.eraseP_cons_of_pos (by simpa using hs)]
    · have hsplit : splitType (s :: settings) =
          ((splitType settings).1, s :: (splitType settings).2) := by
        rw [splitType, List.find?_cons_of_neg (by simpa using hs),
          List.eraseP_cons_of_neg (by simpa using hs)]
        rfl
      rw [hsplit]
      rcases ih with ⟨hnone, hih⟩ | ⟨type, others, hkey, hih, hperm⟩
      · rw [hih]
        refine Or.inl ⟨?_, rfl⟩
        rw [Named.names_cons, List.mem_cons, not_or]
        exact ⟨fun h => hs h.symm, hnone⟩
      · rw [hih]
        exact Or.inr ⟨type, s :: others, hkey, rfl, (hperm.cons s).trans (.swap _ _ _)⟩

/-- A parameter as its schema has it is not written. -/
theorem isWritten_ofSchema (p : ParameterSchema) : (Slot.ofSchema p).isWritten = false := by
  show (false || false || (!Value.sameOption p.defaultValue p.defaultValue || !true)) = false
  rw [Value.sameOption_refl]
  rfl

/-- The parameters that a subtype adds are not written. -/
theorem unwritten_of_mem_materialize {schema : SubtypeSchema} {s : Slot}
    (h : s ∈ b.materialize schema) : s.isWritten = false := by
  obtain ⟨p, -, rfl⟩ := List.mem_map.mp (Named.mem_ofList h)
  exact isWritten_ofSchema p

/-- A subtype adds no parameter that the block has itself. -/
theorem not_mem_of_mem_materialize {schema : SubtypeSchema} {n : Text}
    (h : n ∈ Named.names (b.materialize schema)) : n ∉ Named.names b.info.parameters := by
  rw [materialize, Named.mem_names_ofList] at h
  obtain ⟨s, hs, rfl⟩ := Named.mem_names.mp h
  obtain ⟨p, hp, rfl⟩ := List.mem_map.mp hs
  have := (List.mem_filter.mp hp).2
  rw [Bool.not_eq_true', Named.has_eq_false_iff] at this
  exact this

/-- **The block that a `type` prepares** has no parameter that is set. -/
theorem untouched_prepareType (hb : b.Pristine) (given : Setting) :
    (b.prepareType given).Untouched := by
  have hplain : ∀ c : Block, c.info.parameters = b.info.parameters →
      c.info.subtypeParameters = [] → c.Untouched := by
    intro c hown hsub
    have hall : c.allParameters = b.info.parameters := by
      rw [allParameters, hown, hsub, List.append_nil]
    refine ⟨?_, ?_, ?_⟩
    · rw [hall]
      exact hb.nodup
    · rw [hall]
      exact hb.unwritten
    · rw [hsub]
      exact List.not_mem_nil
  rw [prepareType]
  split
  · next schema hschema =>
    have hne : b.subtypeNames ≠ [] := by
      intro h
      rw [subtypeSchema?_eq_none (by rw [h]; rfl)] at hschema
      cases hschema
    obtain ⟨s, hs, -⟩ := hb.type hne
    have htype : Slot.typeName ∈ Named.names b.info.parameters :=
      Named.has_iff.mp (by rw [Named.has, hs]; rfl)
    refine ⟨?_, ?_, ?_⟩
    · rw [allParameters, Named.names_append, List.nodup_append]
      refine ⟨hb.nodup, Named.nodup_ofList _, fun n hn m hm => ?_⟩
      rintro rfl
      exact not_mem_of_mem_materialize hm hn
    · intro t ht
      rcases List.mem_append.mp ht with ht | ht
      · exact hb.unwritten t ht
      · exact unwritten_of_mem_materialize ht
    · exact fun hm => not_mem_of_mem_materialize hm htype
  · split
    · exact hplain b rfl hb.live
    · exact hplain _ rfl hb.live

/-- No parameter is set in a block that was only prepared for its settings. -/
theorem untouched_prepare (hb : b.Pristine) (settings : List Setting) :
    (b.prepare settings).Untouched := by
  rw [prepare]
  rcases (splitType settings).1 with _ | given
  · have hall : b.allParameters = b.info.parameters := by
      rw [allParameters, hb.live, List.append_nil]
    refine ⟨hall ▸ hb.nodup, hall ▸ hb.unwritten, ?_⟩
    rw [Option.elim_none, hb.live]
    exact List.not_mem_nil
  · exact untouched_prepareType hb given

/-- Putting the `type` first keeps the names apart. -/
theorem nodup_ordered (hn : (Named.names settings).Nodup) :
    (Named.names (b.ordered settings)).Nodup := by
  rw [ordered]
  rcases splitType_cases settings with ⟨-, hsplit⟩ | ⟨type, others, -, hsplit, hperm⟩
  · rw [hsplit]
    exact hn
  · rw [hsplit]
    have hnames : Named.names (((some type).map b.typed).toList ++ others) =
        Named.names (type :: others) := by
      show Named.names (b.typed type :: others) = _
      rw [Named.names_cons, Named.names_cons, show Named.name (b.typed type) = _ from key_typed b type]
      rfl
    rw [hnames]
    exact (hperm.map Named.name).nodup_iff.mp hn

/-- **A section is bound at once** to the block that its `type` prepares. -/
theorem bindSettings_eq_bound (hb : b.Pristine) (hn : (Named.names settings).Nodup) :
    b.bindSettings settings = (b.prepare settings).bound (b.ordered settings) := by
  have hbound := foldl_bindSetting_eq_bound (nodup_ordered (b := b) hn)
    (untouched_prepare hb settings).nodup
  rw [← hbound, bindSettings, prepare, ordered]
  rcases splitType_cases settings with ⟨-, hsplit⟩ | ⟨type, others, hkey, hsplit, -⟩
  · rw [hsplit]
    rfl
  · rw [hsplit]
    show others.foldl bindSetting (b.bindType type) = _
    rw [bindType_eq hb hkey]
    rfl

/-- Names and comments of a section are kept when its `type` is put first. -/
theorem exists_of_mem_ordered {given : Setting} (h : given ∈ b.ordered settings) :
    ∃ s ∈ settings, given.key = s.key ∧ given.comments = s.comments := by
  rw [ordered] at h
  rcases splitType_cases settings with ⟨-, hsplit⟩ | ⟨type, others, -, hsplit, hperm⟩
  · rw [hsplit] at h
    exact ⟨given, h, rfl, rfl⟩
  · rw [hsplit] at h
    rcases List.mem_append.mp h with h | h
    · obtain rfl := List.mem_singleton.mp h
      exact ⟨type, hperm.mem_iff.mpr List.mem_cons_self, key_typed b type, comments_typed b type⟩
    · exact ⟨given, hperm.mem_iff.mpr (List.mem_cons_of_mem _ h), rfl, rfl⟩

/-! ### What is written for a section -/

/-- Preparing a block leaves its own parameters alone. -/
theorem parameters_prepareType (b : Block) (given : Setting) :
    (b.prepareType given).info.parameters = b.info.parameters := by
  rw [prepareType]
  split
  · rfl
  · split
    · rfl
    · rfl

/-- In a block without subtypes the `type` is like any other parameter. -/
theorem prepareType_of_isEmpty (h : b.subtypeNames.isEmpty = true) (given : Setting) :
    b.prepareType given = b ∧ b.typed given = given := by
  have hnone := subtypeSchema?_eq_none h (Text.trim given.value)
  constructor
  · rw [prepareType, hnone]
    exact if_pos h
  · rw [typed, hasSubtype, hnone]
    exact if_neg Bool.false_ne_true

/-- The `type` of a block with subtypes is written as the text that was bound. -/
theorem text_take_type (hb : b.Pristine) (hne : b.subtypeNames ≠ []) (type given : Setting) :
    (((b.prepareType type).parameter? Slot.typeName).elim ((b.prepareType type).newSlot given)
      (·.take given)).text = given.value := by
  obtain ⟨s, hs, htype⟩ := hb.type hne
  have hread : s.type.read given.value = .ok (Value.ofText given.value) := by
    rw [htype]
    rfl
  rw [parameter?, parameters_prepareType, hs, Option.some_or, Option.elim_some,
    Slot.take_of_ok hread]
  rfl

/-- The `type` that a section gives is written in front of everything else. -/
theorem exists_rewritten_type (hb : b.Pristine) (hn : (Named.names settings).Nodup)
    {type : Setting} {others : List Setting} (hkey : type.key = Slot.typeName)
    (hsplit : splitType settings = (some type, others)) :
    ∃ written rest, (b.prepare settings).rewritten (b.ordered settings) = written :: rest ∧
      written.key = Slot.typeName ∧
        (b.subtypeNames ≠ [] → written.value = (b.typed type).value) := by
  have hprepare : b.prepare settings = b.prepareType type := by
    rw [prepare, hsplit]
    rfl
  have hordered : b.ordered settings = b.typed type :: others := by
    rw [ordered, hsplit]
    rfl
  have huntouched := untouched_prepare hb settings
  have hnodup := nodup_ordered (b := b) hn
  have hkey' : (b.typed type).key = Slot.typeName := (key_typed b type).trans hkey
  have hwritten := (mem_writtenSlots_bound huntouched hnodup).mpr
    ⟨b.typed type, by rw [hordered]; exact List.mem_cons_self, rfl⟩
  rw [hkey'] at hwritten
  obtain ⟨slot, hslot⟩ : ∃ slot, slot = ((b.prepare settings).parameter? Slot.typeName).elim
      ((b.prepare settings).newSlot (b.typed type)) (·.take (b.typed type)) := ⟨_, rfl⟩
  rw [← hslot] at hwritten
  obtain ⟨hmem, hline⟩ := mem_allParameters_of_written hwritten
  have hname : slot.name = Slot.typeName := by
    rw [hslot]
    rcases hfind : (b.prepare settings).parameter? Slot.typeName with _ | s
    · exact (name_newSlot _ _).trans hkey'
    · rw [parameter?_eq_find?] at hfind
      exact (Slot.name_take _ _).trans (Named.name_of_find? hfind)
  have hfound : ((b.prepare settings).bound (b.ordered settings)).parameter? Slot.typeName =
      some slot := by
    rw [← hname]
    exact parameter?_of_mem (nodup_bound huntouched.nodup hnodup) hmem
  have hfirst : ∃ rest, (b.prepare settings).rewritten (b.ordered settings) =
      setting slot :: rest := by
    rw [rewritten, writtenSlots, hfound, Option.toList_some, List.append_assoc,
      List.singleton_append, List.filter_cons_of_pos hline, List.map_cons]
    exact ⟨_, rfl⟩
  obtain ⟨rest, hrest⟩ := hfirst
  refine ⟨setting slot, rest, hrest, hname, fun hne => ?_⟩
  have htext := text_take_type hb hne type (b.typed type)
  rw [← hprepare, ← hslot] at htext
  exact htext

/-- **What is written for a section** prepares the same block and has its `type` first. -/
theorem prepare_rewritten (hb : b.Pristine) (hn : (Named.names settings).Nodup) :
    b.prepare ((b.prepare settings).rewritten (b.ordered settings)) = b.prepare settings ∧
      b.ordered ((b.prepare settings).rewritten (b.ordered settings)) =
        (b.prepare settings).rewritten (b.ordered settings) := by
  have hnodup := nodup_ordered (b := b) hn
  rcases splitType_cases settings with ⟨hnone, hsplit⟩ | ⟨type, others, hkey, hsplit, -⟩
  · have hprepare : b.prepare settings = b := by
      rw [prepare, hsplit]
      rfl
    have hordered : b.ordered settings = settings := by
      rw [ordered, hsplit]
      rfl
    -- What is written has the names of what was read, so no `type` comes in.
    have hnone' : Slot.typeName ∉
        Named.names ((b.prepare settings).rewritten (b.ordered settings)) := by
      intro hm
      have hperm := (rewritten_perm (untouched_prepare hb settings) hnodup).map Named.name
      have hm' := hperm.mem_iff.mp hm
      rw [show List.map Named.name _ = _ from
        Named.names_map fun given _ => key_reset (b.prepare settings) given, hordered] at hm'
      exact hnone hm'
    rcases splitType_cases ((b.prepare settings).rewritten (b.ordered settings)) with
      ⟨-, hsplit'⟩ | ⟨type, others, hkey, -, hperm⟩
    · constructor
      · rw [prepare, hsplit', hprepare]
        rfl
      · rw [ordered, hsplit']
        rfl
    · exact absurd (Named.mem_names.mpr ⟨type, hperm.mem_iff.mpr List.mem_cons_self, hkey⟩) hnone'
  · have hprepare : b.prepare settings = b.prepareType type := by
      rw [prepare, hsplit]
      rfl
    obtain ⟨written, rest, hrewritten, hkey', hvalue⟩ := exists_rewritten_type hb hn hkey hsplit
    have hsplit' : splitType (written :: rest) = (some written, rest) := by
      rw [splitType, List.find?_cons_of_pos (by simpa using hkey'),
        List.eraseP_cons_of_pos (by simpa using hkey')]
    have hsame : b.prepareType written = b.prepareType type ∧ b.typed written = written := by
      by_cases hempty : b.subtypeNames.isEmpty = true
      · obtain ⟨hp, ht⟩ := prepareType_of_isEmpty hempty written
        rw [hp, (prepareType_of_isEmpty hempty type).1]
        exact ⟨rfl, ht⟩
      · have hvalue' := hvalue fun h => hempty (by rw [h]; rfl)
        exact ⟨prepareType_congr (by rw [hvalue', trim_typed]), typed_eq_self hvalue'⟩
    rw [hrewritten]
    constructor
    · rw [prepare, hsplit', hprepare]
      exact hsame.1
    · rw [ordered, hsplit']
      show b.typed written :: rest = written :: rest
      rw [hsame.2]

/-- The names that are written for a section are names of its settings, each of them once. -/
theorem written_bindSettings (hb : b.Pristine) (hn : (Named.names settings).Nodup) :
    (∀ s ∈ writtenSlots (b.bindSettings settings), ∃ given ∈ settings, given.key = s.name) ∧
      (Named.names (writtenSlots (b.bindSettings settings))).Nodup := by
  have hnodup := nodup_ordered (b := b) hn
  have huntouched := untouched_prepare hb settings
  rw [bindSettings_eq_bound hb hn]
  refine ⟨fun s hs => ?_, nodup_writtenSlots (nodup_bound huntouched.nodup hnodup)
    (type_not_mem_bound huntouched _)⟩
  obtain ⟨given, hgiven, hkey⟩ := key_of_mem_writtenSlots_bound huntouched hnodup hs
  obtain ⟨other, hother, hsame, -⟩ := exists_of_mem_ordered hgiven
  exact ⟨other, hother, hsame.symm.trans hkey⟩

/-- **A block with the settings of a section** and the block with what is written for it are
alike. -/
theorem alike_bindSettings (hb : b.Pristine) (hs : Setting.AllRegular settings) :
    Alike (b.bindSettings settings)
      (b.bindSettings ((writtenSlots (b.bindSettings settings)).map setting)) := by
  have hn : (Named.names settings).Nodup := hs.nodup
  have hnodup := nodup_ordered (b := b) hn
  have huntouched := untouched_prepare hb settings
  have hcomments : ∀ given ∈ b.ordered settings,
      ∀ line ∈ Text.pieces (· == '\n') given.comments, Outline.IsCommentLine line := by
    intro given hgiven
    obtain ⟨s, hmem, -, heq⟩ := exists_of_mem_ordered hgiven
    rw [heq]
    exact (hs.each s hmem).comments
  obtain ⟨hprepare, hordered⟩ := prepare_rewritten hb hn
  have hwritten : (writtenSlots ((b.prepare settings).bound (b.ordered settings))).map setting =
      (b.prepare settings).rewritten (b.ordered settings) := rfl
  rw [bindSettings_eq_bound hb hn, hwritten,
    bindSettings_eq_bound hb (nodup_rewritten huntouched hnodup), hprepare, hordered]
  exact alike_bound huntouched hnodup hcomments

end Block

end BlockEdit
