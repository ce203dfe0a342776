import BlockEdit.Proofs.Apart
import BlockEdit.Proofs.Atomicity
import BlockEdit.Proofs.Frames
import BlockEdit.Proofs.RoundTrip

/-!
# Another subtype and back

A switch stashes the parameters of the old subtype and carries their values over to those of the new
one. The way back takes them out of the stash, and what it carries over to them are the values that
they had. The `type` of the block goes there and back too, because it always says which subtype is
active: `BlockInfo.Chosen`.

Main statements:

* **`Block.carryOver_carryOver`**: values that are carried over and back are as they were.
* **`Document.Reached.chosen`**: in every document of a run the `type` of a block names its active
  subtype.
* **`Document.Reached.switch_back`**: a document in which a block is switched to another subtype and
  back is as it was, but for the stash of this block.
-/

namespace BlockEdit

/-- The slot is a `type` that names this subtype. -/
structure Slot.Selects (s : Slot) (subtype : Option Text) : Prop where
  /-- It takes any text. -/
  type : s.type = ValueType.string
  /-- It was given the name of the subtype, if there is one. -/
  value : ∀ a ∈ subtype, s.value = some (Value.ofText a) ∧ s.explicit = true

/-- The `type` of a block with subtypes says which of them is active. -/
def BlockInfo.Chosen (i : BlockInfo) : Prop :=
  ∀ schema ∈ i.schema, schema.subtypes ≠ [] →
    ∃ s, Named.find? Slot.typeName i.parameters = some s ∧ s.Selects i.subtype

namespace Slot

/-- A `type` that is given the name of a subtype names it. -/
theorem selects_give {s : Slot} (h : s.type = ValueType.string) (a : Text) :
    (s.give (some (Value.ofText a))).Selects (some a) := by
  refine ⟨h, fun b hb => ?_⟩
  cases hb
  exact ⟨rfl, rfl⟩

/-- Choosing the subtype that a slot names leaves the slot as it is. -/
theorem Selects.give_eq {s : Slot} {a : Text} (h : s.Selects (some a)) :
    s.give (some (Value.ofText a)) = s := by
  obtain ⟨hvalue, hexplicit⟩ := h.value a rfl
  rw [give, ← hvalue, ← hexplicit]

/-- A slot that gets back its own value and comment is as it was. -/
theorem copyState_of_eq {s o : Slot} (hv : o.value = s.value) (he : o.explicit = s.explicit)
    (hc : o.comments = s.comments) : s.copyState o = s := by
  rw [copyState, hv, he, hc]

end Slot

namespace Block

open BlockInfo (Chosen Mapped)
open Slot (typeName)

variable {b c : Block}

/-! ### Values that are carried over -/

/-- **Values that are carried over and back** are as they were: a parameter gets its value back from
the one that took it, and no other one has its name and its type. -/
theorem carryOver_carryOver {old : List Slot} (h : (Named.names old).Nodup) (slots : List Slot) :
    carryOver (carryOver old slots) old = old := by
  refine (List.map_congr_left fun s hs => ?_).trans (List.map_id old)
  have hold : Named.find? s.name old = some s := Named.find?_of_mem h hs
  show carried (carryOver old slots) s = s
  rw [carried, carryOver_eq_map, Named.find?_map (name_carried old)]
  rcases ho : Named.find? s.name slots with _ | o
  · rfl
  · have hname : o.name = s.name := Named.name_of_find? ho
    simp only [Option.map_some, carried, hname, hold]
    by_cases htype : s.type = o.type
    · rw [if_pos htype, if_pos (show (o.copyState s).type = s.type from htype.symm)]
      exact Slot.copyState_of_eq rfl rfl rfl
    · rw [if_neg htype, if_neg (Ne.symm htype)]

/-! ### The `type` names the active subtype -/

/-- Whether the `type` names the subtype is told by the schema, the parameters and the subtype. -/
theorem chosen_of_eq {i j : BlockInfo} (h : i.Chosen) (hs : j.schema = i.schema)
    (hp : j.parameters = i.parameters) (ht : j.subtype = i.subtype) : j.Chosen := by
  rw [Chosen, hs, hp, ht]
  exact h

/-- Whether the `type` names the subtype does not depend on where the block lies. -/
theorem placeless_chosen : BlockInfo.Placeless Chosen where
  place _ _ h := chosen_of_eq h rfl rfl rfl
  included h := chosen_of_eq h rfl rfl rfl

/-- **A block that was switched** has a `type` that names the new subtype. -/
theorem chosen_switchSubtype? {subtype : Text} (h : b.info.Chosen)
    (hc : b.switchSubtype? subtype = some c) : c.info.Chosen := by
  by_cases hsame : b.info.subtype = some subtype
  · rwa [eq_of_switchSubtype? hc hsame]
  · rw [switchSubtype?] at hc
    obtain ⟨schema, -, rfl⟩ := Option.map_eq_some_iff.mp hc
    rw [if_neg hsame]
    intro schema hschema hne
    obtain ⟨s, hs, hselects⟩ := h schema hschema hne
    refine ⟨selectType subtype s, ?_, ?_⟩
    · rw [Named.find?_update_of_find? hs ((name_selectType subtype s).trans
        (Named.name_of_find? hs)), if_pos rfl]
    · rw [selectType_eq hselects.type]
      exact Slot.selects_give hselects.type subtype

/-- A change of a parameter keeps its name, and a `type` goes on naming the active subtype. -/
theorem chosen_updateParameter {n : Text} {f : Slot → Slot} (h : b.info.Chosen)
    (hname : ∀ s, b.parameter? n = some s → (f s).name = s.name)
    (hf : n = typeName → ∀ s, b.parameter? n = some s → s.Selects b.info.subtype →
      (f s).Selects b.info.subtype) : (b.updateParameter n f).info.Chosen := by
  rw [updateParameter]
  split
  · intro schema hschema hne
    obtain ⟨s, hs, hselects⟩ := h schema hschema hne
    by_cases hn : n = typeName
    · subst hn
      have hparameter : b.parameter? typeName = some s := by rw [parameter?, hs, Option.some_or]
      refine ⟨f s, ?_, hf rfl s hparameter hselects⟩
      rw [Named.find?_update_of_find? hs ((hname s hparameter).trans (Named.name_of_find? hs)),
        if_pos rfl]
    · refine ⟨s, ?_, hselects⟩
      rwa [Named.find?_update_of_ne (Ne.symm hn) fun u hu =>
        (hname u (by rw [parameter?, hu, Option.some_or])).trans (Named.name_of_find? hu)]
  · exact chosen_of_eq h rfl rfl rfl

/-- A new parameter of another name does not matter to whether the `type` names the subtype. -/
theorem chosen_addParameter {s : Slot} (h : b.info.Chosen) (hs : b.parameter? s.name = none) :
    (b.addParameter s).info.Chosen := by
  intro schema hschema hne
  obtain ⟨u, hu, hselects⟩ := h schema hschema hne
  refine ⟨u, (Named.find?_put_of_ne ?_ _).trans hu, hselects⟩
  intro hname
  rw [parameter?, show s.name = typeName from hname, hu, Option.some_or] at hs
  cases hs

/-! ### The blocks of a text -/

/-- A slot for texts stays one whatever it takes. -/
theorem type_take {s : Slot} (hs : s.type = ValueType.string) (given : Setting) :
    (s.take given).type = ValueType.string := by
  rcases hr : s.type.read given.value with e | v
  · rw [Slot.take_of_error hr]
    show s.type.relaxed = ValueType.string
    rw [hs]
    rfl
  · rw [Slot.take_of_ok hr]
    exact hs

/-- A setting other than the `type` does not matter to which subtype is active, and where none is
active the `type` can take any text. -/
theorem chosen_bindSetting {given : Setting} (h : b.info.Chosen)
    (hg : given.key ≠ typeName ∨ b.info.subtype = none) : (b.bindSetting given).info.Chosen := by
  rcases hs : b.parameter? given.key with _ | s
  · rw [bindSetting, hs]
    exact chosen_addParameter h ((name_newSlot b given).symm ▸ hs)
  · rw [bindSetting_of_some hs]
    refine chosen_of_eq (i := (b.updateParameter given.key fun _ => s.take given).info) ?_ rfl rfl rfl
    refine chosen_updateParameter h (fun u hu => ?_) fun hkey u hu hselects => ?_
    · rw [hs] at hu
      cases hu
      exact Slot.name_take s given
    · rw [hs] at hu
      cases hu
      refine ⟨type_take hselects.type given, fun a ha => ?_⟩
      rw [hg.resolve_left (not_not_intro hkey)] at ha
      cases ha

/-- Settings that are no `type` do not matter to whether the `type` names the subtype. -/
theorem chosen_foldl_bindSetting {settings : List Setting} (h : b.info.Chosen)
    (hg : typeName ∉ Named.names settings) : (settings.foldl bindSetting b).info.Chosen := by
  induction settings generalizing b with
  | nil => exact h
  | cons given settings ih =>
    rw [Named.names_cons, List.mem_cons, not_or] at hg
    exact ih (chosen_bindSetting h (Or.inl fun hkey => hg.1 hkey.symm)) hg.2

/-- **The `type` of a section** names the subtype that it chooses. -/
theorem chosen_bindType {given : Setting} (h : b.info.Chosen) (hb : b.info.subtype = none) :
    (b.bindType given).info.Chosen := by
  rw [bindType]
  split
  · exact chosen_bindSetting h (Or.inr hb)
  · split
    · next c hc =>
      exact chosen_updateParameter (chosen_switchSubtype? h hc) (fun _ _ => rfl)
        fun _ _ _ hselects => ⟨hselects.type, hselects.value⟩
    · rw [clearSubtype, hb]
      exact chosen_bindSetting (chosen_of_eq h rfl rfl rfl) (Or.inr hb)

/-- **All the settings of a section** leave a block whose `type` names its subtype. -/
theorem chosen_bindSettings {settings : List Setting} (h : b.info.Chosen)
    (hb : b.info.subtype = none) (hn : (Named.names settings).Nodup) :
    (b.bindSettings settings).info.Chosen := by
  rw [bindSettings]
  rcases splitType_cases settings with ⟨hnone, hsplit⟩ | ⟨type, others, hkey, hsplit, hperm⟩
  · rw [hsplit]
    exact chosen_foldl_bindSetting h hnone
  · rw [hsplit]
    refine chosen_foldl_bindSetting (chosen_bindType h hb) ?_
    have hnodup : (Named.names (type :: others)).Nodup := (hperm.map Named.name).nodup_iff.mp hn
    rw [Named.names_cons, List.nodup_cons, show Named.name type = typeName from hkey] at hnodup
    exact hnodup.1

section catalog

variable {catalog : Catalog}

/-- What a catalog describes has a `type` where it has subtypes, and none of them is active. -/
theorem chosen_described (hc : catalog.TypesAreTexts) (path name : Text) :
    (described catalog path name).info.Chosen := by
  intro schema hschema hne
  obtain ⟨p, hmem⟩ := Catalog.exists_mem_of_lookup (c := catalog) hschema
  obtain ⟨s, hs, htype⟩ := find?_type_schemaSlots (hc _ hmem) hne
  refine ⟨s, ?_, htype, fun a ha => ?_⟩
  · show Named.find? typeName (((catalog.lookup path).map schemaSlots).getD []) = some s
    rw [show catalog.lookup path = some schema from hschema]
    exact hs
  · cases ha

/-- A block as the catalog describes it has a `type` where it has subtypes, and none is active. -/
theorem chosen_of_asDescribed (hc : catalog.TypesAreTexts) (h : AsDescribed catalog b) :
    b.info.Chosen ∧ b.info.subtype = none := by
  obtain ⟨included, userAdded, hinfo⟩ := h
  rw [hinfo]
  exact ⟨chosen_of_eq (chosen_described hc b.path b.name) rfl rfl rfl, rfl⟩

/-- A block without a schema has no `type` that could name a subtype. -/
theorem chosen_of_schema (h : b.info.schema = none) : b.info.Chosen := by
  intro schema hschema
  rw [h] at hschema
  cases hschema

/-- **The tree of a text**: every `type` names the active subtype. -/
theorem throughout_chosen_parse (hc : catalog.TypesAreTexts) {source : Text} {root : Block}
    (h : parse catalog source = .ok root) : Throughout Chosen root := by
  refine .of_parse placeless_chosen (fun d hd => (chosen_of_asDescribed hc hd).1)
    (fun d comment settings hd _ hr => ?_) (fun settings _ => chosen_of_schema ?_) h
  · obtain ⟨hchosen, hnone⟩ := chosen_of_asDescribed hc hd
    exact chosen_bindSettings (b := d.commented comment) (chosen_of_eq hchosen rfl rfl rfl) hnone
      hr.nodup
  · exact (retouch_foldl_bindSetting settings (instantiateRoot catalog)).schema

/-- In a new tree each `type` names the subtype that is active. -/
theorem throughout_chosen_instantiateRoot (hc : catalog.TypesAreTexts) :
    Throughout Chosen (instantiateRoot catalog) :=
  .of_described (fun path name => chosen_of_eq (chosen_described hc path name) rfl rfl rfl) rfl rfl
    (chosen_of_schema rfl)

end catalog

end Block

/-! ### Edits -/

namespace Edit

open Block (All Sound Throughout)
open BlockInfo (Chosen)

variable {root root' : Block} {catalog : Catalog} {e : Edit} {landing : Landing}

/-- A parameter of which an edit changes the value does not choose the subtype. -/
theorem not_selectsSubtype_of_changed {n : Text} {b : Block} (hchanged : e.changed? = some n)
    (hselected : e.selected? b = none) (hcomment : ∀ path comment, e ≠ .setComment path n comment) :
    selectsSubtype b n = false := by
  cases e with
  | setValue | setText =>
    cases hchanged
    by_contra hselects
    rw [Bool.not_eq_false] at hselects
    rw [selected?, if_pos hselects] at hselected
    cases hselected
  | setComment path _ comment =>
    cases hchanged
    exact absurd rfl (hcomment path comment)
  | addChild | remove | rename | setSubtype | addParameter => cases hchanged

/-- A `type` that does not choose a subtype is that of a block without subtypes. -/
theorem chosen_updateParameter_of_not_selects {b : Block} {n : Text} {f : Slot → Slot}
    (h : b.info.Chosen) (hname : ∀ s, b.parameter? n = some s → (f s).name = s.name)
    (hn : selectsSubtype b n = false) : (b.updateParameter n f).info.Chosen := by
  by_cases htype : n = Slot.typeName
  · intro schema hschema hne
    rw [(Block.rest_updateParameter b n f).2.1] at hschema
    have hnames : b.subtypeNames = schema.subtypeNames := by
      rw [Block.subtypeNames, show b.info.schema = some schema from hschema]
      rfl
    rw [selectsSubtype, htype, hnames, BlockSchema.subtypeNames] at hn
    simp [hne] at hn
  · exact Block.chosen_updateParameter h hname fun hsame => absurd hsame htype

/-- **What an edit does**, but for a change of a comment, leaves every `type` naming the active
subtype: it changes the value of a `type` that chooses a subtype only together with the subtype. -/
theorem chosen_of_effect (hc : catalog.TypesAreTexts) (hs : All Sound root)
    (h : Throughout Chosen root) (he : Effect root catalog e root' landing)
    (hcomment : ∀ path n comment, e ≠ .setComment path n comment) : Throughout Chosen root' := by
  refine .of_effect Block.placeless_chosen (fun d hd => (Block.chosen_of_asDescribed hc hd).1)
    (fun d hd _ subtype => ?_) (fun i hi => Block.chosen_of_eq hi rfl rfl rfl)
    (fun b _ subtype _ c hswitch hb => Block.chosen_switchSubtype? hb hswitch)
    (fun b _ n hchanged hselected f hb hkeeps => ?_)
    (fun b _ s _ hb hfree => Block.chosen_addParameter hb hfree) hs h he
  · have hmark : (d.mark true).info.Chosen := Block.placeless_chosen.included hd
    rcases subtype with _ | subtype
    · exact hmark
    · show ((d.mark true).switchSubtype subtype).info.Chosen
      rw [Block.switchSubtype]
      rcases hswitch : (d.mark true).switchSubtype? subtype with _ | c
      · exact hmark
      · exact Block.chosen_switchSubtype? hmark hswitch
  · exact chosen_updateParameter_of_not_selects hb (fun s hs => (hkeeps s hs).name)
      (not_selectsSubtype_of_changed hchanged hselected fun path => hcomment path n)

/-- **An edit that is accepted** leaves every `type` naming the active subtype. -/
theorem chosen_of_apply (hc : catalog.TypesAreTexts) (hs : All Sound root)
    (h : Throughout Chosen root) (happly : e.apply root catalog = .ok (root', landing)) :
    Throughout Chosen root' := by
  by_cases hcomment : ∃ path n comment, e = .setComment path n comment
  · obtain ⟨path, n, comment, rfl⟩ := hcomment
    obtain ⟨_, -, happly⟩ := Except.exists_of_bind_eq_ok happly
    obtain ⟨b, hb, happly⟩ := Except.exists_of_bind_eq_ok happly
    obtain ⟨s, -, happly⟩ := Except.exists_of_bind_eq_ok happly
    cases happly
    have hold := h.of_find? (find?_of_block hb)
    refine h.set (hold.of_retouch (Block.retouch_updateParameter fun hi t ht => ?_) ?_)
    · exact Slot.fits_comments (Block.fits_of_parameter? hi ht) comment
    · exact Block.chosen_updateParameter hold.here (fun _ _ => rfl)
        fun _ _ _ hselects => ⟨hselects.type, hselects.value⟩
  · exact chosen_of_effect hc hs h (effect_of_apply hs happly)
      fun path n comment he => hcomment ⟨path, n, comment, he⟩

end Edit

/-! ### There and back -/

namespace Block

open BlockInfo (Chosen Mapped)

variable {b c : Block} {active other : Text}

/-- A change of the `type` that leaves it as it is does nothing. -/
theorem update_eq_self {n : Text} {f : Slot → Slot} {s : Slot} : ∀ {slots : List Slot},
    Named.find? n slots = some s → f s = s → Named.update n f slots = slots
  | u :: slots, hs, hf => by
    rw [Named.find?] at hs
    rw [Named.update]
    split at hs
    · next hname =>
      cases hs
      rw [if_pos hname, hf]
    · next hname => rw [if_neg hname, update_eq_self hs hf]

/-- The block with a subtype whose parameters are these, before the values are carried over to
them. -/
def withSubtype (b : Block) (subtype : Text) (slots : List Slot) (stash : List (Text × List Slot)) :
    Block :=
  { b with
    info :=
      { b.info with
        subtype := some subtype
        subtypeParameters := carryOver b.info.subtypeParameters slots
        stash
        parameters := Named.update Slot.typeName (selectType subtype) b.info.parameters } }

/-- What a switch to a subtype that is not active makes of a block. -/
theorem switchSubtype?_of_ne {subtype : Text} {schema : SubtypeSchema}
    (hs : b.subtypeSchema? subtype = some schema) (hne : b.info.subtype ≠ some subtype) :
    b.switchSubtype? subtype = some (b.withSubtype subtype (b.unstash subtype schema).1
      (stashed { b.info with stash := (b.unstash subtype schema).2 })) := by
  rw [switchSubtype?, hs, Option.map_some, if_neg hne]
  rfl

/-- The `type` goes to another subtype and back. -/
theorem update_selectType_back {slots : List Slot} {s : Slot}
    (hs : Named.find? Slot.typeName slots = some s) (h : s.Selects (some active)) :
    Named.update Slot.typeName (selectType active)
      (Named.update Slot.typeName (selectType other) slots) = slots := by
  rw [Named.update_update fun u hu => (name_selectType other u).trans hu]
  refine update_eq_self hs ?_
  rw [Function.comp_apply, selectType_eq h.type,
    selectType_eq (show (s.give _).type = _ from h.type)]
  exact h.give_eq

/-- With the parameters of the old subtype as they were, a block gets its values back. -/
theorem withSubtype_back (hm : b.info.Mapped) (hactive : b.info.subtype = some active) {s : Slot}
    (hs : Named.find? Slot.typeName b.info.parameters = some s) (h : s.Selects (some active))
    (slots : List Slot) (earlier later : List (Text × List Slot)) :
    (b.withSubtype other slots earlier).withSubtype active b.info.subtypeParameters later =
      { b with info := { b.info with stash := later } } := by
  simp only [withSubtype, carryOver_carryOver hm.live, update_selectType_back hs h, ← hactive]

/-- **A block that is switched to another subtype and back** is as it was, but for its stash. -/
theorem switchSubtype?_back (hs : b.info.Sound) (hm : b.info.Mapped) (hc : b.info.Chosen)
    (hactive : b.info.subtype = some active) (hother : b.switchSubtype? other = some c) :
    ∃ stash, c.switchSubtype? active = some { b with info := { b.info with stash } } := by
  by_cases hsame : other = active
  · subst hsame
    obtain rfl := eq_of_switchSubtype? hother hactive
    refine ⟨c.info.stash, hother.trans ?_⟩
    cases c
    rfl
  obtain ⟨schema, hschema, old, hold⟩ : ∃ schema, b.info.schema = some schema ∧
      ∃ old, schema.subtype? active = some old := by
    rcases hs.subtype with ⟨hnone, -⟩ | ⟨schema, a, hschema, ha, hdeclared⟩
    · rw [hactive] at hnone
      cases hnone
    · rw [hactive] at ha
      cases ha
      exact ⟨schema, hschema, Option.isSome_iff_exists.mp hdeclared⟩
  have hsubtypes : schema.subtypes ≠ [] := by
    intro hnil
    rw [BlockSchema.subtype?, hnil] at hold
    cases hold
  obtain ⟨s, hslot, hselects⟩ := hc schema hschema hsubtypes
  rw [hactive] at hselects
  have hne : b.info.subtype ≠ some other := fun h =>
    hsame (Option.some.inj (h.symm.trans hactive))
  obtain ⟨new, hnew⟩ : ∃ new, b.subtypeSchema? other = some new := by
    rw [switchSubtype?] at hother
    obtain ⟨new, hnew, -⟩ := Option.map_eq_some_iff.mp hother
    exact ⟨new, hnew⟩
  rw [switchSubtype?_of_ne hnew hne, Option.some.injEq] at hother
  have hdeclared : c.subtypeSchema? active = some old := by
    rw [← hother]
    show b.info.schema.bind _ = some old
    rw [hschema, Option.bind_some, hold]
  have hnot : c.info.subtype ≠ some active := by
    rw [← hother]
    exact fun h => hsame (Option.some.inj h)
  -- The parameters of the old subtype are in the stash, and nothing has happened to them there.
  have hstash : Named.find? active c.info.stash = some (active, b.info.subtypeParameters) := by
    rw [← hother]
    show Named.find? active (stashed _) = _
    simp only [stashed, hactive]
    exact Named.find?_put (active, b.info.subtypeParameters) _
  have hunstash : c.unstash active old =
      (b.info.subtypeParameters, Named.remove active c.info.stash) := by
    rw [unstash, hstash]
  rw [switchSubtype?_of_ne hdeclared hnot, hunstash, ← hother,
    withSubtype_back hm hactive hslot hselects]
  exact ⟨_, rfl⟩

/-! ### Documents -/

/-- Of two blocks that are put in one place, one after the other, the later one stays. -/
theorem replaceAt_replaceAt {old first second : Block} (hn : first.name = old.name) :
    ∀ (ns : List Text) {b : Block}, b.descend? ns = some old →
      (b.replaceAt ns first).replaceAt ns second = b.replaceAt ns second
  | [], _, _ => rfl
  | n :: ns, b, h => by
    obtain ⟨d, hd, hold⟩ := Option.bind_eq_some_iff.mp h
    have hname : ∀ e : Block, Named.name e = n → Named.name (e.replaceAt ns first) = n := by
      intro e he
      cases ns with
      | nil =>
        cases hold
        exact hn.trans (Named.name_of_find? hd)
      | cons => exact he
    have hlast : ((fun e => e.replaceAt ns second) ∘ fun e => e.replaceAt ns first) d =
        d.replaceAt ns second := replaceAt_replaceAt hn ns hold
    rw [replaceAt, replaceAt, replaceAt, Named.update_update hname]
    exact congrArg (Block.mk b.info · b.unused) (Named.update_congr hd hlast)

/-- Of two blocks that are put in one place the second one counts. -/
theorem set_set {root first : Block} {path : Text} (hb : root.find? path = some b)
    (hn : first.name = b.name) (second : Block) :
    (root.set path first).set path second = root.set path second :=
  replaceAt_replaceAt hn _ hb

/-- A list in which one thing is changed corresponds to what it was. -/
theorem forall₂_update {R : Block → Block → Prop} (hrefl : ∀ d, R d d) {n : Text}
    {f : Block → Block} {d : Block} (hd : R d (f d)) : ∀ {ds : List Block},
      Named.find? n ds = some d → List.Forall₂ R ds (Named.update n f ds)
  | e :: ds, h => by
    rw [Named.find?] at h
    rw [Named.update]
    split at h
    · next hname =>
      cases h
      rw [if_pos hname]
      exact .cons hd (List.forall₂_same.mpr fun e _ => hrefl e)
    · next hname =>
      rw [if_neg hname]
      exact .cons (hrefl e) (forall₂_update hrefl hd h)

/-- A block is written as it is. -/
theorem SameText.refl (b : Block) : SameText b b := fun _ _ => rfl

/-- **A block with the same lines** in the place of a block leaves the lines around it as they
are. -/
theorem sameText_replaceAt {new : Block} (h : SameText b new) :
    ∀ (ns : List Text) {a : Block}, a.descend? ns = some b → SameText a (a.replaceAt ns new)
  | [], _, ha => by
    cases ha
    exact h
  | n :: ns, a, ha => by
    obtain ⟨d, hd, hold⟩ := Option.bind_eq_some_iff.mp ha
    have hchild : SameText d (d.replaceAt ns new) := sameText_replaceAt h ns hold
    exact .of_children rfl rfl rfl
      (forall₂_update (f := fun e => e.replaceAt ns new) SameText.refl hchild hd)

/-- A block with other things in the stash has the same lines. -/
theorem lines_with_stash (b : Block) (stash : List (Text × List Slot)) :
    ({ b with info := { b.info with stash } } : Block).lines = b.lines :=
  rfl

/-- **What is in the stash** of a block does not matter to the text of the document. -/
theorem serialize_set_stash {root : Block} {path : Text} (hb : root.find? path = some b)
    (stash : List (Text × List Slot)) (indent : Text) :
    (root.set path { b with info := { b.info with stash } }).serialize indent =
      root.serialize indent := by
  have hsame : List.Forall₂ SameText b.children b.children :=
    List.forall₂_same.mpr fun d _ => SameText.refl d
  rw [find?] at hb
  rw [set]
  cases hns : Path.segments path with
  | nil =>
    rw [hns] at hb
    cases hb
    exact SameText.serialize (lines_with_stash b stash) hsame indent
  | cons n ns =>
    rw [hns] at hb
    obtain ⟨d, hd, hold⟩ := Option.bind_eq_some_iff.mp hb
    have htext : SameText b { b with info := { b.info with stash } } :=
      .of_children rfl rfl (lines_with_stash b stash) hsame
    have hchild := sameText_replaceAt htext ns hold
    exact SameText.serialize (b := root) (c := root.replaceAt (n :: ns) _) rfl
      (forall₂_update (f := fun e => e.replaceAt ns _) SameText.refl hchild hd) indent

end Block

namespace Document

open Block (Throughout)
open BlockInfo (Chosen)

variable {catalog : Catalog} {d : Document} {b : Block} {active other : Text}

/-- **Every document of a run** has blocks whose `type` names the active subtype. -/
theorem Reached.chosen (hc : catalog.TypesAreTexts) (h : Reached catalog d) :
    Throughout Chosen d.root := by
  induction h with
  | new => exact Block.throughout_chosen_instantiateRoot hc
  | ofText h => exact Block.throughout_chosen_parse hc (root_of_ofText h).1
  | apply before h ih =>
    obtain ⟨landing, he, -⟩ := root_of_apply h
    rw [before.catalog_eq] at he
    exact Edit.chosen_of_apply hc before.grounded.tree ih he
  | replaceText before h ih =>
    obtain ⟨parsed, hparse, hroot, -⟩ := root_of_replaceText h
    rw [hroot]
    rw [before.catalog_eq] at hparse
    exact (Block.throughout_chosen_parse hc hparse).replaceContents Block.placeless_chosen

/-- A block of the document can be switched to a subtype of its schema. -/
theorem exists_apply_setSubtype {path : Text} {c : Block} (hb : d.root.find? path = some b)
    (hc : b.switchSubtype? other = some c) :
    ∃ d' r, d.apply (.setSubtype path other) = .ok (d', r) ∧ d'.root = d.root.set path c := by
  have hblock : Edit.block d.root path = .ok b := by rw [Edit.block, hb]
  have hcheck : (Edit.setSubtype path other).check d.root = .ok () := by
    show (Edit.block d.root path).bind _ = _
    rw [hblock]
    show Edit.checkSubtype b other = _
    rw [Edit.checkSubtype, ← Block.switchSubtype?_isSome_iff, hc]
    rfl
  obtain ⟨root, landing, d', r, hedit, -, happly, -, hroot, -⟩ := apply_of_check_ok hcheck
  obtain ⟨_, -, hcarry⟩ := Except.exists_of_bind_eq_ok hedit
  obtain ⟨b₁, hb₁, hcarry⟩ := Except.exists_of_bind_eq_ok hcarry
  rw [hblock] at hb₁
  cases hb₁
  cases hcarry
  refine ⟨d', r, happly, hroot.trans ?_⟩
  rw [Block.switchSubtype, hc]
  rfl

/-- **Trying another subtype and going back loses nothing.** The catalog takes the `type` of every
block with subtypes as a text. Then a block with an active subtype can be switched to any of its
subtypes and back, and only its stash is another one then: the block has the same parameters of its
own and of its subtype, in the same order, with the same values, types and comments, every other
block is as it was, and so is the text of the document. -/
theorem Reached.switch_back (hc : catalog.TypesAreTexts) (h : Reached catalog d)
    (hb : b ∈ d.root.descendants) (hactive : b.info.subtype = some active)
    (hother : b.hasSubtype other = true) :
    ∃ d₁ r₁ d₂ r₂ stash, d.apply (.setSubtype b.path other) = .ok (d₁, r₁) ∧
      d₁.apply (.setSubtype b.path active) = .ok (d₂, r₂) ∧
      d₂.root = d.root.set b.path { b with info := { b.info with stash } } ∧
      d₂.root.find? b.path = some { b with info := { b.info with stash } } ∧
      (∀ ns, Path.segments b.path ≠ ns → d₂.root.coreAt ns = d.root.coreAt ns) ∧
      ∀ indent, d₂.text indent = d.text indent := by
  have hground := h.grounded
  have hfind : d.root.find? b.path = some b := Block.find?_path hground.tree hground.path hb
  have hsound : b.info.Sound := (hground.tree.descendant hb).here.info
  have hmapped : b.info.Mapped := (Block.All.descendant h.mapped hb).here
  have hchosen : b.info.Chosen := (Block.All.descendant (h.chosen hc) hb).here
  rw [← Block.switchSubtype?_isSome_iff] at hother
  obtain ⟨c, hswitch⟩ := Option.isSome_iff_exists.mp hother
  obtain ⟨stash, hback⟩ := Block.switchSubtype?_back hsound hmapped hchosen hactive hswitch
  have hthere := Block.retouch_switchSubtype? hswitch
  have hagain := hthere.trans (Block.retouch_switchSubtype? hback)
  obtain ⟨d₁, r₁, hfirst, hroot₁⟩ := exists_apply_setSubtype hfind hswitch
  have hfind₁ : d₁.root.find? b.path = some c := by
    rw [hroot₁]
    exact Block.find?_set hfind hthere.place.name
  obtain ⟨d₂, r₂, hsecond, hroot₂⟩ := exists_apply_setSubtype hfind₁ hback
  rw [hroot₁, Block.set_set hfind hthere.place.name] at hroot₂
  refine ⟨d₁, r₁, d₂, r₂, stash, hfirst, hsecond, hroot₂, ?_, fun ns hns => ?_, fun indent => ?_⟩
  · rw [hroot₂]
    exact Block.find?_set hfind rfl
  · rw [hroot₂]
    exact Block.coreAt_set_of_retouch hfind hagain hns
  · rw [text, hroot₂]
    exact Block.serialize_set_stash hfind stash indent

/-- A catalog with one block `/A` with the subtypes `s` and `t`, of which both have a number `n` and
a parameter `m`, but not of the same type. -/
def trialCatalog : Catalog where
  entries := [("/A".toList,
    { subtypes := [("s".toList,
        { parameters := [{ name := "n".toList, basicType := "Integer".toList },
          { name := "m".toList, basicType := "Integer".toList }] }),
        ("t".toList,
        { parameters := [{ name := "m".toList, basicType := "Real".toList },
          { name := "n".toList, basicType := "Integer".toList }] })] })]

/-- A block with values and a comment that tries the subtype `t` and goes back to `s`. -/
theorem Reached.switch_back_sample : ∃ d b d₁ r₁ d₂ r₂, Reached trialCatalog d ∧
    b ∈ d.root.descendants ∧ b.info.subtype = some "s".toList ∧
    d.apply (.setSubtype b.path "t".toList) = .ok (d₁, r₁) ∧
    d₁.apply (.setSubtype b.path "s".toList) = .ok (d₂, r₂) ∧
    ∀ indent, d₂.text indent = d.text indent := by
  let steps : List Edit := [.addChild "/".toList (some "A".toList) (some "s".toList),
    .setText "/A".toList "n".toList "1".toList, .setText "/A".toList "m".toList "2".toList,
    .setComment "/A".toList "n".toList "why".toList]
  have hrun : ((Document.new trialCatalog).edits steps).toOption.map (fun d =>
      decide (∃ b ∈ d.root.descendants, b.info.subtype = some "s".toList ∧
        b.hasSubtype "t".toList = true)) = some true := by
    decide +kernel
  rcases hd : (Document.new trialCatalog).edits steps with e | d
  · rw [hd] at hrun
    cases hrun
  · rw [hd] at hrun
    obtain ⟨b, hb, hactive, hother⟩ := of_decide_eq_true (Option.some.inj hrun)
    have hreached : Reached trialCatalog d := .edits steps .new hd
    obtain ⟨d₁, r₁, d₂, r₂, -, hfirst, hsecond, -, -, -, htext⟩ :=
      Reached.switch_back (by decide +kernel) hreached hb hactive hother
    exact ⟨d, b, d₁, r₁, d₂, r₂, hreached, hb, hactive, hfirst, hsecond, htext⟩

end Document

end BlockEdit
