import BlockEdit.Proofs.SwitchBack
import BlockEdit.Proofs.Tidy

/-!
# What the catalog provides

Edits give the parameters of a block other values and comments, switch its subtype and add texts of
the user's choice. Values and comments apart, a block has the parameters that the catalog provides
for its schema and its subtype, in their order, and behind its own those that a user added. This
stays so just as long as no user adds a parameter under a name that a subtype of the block needs:
`Edit.Shadows`.

Main statements:

* **`Block.materialize_eq_provision`**: what a switch brings is what the catalog provides for a
  block in which nothing was written.
* **`Edit.provided_of_apply`**: an edit that shadows no parameter of a subtype leaves the parameters
  that the catalog provides.
* **`Block.nodup_allParameters_of_provided`**: no name stands for two parameters.
-/

namespace BlockEdit

/-- The slot at its default, with nothing said about it. -/
def Slot.atDefault (s : Slot) : Slot :=
  { s with value := s.default, comments := [], explicit := false }

/-- One of the subtypes has a parameter of this name. -/
def BlockSchema.Reserves (schema : BlockSchema) (n : Text) : Prop :=
  ∃ entry ∈ schema.subtypes, n ∈ Named.names entry.2.parameters

instance (schema : BlockSchema) (n : Text) : Decidable (schema.Reserves n) :=
  inferInstanceAs (Decidable (∃ entry ∈ schema.subtypes, n ∈ Named.names entry.2.parameters))

namespace BlockInfo

/-- A block of this schema in which nothing was written. -/
def bare (i : BlockInfo) : Block := Block.fresh [] [] i.schema none

/-- The parameters that the catalog provides for a subtype of the block. -/
def provision (i : BlockInfo) (subtype : Text) : List Slot :=
  (i.bare.subtypeSchema? subtype).elim [] i.bare.materialize

/-- The parameters of a block are those that the catalog provides, whatever is said about them, and
those that a user added. -/
structure Provided (i : BlockInfo) : Prop where
  /-- The `type` of a block with subtypes is a text. -/
  schema : ∀ schema ∈ i.schema, schema.TypeIsText
  /-- Its own parameters are those of the schema, but for those that a user added. -/
  own : (i.parameters.map Slot.atDefault).filter (fun s => !s.userAdded) = i.bare.info.parameters
  /-- What a user added is a text, and no subtype needs its name. -/
  added : ∀ s ∈ i.parameters, s.userAdded = true →
    s.type = ValueType.string ∧ ∀ schema ∈ i.schema, ¬ schema.Reserves s.name
  /-- The parameters of its subtype are those of the schema. -/
  live : i.subtypeParameters.map Slot.atDefault = i.subtype.elim [] i.provision
  /-- Those in the stash are. -/
  stashed : ∀ entry ∈ i.stash, entry.2.map Slot.atDefault = i.provision entry.1

end BlockInfo

/-- The edit adds a parameter under a name that a subtype of the block needs. -/
def Edit.Shadows (root : Block) : Edit → Prop
  | .addParameter path name _ =>
    ∃ b ∈ root.find? path, ∃ schema ∈ b.info.schema, schema.Reserves name
  | _ => False

instance (root : Block) : (e : Edit) → Decidable (e.Shadows root)
  | .addParameter path name _ => inferInstanceAs (Decidable
      (∃ b ∈ root.find? path, ∃ schema ∈ b.info.schema, schema.Reserves name))
  | .addChild .. | .remove _ | .rename .. | .setSubtype .. | .setValue .. | .setText ..
  | .setComment .. => .isFalse id

/-! ### Slots at their defaults -/

namespace Slot

variable {s o : Slot} {slots : List Slot}

/-- A value that is given does not matter to the default. -/
@[simp] theorem atDefault_give (s : Slot) (v : Option Value) :
    (s.give v).atDefault = s.atDefault := rfl

/-- A value that is copied from another parameter does not matter to the default. -/
@[simp] theorem atDefault_copyState (s o : Slot) : (s.copyState o).atDefault = s.atDefault := rfl

/-- The default has the name of the parameter. -/
@[simp] theorem name_atDefault (s : Slot) : s.atDefault.name = s.name := rfl

/-- What a catalog describes is at its default. -/
theorem atDefault_eq_self (h : ∃ p, ofSchema p = s) : s.atDefault = s := by
  obtain ⟨p, rfl⟩ := h
  rfl

/-- Parameters that were just made from their schemas are at their defaults. -/
theorem map_atDefault_eq_self (h : ∀ s ∈ slots, ∃ p, ofSchema p = s) :
    slots.map atDefault = slots :=
  (List.map_congr_left fun s hs => atDefault_eq_self (h s hs)).trans (List.map_id slots)

/-- The defaults have the names of the parameters. -/
theorem names_map_atDefault (slots : List Slot) :
    Named.names (slots.map atDefault) = Named.names slots :=
  Named.names_map fun _ _ => rfl

/-- A change of a slot that says something else about it leaves the slots at their defaults. -/
theorem map_atDefault_update {n : Text} {f : Slot → Slot} : ∀ {slots : List Slot},
    (∀ s, Named.find? n slots = some s → (f s).atDefault = s.atDefault) →
      (Named.update n f slots).map atDefault = slots.map atDefault
  | [], _ => rfl
  | s :: slots, h => by
    rw [Named.update]
    split
    · next hname =>
      rw [List.map_cons, List.map_cons, h s (by rw [Named.find?, if_pos hname])]
    · next hname =>
      rw [List.map_cons, List.map_cons, map_atDefault_update fun u hu => h u ?_]
      rw [Named.find?, if_neg hname, hu]

/-- Values that are carried over from another subtype do not matter to the defaults. -/
theorem map_atDefault_carryOver (old slots : List Slot) :
    (Block.carryOver old slots).map atDefault = slots.map atDefault := by
  rw [Block.carryOver_eq_map, List.map_map]
  refine List.map_congr_left fun s _ => ?_
  rw [Function.comp_apply, Block.carried]
  split
  · split
    · exact atDefault_copyState _ _
    · rfl
  · rfl

end Slot

/-! ### What a block has from the catalog -/

namespace BlockInfo

variable {i j : BlockInfo} {n : Text}

/-- What the catalog provides for a subtype is made from schemas of parameters. -/
theorem described_provision (i : BlockInfo) (subtype : Text) :
    ∀ s ∈ i.provision subtype, ∃ p, Slot.ofSchema p = s := by
  intro s hs
  rw [provision] at hs
  rcases hpart : i.bare.subtypeSchema? subtype with _ | part
  · rw [hpart] at hs
    cases hs
  · rw [hpart] at hs
    obtain ⟨p, -, hp⟩ := List.mem_map.mp (Named.mem_ofList hs)
    exact ⟨p, hp⟩

/-- What is provided depends on the schema alone. -/
theorem Provided.of_eq (h : i.Provided) (hs : j.schema = i.schema)
    (hp : j.parameters = i.parameters) (ht : j.subtype = i.subtype)
    (hl : j.subtypeParameters = i.subtypeParameters) (hst : j.stash = i.stash) : j.Provided := by
  have hbare : j.bare = i.bare := by rw [bare, bare, hs]
  have hprovision : j.provision = i.provision := by
    funext subtype
    rw [provision, provision, hbare]
  refine ⟨hs ▸ h.schema, ?_, ?_, ?_, ?_⟩
  · rw [hp, hbare]
    exact h.own
  · rw [hp, hs]
    exact h.added
  · rw [hl, ht, hprovision]
    exact h.live
  · rw [hst, hprovision]
    exact h.stashed

/-- What a block has from its schema does not depend on where the block lies. -/
theorem placeless_provided : Placeless Provided where
  place _ _ h := h.of_eq rfl rfl rfl rfl rfl
  included h := h.of_eq rfl rfl rfl rfl rfl

namespace Provided

variable (h : i.Provided)

include h

/-- A parameter that no user added is one of the schema. -/
theorem mem_bare {s : Slot} (hs : s ∈ i.parameters) (ha : s.userAdded = false) :
    s.atDefault ∈ i.bare.info.parameters := by
  rw [← h.own, List.mem_filter]
  exact ⟨List.mem_map_of_mem hs, by rw [show s.atDefault.userAdded = false from ha]; rfl⟩

/-- A block has the parameters of its schema. -/
theorem mem_names_of_bare (hn : n ∈ Named.names i.bare.info.parameters) :
    n ∈ Named.names i.parameters := by
  rw [← h.own] at hn
  obtain ⟨o, ho, rfl⟩ := Named.mem_names.mp hn
  rw [← Slot.names_map_atDefault]
  exact Named.name_mem_names (List.mem_of_mem_filter ho)

/-- Under a name that a subtype needs, a block has what its schema has. -/
theorem mem_names_iff {schema : BlockSchema} (hs : schema ∈ i.schema) (hn : schema.Reserves n) :
    n ∈ Named.names i.parameters ↔ n ∈ Named.names i.bare.info.parameters := by
  refine ⟨fun hm => ?_, h.mem_names_of_bare⟩
  obtain ⟨s, hmem, rfl⟩ := Named.mem_names.mp hm
  rcases ha : s.userAdded with _ | _
  · exact Named.mem_names.mpr ⟨_, h.mem_bare hmem ha, rfl⟩
  · exact absurd hn ((h.added s hmem ha).2 schema hs)

/-- The `type` of a block with subtypes is a text. -/
theorem type_eq_string {schema : BlockSchema} (hs : schema ∈ i.schema) (hne : schema.subtypes ≠ [])
    {s : Slot} (hm : s ∈ i.parameters) (hn : s.name = Slot.typeName) :
    s.type = ValueType.string := by
  rcases ha : s.userAdded with _ | _
  · have hbare : i.bare.info.parameters = Block.schemaSlots schema := by
      show (i.schema.map Block.schemaSlots).getD [] = _
      rw [Option.mem_def.mp hs]
      rfl
    obtain ⟨o, ho, htype⟩ := Block.find?_type_schemaSlots (h.schema schema hs) hne
    have hmem := h.mem_bare hm ha
    rw [hbare] at hmem
    have hfound := Named.find?_of_mem (Block.nodup_schemaSlots schema) hmem
    rw [show Named.name s.atDefault = Slot.typeName from hn, ho] at hfound
    rw [Option.some.inj hfound] at htype
    exact htype
  · exact (h.added s hm ha).1

/-- No user added a parameter of the subtype. -/
theorem userAdded_live {s : Slot} (hs : s ∈ i.subtypeParameters) : s.userAdded = false := by
  have hmem := List.mem_map_of_mem (f := Slot.atDefault) hs
  rw [h.live] at hmem
  rcases hsubtype : i.subtype with _ | subtype
  · rw [hsubtype] at hmem
    cases hmem
  · rw [hsubtype] at hmem
    obtain ⟨p, hp⟩ := i.described_provision subtype _ hmem
    exact congrArg Slot.userAdded hp.symm

/-- The parameters of the subtype have other names than those of the block. -/
theorem not_mem_live : ∀ n ∈ Named.names i.parameters, n ∉ Named.names i.subtypeParameters := by
  intro n hn hm
  rw [← Slot.names_map_atDefault, h.live] at hm
  rcases hsubtype : i.subtype with _ | subtype
  · rw [hsubtype] at hm
    cases hm
  rw [hsubtype, Option.elim_some, provision] at hm
  rcases hschema : i.bare.subtypeSchema? subtype with _ | part
  · rw [hschema] at hm
    cases hm
  rw [hschema, Option.elim_some] at hm
  have hfree := Block.not_mem_of_mem_materialize hm
  rw [Block.materialize, Named.mem_names_ofList] at hm
  obtain ⟨_, hslot, rfl⟩ := Named.mem_names.mp hm
  obtain ⟨p, hp, rfl⟩ := List.mem_map.mp hslot
  obtain ⟨schema, hs, hpart⟩ := Option.bind_eq_some_iff.mp hschema
  obtain ⟨entry, hentry, rfl⟩ := Option.map_eq_some_iff.mp hpart
  refine hfree ((h.mem_names_iff (Option.mem_def.mpr hs) ?_).mp hn)
  exact ⟨entry, Named.mem_of_find? hentry, Named.name_mem_names (List.mem_of_mem_filter hp)⟩

end Provided

end BlockInfo

namespace Block

open BlockInfo (Provided Mapped)

variable {b c : Block} {n : Text}

/-- A new block has from its schema all that it provides. -/
theorem provided_fresh (name path : Text) {schema : Option BlockSchema}
    (childSchema : Option BlockSchema) (hs : ∀ s ∈ schema, s.TypeIsText) :
    (fresh name path schema childSchema).info.Provided := by
  have hdescribed := (atRest_fresh name path schema childSchema).described
  refine ⟨hs, ?_, fun s hm ha => ?_, rfl, fun entry he => by cases he⟩
  · rw [Slot.map_atDefault_eq_self hdescribed]
    refine List.filter_eq_self.mpr fun s hm => ?_
    obtain ⟨p, rfl⟩ := hdescribed s hm
    rfl
  · obtain ⟨p, rfl⟩ := hdescribed s hm
    cases ha

/-- **What a subtype adds** to a block is what the catalog provides for it. -/
theorem materialize_eq_provision (h : b.info.Provided) {subtype : Text} {part : SubtypeSchema}
    (hs : b.subtypeSchema? subtype = some part) :
    b.materialize part = b.info.provision subtype := by
  have hbare : b.info.bare.subtypeSchema? subtype = some part := hs
  rw [BlockInfo.provision, hbare, Option.elim_some, materialize, materialize]
  obtain ⟨schema, hschema, hpart⟩ := Option.bind_eq_some_iff.mp hs
  obtain ⟨entry, hentry, rfl⟩ := Option.map_eq_some_iff.mp hpart
  refine congrArg (fun ps => Named.ofList (List.map Slot.ofSchema ps)) ?_
  refine List.filter_congr fun p hp => congrArg Bool.not ?_
  rw [Bool.eq_iff_iff, Named.has_iff, Named.has_iff]
  exact h.mem_names_iff (Option.mem_def.mpr hschema)
    ⟨entry, Named.mem_of_find? hentry, Named.name_mem_names hp⟩

/-- What comes out of the stash is what the catalog provides, and so is what stays in it. -/
theorem provided_unstash (h : b.info.Provided) {subtype : Text} {part : SubtypeSchema}
    (hs : b.subtypeSchema? subtype = some part) :
    (b.unstash subtype part).1.map Slot.atDefault = b.info.provision subtype ∧
      ∀ entry ∈ (b.unstash subtype part).2,
        entry.2.map Slot.atDefault = b.info.provision entry.1 := by
  rw [unstash]
  split
  · next name slots hfind =>
    obtain ⟨hmem, rfl⟩ := Named.find?_eq_some hfind
    exact ⟨h.stashed _ hmem, fun entry he => h.stashed entry (Named.mem_of_mem_remove he)⟩
  · rw [materialize_eq_provision h hs]
    exact ⟨Slot.map_atDefault_eq_self (b.info.described_provision subtype), h.stashed⟩

/-- **A switch of the subtype** brings what the catalog provides. -/
theorem provided_switchSubtype? (h : b.info.Provided) {subtype : Text}
    (hc : b.switchSubtype? subtype = some c) : c.info.Provided := by
  by_cases hsame : b.info.subtype = some subtype
  · rwa [eq_of_switchSubtype? hc hsame]
  obtain ⟨part, hs⟩ : ∃ part, b.subtypeSchema? subtype = some part := by
    rw [switchSubtype?] at hc
    obtain ⟨part, hs, -⟩ := Option.map_eq_some_iff.mp hc
    exact ⟨part, hs⟩
  rw [switchSubtype?_of_ne hs hsame] at hc
  cases hc
  obtain ⟨hslots, hrest⟩ := provided_unstash h hs
  obtain ⟨schema, hschema, hpart⟩ := Option.bind_eq_some_iff.mp hs
  have hne : schema.subtypes ≠ [] := by
    intro hnil
    rw [BlockSchema.subtype?, hnil] at hpart
    cases hpart
  have htype : ∀ s, Named.find? Slot.typeName b.info.parameters = some s →
      selectType subtype s = s.give (some (Value.ofText subtype)) := by
    intro s hfind
    obtain ⟨hmem, hname⟩ := Named.find?_eq_some hfind
    exact selectType_eq (h.type_eq_string (Option.mem_def.mpr hschema) hne hmem hname) subtype
  refine ⟨h.schema, ?_, ?_, ?_, ?_⟩
  · show ((Named.update _ _ b.info.parameters).map Slot.atDefault).filter _ = _
    rw [Slot.map_atDefault_update fun s hfind => by rw [htype s hfind, Slot.atDefault_give]]
    exact h.own
  · intro s hm ha
    rcases Named.mem_update hm with hm | ⟨t, hfind, rfl⟩
    · exact h.added s hm ha
    · rw [htype t hfind] at ha ⊢
      exact h.added t (Named.mem_of_find? hfind) ha
  · exact (Slot.map_atDefault_carryOver _ _).trans hslots
  · intro entry he
    change entry ∈ stashed { b.info with stash := (b.unstash subtype part).2 } at he
    rw [stashed] at he
    split at he
    · next old hold =>
      rcases Named.mem_put he with rfl | he
      · have hlive := h.live
        rw [show b.info.subtype = some old from hold] at hlive
        exact hlive
      · exact hrest entry he
    · exact hrest entry he

/-- A block whose subtype was chosen, if any was, still has from its schema all that it provides. -/
theorem provided_elim_switchSubtype (h : b.info.Provided) (subtype : Option Text) :
    (subtype.elim b b.switchSubtype).info.Provided := by
  rcases subtype with _ | subtype
  · exact h
  · show (b.switchSubtype subtype).info.Provided
    rw [switchSubtype]
    rcases hc : b.switchSubtype? subtype with _ | c
    · exact h
    · exact provided_switchSubtype? h hc

/-- **Saying something else about a parameter** leaves what the catalog provides. -/
theorem provided_updateParameter {f : Slot → Slot} (h : b.info.Provided)
    (hf : ∀ s, b.parameter? n = some s → (f s).atDefault = s.atDefault) :
    (b.updateParameter n f).info.Provided := by
  rw [updateParameter]
  split
  · next hhas =>
    have hown : ∀ s, Named.find? n b.info.parameters = some s →
        (f s).atDefault = s.atDefault :=
      fun s hs => hf s (by rw [parameter?, hs, Option.some_or])
    refine ⟨h.schema, ?_, fun s hm ha => ?_, h.live, h.stashed⟩
    · show ((Named.update n f b.info.parameters).map Slot.atDefault).filter _ = _
      rw [Slot.map_atDefault_update hown]
      exact h.own
    · rcases Named.mem_update hm with hm | ⟨t, hfind, rfl⟩
      · exact h.added s hm ha
      · have hsame := hown t hfind
        have htype : (f t).atDefault.type = t.atDefault.type := congrArg Slot.type hsame
        have hname : (f t).atDefault.name = t.atDefault.name := congrArg Slot.name hsame
        have hadded : (f t).atDefault.userAdded = t.atDefault.userAdded :=
          congrArg Slot.userAdded hsame
        rw [show (f t).type = t.type from htype, show (f t).name = t.name from hname]
        exact h.added t (Named.mem_of_find? hfind) (hadded.symm.trans ha)
  · next hhas =>
    have hnone : Named.find? n b.info.parameters = none :=
      Named.find?_eq_none fun hm => hhas (Named.has_iff.mpr hm)
    refine ⟨h.schema, h.own, h.added, ?_, h.stashed⟩
    show (Named.update n f b.info.subtypeParameters).map Slot.atDefault = _
    rw [Slot.map_atDefault_update fun s hs =>
      hf s (by rw [parameter?, hnone, Option.none_or, hs])]
    exact h.live

/-- **A new parameter** of the user's choice leaves what the catalog provides when no subtype needs
its name. -/
theorem provided_addParameter {name text : Text} (h : b.info.Provided)
    (hfree : b.parameter? name = none)
    (hreserved : ∀ schema ∈ b.info.schema, ¬ schema.Reserves name) :
    (b.addParameter (Slot.user name text)).info.Provided := by
  have hnew : Named.name (Slot.user name text) ∉ Named.names b.info.parameters := by
    refine Named.find?_eq_none_iff.mp ?_
    rw [parameter?, Option.or_eq_none_iff] at hfree
    exact hfree.1
  have hput : (b.addParameter (Slot.user name text)).info.parameters =
      b.info.parameters ++ [Slot.user name text] := Named.put_of_not_mem hnew
  refine ⟨h.schema, ?_, fun s hm ha => ?_, h.live, h.stashed⟩
  · rw [hput, List.map_append, List.filter_append]
    exact (List.append_nil _).trans h.own
  · rw [hput] at hm
    rcases List.mem_append.mp hm with hm | hm
    · exact h.added s hm ha
    · obtain rfl := List.mem_singleton.mp hm
      exact ⟨rfl, hreserved⟩

/-- **No name stands for two parameters** of a block that has what the catalog provides. -/
theorem nodup_allParameters_of_provided (h : b.info.Provided) (hm : b.info.Mapped) :
    (Named.names b.allParameters).Nodup :=
  nodup_allParameters hm h.not_mem_live

/-! ### Documents -/

section catalog

variable {catalog : Catalog} (hc : catalog.TypesAreTexts)

include hc

/-- What a catalog describes has from its schema all that it provides. -/
theorem provided_described (path name : Text) : (described catalog path name).info.Provided := by
  refine provided_fresh name path _ fun s hs => ?_
  obtain ⟨p, hmem⟩ := Catalog.exists_mem_of_lookup (c := catalog) hs
  exact hc _ hmem

/-- All blocks of a new tree have from their schemas all that these provide. -/
theorem throughout_provided_instantiateRoot : Throughout Provided (instantiateRoot catalog) := by
  refine .of_described (fun path name => ?_) rfl rfl ?_
  · exact (provided_described hc path name).of_eq rfl rfl rfl rfl rfl
  · exact provided_fresh [] Path.root none fun s hs => by cases hs

end catalog

end Block

namespace Edit

open Block (All Sound Throughout)
open BlockInfo (Provided)

variable {root root' : Block} {catalog : Catalog} {e : Edit} {landing : Landing}

/-- Setting a parameter that does not select the subtype says something else about it. -/
theorem exists_updateParameter_of_applySet {path n subtype : Text} {b : Block}
    {read : Slot → Except ValueError Value} (hb : block root path = .ok b)
    (hselected : (if selectsSubtype b n then some subtype else none) = none)
    (happly : applySet root path n subtype read = .ok (root', landing)) :
    ∃ f : Slot → Slot, root' = root.set path (b.updateParameter n f) ∧
      b.Retouch (b.updateParameter n f) ∧
        ∀ s, b.parameter? n = some s → (f s).atDefault = s.atDefault := by
  have hselects : ¬ selectsSubtype b n = true := fun hselects => by simp [hselects] at hselected
  obtain ⟨s, v, t, hs, -, ht, hroot, -⟩ := exists_of_applySet hb hselects happly
  refine ⟨_, hroot, Block.retouch_updateParameter fun _ _ _ => Slot.fits_setValue ht, ?_⟩
  intro u hu
  obtain ⟨w, -, rfl⟩ := Slot.value_setValue ht
  rw [hs] at hu
  cases hu
  exact Slot.atDefault_give s (some w)

/-- An edit that changes a parameter where it is says something else about it. -/
theorem exists_updateParameter {b : Block} {n : Text} (hb : root.find? e.target = some b)
    (hchanged : e.changed? = some n) (hselected : e.selected? b = none)
    (happly : e.apply root catalog = .ok (root', landing)) :
    ∃ f : Slot → Slot, root' = root.set e.target (b.updateParameter n f) ∧
      b.Retouch (b.updateParameter n f) ∧
        ∀ s, b.parameter? n = some s → (f s).atDefault = s.atDefault := by
  obtain ⟨_, -, happly⟩ := Except.exists_of_bind_eq_ok happly
  have hblock : block root e.target = .ok b := by
    rw [block, hb]
  cases e with
  | setValue path parameter value =>
    cases hchanged
    exact exists_updateParameter_of_applySet hblock hselected happly
  | setText path parameter text =>
    cases hchanged
    exact exists_updateParameter_of_applySet hblock hselected happly
  | setComment path parameter comment =>
    cases hchanged
    obtain ⟨b', hb', happly⟩ := Except.exists_of_bind_eq_ok happly
    obtain ⟨s, -, happly⟩ := Except.exists_of_bind_eq_ok happly
    rw [show block root path = .ok b from hblock] at hb'
    cases hb'
    cases happly
    refine ⟨_, rfl, Block.retouch_updateParameter fun hi t ht => ?_, fun _ _ => rfl⟩
    exact Slot.fits_comments (Block.fits_of_parameter? hi ht) comment
  | addChild | remove | rename | setSubtype | addParameter => cases hchanged

/-- **An edit that shadows no parameter of a subtype** leaves what the catalog provides. -/
theorem provided_of_apply (hc : catalog.TypesAreTexts) (hs : All Sound root)
    (h : Throughout Provided root) (hshadow : ¬ e.Shadows root)
    (happly : e.apply root catalog = .ok (root', landing)) : Throughout Provided root' := by
  have heffect := effect_of_apply hs happly
  by_cases hupdated : ∃ n b, e.changed? = some n ∧ root.find? e.target = some b ∧
      e.selected? b = none
  · obtain ⟨n, b, hchanged, hb, hselected⟩ := hupdated
    obtain ⟨f, rfl, hretouch, hf⟩ := exists_updateParameter hb hchanged hselected happly
    exact h.set ((h.of_find? hb).of_retouch hretouch
      (Block.provided_updateParameter (h.of_find? hb).here hf))
  · refine .of_effect BlockInfo.placeless_provided (fun d hd => ?_)
      (fun d hd _ subtype => Block.provided_elim_switchSubtype
        (BlockInfo.placeless_provided.included hd) subtype)
      (fun i hi => hi.of_eq rfl rfl rfl rfl rfl)
      (fun b _ subtype _ c hc hb => Block.provided_switchSubtype? hb hc)
      (fun b hb n hn hselected => absurd ⟨n, b, hn, hb, hselected⟩ hupdated)
      (fun b hb s hadded hprovided hfree => ?_) hs h heffect
    · obtain ⟨included, userAdded, hinfo⟩ := hd
      rw [hinfo]
      exact (Block.provided_described hc d.path d.name).of_eq rfl rfl rfl rfl rfl
    · cases e with
      | addParameter path name value =>
        cases hadded
        exact Block.provided_addParameter hprovided hfree
          fun schema hschema hreserved => hshadow ⟨b, hb, schema, hschema, hreserved⟩
      | addChild | remove | rename | setSubtype | setValue | setText | setComment => cases hadded

end Edit

namespace Document

open Block (Throughout)
open BlockInfo (Provided)

/-- A run of edits that takes them for one reason takes them for a weaker one. -/
theorem Follows.imp {takes takes' : Document → Edit → Prop} {through : Document → Prop}
    (h : ∀ d e, takes d e → takes' d e) : ∀ {es : List Edit} {d : Document},
      Follows takes through d es → Follows takes' through d es
  | [], _, _ => trivial
  | _ :: _, d, hf => by
    obtain ⟨next, hnext, he, ht, hrest⟩ := hf
    exact ⟨next, hnext, h d _ he, ht, hrest.imp h⟩

/-- **In a run of edits that shadow no parameter of a subtype**, all blocks have what the catalog
provides. -/
theorem throughout_provided_edits {catalog : Catalog} (hc : catalog.TypesAreTexts)
    {through : Document → Prop} : ∀ (es : List Edit) {d d' : Document}, Reached catalog d →
      Throughout Provided d.root → Follows (fun d e => ¬ e.Shadows d.root) through d es →
        d.edits es = .ok d' → Throughout Provided d'.root
  | [], d, d', _, h, _, hd => by
    cases hd
    exact h
  | e :: es, d, d', hreached, h, hf, hd => by
    rw [Document.edits] at hd
    split at hd
    · next d₁ r happly =>
      rw [Follows, happly] at hf
      obtain ⟨next, hnext, hshadow, -, hf⟩ := hf
      cases hnext
      obtain ⟨landing, he, -⟩ := root_of_apply happly
      rw [hreached.catalog_eq] at he
      exact throughout_provided_edits hc es (hreached.apply happly)
        (Edit.provided_of_apply hc hreached.grounded.tree h hshadow he) hf hd
    · cases hd

end Document

end BlockEdit
