import BlockEdit.Proofs.Quotable
import BlockEdit.Proofs.Throughout

/-!
# Parameters with names of their own

The parameters of a block and those of its subtype are apart when no name stands for two of them.
A subtype that is new to a block gets only parameters whose names the block does not have, and a
parameter that is added gets a name that is not there yet. But what is there are the parameters of
the block and of its active subtype. The parameters of an earlier subtype are in the stash, where
they can lose their names to a parameter that is added, and when the block goes back to this
subtype they come with these names: the edit revives them.

Main statements:

* **`Document.Reached.mapped`**: in every document of a run each list of parameters that a block
  has, or keeps in its stash, has every name once.
* **`Edit.keyed_of_effect`**: an edit that revives no name keeps all parameters apart.
* **`Edit.exists_not_apart`**: an edit that revives a name does not.
* **`Document.ReachedBy.apart`**: in a run without such an edit no name stands for two parameters,
  and from there such edits are the only ones that change this.
-/

namespace BlockEdit

/-! ### Names that stand for two parameters -/

namespace Block

/-- No name stands for a parameter of the block and for one of its subtype. -/
def Apart (b : Block) : Prop :=
  ∀ n ∈ Named.names b.info.parameters, n ∉ Named.names b.info.subtypeParameters

instance (b : Block) : Decidable b.Apart :=
  inferInstanceAs (Decidable (∀ n ∈ Named.names b.info.parameters,
    n ∉ Named.names b.info.subtypeParameters))

/-- The subtype is another one than the active one, and it has a parameter in the stash whose name
the block has come to have itself. -/
def Revives (b : Block) (subtype : Text) : Prop :=
  b.info.subtype ≠ some subtype ∧ ∃ entry ∈ Named.find? subtype b.info.stash,
    ∃ n ∈ Named.names entry.2, n ∈ Named.names b.info.parameters

instance (b : Block) (subtype : Text) : Decidable (b.Revives subtype) :=
  inferInstanceAs (Decidable (b.info.subtype ≠ some subtype ∧
    ∃ entry ∈ Named.find? subtype b.info.stash,
      ∃ n ∈ Named.names entry.2, n ∈ Named.names b.info.parameters))

end Block

/-- The edit goes back to a subtype and revives the name of a parameter. -/
def Edit.Revives (root : Block) (e : Edit) : Prop :=
  ∃ b ∈ root.find? e.target, ∃ subtype ∈ e.selected? b, b.Revives subtype

instance (root : Block) (e : Edit) : Decidable (e.Revives root) :=
  inferInstanceAs (Decidable (∃ b ∈ root.find? e.target, ∃ subtype ∈ e.selected? b,
    b.Revives subtype))

/-- The parameters of the block itself, those of its subtype and those of each subtype in the stash
can be told apart by their names. -/
structure BlockInfo.Mapped (i : BlockInfo) : Prop where
  /-- No two of its own parameters share a name. -/
  own : (Named.names i.parameters).Nodup
  /-- No two parameters of its subtype share a name. -/
  live : (Named.names i.subtypeParameters).Nodup
  /-- No two parameters of one subtype in the stash share a name. -/
  stashed : ∀ entry ∈ i.stash, (Named.names entry.2).Nodup

/-- No name stands for two parameters that the block has, and what it could have is in order. -/
structure BlockInfo.Keyed (i : BlockInfo) : Prop where
  /-- No two of its own parameters share a name. -/
  own : (Named.names i.parameters).Nodup
  /-- No two parameters of its subtype share a name. -/
  live : (Named.names i.subtypeParameters).Nodup
  /-- Its own parameters and those of its subtype are apart. -/
  apart : ∀ n ∈ Named.names i.parameters, n ∉ Named.names i.subtypeParameters
  /-- No two parameters of one subtype in the stash share a name. -/
  stashed : ∀ entry ∈ i.stash, (Named.names entry.2).Nodup
  /-- A block with subtypes has a `type`. -/
  type : ∀ schema ∈ i.schema, schema.subtypes ≠ [] →
    Slot.typeName ∈ Named.names i.parameters
  /-- A block that is only offered has no stash. -/
  offered : i.included = false → i.stash = []

namespace BlockInfo

/-- What decides whether parameters are apart is their names, the stash and the schema: with the
same ones they still are. -/
theorem Keyed.of_eq {i j : BlockInfo} (h : i.Keyed) (hp : j.parameters = i.parameters)
    (hl : j.subtypeParameters = i.subtypeParameters) (hst : j.stash = i.stash)
    (hs : j.schema = i.schema) (hi : j.included = false → i.stash = []) : j.Keyed := by
  refine ⟨hp ▸ h.own, hl ▸ h.live, ?_, hst ▸ h.stashed, ?_, fun hj => hst.trans (hi hj)⟩
  · rw [hp, hl]
    exact h.apart
  · rw [hp, hs]
    exact h.type

/-- Where no name stands for two parameters, the three groups are apart each in itself. -/
theorem Keyed.mapped {i : BlockInfo} (h : i.Keyed) : i.Mapped := ⟨h.own, h.live, h.stashed⟩

/-- That each group is apart in itself does not depend on where the block lies. -/
theorem placeless_mapped : Placeless Mapped where
  place _ _ h := ⟨h.own, h.live, h.stashed⟩
  included h := ⟨h.own, h.live, h.stashed⟩

/-- That no name stands for two parameters does not depend on where the block lies. -/
theorem placeless_keyed : Placeless Keyed where
  place _ _ h := h.of_eq rfl rfl rfl rfl h.offered
  included h := h.of_eq rfl rfl rfl rfl fun hfalse => by cases hfalse

end BlockInfo

namespace Block

open BlockInfo (Keyed Mapped)

variable {b c : Block}

/-! ### Operations on the parameters of a block -/

/-- No name of a block whose parameters are apart stands for two of all its parameters. -/
theorem nodup_allParameters (h : b.info.Mapped) (hb : b.Apart) :
    (Named.names b.allParameters).Nodup := by
  rw [allParameters, Named.names_append, List.nodup_append]
  exact ⟨h.own, h.live, fun n hn m hm hnm => hb n hn (hnm ▸ hm)⟩

/-- In a new block no name stands for two parameters, since it takes each from its schema once. -/
theorem keyed_fresh (name path : Text) (schema childSchema : Option BlockSchema) :
    (fresh name path schema childSchema).info.Keyed := by
  refine ⟨?_, List.nodup_nil, fun _ _ => List.not_mem_nil, ?_, ?_, fun _ => rfl⟩
  · rcases schema with _ | schema
    · exact List.nodup_nil
    · exact nodup_schemaSlots schema
  · intro entry hentry
    cases hentry
  · rintro schema rfl hne
    exact type_mem_schemaSlots hne

/-- What a change of a parameter does to the names: nothing, when it keeps the name. -/
theorem names_updateParameter {n : Text} {f : Slot → Slot}
    (hf : ∀ s, b.parameter? n = some s → (f s).name = s.name) :
    Named.names (b.updateParameter n f).info.parameters = Named.names b.info.parameters ∧
      Named.names (b.updateParameter n f).info.subtypeParameters =
        Named.names b.info.subtypeParameters := by
  rw [updateParameter]
  split
  · next hhas =>
    obtain ⟨s, hs⟩ := Named.exists_find? (Named.has_iff.mp hhas)
    have hsame : (f s).name = n :=
      (hf s (by rw [parameter?, hs, Option.some_or])).trans (Named.name_of_find? hs)
    exact ⟨Named.names_update_of_find? hs hsame, rfl⟩
  · next hhas =>
    refine ⟨rfl, ?_⟩
    have hnone := Named.find?_eq_none fun hm => hhas (Named.has_iff.mpr hm)
    rcases hs : Named.find? n b.info.subtypeParameters with _ | s
    · exact congrArg _ (Named.update_of_not_mem (Named.find?_eq_none_iff.mp hs))
    · have hsame : (f s).name = n := (hf s (by rw [parameter?, hnone, Option.none_or, hs])).trans
        (Named.name_of_find? hs)
      exact Named.names_update_of_find? hs hsame

/-- A change of a parameter does not matter to the rest of what a block knows. -/
theorem rest_updateParameter (b : Block) (n : Text) (f : Slot → Slot) :
    (b.updateParameter n f).info.stash = b.info.stash ∧
      (b.updateParameter n f).info.schema = b.info.schema ∧
      (b.updateParameter n f).info.included = b.info.included := by
  rw [updateParameter]
  split
  · exact ⟨rfl, rfl, rfl⟩
  · exact ⟨rfl, rfl, rfl⟩

/-- A change of a parameter that keeps its name keeps each group apart in itself. -/
theorem mapped_updateParameter {n : Text} {f : Slot → Slot} (h : b.info.Mapped)
    (hf : ∀ s, b.parameter? n = some s → (f s).name = s.name) :
    (b.updateParameter n f).info.Mapped := by
  obtain ⟨hown, hlive⟩ := names_updateParameter hf
  refine ⟨hown ▸ h.own, hlive ▸ h.live, ?_⟩
  rw [(rest_updateParameter b n f).1]
  exact h.stashed

/-- **A change of a parameter** keeps all parameters apart when it keeps the name. -/
theorem keyed_updateParameter {n : Text} {f : Slot → Slot} (h : b.info.Keyed)
    (hf : ∀ s, b.parameter? n = some s → (f s).name = s.name) :
    (b.updateParameter n f).info.Keyed := by
  have hmapped := mapped_updateParameter h.mapped hf
  obtain ⟨hown, hlive⟩ := names_updateParameter hf
  obtain ⟨hstash, hschema, hincluded⟩ := rest_updateParameter b n f
  refine ⟨hmapped.own, hmapped.live, ?_, hmapped.stashed, ?_, ?_⟩
  · rw [hown, hlive]
    exact h.apart
  · rw [hown, hschema]
    exact h.type
  · rw [hstash, hincluded]
    exact h.offered

/-- A new parameter keeps each group apart in itself, even under a name that the subtype has. -/
theorem mapped_addParameter (h : b.info.Mapped) (s : Slot) : (b.addParameter s).info.Mapped :=
  ⟨Named.nodup_put h.own, h.live, h.stashed⟩

/-- **A new parameter** keeps all parameters apart when its name is not there yet. -/
theorem keyed_addParameter {s : Slot} (h : b.info.Keyed) (hs : b.parameter? s.name = none) :
    (b.addParameter s).info.Keyed := by
  have hfree : s.name ∉ Named.names b.info.subtypeParameters :=
    Named.find?_eq_none_iff.mp (Option.or_eq_none_iff.mp hs).2
  refine ⟨Named.nodup_put h.own, h.live, fun n hn => ?_, h.stashed, fun schema hschema hne => ?_,
    h.offered⟩
  · rcases Named.mem_names_put.mp hn with rfl | hn
    · exact hfree
    · exact h.apart n hn
  · exact Named.mem_names_put.mpr (Or.inr (h.type schema hschema hne))

/-- A switch to the active subtype leaves a block as it is. -/
theorem eq_of_switchSubtype? {subtype : Text} (hc : b.switchSubtype? subtype = some c)
    (hsame : b.info.subtype = some subtype) : c = b := by
  rw [switchSubtype?] at hc
  obtain ⟨schema, -, rfl⟩ := Option.map_eq_some_iff.mp hc
  exact if_pos hsame

/-- The names of the parameters of a subtype that a block is switched to. -/
theorem names_switchSubtype? {subtype : Text} (hc : b.switchSubtype? subtype = some c)
    (hne : b.info.subtype ≠ some subtype) :
    Named.names c.info.parameters = Named.names b.info.parameters ∧
      ∃ schema, b.subtypeSchema? subtype = some schema ∧
        Named.names c.info.subtypeParameters = Named.names (b.unstash subtype schema).1 ∧
        c.info.stash = stashed { b.info with stash := (b.unstash subtype schema).2 } := by
  rw [switchSubtype?] at hc
  obtain ⟨schema, hs, rfl⟩ := Option.map_eq_some_iff.mp hc
  dsimp only
  rw [if_neg hne]
  refine ⟨?_, schema, hs, names_carryOver _ _, rfl⟩
  exact Named.names_update (fun s h => (name_selectType subtype s).trans h) _

/-- A switch of the subtype keeps each group apart in itself: it trades the subtype's group for one
of the stash. -/
theorem mapped_switchSubtype? {subtype : Text} (h : b.info.Mapped)
    (hc : b.switchSubtype? subtype = some c) : c.info.Mapped := by
  by_cases hsame : b.info.subtype = some subtype
  · rwa [eq_of_switchSubtype? hc hsame]
  obtain ⟨hown, schema, -, hlive, hstash⟩ := names_switchSubtype? hc hsame
  have hunstash : (Named.names (b.unstash subtype schema).1).Nodup ∧
      ∀ entry ∈ (b.unstash subtype schema).2, (Named.names entry.2).Nodup := by
    rw [unstash]
    split
    · next slots hfind =>
      exact ⟨h.stashed _ (Named.mem_of_find? hfind),
        fun entry he => h.stashed entry (Named.mem_of_mem_remove he)⟩
    · exact ⟨Named.nodup_ofList _, h.stashed⟩
  refine ⟨hown ▸ h.own, hlive ▸ hunstash.1, fun entry hentry => ?_⟩
  rw [hstash, stashed] at hentry
  split at hentry
  · rcases Named.mem_put hentry with rfl | hentry
    · exact h.live
    · exact hunstash.2 entry hentry
  · exact hunstash.2 entry hentry

/-- **A switch of the subtype** keeps all parameters apart unless it revives a name. -/
theorem keyed_switchSubtype? {subtype : Text} (h : b.info.Keyed)
    (hi : b.info.included = true ∨ b.info.subtype = none)
    (hc : b.switchSubtype? subtype = some c) (hr : ¬ b.Revives subtype) : c.info.Keyed := by
  by_cases hsame : b.info.subtype = some subtype
  · rwa [eq_of_switchSubtype? hc hsame]
  have hmapped := mapped_switchSubtype? h.mapped hc
  have hretouch := retouch_switchSubtype? hc
  obtain ⟨hown, schema, -, hlive, hstash⟩ := names_switchSubtype? hc hsame
  refine ⟨hmapped.own, hmapped.live, fun n hn hm => ?_, hmapped.stashed, ?_, fun hfalse => ?_⟩
  · -- What comes out of the stash is what the switch would revive.
    rw [hown] at hn
    rw [hlive, unstash] at hm
    split at hm
    · next slots hfind => exact hr ⟨hsame, _, hfind, n, hm, hn⟩
    · exact not_mem_of_mem_materialize hm hn
  · rw [hown, hretouch.schema]
    exact h.type
  · rw [hretouch.place.included] at hfalse
    have hnone := hi.resolve_left (Bool.eq_false_iff.mp hfalse)
    rw [hstash, stashed]
    dsimp only
    rw [hnone, unstash, h.offered hfalse]
    rfl

/-- A block without a stash has no name to revive. -/
theorem not_revives (h : b.info.stash = []) (subtype : Text) : ¬ b.Revives subtype := by
  rintro ⟨-, entry, hentry, -⟩
  rw [h] at hentry
  cases hentry

/-- **A switch that revives a name** leaves it to two parameters. -/
theorem not_apart_of_revives {subtype : Text} (hc : b.switchSubtype? subtype = some c)
    (hr : b.Revives subtype) : ¬ c.Apart := by
  obtain ⟨hne, entry, hentry, n, hstashed, hown⟩ := hr
  obtain ⟨hnames, schema, -, hlive, -⟩ := names_switchSubtype? hc hne
  intro hapart
  refine hapart n (hnames ▸ hown) ?_
  rw [hlive, unstash, show Named.find? subtype b.info.stash = some entry from hentry]
  exact hstashed

/-! ### The blocks of a text -/

/-- The block has no subtype and had none before. -/
def Unset (b : Block) : Prop := b.info.subtype = none ∧ b.info.stash = []

/-- A warning does not matter to the names of the parameters. -/
theorem keyed_warn (h : b.info.Keyed) (w : Warning) : (b.warn w).info.Keyed :=
  h.of_eq rfl rfl rfl rfl h.offered

/-- A setting that is read sets a parameter that is there or adds one that is not, so the names stay
apart. -/
theorem keyed_bindSetting (h : b.info.Keyed) (s : Setting) : (b.bindSetting s).info.Keyed := by
  rw [bindSetting]
  split
  · next hnone => exact keyed_addParameter h ((name_newSlot b s).symm ▸ hnone)
  · next slot hslot =>
    have hname : ∀ t, b.parameter? s.key = some t → slot.name = t.name := by
      intro t ht
      rw [hslot] at ht
      cases ht
      rfl
    dsimp only
    split
    · next t ht =>
      refine keyed_updateParameter h fun u hu => ?_
      rw [Slot.name_setText ht]
      exact hname u hu
    · refine keyed_warn (keyed_updateParameter h fun u hu => ?_) _
      exact hname u hu

/-- Settings that are read one after the other keep the names apart. -/
theorem keyed_foldl_bindSetting (settings : List Setting) : ∀ {b : Block}, b.info.Keyed →
    (settings.foldl bindSetting b).info.Keyed := by
  induction settings with
  | nil => exact fun h => h
  | cons s settings ih => exact fun h => ih (keyed_bindSetting h s)

/-- The setting that chooses the subtype of a block in which nothing is set keeps the names
apart. -/
theorem keyed_bindType (h : b.info.Keyed) (hb : b.Unset) (s : Setting) :
    (b.bindType s).info.Keyed := by
  rw [bindType]
  split
  · exact keyed_bindSetting h s
  · split
    · next c hc =>
      exact keyed_updateParameter (keyed_switchSubtype? h (Or.inr hb.1) hc (not_revives hb.2 _))
        fun _ _ => rfl
    · rw [clearSubtype, hb.1]
      exact keyed_bindSetting (keyed_warn h _) s

/-- **All the settings of a section** keep all parameters of a block apart. -/
theorem keyed_bindSettings (h : b.info.Keyed) (hb : b.Unset) (settings : List Setting) :
    (b.bindSettings settings).info.Keyed := by
  have htype : ((splitType settings).1.elim b b.bindType).info.Keyed := by
    rcases (splitType settings).1 with _ | s
    · exact h
    · exact keyed_bindType h hb s
  exact keyed_foldl_bindSetting (splitType settings).2 htype

section catalog

variable {catalog : Catalog}

/-- What a catalog describes has its names apart. -/
theorem keyed_described (path name : Text) (included userAdded : Bool) :
    ({ (described catalog path name).info with included, userAdded } : BlockInfo).Keyed :=
  (keyed_fresh name path (catalog.lookup path) (catalog.wildcardFor path)).of_eq rfl rfl rfl rfl
    fun _ => rfl

/-- A block that is as the catalog describes it has its names apart, and nothing is set in it. -/
theorem keyed_of_asDescribed (h : AsDescribed catalog b) : b.info.Keyed ∧ b.Unset := by
  obtain ⟨included, userAdded, hinfo⟩ := h
  rw [Unset, hinfo]
  exact ⟨keyed_described b.path b.name included userAdded, rfl, rfl⟩

/-- In a new tree the names are apart everywhere. -/
theorem throughout_keyed_instantiateRoot : Throughout Keyed (instantiateRoot catalog) :=
  Throughout.of_described (fun p n => keyed_described p n false false) rfl rfl (keyed_fresh _ _ _ _)

/-- **The tree of a text** keeps all parameters apart throughout. -/
theorem throughout_keyed_parse {source : Text} {root : Block}
    (h : parse catalog source = .ok root) : Throughout Keyed root := by
  refine .of_parse BlockInfo.placeless_keyed (fun d hd => (keyed_of_asDescribed hd).1)
    (fun d comment settings hd _ _ => ?_)
    (fun settings _ => keyed_foldl_bindSetting settings (keyed_fresh _ _ _ _)) h
  obtain ⟨hkeyed, hunset⟩ := keyed_of_asDescribed hd
  have hcommented : (d.commented comment).info.Keyed :=
    hkeyed.of_eq rfl rfl rfl rfl hkeyed.offered
  exact keyed_bindSettings hcommented hunset settings

end catalog

end Block

/-! ### Edits -/

/-- Every block of a sound document below the root is marked as part of it. -/
theorem Block.eq_or_included_of_mem {root b : Block} (h : All Sound root)
    (hb : b ∈ root.descendants) : b = root ∨ b.info.included = true := by
  induction h with
  | @node root here hc _ ihc _ =>
    rcases mem_descendants_cases hb with rfl | ⟨c, hmem, hb⟩
    · exact Or.inl rfl
    · rcases ihc c hmem hb with rfl | hi
      · exact Or.inr (here.child b hmem).included
      · exact Or.inr hi

namespace Edit

open Block (All Sound Throughout)
open BlockInfo (Keyed Mapped placeless_keyed placeless_mapped)

variable {root root' : Block} {catalog : Catalog} {e : Edit} {landing : Landing}

/-- **An edit that revives no name** keeps all parameters apart. -/
theorem keyed_of_effect (hs : All Sound root) (hroot : root.info.schema = none)
    (h : Throughout Keyed root) (he : Effect root catalog e root' landing)
    (hr : ¬ e.Revives root) : Throughout Keyed root' := by
  refine .of_effect placeless_keyed (fun d hd => (Block.keyed_of_asDescribed hd).1)
    (fun d hd hfalse subtype => ?_)
    (fun i hi => hi.of_eq rfl rfl rfl rfl hi.offered) (fun b hb subtype hselected c hc hkeyed => ?_)
    (fun b _ n _ _ f hkeyed hkeeps =>
      Block.keyed_updateParameter hkeyed fun s hs => (hkeeps s hs).name)
    (fun b _ s _ hkeyed hfree => Block.keyed_addParameter hkeyed hfree) hs h he
  · -- A block that is only offered has no stash from which a name could be revived.
    have hmark : (d.mark true).info.Keyed := placeless_keyed.included hd
    rcases subtype with _ | subtype
    · exact hmark
    · show ((d.mark true).switchSubtype subtype).info.Keyed
      rw [Block.switchSubtype]
      rcases hc : (d.mark true).switchSubtype? subtype with _ | c
      · exact hmark
      · exact Block.keyed_switchSubtype? hmark (Or.inl rfl) hc
          (Block.not_revives (hd.offered hfalse) subtype)
  · have hincluded : b.info.included = true := by
      rcases Block.eq_or_included_of_mem hs (Block.mem_descendants_of_descend? _ hb) with rfl | hi
      · rw [Block.switchSubtype?, Block.subtypeSchema?, hroot] at hc
        cases hc
      · exact hi
    exact Block.keyed_switchSubtype? hkeyed (Or.inl hincluded) hc
      fun hrevives => hr ⟨b, hb, subtype, hselected, hrevives⟩

/-- **Every edit** leaves parameters that can be told apart by their names. -/
theorem mapped_of_effect (hs : All Sound root) (h : Throughout Mapped root)
    (he : Effect root catalog e root' landing) : Throughout Mapped root' := by
  refine .of_effect placeless_mapped (fun d hd => (Block.keyed_of_asDescribed hd).1.mapped)
    (fun d hd _ subtype => ?_) (fun i hi => ⟨hi.own, hi.live, hi.stashed⟩)
    (fun b _ subtype _ c hc hmapped => Block.mapped_switchSubtype? hmapped hc)
    (fun b _ n _ _ f hmapped hkeeps =>
      Block.mapped_updateParameter hmapped fun s hs => (hkeeps s hs).name)
    (fun b _ s _ hmapped _ => Block.mapped_addParameter hmapped s) hs h he
  have hmark : (d.mark true).info.Mapped := placeless_mapped.included hd
  rcases subtype with _ | subtype
  · exact hmark
  · show ((d.mark true).switchSubtype subtype).info.Mapped
    rw [Block.switchSubtype]
    rcases hc : (d.mark true).switchSubtype? subtype with _ | c
    · exact hmark
    · exact Block.mapped_switchSubtype? hmark hc

/-- **An edit that revives a name** leaves it to two parameters of a block. -/
theorem exists_not_apart (he : Effect root catalog e root' landing) (hr : e.Revives root) :
    ∃ b ∈ root'.descendants, ¬ b.Apart := by
  obtain ⟨b, hb, subtype, hselected, hrevives⟩ := hr
  obtain ⟨c, hc, rfl⟩ := he.exists_switchSubtype? hb hselected
  have hplace := (Block.retouch_switchSubtype? hc).place
  exact ⟨c, Block.mem_descendants_of_descend? _ (Block.find?_set hb hplace.name),
    Block.not_apart_of_revives hc hrevives⟩

end Edit

/-- No line of a block whose parameters are apart has the key of another one. -/
theorem Block.distinct_of_keyed {b : Block} (hs : b.info.Sound) (h : b.info.Keyed) :
    b.Distinct := by
  refine nodup_writtenSlots (nodup_allParameters h.mapped h.apart) ?_
  rcases hs.subtype with ⟨-, hlive⟩ | ⟨schema, subtype, hschema, -, hdeclared⟩
  · rw [hlive]
    exact List.not_mem_nil
  · refine h.apart _ (h.type schema hschema fun hnil => ?_)
    rw [BlockSchema.subtype?, hnil] at hdeclared
    cases hdeclared

namespace Document

open Block (Throughout)
open BlockInfo (Keyed Mapped)

/-- **Every document of a run** has parameters that can be told apart by their names. -/
theorem Reached.mapped {catalog : Catalog} {d : Document} (h : Reached catalog d) :
    Throughout Mapped d.root := by
  induction h with
  | new => exact Block.throughout_keyed_instantiateRoot.imp fun _ hb => hb.mapped
  | ofText h =>
    exact (Block.throughout_keyed_parse (root_of_ofText h).1).imp fun _ hb => hb.mapped
  | apply before h ih =>
    obtain ⟨landing, he, -⟩ := root_of_apply h
    have htree := before.grounded.tree
    exact Edit.mapped_of_effect htree ih (Edit.effect_of_apply htree he)
  | replaceText before h ih =>
    obtain ⟨parsed, hparse, hroot, -⟩ := root_of_replaceText h
    rw [hroot]
    exact ((Block.throughout_keyed_parse hparse).replaceContents BlockInfo.placeless_keyed).imp
      fun _ hb => hb.mapped

/-- **A run without an edit that revives a name** keeps all parameters apart. -/
theorem ReachedBy.keyed {catalog : Catalog} {through : Document → Prop} {d : Document}
    (h : ReachedBy (fun d e => ¬ e.Revives d.root) through catalog d) :
    Throughout Keyed d.root := by
  induction h with
  | new => exact Block.throughout_keyed_instantiateRoot
  | ofText _ h => exact Block.throughout_keyed_parse (root_of_ofText h).1
  | apply before hr _ h ih =>
    obtain ⟨landing, he, -⟩ := root_of_apply h
    have htree := before.reached.grounded.tree
    exact Edit.keyed_of_effect htree before.reached.schema_root ih
      (Edit.effect_of_apply htree he) hr
  | replaceText before _ h ih =>
    obtain ⟨parsed, hparse, hroot, -⟩ := root_of_replaceText h
    rw [hroot]
    exact (Block.throughout_keyed_parse hparse).replaceContents BlockInfo.placeless_keyed

/-- **In a run without an edit that revives a name**, no name stands for two parameters of a block
and no two lines of a block have the same key; and the next edit leaves a name to two parameters
exactly when it revives one. -/
theorem ReachedBy.apart {catalog : Catalog} {d : Document}
    (h : ReachedBy (fun d e => ¬ e.Revives d.root) (fun _ => True) catalog d) :
    (∀ b ∈ d.root.descendants, b.Apart ∧ b.Distinct) ∧
      ∀ {e : Edit} {d' : Document} {r : EditResult}, d.apply e = .ok (d', r) →
        ((∀ b ∈ d'.root.descendants, b.Apart) ↔ ¬ e.Revives d.root) := by
  have htree := h.reached.grounded.tree
  refine ⟨fun b hb => ?_, fun {e d' r} happly => ⟨fun hapart hr => ?_, fun hr b hb => ?_⟩⟩
  · have hkeyed : b.info.Keyed := (Block.All.descendant h.keyed hb).here
    exact ⟨hkeyed.apart, Block.distinct_of_keyed (htree.descendant hb).here.info hkeyed⟩
  · obtain ⟨landing, he, -⟩ := root_of_apply happly
    obtain ⟨b, hb, hnot⟩ := Edit.exists_not_apart (Edit.effect_of_apply htree he) hr
    exact hnot (hapart b hb)
  · exact (Block.All.descendant (h.apply hr trivial happly).keyed hb).here.apart

/-- A catalog with one block `/A` that has a subtype `s` with a number `n`, and a subtype `t`. -/
def stashCatalog : Catalog where
  entries := [("/A".toList,
    { subtypes := [("s".toList,
        { parameters := [{ name := "n".toList, basicType := "Integer".toList }] }),
        ("t".toList, {})] })]

/-- A run that goes back to a subtype after a parameter of another name was added, and an edit that
would add a parameter of a name in the stash and one that would go back to it. -/
theorem ReachedBy.apart_sample : ∃ d, ReachedBy (fun d e => ¬ e.Revives d.root) (fun _ => True)
    stashCatalog d ∧ (∀ b ∈ d.root.descendants, b.Apart ∧ b.Distinct) ∧
      ∃ d' r, d.apply (.setSubtype "/A".toList "s".toList) = .ok (d', r) ∧
        ∀ b ∈ d'.root.descendants, b.Apart := by
  let steps : List Edit := [.addChild "/".toList (some "A".toList) (some "s".toList),
    .setText "/A".toList "n".toList "1".toList, .setSubtype "/A".toList "t".toList,
    .addParameter "/A".toList "m".toList "2".toList]
  let last : Edit := .setSubtype "/A".toList "s".toList
  have hfollows : Follows (fun d e => ¬ e.Revives d.root) (fun _ => True) (.new stashCatalog)
      steps := by decide +kernel
  have hrun : (((Document.new stashCatalog).edits steps).toOption.bind fun d =>
      (d.apply last).toOption.map fun _ => decide (last.Revives d.root)) = some false := by
    decide +kernel
  rcases hd : (Document.new stashCatalog).edits steps with e | d
  · rw [hd] at hrun
    cases hrun
  · rw [hd] at hrun
    rcases happly : d.apply last with e | ⟨d', r⟩
    · rw [show (Except.ok d : Except DocumentError Document).toOption = some d from rfl,
        Option.bind_some, happly] at hrun
      cases hrun
    · rw [show (Except.ok d : Except DocumentError Document).toOption = some d from rfl,
        Option.bind_some, happly] at hrun
      have hreached := ReachedBy.edits steps (.new trivial) hfollows hd
      obtain ⟨hapart, hstep⟩ := ReachedBy.apart hreached
      exact ⟨d, hreached, hapart, d', r, happly,
        (hstep happly).mpr (of_decide_eq_false (Option.some.inj hrun))⟩

/-- A parameter that is added under a name in the stash is there twice when the block goes back to
the subtype, and then two lines of the block have the same key. -/
theorem not_apart_stash : ∃ d, Reached stashCatalog d ∧
    ∃ b ∈ d.root.descendants, ¬ b.Apart ∧ ¬ b.Distinct := by
  let steps : List Edit := [.addChild "/".toList (some "A".toList) (some "s".toList),
    .setText "/A".toList "n".toList "1".toList, .setSubtype "/A".toList "t".toList,
    .addParameter "/A".toList "n".toList "2".toList, .setSubtype "/A".toList "s".toList]
  have hrun : ((Document.new stashCatalog).edits steps).toOption.map (fun d =>
      decide (∃ b ∈ d.root.descendants, ¬ b.Apart ∧ ¬ b.Distinct)) = some true := by
    decide +kernel
  rcases hd : (Document.new stashCatalog).edits steps with e | d
  · rw [hd] at hrun
    cases hrun
  · rw [hd] at hrun
    exact ⟨d, .edits steps .new hd, of_decide_eq_true (Option.some.inj hrun)⟩

end Document

end BlockEdit
