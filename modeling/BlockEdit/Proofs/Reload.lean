import BlockEdit.Proofs.RoundTrip

/-!
# What a document is read back as

A document is written and read again. What a block is read back as depends on the catalog, on the
place of the block and on what is written for it, and on nothing else in the document: it is the
block that the catalog describes there with these settings. So a document is read back as itself
exactly when each of its blocks is, and no block has a name twice.

Main statements:

* **`Block.readBack_growRoot`**: the blocks that are read back, one by one.
* **`Block.reloads_iff`**: when a document is read back as itself.
-/

namespace BlockEdit

namespace Block

open Layout (writtenSlots setting sectionOf sectionsOf outlineOf)

/-! ### The place of a block -/

/-- What stands at the place of a block when nothing was bound to it. -/
def blank (catalog : Catalog) (b : Block) : Block :=
  if b.isRoot then fresh [] Path.root none none else described catalog b.path b.name

/-- What stands at the place of a block, with what is written for the block. -/
def readBack (catalog : Catalog) (b : Block) : Block :=
  (b.blank catalog).bindSettings ((writtenSlots b).map setting)

/-- The document reads back as itself. -/
def Reloads (catalog : Catalog) (indent : Text) (root : Block) : Prop :=
  ∃ again, parse catalog (root.serialize indent) = .ok again ∧ again.structurallyEq root = true

/-- A block is as the catalog describes it, apart from marks. -/
def AsDescribed (catalog : Catalog) (b : Block) : Prop :=
  ∃ included userAdded, b.info =
    { (described catalog b.path b.name).info with included, userAdded }

/-- The block is one that the catalog offers at a path. -/
structure Offered (catalog : Catalog) (path : Text) (b : Block) : Prop where
  /-- The block is in its place. -/
  path : b.path = Path.join path b.name
  /-- It is a sound tree. -/
  sound : All Sound b
  /-- It has no children. -/
  leaf : b.children = []
  /-- It and the blocks inside of it are as the catalog describes them. -/
  described : All (AsDescribed catalog) b

variable {catalog : Catalog} {path : Text} {offers : List Block}

/-- A block that is as the catalog describes it has the schema that is described. -/
theorem AsDescribed.schema {b : Block} (h : AsDescribed catalog b) :
    b.info.schema = (Block.described catalog b.path b.name).info.schema := by
  obtain ⟨included, userAdded, hinfo⟩ := h
  rw [hinfo]

/-- A block that is as the catalog describes it has the parameters that are described. -/
theorem AsDescribed.parameters {b : Block} (h : AsDescribed catalog b) :
    b.info.parameters = (Block.described catalog b.path b.name).info.parameters := by
  obtain ⟨included, userAdded, hinfo⟩ := h
  rw [hinfo]

/-- Nothing was bound to a block that is as the catalog describes it. -/
theorem AsDescribed.pristine (hc : catalog.TypesAreTexts) {b : Block}
    (h : AsDescribed catalog b) : b.Pristine := by
  obtain ⟨included, userAdded, hinfo⟩ := h
  exact (pristine_described hc b.path b.name).of_info (by rw [hinfo]) (by rw [hinfo])
    (by rw [hinfo]) (by rw [hinfo]) (by rw [hinfo])

/-- Placeholders are as the catalog describes them, with all inside of them. -/
theorem all_asDescribed_placeholders (catalog : Catalog) : ∀ (levels : Nat) (path : Text),
    ∀ b ∈ placeholders catalog levels path, All (AsDescribed catalog) b
  | 0, _, b, hb => by
    rw [placeholders] at hb
    cases hb
  | levels + 1, path, b, hb => by
    rw [placeholders] at hb
    obtain ⟨name, -, rfl⟩ := List.mem_map.mp hb
    refine .node ⟨false, false, rfl⟩ ?_ ?_
    · intro c hm
      cases hm
    · exact all_asDescribed_placeholders catalog levels (Path.join path name)

/-- Placeholders are offered. -/
theorem offered_placeholders (catalog : Catalog) (levels : Nat) (path : Text) :
    ∀ b ∈ placeholders catalog levels path, Offered catalog path b := by
  intro b hb
  obtain ⟨hplaced, hleaf, hsound⟩ := placeholders_spec catalog levels path b hb
  exact ⟨hplaced.path, hsound, hleaf, all_asDescribed_placeholders catalog levels path b hb⟩

/-- What is unused in an offered block is offered there. -/
theorem Offered.unused {b : Block} (h : Offered catalog path b) :
    ∀ c ∈ b.unused, Offered catalog b.path c := fun c hc =>
  ⟨(h.sound.here.unused c hc).path, h.sound.unused c hc, h.sound.here.leaf c hc,
    h.described.unused c hc⟩

/-- What a section starts from is offered. -/
theorem offered_seed (ho : ∀ c ∈ offers, Offered catalog path c) (name : Text) :
    Offered catalog path (seed catalog path offers name) := by
  unfold seed
  split
  · next b hb => exact ho b (Named.mem_of_find? hb)
  · have hsound := all_sound_instantiate catalog path name
    refine ⟨rfl, all_sound_with_info hsound ⟨hsound.here.info.subtype, hsound.here.info.own,
      hsound.here.info.live, hsound.here.info.stashed⟩ rfl, rfl, .node ⟨true, true, rfl⟩ ?_ ?_⟩
    · intro c hm
      cases hm
    · exact all_asDescribed_placeholders catalog catalog.height (Path.join path name)

/-! ### What counts for a snapshot -/

/-- Only the parameters and the subtype count for a snapshot. -/
theorem snapshot_congr {b c : Block} (hs : c.info.subtype = b.info.subtype)
    (hp : c.info.parameters = b.info.parameters)
    (hl : c.info.subtypeParameters = b.info.subtypeParameters) :
    BlockSnapshot.ofBlock c = BlockSnapshot.ofBlock b := by
  rw [BlockSnapshot.ofBlock, BlockSnapshot.ofBlock, allParameters, allParameters, hs, hp, hl]

/-- Only the schema, the parameters and the subtype count for what is bound at once. -/
theorem snapshot_bound_congr {b c : Block} (hk : c.info.schema = b.info.schema)
    (hs : c.info.subtype = b.info.subtype) (hp : c.info.parameters = b.info.parameters)
    (hl : c.info.subtypeParameters = b.info.subtypeParameters) (settings : List Setting) :
    BlockSnapshot.ofBlock (c.bound settings) = BlockSnapshot.ofBlock (b.bound settings) := by
  have hall : c.allParameters = b.allParameters := by
    rw [allParameters, allParameters, hp, hl]
  have hnew : (c.newSettings settings).map c.newSlot =
      (b.newSettings settings).map b.newSlot := by
    rw [newSettings, newSettings, hall]
    refine List.map_congr_left fun given _ => ?_
    rw [newSlot, newSlot, isKnown, isKnown, hk]
  refine snapshot_congr hs ?_ ?_
  · show c.info.parameters.map _ ++ _ = b.info.parameters.map _ ++ _
    rw [hp, hnew]
  · show c.info.subtypeParameters.map _ = b.info.subtypeParameters.map _
    rw [hl]

/-- Only the schema and the parameters count for what a `type` prepares. -/
theorem prepareType_congr_info {b c : Block} (hb : b.Pristine) (hc : c.Pristine)
    (hk : c.info.schema = b.info.schema) (hp : c.info.parameters = b.info.parameters)
    (given : Setting) :
    (c.prepareType given).info.schema = (b.prepareType given).info.schema ∧
      (c.prepareType given).info.subtype = (b.prepareType given).info.subtype ∧
      (c.prepareType given).info.parameters = (b.prepareType given).info.parameters ∧
      (c.prepareType given).info.subtypeParameters =
        (b.prepareType given).info.subtypeParameters := by
  have hschema : ∀ t, c.subtypeSchema? t = b.subtypeSchema? t := by
    intro t
    rw [subtypeSchema?, subtypeSchema?, hk]
  have hnames : c.subtypeNames = b.subtypeNames := by
    rw [subtypeNames, subtypeNames, hk]
  rw [prepareType, prepareType, hschema]
  rcases b.subtypeSchema? (Text.trim given.value) with _ | schema
  · dsimp only
    rw [hnames]
    split
    · exact ⟨hk, hc.subtype.trans hb.subtype.symm, hp, hc.live.trans hb.live.symm⟩
    · exact ⟨hk, hc.subtype.trans hb.subtype.symm, hp, hc.live.trans hb.live.symm⟩
  · refine ⟨hk, rfl, hp, ?_⟩
    show c.materialize schema = b.materialize schema
    rw [materialize, materialize, hp]

/-- **Only the schema and the parameters** count for what a section is bound to. -/
theorem snapshot_bindSettings_congr {b c : Block} (hb : b.Pristine) (hc : c.Pristine)
    (hk : c.info.schema = b.info.schema) (hp : c.info.parameters = b.info.parameters)
    {settings : List Setting} (hn : (Named.names settings).Nodup) :
    BlockSnapshot.ofBlock (c.bindSettings settings) =
      BlockSnapshot.ofBlock (b.bindSettings settings) := by
  have htyped : ∀ given, c.typed given = b.typed given := by
    intro given
    rw [typed, typed, hasSubtype, hasSubtype, subtypeSchema?, subtypeSchema?, hk]
  have hordered : c.ordered settings = b.ordered settings := by
    rw [ordered, ordered, funext htyped]
  rw [bindSettings_eq_bound hc hn, bindSettings_eq_bound hb hn, hordered, prepare, prepare]
  rcases (splitType settings).1 with _ | given
  · exact snapshot_bound_congr hk (hc.subtype.trans hb.subtype.symm) hp
      (hc.live.trans hb.live.symm) _
  · obtain ⟨hk', hs', hp', hl'⟩ := prepareType_congr_info hb hc hk hp given
    exact snapshot_bound_congr hk' hs' hp' hl' _

/-! ### Block by block -/

/-- The block `c` is where `b` is, and it says what is read back for `b`. -/
structure ReadsAs (catalog : Catalog) (b c : Block) : Prop where
  /-- The path is the same. -/
  path : c.path = b.path
  /-- The block says what is read back. -/
  snapshot : BlockSnapshot.ofBlock c = BlockSnapshot.ofBlock (b.readBack catalog)

/-- Blocks that are read back one by one are read back with all that is inside of them. -/
theorem allDescendants_readsAs {f : Block → Block} {bs : List Block}
    (h : ∀ b ∈ bs, List.Forall₂ (ReadsAs catalog) b.descendants (f b).descendants) :
    List.Forall₂ (ReadsAs catalog) (allDescendants bs) (allDescendants (bs.map f)) :=
  forall₂_allDescendants (List.forall₂_map_right_iff.mpr (List.forall₂_same.mpr h))

/-- At the root stands a block without a schema. -/
theorem blank_of_root {b : Block} (h : b.path = Path.root) :
    b.blank catalog = fresh [] Path.root none none := by
  rw [blank, isRoot, if_pos (by simpa using h)]

/-- Everywhere else stands what the catalog describes. -/
theorem blank_of_ne_root {b : Block} (h : b.path ≠ Path.root) :
    b.blank catalog = described catalog b.path b.name := by
  rw [blank, isRoot, if_neg (by simpa using h)]

/-- Where no two lines of a block set the same parameter, no two settings share a name. -/
theorem nodup_settings_of_distinct {b : Block} (h : b.Distinct) :
    (Named.names ((writtenSlots b).map setting)).Nodup := by
  rw [Named.names, List.map_map]
  exact h

/-- Blocks that read as others have their paths. -/
theorem paths_eq_of_readsAs {bs cs : List Block} (h : List.Forall₂ (ReadsAs catalog) bs cs) :
    bs.map Block.path = cs.map Block.path :=
  (map_eq_of_forall₂ h fun _ _ h => h.path).symm

/-- Blocks that are read back are the same as before when they say the same. -/
theorem same_iff_of_readsAs {bs cs : List Block} (h : List.Forall₂ (ReadsAs catalog) bs cs) :
    List.Forall₂ (fun c b => (BlockSnapshot.ofBlock c).same (BlockSnapshot.ofBlock b) = true)
        cs bs ↔ ∀ b ∈ bs,
      (BlockSnapshot.ofBlock (b.readBack catalog)).same (BlockSnapshot.ofBlock b) = true := by
  induction h with
  | nil => simp
  | cons h _ ih => rw [List.forall₂_cons, ih, List.forall_mem_cons, h.snapshot]

/-- What a section starts from lies one name below the path. -/
theorem path_seed_of_offered (ho : ∀ c ∈ offers, Offered catalog path c) (name : Text) :
    (seed catalog path offers name).path = Path.join path name := by
  have hpath := (offered_seed ho name).path
  rwa [name_seed] at hpath

/-- What a section starts from stands where the section does. -/
theorem path_sprout (ho : ∀ c ∈ offers, Offered catalog path c) (name comment : Text)
    (settings : List Setting) :
    (sprout catalog path offers name comment settings).path = Path.join path name :=
  (retouch_sprout catalog path offers name comment settings).place.path.trans
    (path_seed_of_offered ho name)

/-- What a section starts from offers what the catalog does. -/
theorem offered_sprout (ho : ∀ c ∈ offers, Offered catalog path c) (name comment : Text)
    (settings : List Setting) :
    ∀ c ∈ (sprout catalog path offers name comment settings).unused,
      Offered catalog (Path.join path name) c := by
  intro c hm
  rw [(retouch_sprout catalog path offers name comment settings).unused] at hm
  have hoffered := (offered_seed ho name).unused c hm
  rwa [path_seed_of_offered ho] at hoffered

/-- What the section of a block starts from is read back. -/
theorem readsAs_sprout (hc : catalog.TypesAreTexts) {b : Block} (hn : Path.IsSegment b.name)
    (hd : b.Distinct) (hpath : b.path = Path.join path b.name)
    (ho : ∀ c ∈ offers, Offered catalog path c) (comment : Text) :
    ReadsAs catalog b
      (sprout catalog path offers b.name comment ((writtenSlots b).map setting)) := by
  have hseed := offered_seed ho b.name
  have hname := name_seed catalog path offers b.name
  have hplace := (path_seed_of_offered ho b.name).trans hpath.symm
  refine ⟨(path_sprout ho _ _ _).trans hpath.symm, ?_⟩
  have hschema := hseed.described.here.schema
  have hparameters := hseed.described.here.parameters
  rw [hplace, hname] at hschema hparameters
  have hstart : ((seed catalog path offers b.name).commented comment).Pristine :=
    (hseed.described.here.pristine hc).of_info rfl rfl rfl rfl rfl
  rw [readBack, blank_of_ne_root (hpath ▸ Path.join_ne_root path hn), sprout]
  exact snapshot_bindSettings_congr (pristine_described hc b.path b.name) hstart hschema
    hparameters (nodup_settings_of_distinct hd)

/-- **A block is read back** from what is written for it and for the blocks inside of it. -/
theorem readsAs_grow (hc : catalog.TypesAreTexts) {b : Block} (h : All Sound b) :
    Path.IsSegment b.name → (∀ d ∈ b.descendants, d.Distinct) →
      ∀ {path : Text} {offers : List Block}, b.path = Path.join path b.name →
        (∀ c ∈ offers, Offered catalog path c) →
          List.Forall₂ (ReadsAs catalog) b.descendants
            (grow catalog path offers (sectionOf b)).descendants := by
  induction h with
  | @node b here child unused ihc ihu =>
    intro hn hdistinct path offers hpath ho
    have hhere := readsAs_sprout hc hn (hdistinct b (mem_descendants_self b)) hpath ho
      (Text.dropEndWhile (· == '\r') (Text.replaceChar '\n' ' ' b.info.comments))
    have hoffers := fun comment => offered_sprout ho b.name comment ((writtenSlots b).map setting)
    rw [← hpath] at hoffers
    rw [sectionOf_eq, grow, descendants_eq_cons, descendants_eq_cons]
    refine .cons ⟨hhere.path, hhere.snapshot⟩ ?_
    show List.Forall₂ _ (allDescendants b.children) (allDescendants (growAll catalog _ _ _))
    rw [hhere.path, growAll_eq_map, Layout.sectionsOf_eq_map, List.map_map]
    refine allDescendants_readsAs fun c hm => ?_
    exact ihc c hm (here.child c hm).segment
      (fun d hd => hdistinct d (mem_descendants_of_child hm hd)) (here.child c hm).path (hoffers _)

/-- The order of settings does not matter to a snapshot. -/
theorem snapshot_bound_perm {b : Block} (hb : (Named.names b.allParameters).Nodup)
    {settings others : List Setting} (hs : (Named.names settings).Nodup)
    (hp : settings.Perm others) :
    BlockSnapshot.ofBlock (b.bound others) = BlockSnapshot.ofBlock (b.bound settings) := by
  have htouch : ∀ s : Slot, s.touch others = s.touch settings := by
    intro s
    rw [Slot.touch, Slot.touch, Named.find?_perm hp hs]
  have hnew : ((b.newSettings others).map b.newSlot).Perm ((b.newSettings settings).map b.newSlot) :=
    ((hp.filter _).map _).symm
  refine snapshot_eq_of_perm rfl ?_ (nodup_bound hb hs)
  show (b.info.parameters.map (Slot.touch others) ++ _ ++
    b.info.subtypeParameters.map (Slot.touch others)).Perm
      (b.info.parameters.map (Slot.touch settings) ++ _ ++
        b.info.subtypeParameters.map (Slot.touch settings))
  rw [funext htouch]
  exact (hnew.append_left _).append_right _

/-- Without subtypes, a section is bound as its settings stand. -/
theorem bindSettings_of_isEmpty {b : Block} (hb : b.Pristine) (h : b.subtypeNames.isEmpty = true)
    {settings : List Setting} (hn : (Named.names settings).Nodup) :
    BlockSnapshot.ofBlock (b.bindSettings settings) =
      BlockSnapshot.ofBlock (b.bound settings) := by
  have hprepare : b.prepare settings = b := by
    rw [prepare]
    rcases (splitType settings).1 with _ | given
    · rfl
    · exact (prepareType_of_isEmpty h given).1
  have hordered : settings.Perm (b.ordered settings) := by
    rw [ordered]
    rcases splitType_cases settings with ⟨-, hsplit⟩ | ⟨type, others, -, hsplit, hperm⟩
    · rw [hsplit]
      exact .refl _
    · rw [hsplit]
      show settings.Perm (b.typed type :: others)
      rw [(prepareType_of_isEmpty h type).2]
      exact hperm
  have hall := (untouched_prepare hb settings).nodup
  rw [hprepare] at hall
  rw [bindSettings_eq_bound hb hn, hprepare]
  exact snapshot_bound_perm hall hn hordered

/-- **The blocks that are read back**, one by one. -/
theorem readBack_growRoot (hc : catalog.TypesAreTexts) {root : Block} (h : All Sound root)
    (hp : root.path = Path.root) (hd : ∀ d ∈ root.descendants, d.Distinct) :
    List.Forall₂ (ReadsAs catalog) root.descendants
      (growRoot catalog (outlineOf root)).descendants := by
  have hnodup := nodup_settings_of_distinct (hd root (mem_descendants_self root))
  have hpristine : (fresh [] Path.root none none).Pristine :=
    pristine_fresh _ _ _ fun s hs => by cases hs
  have hroot : BlockSnapshot.ofBlock ((instantiateRoot catalog).bound
      ((writtenSlots root).map setting)) = BlockSnapshot.ofBlock (root.readBack catalog) := by
    rw [readBack, blank_of_root hp, bindSettings_of_isEmpty hpristine rfl hnodup]
    exact snapshot_bound_congr rfl rfl rfl rfl _
  rw [growRoot_eq_bound catalog hnodup, descendants_eq_cons, descendants_eq_cons]
  refine .cons ⟨hp.symm, hroot⟩ ?_
  show List.Forall₂ _ (allDescendants root.children)
    (allDescendants (growAll catalog Path.root _ (sectionsOf root.children)))
  rw [growAll_eq_map, Layout.sectionsOf_eq_map, List.map_map]
  refine allDescendants_readsAs fun c hm => ?_
  have hplaced := h.here.child c hm
  exact readsAs_grow hc (h.child c hm) hplaced.segment
    (fun d hd' => hd d (mem_descendants_of_child hm hd')) (hp ▸ hplaced.path)
    (offered_placeholders catalog catalog.height Path.root)

/-- **A document reads back as itself** exactly when no block has a name on two lines and each block
is read back as itself. -/
theorem reloads_iff (hc : catalog.TypesAreTexts) {indent : Text}
    (hi : ∀ c ∈ indent, Token.isFiller c = true) {root : Block} (h : All Sound root)
    (hp : root.path = Path.root) (hr : ∀ d ∈ root.descendants, d.Readable) :
    Reloads catalog indent root ↔ ∀ b ∈ root.descendants, b.Distinct ∧
      (BlockSnapshot.ofBlock (b.readBack catalog)).same (BlockSnapshot.ofBlock b) = true := by
  have hread : ∀ outline, Outline.ofText (root.serialize indent) = .ok outline ↔
      (∀ d ∈ root.descendants, d.Distinct) ∧ outline = outlineOf root :=
    fun outline => Layout.ofText_serialize_eq_ok_iff hi hr
  have hsame : (∀ d ∈ root.descendants, d.Distinct) →
      ((growRoot catalog (outlineOf root)).structurallyEq root = true ↔ ∀ b ∈ root.descendants,
        (BlockSnapshot.ofBlock (b.readBack catalog)).same (BlockSnapshot.ofBlock b) = true) := by
    intro hd
    have hback := readBack_growRoot hc h hp hd
    have hpaths := paths_eq_of_readsAs hback
    rw [structurallyEq_iff hpaths (hpaths ▸ nodup_paths h), same_iff_of_readsAs hback]
  constructor
  · rintro ⟨again, hagain, heq⟩
    obtain ⟨outline, houtline, rfl⟩ := exists_outline_of_parse hagain
    obtain ⟨hd, rfl⟩ := (hread outline).mp houtline
    exact fun b hb => ⟨hd b hb, (hsame hd).mp heq b hb⟩
  · intro hall
    have hd : ∀ d ∈ root.descendants, d.Distinct := fun d hd => (hall d hd).1
    refine ⟨_, parse_eq_growRoot catalog ((hread _).mpr ⟨hd, rfl⟩), (hsame hd).mpr ?_⟩
    exact fun b hb => (hall b hb).2

end Block

end BlockEdit
