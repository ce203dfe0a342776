import BlockEdit.Proofs.Quotable
import BlockEdit.Proofs.WrittenBack

/-!
# What a document is written as again

A document is written and read, and what was read is written again. What a block is written as then
depends on the catalog, on the place of the block and on what was written for it, as what it is read
back as does. So the second text is the first one exactly when each block, taken alone, has the
lines that it is read back with. Marks and comments of a block and the blocks inside of it do not
count for what it is bound to.

Main statements:

* **`Block.bindSettings_dressedAs`**: what binding does not look at.
* **`Block.resaved_growRoot`**: the document that is read back, block by block.
* **`Block.quotable_of_serialize_eq`**: a text that is formatted already holds only values that can
  be read again.
* **`Block.serialize_eq_iff`**: when a document is written again as it was.
-/

namespace BlockEdit

open Layout (writtenSlots setting sectionOf sectionsOf outlineOf)

/-- The comment behind the header is one line, and it is read as it is written. -/
def BlockInfo.HasLineComment (i : BlockInfo) : Prop :=
  Outline.IsCommentLine i.comments ∧ '\n' ∉ i.comments

namespace Block

/-- The lines that the block is read back with are those that it has. -/
def Canonical (catalog : Catalog) (b : Block) : Prop := (b.readBack catalog).lines = b.lines

instance (catalog : Catalog) (b : Block) : Decidable (b.Canonical catalog) :=
  inferInstanceAs (Decidable ((b.readBack catalog).lines = b.lines))

/-! ### What binding does not look at -/

/-- The block with the marks and the comment of another one, and with what is inside of that. -/
def dressedAs (b c : Block) : Block :=
  ⟨{ b.info with
      included := c.info.included, userAdded := c.info.userAdded, comments := c.info.comments },
    c.children, c.unused⟩

section dressed

variable (b c : Block)

/-- A change of a parameter has nothing to do with marks, the comment or the children. -/
theorem updateParameter_dressedAs (n : Text) (f : Slot → Slot) :
    (b.dressedAs c).updateParameter n f = (b.updateParameter n f).dressedAs c := by
  unfold updateParameter
  by_cases h : Named.has n b.info.parameters = true
  · rw [if_pos h, if_pos (show Named.has n (b.dressedAs c).info.parameters = true from h)]
    rfl
  · rw [if_neg h, if_neg (show ¬ Named.has n (b.dressedAs c).info.parameters = true from h)]
    rfl

/-- A setting that is read has nothing to do with marks, the comment or the children. -/
theorem bindSetting_dressedAs (s : Setting) :
    (b.dressedAs c).bindSetting s = (b.bindSetting s).dressedAs c := by
  unfold bindSetting
  rw [show (b.dressedAs c).parameter? s.key = b.parameter? s.key from rfl]
  rcases b.parameter? s.key with _ | slot
  · rfl
  · dsimp only
    rcases ({ slot with comments := s.comments } : Slot).setText s.value with e | t
    · dsimp only
      rw [updateParameter_dressedAs]
      rfl
    · exact updateParameter_dressedAs b c _ _

/-- Settings that are read have nothing to do with marks, the comment or the children. -/
theorem foldl_bindSetting_dressedAs : ∀ (settings : List Setting) (b : Block),
    settings.foldl bindSetting (b.dressedAs c) = (settings.foldl bindSetting b).dressedAs c
  | [], _ => rfl
  | s :: settings, b => by
    rw [List.foldl_cons, List.foldl_cons, bindSetting_dressedAs,
      foldl_bindSetting_dressedAs settings]

/-- A switch of the subtype has nothing to do with marks, the comment or the children. -/
theorem switchSubtype?_dressedAs (subtype : Text) :
    (b.dressedAs c).switchSubtype? subtype = (b.switchSubtype? subtype).map (·.dressedAs c) := by
  unfold switchSubtype?
  rw [show (b.dressedAs c).subtypeSchema? subtype = b.subtypeSchema? subtype from rfl,
    Option.map_map]
  refine congrArg (Option.map · _) (funext fun schema => ?_)
  by_cases h : b.info.subtype = some subtype
  · rw [Function.comp_apply, if_pos h, if_pos (show (b.dressedAs c).info.subtype = _ from h)]
  · rw [Function.comp_apply, if_neg h, if_neg (show ¬ (b.dressedAs c).info.subtype = _ from h)]
    rfl

/-- Giving the subtype up has nothing to do with marks, the comment or the children. -/
theorem clearSubtype_dressedAs : (b.dressedAs c).clearSubtype = b.clearSubtype.dressedAs c := by
  unfold clearSubtype
  rw [show (b.dressedAs c).info.subtype = b.info.subtype from rfl]
  rcases b.info.subtype with _ | subtype
  · rfl
  · rfl

/-- The setting that chooses the subtype has nothing to do with marks, the comment or the
children. -/
theorem bindType_dressedAs (s : Setting) :
    (b.dressedAs c).bindType s = (b.bindType s).dressedAs c := by
  unfold bindType
  dsimp only
  rw [show (b.dressedAs c).subtypeNames = b.subtypeNames from rfl, switchSubtype?_dressedAs]
  by_cases h : b.subtypeNames.isEmpty = true
  · rw [if_pos h, if_pos h, bindSetting_dressedAs]
  · rw [if_neg h, if_neg h]
    rcases b.switchSubtype? (Text.trim s.value) with _ | d
    · dsimp only [Option.map_none]
      rw [clearSubtype_dressedAs, ← bindSetting_dressedAs]
      rfl
    · exact updateParameter_dressedAs d c _ _

/-- **Binding settings** does not look at the marks of a block, at its comment, or at what is inside
of it. -/
theorem bindSettings_dressedAs (settings : List Setting) :
    (b.dressedAs c).bindSettings settings = (b.bindSettings settings).dressedAs c := by
  rw [bindSettings, bindSettings]
  rcases splitType settings with ⟨_ | type, others⟩
  · exact foldl_bindSetting_dressedAs c others b
  · show others.foldl bindSetting ((b.dressedAs c).bindType type) = _
    rw [bindType_dressedAs, foldl_bindSetting_dressedAs]
    rfl

end dressed

/-! ### Block by block -/

variable {catalog : Catalog} {path : Text} {offers : List Block}

/-- A block as the catalog describes it is the described one, dressed as it is. -/
theorem AsDescribed.eq_dressedAs {b : Block} (h : AsDescribed catalog b) (comment : Text) :
    b.commented comment = (described catalog b.path b.name).dressedAs (b.commented comment) := by
  obtain ⟨included, userAdded, hinfo⟩ := h
  rw [dressedAs, commented]
  dsimp only
  rw [hinfo]

/-- **What a section starts from** has the lines that the settings are read back with. -/
theorem lines_sprout {b : Block} (hn : Path.IsSegment b.name)
    (hpath : b.path = Path.join path b.name) (ho : ∀ c ∈ offers, Offered catalog path c)
    (comment : Text) :
    (sprout catalog path offers b.name comment ((writtenSlots b).map setting)).lines =
      (b.readBack catalog).lines := by
  have hseed := offered_seed ho b.name
  rw [sprout, hseed.described.here.eq_dressedAs comment, name_seed, path_seed_of_offered ho,
    ← hpath, bindSettings_dressedAs, readBack,
    blank_of_ne_root (hpath ▸ Path.join_ne_root path hn)]
  rfl

/-- The block `c` has the name and the comment of `b`, and the lines that `b` is read back with. -/
structure Rewritten (catalog : Catalog) (b c : Block) : Prop where
  /-- The name is the same. -/
  name : c.name = b.name
  /-- The comment behind the header is the same. -/
  comments : c.info.comments = b.info.comments
  /-- The lines are those that are read back. -/
  lines : c.lines = (b.readBack catalog).lines

/-- The blocks inside of `c` are those inside of `b`, read back, and they have the same text if each
of them has the lines that it is read back with. -/
structure Resaved (catalog : Catalog) (b c : Block) : Prop where
  /-- Block by block they are rewritten. -/
  descendants : List.Forall₂ (Rewritten catalog) b.descendants c.descendants
  /-- Canonical blocks have the same text. -/
  text : (∀ d ∈ b.descendants, d.Canonical catalog) → SameText b c

/-- Trees that are rewritten block by block are so as lists of all their blocks. -/
theorem Resaved.allDescendants {bs cs : List Block} (h : List.Forall₂ (Resaved catalog) bs cs) :
    List.Forall₂ (Rewritten catalog) (allDescendants bs) (Block.allDescendants cs) :=
  forall₂_allDescendants (h.imp fun _ _ h => h.descendants)

/-- Where all blocks are canonical, trees that are rewritten have the same text. -/
theorem Resaved.sameText {bs cs : List Block} (h : List.Forall₂ (Resaved catalog) bs cs)
    (hb : ∀ b ∈ bs, ∀ d ∈ b.descendants, d.Canonical catalog) : List.Forall₂ SameText bs cs := by
  induction h with
  | nil => exact .nil
  | cons h _ ih =>
    exact .cons (h.text (hb _ List.mem_cons_self)) (ih fun b hm => hb b (List.mem_cons_of_mem _ hm))

/-- A rewritten block with resaved ones inside of it is resaved. -/
theorem Rewritten.resaved {b c : Block} (h : Rewritten catalog b c)
    (hc : List.Forall₂ (Resaved catalog) b.children c.children) : Resaved catalog b c where
  descendants := by
    rw [descendants_eq_cons, descendants_eq_cons]
    exact .cons h (Resaved.allDescendants hc)
  text hcanon := by
    have hlines : c.lines = b.lines := h.lines.trans (hcanon b (mem_descendants_self b))
    exact .of_children h.name h.comments hlines
      (Resaved.sameText hc fun d hd e he => hcanon e (mem_descendants_of_child hd he))

/-- **A block is read back** with the name and the comment that it has and the lines that are read
back for it, and so is each block inside of it. -/
theorem resaved_grow {b : Block} (h : All Sound b) :
    Path.IsSegment b.name → (∀ d ∈ b.descendants, d.info.HasLineComment) →
      ∀ {path : Text} {offers : List Block}, b.path = Path.join path b.name →
        (∀ c ∈ offers, Offered catalog path c) →
          Resaved catalog b (grow catalog path offers (sectionOf b)) := by
  induction h with
  | @node b here child unused ihc ihu =>
    intro hn hcomments path offers hpath ho
    -- The children start from what the block offers, and that comes from the catalog alone.
    have hlines := lines_sprout hn hpath ho b.info.comments
    have hoffers := offered_sprout ho b.name b.info.comments ((writtenSlots b).map setting)
    have hplace := path_sprout ho b.name b.info.comments ((writtenSlots b).map setting)
    have hset := retouch_sprout catalog path offers b.name b.info.comments
      ((writtenSlots b).map setting)
    have hname := name_sprout catalog path offers b.name b.info.comments
      ((writtenSlots b).map setting)
    rw [sectionOf_eq, comment_of_isCommentLine (hcomments b (mem_descendants_self b)), grow]
    refine Rewritten.resaved ⟨hname, hset.comments, hlines⟩ ?_
    show List.Forall₂ _ b.children (growAll catalog _ _ (sectionsOf b.children))
    rw [hplace, growAll_eq_map, Layout.sectionsOf_eq_map, List.map_map,
      List.forall₂_map_right_iff, List.forall₂_same]
    intro c hm
    exact ihc c hm (here.child c hm).segment
      (fun d hd => hcomments d (mem_descendants_of_child hm hd)) (hpath ▸ (here.child c hm).path)
      hoffers

/-! ### The root -/

/-- Settings are split off only where their name is `type`. -/
theorem filter_splitType (settings : List Setting) :
    (splitType settings).2.filter (·.key ≠ Slot.typeName) =
      settings.filter (·.key ≠ Slot.typeName) := by
  rw [splitType]
  induction settings with
  | nil => rfl
  | cons s settings ih =>
    dsimp only at ih ⊢
    by_cases h : s.key = Slot.typeName
    · rw [List.eraseP_cons_of_pos (by simpa using h), List.filter_cons_of_neg (by simpa using h)]
    · rw [List.eraseP_cons_of_neg (by simpa using h), List.filter_cons_of_pos (by simpa using h),
        List.filter_cons_of_pos (by simpa using h), ih]

/-- A block without parameters writes what it was bound to, the `type` first. -/
theorem writtenSlots_bound_of_empty {b : Block} (hb : b.allParameters = [])
    (settings : List Setting) :
    writtenSlots (b.bound settings) = ((Named.find? Slot.typeName settings).toList ++
      settings.filter (·.key ≠ Slot.typeName)).map b.newSlot := by
  obtain ⟨hp, hl⟩ := List.append_eq_nil_iff.mp hb
  have hnew : b.newSettings settings = settings := by
    rw [newSettings, hb]
    exact List.filter_eq_self.mpr fun _ _ => rfl
  have hparameters : (b.bound settings).info.parameters = settings.map b.newSlot := by
    rw [bound, hp, hnew]
    rfl
  have hlive : (b.bound settings).info.subtypeParameters = [] := by
    rw [bound, hl]
    rfl
  have htype : (b.bound settings).parameter? Slot.typeName =
      (Named.find? Slot.typeName settings).map b.newSlot := by
    rw [parameter?, hparameters, hlive, Named.find?_map (name_newSlot b)]
    exact Option.or_none
  have hothers : (settings.map b.newSlot).filter (·.name ≠ Slot.typeName) =
      (settings.filter (·.key ≠ Slot.typeName)).map b.newSlot := by
    rw [List.filter_map]
    refine congrArg (List.map _) (List.filter_congr fun s _ => ?_)
    rw [Function.comp_apply, name_newSlot]
  rw [writtenSlots, htype, hparameters, hlive, hothers, List.append_nil, Option.toList_map,
    ← List.map_append, List.filter_eq_self]
  intro s hs
  obtain ⟨given, -, rfl⟩ := List.mem_map.mp hs
  exact isWritten_newSlot b given

/-- A block without parameters and subtypes has the same lines when its `type` is bound first. -/
theorem lines_bindSettings_of_empty {b : Block} (hb : b.allParameters = [])
    (ht : b.subtypeNames = []) {settings : List Setting} (hn : (Named.names settings).Nodup) :
    (b.bindSettings settings).lines = (b.bound settings).lines := by
  have hnodup : (Named.names b.allParameters).Nodup := by
    rw [hb]
    exact List.nodup_nil
  have hfilter := filter_splitType settings
  rw [bindSettings]
  rcases splitType_cases settings with ⟨-, hsplit⟩ | ⟨type, others, hkey, hsplit, hperm⟩
  · rw [hsplit]
    exact congrArg lines (foldl_bindSetting_eq_bound hn hnodup)
  · have hn' : (Named.names (type :: others)).Nodup := (hperm.map _).nodup_iff.mp hn
    have htype : b.bindType type = b.bindSetting type := by
      rw [bindType, ht]
      rfl
    rw [hsplit] at hfilter ⊢
    dsimp only [Option.elim_some] at hfilter ⊢
    rw [htype, ← List.foldl_cons, foldl_bindSetting_eq_bound hn' hnodup, lines, lines,
      writtenSlots_bound_of_empty hb, writtenSlots_bound_of_empty hb, Named.find?_perm hperm hn,
      List.filter_cons_of_neg (by simpa using hkey), hfilter]

/-- **The root is read back** with the lines that are read back for it alone. -/
theorem lines_growRoot (catalog : Catalog) {root : Block} (hp : root.path = Path.root)
    (hd : root.Distinct) :
    (growRoot catalog (outlineOf root)).lines = (root.readBack catalog).lines := by
  have hn := nodup_settings_of_distinct hd
  have hempty : (fresh [] Path.root none none).allParameters = [] := rfl
  rw [readBack, blank_of_root hp, lines_bindSettings_of_empty hempty rfl hn,
    growRoot_eq_bound catalog hn]
  rfl

/-! ### The document -/

/-- **The document that is read back**, block by block. -/
theorem resaved_growRoot (catalog : Catalog) {root : Block} (h : All Sound root)
    (hp : root.path = Path.root) (hd : root.Distinct)
    (hcomments : ∀ d ∈ root.inside, d.info.HasLineComment) :
    (growRoot catalog (outlineOf root)).lines = (root.readBack catalog).lines ∧
      List.Forall₂ (Resaved catalog) root.children
        (growRoot catalog (outlineOf root)).children := by
  refine ⟨lines_growRoot catalog hp hd, ?_⟩
  have hset := retouch_foldl_bindSetting (outlineOf root).settings (instantiateRoot catalog)
  show List.Forall₂ _ root.children (growAll catalog _ _ (sectionsOf root.children))
  rw [hset.place.path, hset.unused, growAll_eq_map, Layout.sectionsOf_eq_map, List.map_map,
    List.forall₂_map_right_iff, List.forall₂_same]
  intro c hm
  have hplaced := h.here.child c hm
  exact resaved_grow (h.child c hm) hplaced.segment
    (fun d hd' => hcomments d (mem_inside_of_child hm hd')) (hplaced.path.trans (by rw [hp]; rfl))
    (offered_placeholders catalog catalog.height Path.root)

/-- **A text that is formatted already** holds only values that can be read again: a value that
cannot be would be read as another one, and written as that. -/
theorem quotable_of_serialize_eq {indent source : Text}
    (hi : ∀ c ∈ indent, Token.isFiller c = true) {tree : Block}
    (h : parse catalog source = .ok tree) (hs : ∀ d ∈ tree.descendants, d.Spelled)
    (heq : tree.serialize indent = source) :
    ∀ d ∈ tree.descendants, d.Quotable := by
  by_contra hq
  have hground := grounded_parse h
  obtain ⟨outline, houtline, hgrown⟩ := exists_outline_of_parse h
  rw [← heq] at houtline
  obtain ⟨b, hb, s, hsb, ⟨-, hfits, hsingle⟩, c, hcm, hplace, x, htook, hkey, hne⟩ :=
    exists_took_of_not_quotable catalog hi hground.tree hground.path hs hq houtline
  rw [hgrown] at hcm
  obtain rfl := eq_of_segments hground.tree hground.path hcm hb hplace
  have heffective := effective_of_mem htook.nodup (mem_allParameters_of_written hsb).1
  exact hne (solid_of_took htook heffective hkey hfits hsingle (BlockSnapshot.same_refl _))

/-- What was read has names that can be read again. -/
theorem spelled_of_parse {source : Text} {tree : Block} (h : parse catalog source = .ok tree)
    (hnames : ∀ c ∈ tree.inside, Outline.IsHeaderName c.name) :
    ∀ d ∈ tree.descendants, d.Spelled := by
  intro d hd
  refine ⟨fun s hs => ?_, fun c hc => hnames c (mem_inside_of_descendant hd hc)⟩
  obtain ⟨hall, hwritten⟩ := mem_allParameters_of_written hs
  have hworded := (All.descendant (throughout_worded_parse h) hd).here
  exact hworded s (List.mem_append_left _ hall) hwritten

/-- **A document is formatted already** exactly when each of its blocks has the lines that it is
read back with. -/
theorem serialize_eq_iff {indent : Text} (hi : ∀ c ∈ indent, Token.isFiller c = true)
    {root again : Block} (h : All Sound root) (hp : root.path = Path.root)
    (hcomments : ∀ d ∈ root.inside, d.info.HasLineComment)
    (hs : ∀ d ∈ root.descendants, d.Spelled) (hq : ∀ d ∈ root.descendants, d.Quotable)
    (hagain : parse catalog (root.serialize indent) = .ok again) :
    again.serialize indent = root.serialize indent ↔
      ∀ b ∈ root.descendants, b.Canonical catalog := by
  have hr := readable_of_spelled h hs hq
  obtain ⟨outline, houtline, hgrown⟩ := exists_outline_of_parse hagain
  obtain ⟨hd, rfl⟩ := (Layout.ofText_serialize_eq_ok_iff hi hr).mp houtline
  obtain ⟨hlines, hback⟩ := resaved_growRoot catalog h hp
    (hd root (mem_descendants_self root)) hcomments
  rw [hgrown] at hlines hback
  constructor
  · intro heq
    have hnames : ∀ c ∈ again.inside, Outline.IsHeaderName c.name := by
      refine forall_of_forall₂ (P := fun b => Outline.IsHeaderName b.name)
        (Resaved.allDescendants hback) (fun b hb => ?_) fun b c hbc hb => ?_
      · obtain ⟨parent, hparent, hchild⟩ := exists_parent_of_mem_inside hb
        exact (hs parent hparent).headers b hchild
      · rw [hbc.name]
        exact hb
    -- That the second text can be read needs the equality: only a value that is read as it was
    -- written is known to be readable.
    have hs' := spelled_of_parse hagain hnames
    have hq' := quotable_of_serialize_eq hi hagain hs' heq
    have hr' := readable_of_spelled (grounded_parse hagain).tree hs' hq'
    have hall := Layout.lines_of_serialize_eq hi hr hr' heq
    have hinside : again.inside.map lines = root.inside.map fun b => (b.readBack catalog).lines :=
      map_eq_of_forall₂ (Resaved.allDescendants hback) fun _ _ hbc => hbc.lines
    have hread : again.descendants.map lines =
        root.descendants.map fun b => (b.readBack catalog).lines := by
      rw [descendants_eq_cons, descendants_eq_cons, List.map_cons, List.map_cons, hlines, hinside]
    exact List.map_inj_left.mp (hread.symm.trans hall)
  · intro hcanon
    exact SameText.serialize (hlines.trans (hcanon root (mem_descendants_self root)))
      (Resaved.sameText hback fun b hb d hd => hcanon d (mem_descendants_of_child hb hd)) indent

end Block

end BlockEdit
