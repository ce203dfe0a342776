import BlockEdit.Proofs.Throughout

/-!
# Trees that agree with their catalog

What a catalog declares at the path of a block stands in the block, once: a section has taken it and
it is part of the document, or it is a placeholder with nothing set, and all that is declared inside
of it stands in it in turn. The placeholders are built so many levels deep as the longest path of
the catalog has segments; `Catalog.length_lt_height` is why nothing is left out.

A placeholder is described by `Block.Placeholder`, and a block from which nothing was taken by
`Block.Untaken`. Settings leave a block untaken, and sections take from it what they name.

Main statements:

* **`Catalog.length_lt_height`**: a catalog declares children only so deep as its longest path goes.
* **`Block.Placeholder.all_agrees`**: a placeholder agrees with the catalog, with all inside of it.
* **`Block.agrees_of_parse`**: the tree of a text agrees with the catalog everywhere.
-/

namespace BlockEdit

namespace Catalog

variable {c : Catalog}

/-- A pattern matches only as many segments as it has. -/
theorem length_of_segmentsMatch : ∀ {ss ns : List Text}, segmentsMatch ss ns = true →
    ss.length = ns.length
  | [], [], _ => rfl
  | s :: ss, n :: ns, h => by
    rw [segmentsMatch, Bool.and_eq_true] at h
    rw [List.length_cons, List.length_cons, length_of_segmentsMatch h.2]

/-- No path of a catalog is longer than the catalog is high. -/
theorem length_le_height {entry : Text × BlockSchema} (h : entry ∈ c.entries) :
    (Path.segments entry.1).length ≤ c.height := by
  have hmem := List.mem_map_of_mem (f := fun entry => (Path.segments entry.1).length) h
  rw [height, List.foldl_max]
  exact Nat.le_trans (List.le_max?_getD_of_mem hmem) (Nat.le_max_right _ _)

/-- **What a catalog declares** at a path is on a longer path of the catalog. -/
theorem length_lt_height {path n : Text} (h : n ∈ c.childrenOf path) :
    (Path.segments path).length < c.height := by
  have hmem := ((mem_foldl_distinct _ []).mp h).resolve_left List.not_mem_nil
  obtain ⟨entry, hentry, hdeclared⟩ := List.mem_filterMap.mp hmem
  refine Nat.lt_of_lt_of_le ?_ (length_le_height hentry)
  rw [declaredChild?] at hdeclared
  split at hdeclared
  · cases hdeclared
  · next last hlast =>
    split at hdeclared
    · next hmatch =>
      have hnonempty : Path.segments entry.1 ≠ [] := by
        intro hnil
        rw [hnil] at hlast
        cases hlast
      rw [← length_of_segmentsMatch hmatch.2, List.length_dropLast]
      exact Nat.sub_lt (List.length_pos_of_ne_nil hnonempty) Nat.one_pos
    · cases hdeclared

end Catalog

/-- The parameter is as the catalog has it. -/
structure Slot.AtDefault (s : Slot) : Prop where
  /-- It has its default, or no value if there is none. -/
  value : s.value = s.default
  /-- Nobody has given the value. -/
  given : s.explicit = false
  /-- Nobody has added the parameter. -/
  added : s.userAdded = false
  /-- It has no comment. -/
  comments : s.comments = []

/-- What is made from a schema is as the catalog has it. -/
theorem Slot.atDefault_ofSchema (p : ParameterSchema) : (Slot.ofSchema p).AtDefault :=
  ⟨rfl, rfl, rfl, rfl⟩

namespace Block

/-- Nothing of the block is part of the document, and nothing is set in it. -/
structure Spare (b : Block) : Prop where
  /-- It is not part of the document. -/
  included : b.info.included = false
  /-- No block inside of it is part of the document. -/
  leaf : b.children = []
  /-- It has no active subtype. -/
  subtype : b.info.subtype = none
  /-- All its parameters are as the catalog has them. -/
  defaults : ∀ s ∈ b.allParameters, s.AtDefault

/-- The children of a block are what the catalog says about them. -/
structure Agrees (catalog : Catalog) (b : Block) : Prop where
  /-- A child has the schema that the catalog has for its path. -/
  schema : ∀ c ∈ b.children ++ b.unused, c.info.schema = catalog.lookup c.path
  /-- It has the schema that the catalog has for children that a user adds to it. -/
  childSchema : ∀ c ∈ b.children ++ b.unused, c.info.childSchema = catalog.wildcardFor c.path
  /-- What the catalog declares and the document does not have is unused, in order. -/
  names : Named.names b.unused =
    (catalog.childrenOf b.path).filter fun n => n ∉ Named.names b.children
  /-- What is unused is as nobody has touched it. -/
  spare : ∀ c ∈ b.unused, c.Spare
  /-- The user's choice are the children that the catalog does not declare. -/
  userAdded : ∀ c ∈ b.children,
    c.info.userAdded = true ↔ c.name ∉ catalog.childrenOf b.path

/-- The block stands under `path` for something that the catalog declares there, with all that the
catalog declares in it. -/
inductive Placeholder (catalog : Catalog) : (path : Text) → Block → Prop
  /-- The block is as the catalog describes it, and so is all that is declared in it. -/
  | node {path : Text} {b : Block}
      (info : b.info = { (described catalog (Path.join path b.name) b.name).info with
        included := false })
      (leaf : b.children = []) (names : Named.names b.unused = catalog.childrenOf b.path)
      (inside : ∀ c ∈ b.unused, Placeholder catalog b.path c) : Placeholder catalog path b

/-- Nothing that the catalog declares in the block was taken. -/
structure Untaken (catalog : Catalog) (b : Block) : Prop where
  /-- Nothing in the block is part of the document. -/
  leaf : b.children = []
  /-- All that the catalog declares is unused. -/
  names : Named.names b.unused = catalog.childrenOf b.path
  /-- What is unused stands for what is declared. -/
  inside : ∀ c ∈ b.unused, Placeholder catalog b.path c

variable {catalog : Catalog} {path : Text} {b c : Block}

/-! ### Placeholders -/

/-- **Deep enough**, placeholders stand for all that a catalog declares. -/
theorem names_placeholders_of_height {levels : Nat}
    (h : catalog.height ≤ levels + (Path.segments path).length) :
    Named.names (placeholders catalog levels path) = catalog.childrenOf path := by
  cases levels with
  | zero =>
    symm
    refine List.eq_nil_iff_forall_not_mem.mpr fun n hn => ?_
    rw [Nat.zero_add] at h
    exact absurd (Catalog.length_lt_height hn) (Nat.not_lt.mpr h)
  | succ levels => exact names_placeholders catalog levels path

/-- Each block that is put up under a path, at whatever depth, is a placeholder there. -/
theorem placeholder_of_mem : ∀ (levels : Nat) {path : Text},
    catalog.height ≤ levels + (Path.segments path).length →
      ∀ b ∈ placeholders catalog levels path, Placeholder catalog path b
  | 0, _, _, b, hb => by
    rw [placeholders] at hb
    cases hb
  | levels + 1, path, h, b, hb => by
    rw [placeholders] at hb
    obtain ⟨name, hname, rfl⟩ := List.mem_map.mp hb
    have hdeeper : catalog.height ≤ levels + (Path.segments (Path.join path name)).length := by
      rw [Path.segments_join_segment path (Catalog.isSegment_of_mem_childrenOf hname),
        List.length_append, List.length_singleton]
      omega
    exact .node rfl rfl (names_placeholders_of_height hdeeper) (placeholder_of_mem levels hdeeper)

/-- From a new block nothing was taken. -/
theorem untaken_of_placeholders (hleaf : b.children = [])
    (hunused : b.unused = placeholders catalog catalog.height b.path) : Untaken catalog b := by
  refine ⟨hleaf, ?_, ?_⟩
  · rw [hunused]
    exact names_placeholders_of_height (Nat.le_add_right _ _)
  · rw [hunused]
    exact placeholder_of_mem catalog.height (Nat.le_add_right _ _)

namespace Placeholder

/-- From a placeholder nothing was taken. -/
theorem untaken (h : Placeholder catalog path b) : Untaken catalog b := by
  cases h with
  | node _ leaf names inside => exact ⟨leaf, names, inside⟩

/-- A placeholder knows what the catalog describes for its path, and is not part of the document. -/
theorem info_eq (h : Placeholder catalog path b) :
    b.info = { (described catalog (Path.join path b.name) b.name).info with included := false } := by
  cases h with
  | node info => exact info

/-- A placeholder lies one name below the path under which it stands. -/
theorem path_eq (h : Placeholder catalog path b) : b.path = Path.join path b.name :=
  congrArg BlockInfo.path h.info_eq

/-- The schema of a placeholder is that of its path. -/
theorem schema (h : Placeholder catalog path b) : b.info.schema = catalog.lookup b.path := by
  rw [h.path_eq]
  exact congrArg BlockInfo.schema h.info_eq

/-- The schema of a user's children in a placeholder is the wildcard of its path. -/
theorem childSchema (h : Placeholder catalog path b) :
    b.info.childSchema = catalog.wildcardFor b.path := by
  rw [h.path_eq]
  exact congrArg BlockInfo.childSchema h.info_eq

/-- A placeholder is never the user's choice. -/
theorem userAdded (h : Placeholder catalog path b) : b.info.userAdded = false :=
  congrArg BlockInfo.userAdded h.info_eq

/-- Nothing is set in a placeholder, and it is not part of the document. -/
theorem spare (h : Placeholder catalog path b) : b.Spare := by
  have hinfo := h.info_eq
  refine ⟨congrArg BlockInfo.included hinfo, h.untaken.leaf, congrArg BlockInfo.subtype hinfo, ?_⟩
  intro s hs
  rw [allParameters, hinfo] at hs
  rcases List.mem_append.mp hs with hs | hs
  · rcases hschema : catalog.lookup (Path.join path b.name) with _ | schema
    · rw [described, fresh, hschema] at hs
      cases hs
    · rw [described, fresh, hschema] at hs
      rcases mem_schemaSlots hs with rfl | ⟨p, -, rfl⟩
      · exact Slot.atDefault_ofSchema _
      · exact Slot.atDefault_ofSchema p
  · cases hs

end Placeholder

/-! ### The schema of a user's children -/

/-- A change of a parameter leaves the schema of a user's children alone. -/
theorem childSchema_updateParameter (b : Block) (n : Text) (f : Slot → Slot) :
    (b.updateParameter n f).info.childSchema = b.info.childSchema := by
  rw [updateParameter]
  split <;> rfl

/-- A switch of the subtype leaves the schema of a user's children alone. -/
theorem childSchema_switchSubtype? {subtype : Text} (h : b.switchSubtype? subtype = some c) :
    c.info.childSchema = b.info.childSchema := by
  rw [switchSubtype?] at h
  obtain ⟨schema, -, rfl⟩ := Option.map_eq_some_iff.mp h
  dsimp only
  split <;> rfl

/-- Giving the subtype up leaves the schema of a user's children alone. -/
theorem childSchema_clearSubtype (b : Block) :
    b.clearSubtype.info.childSchema = b.info.childSchema := by
  rw [clearSubtype]
  split <;> rfl

/-- A setting that is read leaves the schema of a user's children alone. -/
theorem childSchema_bindSetting (b : Block) (s : Setting) :
    (b.bindSetting s).info.childSchema = b.info.childSchema := by
  rw [bindSetting]
  split
  · rfl
  · dsimp only
    split
    · exact childSchema_updateParameter b _ _
    · exact childSchema_updateParameter b _ _

/-- The setting that chooses the subtype leaves the schema of a user's children alone. -/
theorem childSchema_bindType (b : Block) (s : Setting) :
    (b.bindType s).info.childSchema = b.info.childSchema := by
  rw [bindType]
  split
  · exact childSchema_bindSetting b s
  · split
    · next c hc => exact (childSchema_updateParameter c _ _).trans (childSchema_switchSubtype? hc)
    · exact (childSchema_bindSetting _ s).trans (childSchema_clearSubtype b)

/-- Settings that are read one after the other leave the schema of a user's children alone. -/
theorem childSchema_foldl_bindSetting : ∀ (settings : List Setting) (b : Block),
    (settings.foldl bindSetting b).info.childSchema = b.info.childSchema
  | [], _ => rfl
  | s :: settings, b =>
    (childSchema_foldl_bindSetting settings (b.bindSetting s)).trans (childSchema_bindSetting b s)

/-- **Settings** leave the schema of a user's children alone. -/
theorem childSchema_bindSettings (b : Block) (settings : List Setting) :
    (b.bindSettings settings).info.childSchema = b.info.childSchema := by
  show ((splitType settings).2.foldl bindSetting
    ((splitType settings).1.elim b b.bindType)).info.childSchema = _
  rw [childSchema_foldl_bindSetting]
  rcases (splitType settings).1 with _ | s
  · rfl
  · exact childSchema_bindType b s

/-! ### Sections take what is declared -/

/-- What sections leave over of the offers are those that no section names, in their order. -/
theorem names_leftOver : ∀ (ss : List Section) {offers : List Block},
    (Named.names offers).Nodup → Named.names (leftOver offers ss) =
      (Named.names offers).filter fun n => n ∉ ss.map Section.name
  | [], offers, _ => by
    rw [List.map_nil, List.filter_eq_self.mpr fun n _ => decide_eq_true List.not_mem_nil]
    rfl
  | s :: ss, offers, h => by
    rw [show leftOver offers (s :: ss) = leftOver (Named.remove s.name offers) ss from rfl,
      names_leftOver ss (Named.nodup_remove h), Named.names_remove, h.erase_eq_filter,
      List.filter_filter]
    refine List.filter_congr fun n _ => ?_
    rw [Bool.eq_iff_iff]
    simp [and_comm]

/-- Sections grow into children of their names, in their order. -/
theorem names_growAll (path : Text) (offers : List Block) (ss : List Section) :
    Named.names (growAll catalog path offers ss) = ss.map Section.name := by
  rw [growAll_eq_map, Named.names, List.map_map]
  exact List.map_congr_left fun s _ => name_grow catalog path offers s

/-- Where nothing was taken, each section starts from what the catalog says about its path, and it
is the user's choice if the catalog does not declare it. -/
structure Sprouts (catalog : Catalog) (path : Text) (c : Block) : Prop where
  /-- Nothing was taken from the block. -/
  untaken : Untaken catalog c
  /-- The block has the schema that the catalog has for its path. -/
  schema : c.info.schema = catalog.lookup c.path
  /-- It has the schema that the catalog has for children that a user adds to it. -/
  childSchema : c.info.childSchema = catalog.wildcardFor c.path
  /-- It is the user's choice if the catalog does not declare it. -/
  userAdded : c.info.userAdded = true ↔ c.name ∉ catalog.childrenOf path

namespace Untaken

/-- A block that is retouched is still untaken. -/
theorem of_retouch (h : Untaken catalog b) (hr : b.Retouch c) : Untaken catalog c := by
  refine ⟨hr.children.trans h.leaf, ?_, ?_⟩
  · rw [hr.unused, hr.place.path]
    exact h.names
  · rw [hr.unused, hr.place.path]
    exact h.inside

/-- What a section starts from is what the catalog says about its path. -/
theorem sprouts_seed (h : Untaken catalog b) (name : Text) :
    Sprouts catalog b.path (seed catalog b.path b.unused name) := by
  rw [seed]
  split
  · next c hc =>
    have hplaceholder := h.inside c (Named.mem_of_find? hc)
    have hdeclared : c.name ∈ catalog.childrenOf b.path :=
      h.names ▸ Named.name_mem_names (Named.mem_of_find? hc)
    refine ⟨hplaceholder.untaken, hplaceholder.schema, hplaceholder.childSchema, ?_⟩
    rw [hplaceholder.userAdded]
    exact ⟨fun hold => absurd hold Bool.false_ne_true, fun hnew => absurd hdeclared hnew⟩
  · next hnone =>
    refine ⟨untaken_of_placeholders rfl rfl, rfl, rfl, fun _ => ?_, fun _ => rfl⟩
    rw [← h.names]
    exact Named.find?_eq_none_iff.mp hnone

/-- **What a section starts from**, with its comment and its settings. -/
theorem sprouts (h : Untaken catalog b) (name comment : Text) (settings : List Setting) :
    Sprouts catalog b.path (sprout catalog b.path b.unused name comment settings) := by
  have hseed := h.sprouts_seed name
  have hretouch := retouch_sprout catalog b.path b.unused name comment settings
  have hpath := hretouch.place.path
  have huntaken : Untaken catalog ((seed catalog b.path b.unused name).commented comment) :=
    ⟨hseed.untaken.leaf, hseed.untaken.names, hseed.untaken.inside⟩
  refine ⟨huntaken.of_retouch hretouch, ?_, ?_, ?_⟩
  · rw [hretouch.schema, hpath]
    exact hseed.schema
  · rw [sprout, childSchema_bindSettings, ← sprout, hpath]
    exact hseed.childSchema
  · rw [hretouch.userAdded, hretouch.place.name]
    exact hseed.userAdded

/-- **When sections have taken what they name**, the children are what the catalog says. -/
theorem agrees (h : Untaken catalog b) (ss : List Section) (hp : c.path = b.path)
    (hc : c.children = growAll catalog b.path b.unused ss) (hu : c.unused = leftOver b.unused ss) :
    Agrees catalog c := by
  have hchild : ∀ d ∈ c.children, d.info.schema = catalog.lookup d.path ∧
      d.info.childSchema = catalog.wildcardFor d.path ∧
        (d.info.userAdded = true ↔ d.name ∉ catalog.childrenOf b.path) := by
    intro d hd
    rw [hc, growAll_eq_map] at hd
    obtain ⟨⟨name, comment, settings, children⟩, -, rfl⟩ := List.mem_map.mp hd
    have hsprouts := h.sprouts name comment settings
    rw [grow]
    exact ⟨hsprouts.schema, hsprouts.childSchema, hsprouts.userAdded⟩
  have hunused : ∀ d ∈ c.unused, Placeholder catalog b.path d := by
    intro d hd
    rw [hu] at hd
    exact h.inside d (Throughout.mem_of_mem_leftOver ss hd)
  constructor
  case schema =>
    intro d hd
    rcases List.mem_append.mp hd with hd | hd
    · exact (hchild d hd).1
    · exact (hunused d hd).schema
  case childSchema =>
    intro d hd
    rcases List.mem_append.mp hd with hd | hd
    · exact (hchild d hd).2.1
    · exact (hunused d hd).childSchema
  case names =>
    have hnodup : (Named.names b.unused).Nodup := h.names ▸ catalog.nodup_childrenOf b.path
    rw [hu, hc, names_growAll, names_leftOver ss hnodup, h.names, hp]
  case spare => exact fun d hd => (hunused d hd).spare
  case userAdded =>
    intro d hd
    rw [hp]
    exact (hchild d hd).2.2

end Untaken

/-! ### The tree of a text -/

/-- **A placeholder** agrees with the catalog, with all inside of it. -/
theorem Placeholder.all_agrees (h : Placeholder catalog path b) : All (Agrees catalog) b := by
  induction h with
  | @node path b info leaf names inside ih =>
    refine .node (Untaken.agrees ⟨leaf, names, inside⟩ [] rfl leaf rfl) ?_ ih
    rw [leaf]
    exact List.forall_mem_nil _

mutual

/-- **The block that a section grows into** agrees with the catalog, with all inside of it. -/
theorem all_agrees_grow : ∀ (s : Section) {b : Block}, Untaken catalog b →
    All (Agrees catalog) (grow catalog b.path b.unused s)
  | ⟨name, comment, settings, children⟩, b, h => by
    have huntaken := (h.sprouts name comment settings).untaken
    rw [grow]
    refine .node (huntaken.agrees children rfl rfl rfl) (all_agrees_growAll children huntaken) ?_
    exact fun c hc => (huntaken.inside c (Throughout.mem_of_mem_leftOver children hc)).all_agrees

/-- Blocks that sections grow out of what was not taken agree with the catalog, with all inside of
them. -/
theorem all_agrees_growAll : ∀ (ss : List Section) {b : Block}, Untaken catalog b →
    ∀ c ∈ growAll catalog b.path b.unused ss, All (Agrees catalog) c
  | [], _, _, c, hc => by
    rw [growAll] at hc
    cases hc
  | s :: ss, b, h, c, hc => by
    rw [growAll] at hc
    rcases List.mem_cons.mp hc with rfl | hc
    · exact all_agrees_grow s h
    · exact all_agrees_growAll ss h c hc

end

/-- **The tree of a text** agrees with the catalog throughout. -/
theorem all_agrees_parse {source : Text} {root : Block} (h : parse catalog source = .ok root) :
    All (Agrees catalog) root := by
  obtain ⟨outline, -, rfl⟩ := exists_outline_of_parse h
  have hretouch := retouch_foldl_bindSetting outline.settings (instantiateRoot catalog)
  have huntaken : Untaken catalog (outline.settings.foldl bindSetting (instantiateRoot catalog)) :=
    (untaken_of_placeholders rfl rfl).of_retouch hretouch
  refine .node (huntaken.agrees outline.children rfl rfl rfl)
    (all_agrees_growAll outline.children huntaken) fun c hc => ?_
  exact (huntaken.inside c (Throughout.mem_of_mem_leftOver _ hc)).all_agrees

/-- **The tree of a text agrees with the catalog everywhere**: each block, used or not, has the
schemas that the catalog has for its path; what the catalog declares in a block and the document
does not have is unused, in order and untouched; and a child of the document is the user's choice
exactly when the catalog does not declare it. -/
theorem agrees_of_parse {source : Text} {root : Block} (h : parse catalog source = .ok root) :
    root.path = Path.root ∧ All (Agrees catalog) root :=
  ⟨(grounded_parse h).path, all_agrees_parse h⟩

/-- A text with a block of the user's choice, in a catalog that declares the same block under every
child of `/A`. -/
theorem agrees_of_parse_sample : ∃ catalog source root, parse catalog source = .ok root ∧
    root.paths = ["/A".toList, "/A/X".toList, "/A/X/C".toList] ∧
      (root.find? "/A".toList).map (fun b => b.unused.map Block.path) = some ["/A/B".toList] ∧
      (root.find? "/A/X".toList).map (fun b => b.info.userAdded) = some true ∧
      root.path = Path.root ∧ All (Agrees catalog) root := by
  let catalog : Catalog :=
    { entries := [("/A".toList, {}), ("/A/*".toList, {}), ("/A/B".toList, {}),
        ("/A/*/C".toList, {})] }
  let source : Text := "[A]\n  [./X]\n    [./C]\n    []\n  []\n[]\n".toList
  have hparse : (parse catalog source).toOption.map (fun root =>
      decide (root.paths = ["/A".toList, "/A/X".toList, "/A/X/C".toList] ∧
        (root.find? "/A".toList).map (fun b => b.unused.map Block.path) = some ["/A/B".toList] ∧
        (root.find? "/A/X".toList).map (fun b => b.info.userAdded) = some true)) = some true := by
    decide +kernel
  rcases hroot : parse catalog source with fault | root
  · rw [hroot] at hparse
    cases hparse
  · rw [hroot] at hparse
    obtain ⟨hpaths, hunused, huser⟩ := of_decide_eq_true (Option.some.inj hparse)
    exact ⟨catalog, source, root, hroot, hpaths, hunused, huser, agrees_of_parse hroot⟩

end Block

end BlockEdit
