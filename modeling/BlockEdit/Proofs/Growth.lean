import BlockEdit.Proofs.Offers
import BlockEdit.Proofs.Runs

/-!
# How a tree grows from an outline

Sections are bound to a parent one after the other. When no two of them share a name, each grows
into a block of its own that depends on the path of the parent and on what the catalog offers
there, but not on its siblings. `Block.grow` is this block.

Main statements:

* **`Block.bindSections_eq`**: sections that are bound to a parent become its last children.
* **`Block.parse_eq_growRoot`**: the tree of a text grows from its outline.
-/

namespace BlockEdit

namespace Block

/-! ### Growing -/

/-- What a section starts from: the block that is offered under its name, or else a new one of the
user's choice. -/
def seed (catalog : Catalog) (path : Text) (offers : List Block) (name : Text) : Block :=
  match Named.find? name offers with
  | some b => b
  | none =>
    let b := instantiate catalog path name
    { b with info := { b.info with userAdded := true } }

/-- The block with a comment behind its header. -/
def commented (b : Block) (comment : Text) : Block :=
  { b with info := { b.info with comments := comment } }

/-- What a section starts from, with its comment and its settings. -/
def sprout (catalog : Catalog) (path : Text) (offers : List Block) (name comment : Text)
    (settings : List Setting) : Block :=
  ((seed catalog path offers name).commented comment).bindSettings settings

/-- What is still offered behind sections. -/
def leftOver (offers : List Block) (sections : List Section) : List Block :=
  sections.foldl (fun left s => Named.remove s.name left) offers

mutual

/-- The block that a section grows into. -/
def grow (catalog : Catalog) (path : Text) (offers : List Block) : Section → Block
  | ⟨name, comment, settings, children⟩ =>
    let b := sprout catalog path offers name comment settings
    mark true ⟨b.info, growAll catalog b.path b.unused children, leftOver b.unused children⟩

/-- The blocks that sections grow into. -/
def growAll (catalog : Catalog) (path : Text) (offers : List Block) : List Section → List Block
  | [] => []
  | s :: rest => grow catalog path offers s :: growAll catalog path offers rest

end

/-- The document that an outline grows into. -/
def growRoot (catalog : Catalog) (outline : Section) : Block :=
  let b := outline.settings.foldl bindSetting (instantiateRoot catalog)
  ⟨b.info, growAll catalog b.path b.unused outline.children, leftOver b.unused outline.children⟩

variable {catalog : Catalog} {path : Text} {offers : List Block}

/-- Each section grows for itself. -/
theorem growAll_eq_map (sections : List Section) :
    growAll catalog path offers sections = sections.map (grow catalog path offers) := by
  induction sections with
  | nil => rfl
  | cons s sections ih => rw [growAll, ih, List.map_cons]

/-- What a section grows into depends on what is offered under its name only. -/
theorem grow_congr {others : List Block} {s : Section}
    (h : Named.find? s.name others = Named.find? s.name offers) :
    grow catalog path others s = grow catalog path offers s := by
  obtain ⟨name, comment, settings, children⟩ := s
  have hsprout : sprout catalog path others name comment settings =
      sprout catalog path offers name comment settings := by
    unfold sprout seed
    rw [show Named.find? name others = Named.find? name offers from h]
  rw [grow, grow, hsprout]

/-- What is offered under other names does not matter to sections. -/
theorem growAll_remove {n : Text} {sections : List Section} (h : n ∉ sections.map Section.name) :
    growAll catalog path (Named.remove n offers) sections =
      growAll catalog path offers sections := by
  rw [growAll_eq_map, growAll_eq_map]
  refine List.map_congr_left fun s hs => grow_congr (Named.find?_remove ?_ offers)
  rintro rfl
  exact h (List.mem_map_of_mem hs)

/-! ### The place of a block that grows -/

/-- What a section starts from has its name. -/
theorem name_seed (catalog : Catalog) (path : Text) (offers : List Block) (name : Text) :
    (seed catalog path offers name).name = name := by
  unfold seed
  split
  · next b hb => exact Named.name_of_find? hb
  · rfl

/-- The settings of a section only retouch what it starts from. -/
theorem retouch_sprout (catalog : Catalog) (path : Text) (offers : List Block)
    (name comment : Text) (settings : List Setting) :
    Retouch ((seed catalog path offers name).commented comment)
      (sprout catalog path offers name comment settings) :=
  retouch_bindSettings _ settings

/-- The comment and the settings of a section leave the name alone. -/
theorem name_sprout (catalog : Catalog) (path : Text) (offers : List Block)
    (name comment : Text) (settings : List Setting) :
    (sprout catalog path offers name comment settings).name = name :=
  (retouch_sprout catalog path offers name comment settings).place.name.trans
    (name_seed catalog path offers name)

/-- A section grows into a block of its name. -/
theorem name_grow (catalog : Catalog) (path : Text) (offers : List Block) (s : Section) :
    (grow catalog path offers s).name = s.name := by
  obtain ⟨name, comment, settings, children⟩ := s
  rw [grow]
  exact name_sprout catalog path offers name comment settings

/-- Where blocks are offered in place, what a section starts from is in place. -/
theorem path_seed (ho : ∀ c ∈ offers, Placed path false c) (name : Text) :
    (seed catalog path offers name).path = Path.join path name := by
  unfold seed
  split
  · next b hb =>
    obtain ⟨hmem, rfl⟩ := Named.find?_eq_some hb
    exact (ho b hmem).path
  · rfl

/-- What a section starts from is a sound tree without children. -/
theorem all_sound_seed (catalog : Catalog) (path : Text)
    (ho : ∀ c ∈ offers, c.children = [] ∧ All Sound c) (name : Text) :
    All Sound (seed catalog path offers name) ∧ (seed catalog path offers name).children = [] := by
  unfold seed
  split
  · next b hb =>
    have := ho b (Named.mem_of_find? hb)
    exact ⟨this.2, this.1⟩
  · have hsound := all_sound_instantiate catalog path name
    refine ⟨all_sound_with_info hsound ⟨hsound.here.info.subtype, hsound.here.info.own,
      hsound.here.info.live, hsound.here.info.stashed⟩ rfl, rfl⟩

/-- A comment does not matter to whether a tree is sound. -/
theorem all_sound_commented {b : Block} (h : All Sound b) (comment : Text) :
    All Sound (b.commented comment) :=
  all_sound_with_info h ⟨h.here.info.subtype, h.here.info.own, h.here.info.live,
    h.here.info.stashed⟩ rfl

/-- Nothing was bound to what a section starts from, when nothing was bound to what is offered. -/
theorem all_pristine_seed (hc : catalog.TypesAreTexts) (ho : ∀ c ∈ offers, All Pristine c)
    (path name : Text) : All Pristine (seed catalog path offers name) := by
  unfold seed
  split
  · next b hb => exact ho b (Named.mem_of_find? hb)
  · have h := all_pristine_instantiate hc path name
    exact .node (h.here.of_info rfl rfl rfl rfl rfl) h.child h.unused

/-- A name that no child of the document has is claimed from what is offered. -/
theorem claim_eq {parent : Block} {name : Text} (h : name ∉ Named.names parent.children) :
    claim catalog parent name = (seed catalog parent.path parent.unused name,
      { parent with unused := Named.remove name parent.unused }) := by
  rw [claim, takeChild?, child?, Named.find?_eq_none h, seed]
  rcases hfind : parent.unused? name with _ | b
  · have hnone : Named.find? name parent.unused = none := hfind
    simp only [Option.map_none, hnone]
    rw [Named.remove_of_not_mem (Named.find?_eq_none_iff.mp hnone)]
    cases parent
    rfl
  · have hsome : Named.find? name parent.unused = some b := hfind
    simp only [Option.map_some, hsome]

/-! ### Sections become children -/

/-- A section in a sound parent starts from a sound block in its place. -/
theorem sprout_spec (catalog : Catalog) {parent : Block} (hp : All Sound parent) (name comment : Text)
    (settings : List Setting) :
    All Sound (sprout catalog parent.path parent.unused name comment settings) ∧
      (sprout catalog parent.path parent.unused name comment settings).children = [] ∧
      (sprout catalog parent.path parent.unused name comment settings).path =
        Path.join parent.path name := by
  obtain ⟨hsound, hleaf⟩ := all_sound_seed catalog parent.path
    (fun c hc => (unused_spec hp hc).2) name
  have hset := retouch_sprout catalog parent.path parent.unused name comment settings
  refine ⟨hset.all_sound (all_sound_commented hsound comment), hset.children.trans hleaf, ?_⟩
  exact hset.place.path.trans (path_seed (fun c hc => (unused_spec hp hc).1) name)

mutual

/-- **A section** with a new name becomes the last child of its parent. -/
theorem bindSection_eq (catalog : Catalog) : ∀ (s : Section), s.Regular → ∀ {parent : Block},
    All Sound parent → s.name ∉ Named.names parent.children →
      bindSection catalog parent s = { parent with
        children := parent.children ++ [grow catalog parent.path parent.unused s]
        unused := Named.remove s.name parent.unused }
  | ⟨name, comment, settings, children⟩, hr, parent, hp, hfree => by
    obtain ⟨hsound, hleaf, hpath⟩ := sprout_spec catalog hp name comment settings
    have hname := name_sprout catalog parent.path parent.unused name comment settings
    rw [bindSection, claim_eq hfree]
    dsimp only
    set b := sprout catalog parent.path parent.unused name comment settings with hb
    have hregular : ∀ s ∈ children, s.Regular ∧ Outline.IsHeaderName s.name :=
      fun s hs => ⟨hr.inside s hs, hr.names s hs⟩
    have hinner := bindSections_eq catalog children hregular hsound (by
      rw [hleaf]
      exact hr.nodup)
    have hgrown := all_sound_bindSections catalog children hregular hsound
    have hgrownName : (bindSections catalog b children).name = name :=
      (congrArg BlockInfo.name hgrown.2).trans hname
    have hgrownPath : (bindSections catalog b children).path = Path.join parent.path name :=
      (congrArg BlockInfo.path hgrown.2).trans hpath
    have hgrow : (bindSections catalog b children).mark true =
        grow catalog parent.path parent.unused ⟨name, comment, settings, children⟩ := by
      rw [hinner, hleaf, grow, ← hb]
      rfl
    show ({ parent with unused := Named.remove name parent.unused } : Block).insertChild
      (bindSections catalog b children) = _
    rw [insertChild_of_new hgrown.1 (by rw [hgrownName]; exact hgrownPath)
      (by rw [hgrownName]; exact hfree), hgrownName, hgrow]
    have hgone : Named.remove name (Named.remove name parent.unused) =
        Named.remove name parent.unused :=
      Named.remove_of_not_mem (Named.not_mem_names_remove (nodup_unused hp.here))
    dsimp only
    rw [hgone]

/-- **Sections** with new names become the last children of their parent. -/
theorem bindSections_eq (catalog : Catalog) : ∀ (ss : List Section),
    (∀ s ∈ ss, s.Regular ∧ Outline.IsHeaderName s.name) → ∀ {parent : Block}, All Sound parent →
      (Named.names parent.children ++ ss.map Section.name).Nodup →
        bindSections catalog parent ss = { parent with
          children := parent.children ++ growAll catalog parent.path parent.unused ss
          unused := leftOver parent.unused ss }
  | [], _, parent, _, _ => by
    rw [bindSections, growAll, List.append_nil]
    cases parent
    rfl
  | s :: ss, h, parent, hp, hfree => by
    rw [List.map_cons, List.nodup_append] at hfree
    obtain ⟨hold, hnew, hdisjoint⟩ := hfree
    rw [List.nodup_cons] at hnew
    have hfirst : s.name ∉ Named.names parent.children :=
      fun hm => hdisjoint s.name hm s.name List.mem_cons_self rfl
    have hsound := (all_sound_bindSection catalog s (h s List.mem_cons_self).1
      (h s List.mem_cons_self).2 hp).1
    rw [bindSection_eq catalog s (h s List.mem_cons_self).1 hp hfirst] at hsound
    rw [bindSections, bindSection_eq catalog s (h s List.mem_cons_self).1 hp hfirst,
      bindSections_eq catalog ss (fun t ht => h t (List.mem_cons_of_mem _ ht)) hsound ?_]
    · dsimp only
      rw [growAll_remove hnew.1, growAll, List.append_assoc, List.singleton_append]
      rfl
    · have hnames : Named.names (parent.children ++ [grow catalog parent.path parent.unused s]) =
          Named.names parent.children ++ [s.name] := by
        rw [Named.names_append, Named.names_cons, Named.names_nil]
        rw [show Named.name (grow catalog parent.path parent.unused s) = s.name from
          name_grow catalog parent.path parent.unused s]
      dsimp only
      rw [hnames, List.append_assoc, List.singleton_append, List.nodup_append]
      exact ⟨hold, List.nodup_cons.mpr hnew, hdisjoint⟩

end

/-- **The document of an outline** grows from it. -/
theorem ofOutline_eq_growRoot (catalog : Catalog) {outline : Section} (hr : outline.Regular) :
    ofOutline catalog outline = growRoot catalog outline := by
  have hset := retouch_foldl_bindSetting outline.settings (instantiateRoot catalog)
  have hleaf : (outline.settings.foldl bindSetting (instantiateRoot catalog)).children = [] :=
    hset.children
  rw [ofOutline, growRoot, bindSections_eq catalog outline.children
    (fun s hs => ⟨hr.inside s hs, hr.names s hs⟩)
    (hset.all_sound (all_sound_instantiateRoot catalog)) (by rw [hleaf]; exact hr.nodup), hleaf]
  rfl

/-- **The tree of a text** grows from the outline of the text. -/
theorem parse_eq_growRoot (catalog : Catalog) {source : Text} {outline : Section}
    (h : Outline.ofText source = .ok outline) :
    parse catalog source = .ok (growRoot catalog outline) := by
  rw [parse, h, ← ofOutline_eq_growRoot catalog (Outline.regular_of_ofText h)]
  rfl

/-- A text that is no outline is no document. -/
theorem exists_outline_of_parse {source : Text} {root : Block}
    (h : parse catalog source = .ok root) :
    ∃ outline, Outline.ofText source = .ok outline ∧ growRoot catalog outline = root := by
  rcases ho : Outline.ofText source with e | outline
  · rw [parse, ho] at h
    cases h
  · rw [parse_eq_growRoot catalog ho] at h
    cases h
    exact ⟨outline, rfl, rfl⟩

end Block

end BlockEdit
