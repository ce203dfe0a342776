import BlockEdit.Document
import BlockEdit.Proofs.Effects

/-!
# Runs of a document

A document starts empty or from a text, and then takes edits and whole new texts, in any order.
Each of these steps leaves a sound tree under a root that stays where it is, so every document that
is ever reached has one.

Main statements:

* **`Block.parse_spec`**: the tree of a text is sound.
* **`Edit.grounded_apply`**: an edit that is accepted leaves a sound tree.
* **`Document.Reached.grounded`**: every document of a run has a sound tree.
-/

namespace BlockEdit

namespace Block

/-- A sound tree whose top is the root of a document. -/
structure Grounded (root : Block) : Prop where
  /-- The tree is sound. -/
  tree : All Sound root
  /-- The root has no name. -/
  name : root.name = []
  /-- The root has the path of the root. -/
  path : root.path = Path.root

/-- A new tree is grounded. -/
theorem grounded_instantiateRoot (catalog : Catalog) : Grounded (instantiateRoot catalog) :=
  ⟨all_sound_instantiateRoot catalog, rfl, rfl⟩

/-- A root that stays where it is with a sound tree below it stays the root of a document. -/
theorem Grounded.of_samePlace {root root' : Block} (h : Grounded root) (ht : All Sound root')
    (hs : SamePlace root root') : Grounded root' :=
  ⟨ht, hs.name.trans h.name, hs.path.trans h.path⟩

/-! ### Reading a document -/

/-- Taking a child out does not matter to what the block knows. -/
theorem info_takeChild? {b b' c : Block} {n : Text} (h : b.takeChild? n = some (c, b')) :
    b'.info = b.info := by
  rw [takeChild?] at h
  split at h
  · cases h
    rfl
  · obtain ⟨d, -, he⟩ := Option.map_eq_some_iff.mp h
    cases he
    rfl

/-- **The block that a section stands for** is a sound tree of its name, and the parent without it
is sound and stays where it is. -/
theorem all_sound_claim (catalog : Catalog) {parent : Block} (name : Text)
    (h : All Sound parent) :
    All Sound (claim catalog parent name).1 ∧ (claim catalog parent name).1.name = name ∧
      All Sound (claim catalog parent name).2 ∧
        (claim catalog parent name).2.info = parent.info := by
  rw [claim]
  split
  · next child parent' htake =>
    obtain ⟨hchild, hparent, hname, -⟩ := all_sound_takeChild? h htake
    exact ⟨hchild, hname, hparent, info_takeChild? htake⟩
  · next hnone =>
    have hsound := all_sound_instantiate catalog parent.path name
    refine ⟨all_sound_with_info hsound ?_ rfl, rfl, h, rfl⟩
    exact ⟨hsound.here.info.subtype, hsound.here.info.own, hsound.here.info.live,
      hsound.here.info.stashed⟩

mutual

/-- **A section** that is added keeps the tree sound. -/
theorem all_sound_bindSection (catalog : Catalog) : ∀ (s : Section), s.Regular →
    Outline.IsHeaderName s.name → ∀ {parent : Block}, All Sound parent →
      All Sound (bindSection catalog parent s) ∧
        (bindSection catalog parent s).info = parent.info
  | ⟨name, comment, settings, children⟩, hr, hn, parent, hp => by
    obtain ⟨hchild, hname, hparent, hinfo⟩ := all_sound_claim catalog name hp
    rw [bindSection]
    generalize claim catalog parent name = claimed at hchild hname hparent hinfo
    obtain ⟨child, parent'⟩ := claimed
    dsimp only at hchild hname hparent hinfo ⊢
    have hcomment : All Sound { child with info := { child.info with comments := comment } } :=
      all_sound_with_info hchild ⟨hchild.here.info.subtype, hchild.here.info.own,
        hchild.here.info.live, hchild.here.info.stashed⟩ rfl
    have hbind := retouch_bindSettings { child with info := { child.info with comments := comment } }
      settings
    have hinner := all_sound_bindSections catalog children
      (fun s hs => ⟨hr.inside s hs, hr.names s hs⟩) (hbind.all_sound hcomment)
    refine ⟨all_sound_insertChild hparent hinner.1 ?_, hinfo⟩
    have hinfo' : (bindSections catalog _ children).name = name :=
      (congrArg BlockInfo.name hinner.2).trans (hbind.place.name.trans hname)
    rw [hinfo']
    exact hn.isSegment

/-- **Sections** that are added keep the tree sound. -/
theorem all_sound_bindSections (catalog : Catalog) : ∀ (ss : List Section),
    (∀ s ∈ ss, s.Regular ∧ Outline.IsHeaderName s.name) → ∀ {parent : Block}, All Sound parent →
      All Sound (bindSections catalog parent ss) ∧
        (bindSections catalog parent ss).info = parent.info
  | [], _, parent, hp => by
    rw [bindSections]
    exact ⟨hp, rfl⟩
  | s :: ss, h, parent, hp => by
    obtain ⟨hfirst, hinfo⟩ := all_sound_bindSection catalog s (h s List.mem_cons_self).1
      (h s List.mem_cons_self).2 hp
    obtain ⟨hrest, hinfo'⟩ := all_sound_bindSections catalog ss
      (fun t ht => h t (List.mem_cons_of_mem _ ht)) hfirst
    rw [bindSections]
    exact ⟨hrest, hinfo'.trans hinfo⟩

end

/-- **The tree of a text** is sound, and its root has no schema. -/
theorem parse_spec {catalog : Catalog} {source : Text} {root : Block}
    (h : parse catalog source = .ok root) : Grounded root ∧ root.info.schema = none := by
  rw [parse] at h
  rcases ho : Outline.ofText source with e | outline
  · rw [ho] at h
    cases h
  · rw [ho] at h
    cases h
    have hr := Outline.regular_of_ofText ho
    have hset := retouch_foldl_bindSetting outline.settings (instantiateRoot catalog)
    have htop := all_sound_bindSections catalog outline.children
      (fun s hs => ⟨hr.inside s hs, hr.names s hs⟩)
      (hset.all_sound (all_sound_instantiateRoot catalog))
    refine ⟨⟨htop.1, ?_, ?_⟩, ?_⟩
    · exact (congrArg BlockInfo.name htop.2).trans hset.place.name
    · exact (congrArg BlockInfo.path htop.2).trans hset.place.path
    · exact (congrArg BlockInfo.schema htop.2).trans hset.schema

/-- The tree of a text is grounded. -/
theorem grounded_parse {catalog : Catalog} {source : Text} {root : Block}
    (h : parse catalog source = .ok root) : Grounded root := (parse_spec h).1

/-! ### Edits -/

/-- **A child at the end** keeps the tree sound when it is in place and its name is free. -/
theorem all_sound_attach {b c : Block} (hb : All Sound b) (hc : All Sound c)
    (hp : Placed b.path true c) (hfree : c.name ∉ Named.names b.children) :
    All Sound (b.attach c) := by
  refine all_sound_with_children hb (fun d hd => ?_)
    (fun d hd => unused_spec hb (Named.mem_of_mem_remove hd)) ?_
    (Named.nodup_remove (nodup_unused hb.here)) fun n hn hm => ?_
  · rcases List.mem_append.mp hd with hd | hd
    · exact child_spec hb hd
    · obtain rfl := List.mem_singleton.mp hd
      exact ⟨hp, hc⟩
  · rw [Named.names_append, List.nodup_append]
    refine ⟨nodup_children hb.here, List.nodup_singleton _, fun n hn m hm hnm => ?_⟩
    rw [List.mem_singleton.mp hm] at hnm
    exact hfree ((show n = c.name from hnm) ▸ hn)
  · rw [Named.names_append] at hn
    rcases List.mem_append.mp hn with hn | hn
    · exact not_mem_unused_of_mem_children hb.here hn (Named.mem_names_of_remove hm)
    · rw [List.mem_singleton.mp hn] at hm
      exact Named.not_mem_names_remove (nodup_unused hb.here) hm

/-- **A child that goes** leaves a sound tree. -/
theorem all_sound_withdraw (catalog : Catalog) {b : Block} {n : Text} (hb : All Sound b)
    (hn : n ∈ Named.names b.children) : All Sound (b.withdraw catalog n) := by
  obtain ⟨c, hc, hname⟩ := Named.mem_names.mp hn
  have hunused := not_mem_unused_of_mem_children hb.here hn
  have hoffer : ∀ d ∈ (if n ∈ catalog.childrenOf b.path
      then [(instantiate catalog b.path n).mark false] else []),
      d = (instantiate catalog b.path n).mark false := by
    intro d hd
    split at hd
    · exact List.mem_singleton.mp hd
    · cases hd
  refine all_sound_with_children hb (fun d hd => child_spec hb (Named.mem_of_mem_remove hd))
    (fun d hd => ?_) (Named.nodup_remove (nodup_children hb.here)) ?_ fun m hm hu => ?_
  · rcases List.mem_append.mp hd with hd | hd
    · exact unused_spec hb hd
    · obtain rfl := hoffer d hd
      exact ⟨⟨rfl, rfl, hname ▸ (hb.here.child c hc).segment⟩, rfl,
        all_sound_mark (all_sound_instantiate catalog b.path n) false⟩
  · rw [Named.names_append]
    split
    · refine List.nodup_append.mpr ⟨nodup_unused hb.here, List.nodup_singleton _,
        fun m hm k hk hmk => ?_⟩
      rw [List.mem_singleton.mp hk] at hmk
      exact hunused ((show m = n from hmk) ▸ hm)
    · rw [show Named.names ([] : List Block) = [] from rfl, List.append_nil]
      exact nodup_unused hb.here
  · rw [Named.names_append] at hu
    rcases List.mem_append.mp hu with hu | hu
    · exact not_mem_unused_of_mem_children hb.here (Named.mem_names_of_remove hm) hu
    · obtain ⟨d, hd, rfl⟩ := Named.mem_names.mp hu
      obtain rfl := hoffer d hd
      exact Named.not_mem_names_remove (nodup_children hb.here) hm

/-- A child gets a name that no unused child has, when it is its own or free. -/
theorem not_mem_unused_of_rename {b b' : Block} {n m : Text} (hb : b.Sound)
    (h : b.renameChild? n m = some b') (hfree : m = n ∨ b.hasChild m = false) :
    m ∉ Named.names b.unused := by
  rcases hfree with rfl | hfree
  · obtain ⟨c, -, hc, -, -⟩ := exists_of_renameChild? h
    obtain ⟨hmem, rfl⟩ := Named.find?_eq_some hc
    exact not_mem_unused_of_mem_children hb (Named.name_mem_names hmem)
  · exact (hasChild_eq_false_iff.mp hfree).2

end Block

namespace Edit

open Block (All Sound SamePlace Grounded)

/-- **What an edit does** leaves a sound tree in the place of a block. -/
theorem Effect.all_sound {root root' : Block} {catalog : Catalog} {e : Edit} {landing : Landing}
    (h : All Sound root) (he : Effect root catalog e root' landing) :
    All Sound root' ∧ SamePlace root root' := by
  cases he with
  | @included path n subtype b c hb hn hc =>
    have hsound := Block.all_sound_of_find? h hb
    obtain ⟨hmem, hname⟩ := Named.find?_eq_some hc
    have hplaced := hsound.here.unused c hmem
    have hretouch := retouch_elim_switchSubtype (c.mark true) subtype
    have hfree := Block.not_mem_children_of_mem_unused hsound.here hmem
    refine Block.all_sound_set h hb (Block.all_sound_attach hsound ?_ ?_ ?_) (.of_info rfl)
    · exact hretouch.all_sound (Block.all_sound_mark (hsound.unused c hmem) true)
    · have hmark : Block.Placed b.path true (c.mark true) :=
        ⟨hplaced.path, rfl, hplaced.segment⟩
      exact hmark.of_samePlace hretouch.place
    · rw [hretouch.place.name]
      exact hfree
  | @added path n name subtype b hb hn hfree =>
    have hsound := Block.all_sound_of_find? h hb
    obtain ⟨hnew, hplaced⟩ := added_spec catalog b.path subtype
      (isHeaderName_of_isName hn).isSegment
    refine Block.all_sound_set h hb (Block.all_sound_attach hsound hnew hplaced ?_) (.of_info rfl)
    rw [name_added]
    exact (Block.hasChild_eq_false_iff.mp hfree).1
  | @removed path parent n b c hpath hb hc =>
    have hsound := Block.all_sound_of_find? h hb
    obtain ⟨hmem, rfl⟩ := Named.find?_eq_some hc
    exact Block.all_sound_set h hb
      (Block.all_sound_withdraw catalog hsound (Named.name_mem_names hmem)) (.of_info rfl)
  | @dropped path parent n b c hpath hb hc =>
    have hsound := Block.all_sound_of_find? h hb
    refine Block.all_sound_set h hb (Block.all_sound_with_children hsound
      (fun d hd => Block.child_spec hsound hd)
      (fun d hd => Block.unused_spec hsound (Named.mem_of_mem_remove hd))
      (Block.nodup_children hsound.here) (Named.nodup_remove (Block.nodup_unused hsound.here)) ?_)
      (.of_info rfl)
    exact fun m hm hu =>
      Block.not_mem_unused_of_mem_children hsound.here hm (Named.mem_names_of_remove hu)
  | @renamed path parent n newName b b' hpath hb hn hfree hb' =>
    -- The new name is free, or it is the old one, which the child leaves.
    have hsound := Block.all_sound_of_find? h hb
    refine Block.all_sound_set h hb (Block.all_sound_renameChild? hsound hb'
      (isHeaderName_of_isName hn).isSegment
      (Block.not_mem_unused_of_rename hsound.here hb' hfree))
      (.of_info (Block.info_renameChild? hb'))
  | switched hb hselected hc =>
    have hr := Block.retouch_switchSubtype? hc
    exact Block.all_sound_set h hb (hr.all_sound (Block.all_sound_of_find? h hb)) hr.place
  | updated hb hchanged hselected hkeeps hfits =>
    exact Block.all_sound_set h hb (hfits.all_sound (Block.all_sound_of_find? h hb)) hfits.place
  | @extended path name value b hb hn hvalue hfree =>
    have hr := @Block.retouch_addParameter b _ (Slot.fits_user name value)
    exact Block.all_sound_set h hb (hr.all_sound (Block.all_sound_of_find? h hb)) hr.place

/-- **An edit that is accepted** leaves a sound tree. -/
theorem grounded_apply {root root' : Block} {catalog : Catalog} {e : Edit} {landing : Landing}
    (h : Grounded root) (happly : e.apply root catalog = .ok (root', landing)) :
    Grounded root' := by
  obtain ⟨htree, hplace⟩ := (effect_of_apply h.tree happly).all_sound h.tree
  exact h.of_samePlace htree hplace

end Edit

/-! ### Runs -/

/-- What is left of a result without its fault is the result. -/
theorem eq_ok_of_toOption {ε α : Type} {x : Except ε α} {a : α} (h : x.toOption = some a) :
    x = .ok a := by
  cases x with
  | error e => cases h
  | ok b =>
    cases h
    rfl

namespace Document

open Block (All Grounded)

/-- An edit that a document accepts is one that its tree accepts, under the same catalog. -/
theorem root_of_apply {d d' : Document} {e : Edit} {r : EditResult}
    (h : d.apply e = .ok (d', r)) :
    ∃ landing, e.apply d.root d.catalog = .ok (d'.root, landing) ∧ d'.catalog = d.catalog ∧
      r.path = landing.path := by
  unfold apply at h
  split at h
  · cases h
  · next root landing he =>
    split at h
    · cases h
      exact ⟨landing, he, rfl, rfl⟩
    · cases h
      exact ⟨landing, he, rfl, rfl⟩

/-- A text that a document accepts is read, and its blocks take the place of those that were
there. -/
theorem root_of_replaceText {d d' : Document} {source : Text} {ids : List Identity}
    (h : d.replaceText source = .ok (d', ids)) :
    ∃ parsed, Block.parse d.catalog source = .ok parsed ∧
      d'.root = d.root.replaceContents parsed ∧ d'.catalog = d.catalog := by
  unfold replaceText at h
  split at h
  · cases h
  · next parsed hparse =>
    cases h
    exact ⟨parsed, hparse, rfl, rfl⟩

/-- The documents of a run: it starts with an empty document or with that of a text, and goes on
with edits and texts that are accepted. -/
inductive Reached (catalog : Catalog) : Document → Prop
  /-- A run can start with an empty document. -/
  | new : Reached catalog (new catalog)
  /-- A run can start with the document of a text. -/
  | ofText {source : Text} {storage : Storage} {d : Document}
      (h : ofText catalog source storage = .ok d) : Reached catalog d
  /-- A run goes on with an edit that is accepted. -/
  | apply {d d' : Document} {e : Edit} {r : EditResult} (before : Reached catalog d)
      (h : d.apply e = .ok (d', r)) : Reached catalog d'
  /-- A run goes on with a text that is accepted. -/
  | replaceText {d d' : Document} {source : Text} {ids : List Identity}
      (before : Reached catalog d) (h : d.replaceText source = .ok (d', ids)) : Reached catalog d'

/-- The documents of a run that takes only some edits and goes through some documents only. -/
inductive ReachedBy (takes : Document → Edit → Prop) (through : Document → Prop)
    (catalog : Catalog) : Document → Prop
  /-- A run can start with an empty document. -/
  | new (ht : through (new catalog)) : ReachedBy takes through catalog (new catalog)
  /-- A run can start with the document of a text. -/
  | ofText {source : Text} {storage : Storage} {d : Document} (ht : through d)
      (h : ofText catalog source storage = .ok d) : ReachedBy takes through catalog d
  /-- A run goes on with an edit that it takes and that is accepted. -/
  | apply {d d' : Document} {e : Edit} {r : EditResult}
      (before : ReachedBy takes through catalog d) (he : takes d e) (ht : through d')
      (h : d.apply e = .ok (d', r)) : ReachedBy takes through catalog d'
  /-- A run goes on with a text that is accepted. -/
  | replaceText {d d' : Document} {source : Text} {ids : List Identity}
      (before : ReachedBy takes through catalog d) (ht : through d')
      (h : d.replaceText source = .ok (d', ids)) : ReachedBy takes through catalog d'

/-- A run that takes only some edits is a run. -/
theorem ReachedBy.reached {takes : Document → Edit → Prop} {through : Document → Prop}
    {catalog : Catalog} {d : Document} (h : ReachedBy takes through catalog d) :
    Reached catalog d := by
  induction h with
  | new _ => exact .new
  | ofText _ h => exact .ofText h
  | apply _ _ _ h ih => exact ih.apply h
  | replaceText _ _ h ih => exact ih.replaceText h

/-- A run that goes through some documents only has come to one of them. -/
theorem ReachedBy.goesThrough {takes : Document → Edit → Prop} {through : Document → Prop}
    {catalog : Catalog} {d : Document} (h : ReachedBy takes through catalog d) : through d := by
  cases h with
  | new ht => exact ht
  | ofText ht _ => exact ht
  | apply _ _ ht _ => exact ht
  | replaceText _ ht _ => exact ht

/-- A document that is made from a text has the tree of the text. -/
theorem root_of_ofText {catalog : Catalog} {source : Text} {storage : Storage} {d : Document}
    (h : ofText catalog source storage = .ok d) :
    Block.parse catalog source = .ok d.root ∧ d.catalog = catalog := by
  unfold ofText at h
  split at h
  · next root hparse =>
    cases h
    exact ⟨hparse, rfl⟩
  · cases h

/-- **Every document of a run** has a sound tree. -/
theorem Reached.grounded {catalog : Catalog} {d : Document} (h : Reached catalog d) :
    Grounded d.root := by
  induction h with
  | new => exact Block.grounded_instantiateRoot catalog
  | ofText h => exact Block.grounded_parse (root_of_ofText h).1
  | apply before h ih =>
    obtain ⟨landing, he, -⟩ := root_of_apply h
    exact Edit.grounded_apply ih he
  | replaceText before h ih =>
    obtain ⟨parsed, hparse, hroot, -⟩ := root_of_replaceText h
    rw [hroot]
    refine ⟨Block.all_sound_replaceContents (Block.grounded_parse hparse).tree, ?_, ?_⟩
    · exact ih.name
    · exact ih.path

/-- The catalog of a document stays the one that it started with. -/
theorem Reached.catalog_eq {catalog : Catalog} {d : Document} (h : Reached catalog d) :
    d.catalog = catalog := by
  induction h with
  | new => rfl
  | ofText h => exact (root_of_ofText h).2
  | apply _ h ih =>
    obtain ⟨_, -, hc, -⟩ := root_of_apply h
    exact hc.trans ih
  | replaceText _ h ih =>
    obtain ⟨_, -, -, hc⟩ := root_of_replaceText h
    exact hc.trans ih

/-- **A text that a document of a run takes** makes it the tree of the text: the root that stays is
that of every tree. -/
theorem Reached.parse_of_replaceText {catalog : Catalog} {d d' : Document} {source : Text}
    {ids : List Identity} (h : Reached catalog d) (hread : d.replaceText source = .ok (d', ids)) :
    Block.parse catalog source = .ok d'.root := by
  obtain ⟨parsed, hparse, hroot, -⟩ := root_of_replaceText hread
  have hground := Block.grounded_parse hparse
  rw [hroot, Block.replaceContents_eq_self hground.tree
    (h.grounded.name.trans hground.name.symm) (h.grounded.path.trans hground.path.symm),
    ← h.catalog_eq]
  exact hparse

/-- **The root of every document of a run** has no schema. -/
theorem Reached.schema_root {catalog : Catalog} {d : Document} (h : Reached catalog d) :
    d.root.info.schema = none := by
  induction h with
  | new => rfl
  | ofText h => exact (Block.parse_spec (root_of_ofText h).1).2
  | apply before h ih =>
    obtain ⟨landing, he, -⟩ := root_of_apply h
    rw [(Edit.effect_of_apply before.grounded.tree he).schema_root, ih]
  | replaceText before h ih =>
    obtain ⟨parsed, hparse, hroot, -⟩ := root_of_replaceText h
    rw [hroot]
    exact show parsed.info.schema = none from (Block.parse_spec hparse).2

/-- The document after edits that are all accepted, one after the other. -/
def edits (d : Document) : List Edit → Except DocumentError Document
  | [] => .ok d
  | e :: es =>
    match d.apply e with
    | .ok (d, _) => d.edits es
    | .error reason => .error reason

/-- The edits are all accepted, one after the other, and a run takes them and goes through the
documents between them. -/
def Follows (takes : Document → Edit → Prop) (through : Document → Prop) :
    Document → List Edit → Prop
  | _, [] => True
  | d, e :: es =>
    ∃ next ∈ (d.apply e).toOption, takes d e ∧ through next.1 ∧ Follows takes through next.1 es

instance Follows.decidable {takes : Document → Edit → Prop} {through : Document → Prop}
    [∀ d e, Decidable (takes d e)] [∀ d, Decidable (through d)] :
    ∀ (d : Document) (es : List Edit), Decidable (Follows takes through d es)
  | _, [] => isTrue trivial
  | d, e :: es =>
    have := fun d => @Follows.decidable takes through _ _ d es
    inferInstanceAs (Decidable (∃ next ∈ (d.apply e).toOption,
      takes d e ∧ through next.1 ∧ Follows takes through next.1 es))

/-- A run goes on with any number of edits that it takes. -/
theorem ReachedBy.edits {takes : Document → Edit → Prop} {through : Document → Prop}
    {catalog : Catalog} : ∀ (es : List Edit) {d d' : Document},
    ReachedBy takes through catalog d → Follows takes through d es → d.edits es = .ok d' →
      ReachedBy takes through catalog d'
  | [], d, d', hd, _, h => by
    cases h
    exact hd
  | e :: es, d, d', hd, hf, h => by
    rw [Document.edits] at h
    rw [Follows] at hf
    split at h
    · next d₁ r happly =>
      rw [happly] at hf
      obtain ⟨next, hnext, he, ht, hf⟩ := hf
      cases hnext
      exact ReachedBy.edits es (hd.apply he ht happly) hf h
    · cases h

/-- A run goes on with any number of edits that are accepted. -/
theorem Reached.edits {catalog : Catalog} : ∀ (es : List Edit) {d d' : Document},
    Reached catalog d → d.edits es = .ok d' → Reached catalog d'
  | [], d, d', hd, h => by
    cases h
    exact hd
  | e :: es, d, d', hd, h => by
    rw [Document.edits] at h
    split at h
    · next d₁ r happly => exact Reached.edits es (hd.apply happly) h
    · cases h

/-- What a check of a run and its last edit has found. -/
theorem exists_of_run {catalog : Catalog} {es : List Edit} {last : Edit}
    {P : Document → Document → Prop} [∀ d d', Decidable (P d d')]
    (h : (((new catalog).edits es).toOption.bind fun d =>
      (d.apply last).toOption.map fun next => decide (P d next.1)) = some true) :
    ∃ d d' r, Reached catalog d ∧ d.apply last = .ok (d', r) ∧ P d d' := by
  obtain ⟨d, hd, h⟩ := Option.bind_eq_some_iff.mp h
  obtain ⟨next, hnext, h⟩ := Option.map_eq_some_iff.mp h
  exact ⟨d, next.1, next.2, .edits es .new (eq_ok_of_toOption hd), eq_ok_of_toOption hnext,
    of_decide_eq_true h⟩

end Document

/-! ### What a sound tree means for a document -/

/-- The tree of a document hangs together. -/
structure Block.Consistent (root : Block) : Prop where
  /-- The path of every block below the root follows from its name, used or not. -/
  path : All (fun b => ∀ c ∈ b.children ++ b.unused, c.path = Path.join b.path c.name) root
  /-- A block is marked as part of the document exactly when its parent has it as one. -/
  included : All (fun b => ∀ c ∈ b.children ++ b.unused,
    c.info.included = true ↔ c ∈ b.children) root
  /-- An unused block has no children that are part of the document. -/
  leaf : All (fun b => ∀ c ∈ b.unused, c.children = []) root
  /-- No name is in both lists of a block. -/
  disjoint : All (fun b => ∀ n, ¬ (Named.has n b.children = true ∧ Named.has n b.unused = true)) root
  /-- A block has no subtype and no parameters of one, or a subtype that its schema declares. -/
  subtype : All (fun b => b.info.subtype = none ∧ b.info.subtypeParameters = [] ∨
    ∃ subtype, b.info.subtype = some subtype ∧ b.hasSubtype subtype = true) root
  /-- Every parameter, of the block, of its subtype or in its stash, has no value or one that its
  type leaves unchanged. -/
  fits : All (fun b =>
    ∀ s ∈ b.info.parameters ++ b.info.subtypeParameters ++ b.info.stash.flatMap Prod.snd,
      s.value = none ∨ ∃ v, s.value = some v ∧ v.conform s.type = .ok v) root
  /-- No two blocks of the document have the same path. -/
  nodup : (root.descendants.map Block.path).Nodup
  /-- Every block of the document is found at its path. -/
  find : ∀ b ∈ root.descendants, root.find? b.path = some b

namespace Document

/-- **The tree of every document of a run** hangs together. -/
theorem Reached.consistent {catalog : Catalog} {d : Document} (h : Reached catalog d) :
    d.root.Consistent := by
  have hroot := h.grounded
  have htree := hroot.tree
  refine ⟨htree.imp fun b hb => ?_, htree.imp fun b hb => ?_, htree.imp fun b hb => hb.leaf,
    htree.imp fun b hb => ?_, htree.imp fun b hb => ?_, htree.imp fun b hb => ?_,
    Block.nodup_paths htree, fun b hb => Block.find?_path htree hroot.path hb⟩
  · intro c hc
    rcases List.mem_append.mp hc with hc | hc
    · exact (hb.child c hc).path
    · exact (hb.unused c hc).path
  · intro c hc
    refine ⟨fun hi => ?_, fun hm => (hb.child c hm).included⟩
    rcases List.mem_append.mp hc with hc | hc
    · exact hc
    · rw [(hb.unused c hc).included] at hi
      cases hi
  · rintro n ⟨hc, hu⟩
    exact Block.not_mem_unused_of_mem_children hb (Named.has_iff.mp hc) (Named.has_iff.mp hu)
  · rcases hb.info.subtype with hnone | ⟨schema, subtype, hschema, hsubtype, hdeclared⟩
    · exact Or.inl hnone
    · refine Or.inr ⟨subtype, hsubtype, ?_⟩
      rw [Block.hasSubtype, Block.subtypeSchema?, hschema, Option.bind_some]
      exact hdeclared
  · intro s hs
    have hfits : s.Fits := by
      rcases List.mem_append.mp hs with hs | hs
      · rcases List.mem_append.mp hs with hs | hs
        · exact hb.info.own s hs
        · exact hb.info.live s hs
      · obtain ⟨entry, hentry, hs⟩ := List.mem_flatMap.mp hs
        exact hb.info.stashed entry hentry s hs
    rcases hv : s.value with _ | v
    · exact Or.inl rfl
    · exact Or.inr ⟨v, rfl, hfits v hv⟩

/-- A catalog with one block `/A` that has a subtype `s` with a number `x`. -/
def sampleCatalog : Catalog where
  entries := [("/A".toList,
    { subtypes := [("s".toList,
        { parameters := [{ name := "x".toList, basicType := "Integer".toList }] })] })]

/-- A run that adds a block with a subtype and a value, and another block that gets a new name. -/
theorem Reached.consistent_sample : ∃ d, Reached sampleCatalog d ∧
    d.root.paths = ["/A".toList, "/c".toList] ∧ d.root.Consistent := by
  let steps : List Edit :=
    [.addChild "/".toList (some "A".toList) (some "s".toList),
      .setText "/A".toList "x".toList "5".toList, .addChild "/".toList (some "b".toList) none,
      .rename "/b".toList "c".toList]
  have hrun : ((Document.new sampleCatalog).edits steps).toOption.map (fun d => d.root.paths) =
      some ["/A".toList, "/c".toList] := by decide +kernel
  rcases hd : (Document.new sampleCatalog).edits steps with e | d
  · rw [hd] at hrun
    cases hrun
  · rw [hd] at hrun
    have hreached : Reached sampleCatalog d := .edits steps .new hd
    exact ⟨d, hreached, Option.some.inj hrun, hreached.consistent⟩

end Document

end BlockEdit
