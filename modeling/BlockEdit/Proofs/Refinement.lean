import BlockEdit.Proofs.BlockEntries
import BlockEdit.Proofs.FlatView

/-!
# Edits of the flat view

An edit changes a tree of blocks with two lists of children each. Whoever looks at the snapshot of
the document sees an operation on a flat map: one value or one comment is put, the entries at and
below a path go or move, one entry comes, or one entry changes in a switch.

There is one more thing that a switch can do to its entry. When it brings back a parameter from the
stash whose name a parameter of the block has come to have, the entry shows the one that came back:
the switch masks the other one.

Main statements:

* **`Edit.refines_of_apply`**: an edit whose target is canonical is an operation on the flat view.
* **`Edit.keepsOwn_iff`**: a switch keeps the values of the block's own parameters, apart from its
  `type`, exactly when it masks none.
* **`Document.Reached.refines_apply`**: so it is in every document of a run in which no name stands
  for two parameters of a block.
-/

namespace BlockEdit

namespace Edit

open Block (All Sound Grounded Throughout)
open BlockInfo (Mapped)
open Snapshot (ofBlock)

/-! ### What edits do to the flat view -/

/-- Only the entry at the path changes, and the subtype in it is the one that was asked for. -/
def Switches (path subtype : Text) (before after : Snapshot) : Prop :=
  ∃ old ∈ before.find? path, ∃ new : BlockSnapshot, new.subtype = some subtype ∧
    after = before.insert path new

/-- Only the value of the parameter changes: it is the one that the check gives. A parameter that
selects the subtype switches it. -/
def Sets (root : Block) (path parameter subtype : Text) (check : Slot → Except ValueError Value)
    (before after : Snapshot) : Prop :=
  ∃ b ∈ root.find? path,
    if selectsSubtype b parameter then Switches path subtype before after
    else ∃ s ∈ b.parameter? parameter, ∃ v, check s = .ok v ∧ ∃ old ∈ before.find? path,
      after = before.insert path (old.setValue parameter (some v))

/-- **What an edit is for the flat view** of the document, given the path that it returns. -/
def Refines (root : Block) (landed : Text) (before after : Snapshot) : Edit → Prop
  | addChild _ _ _ => before.find? landed = none ∧ ∃ new, after = before.insert landed new
  | remove path => after = before.eraseWithin path ∧ (root.find? path = none → after = before)
  | rename path newName =>
    ∃ parent ∈ Path.parent? path, landed = Path.join parent newName ∧
      (∀ p ∈ before.keys, Path.isWithin landed p = true → Path.isWithin path p = true) ∧
      after = before.moveWithin path landed
  | setSubtype path subtype => Switches path subtype before after
  | setValue path parameter value =>
    Sets root path parameter (value.string?.getD []) (fun s => s.checkValue value) before after
  | setText path parameter text =>
    Sets root path parameter (Text.trim text) (fun s => s.checkText text) before after
  | addParameter path name value =>
    ∃ old ∈ before.find? path, old.values.find? name = none ∧
      after = before.insert path (old.setValue name (some (Value.ofText value)))
  | setComment path parameter comment =>
    ∃ old ∈ before.find? path, after = before.insert path (old.setComment parameter comment)

/-- An edit that switches the subtype of a block keeps the values of the block's own parameters,
apart from its `type`. -/
def KeepsOwn (root : Block) (before after : Snapshot) (e : Edit) : Prop :=
  ∀ b ∈ root.find? e.target, (e.selected? b).isSome = true →
    ∀ n ∈ Named.names b.info.parameters, n ≠ Slot.typeName →
      (after.find? e.target).map (fun s => s.values.find? n) =
        (before.find? e.target).map fun s => s.values.find? n

instance (root : Block) (before after : Snapshot) (e : Edit) :
    Decidable (e.KeepsOwn root before after) :=
  inferInstanceAs (Decidable (∀ b ∈ root.find? e.target, (e.selected? b).isSome = true →
    ∀ n ∈ Named.names b.info.parameters, n ≠ Slot.typeName →
      (after.find? e.target).map (fun s => s.values.find? n) =
        (before.find? e.target).map fun s => s.values.find? n))

/-- The edit is a switch that masks a parameter of its target. -/
def Masks (root : Block) (e : Edit) : Prop :=
  ∃ b ∈ root.find? e.target, ∃ subtype ∈ e.selected? b, b.Masks subtype

instance (root : Block) (e : Edit) : Decidable (e.Masks root) :=
  inferInstanceAs (Decidable (∃ b ∈ root.find? e.target, ∃ subtype ∈ e.selected? b,
    b.Masks subtype))

variable {root root' b c : Block} {catalog : Catalog} {e : Edit} {landing : Landing} {path : Text}

/-! ### Canonical targets -/

/-- A canonical path is the path of the block that is found there. -/
theorem eq_path_of_isCanonical (h : Grounded root) (hp : Path.IsCanonical path)
    (hb : root.find? path = some b) : path = b.path :=
  hp.trans (Block.path_eq_ofNames h hb).symm

/-- A canonical path below the root is a name that is joined to the path of its parent. -/
theorem eq_join_of_isCanonical (h : Grounded root) (hp : Path.IsCanonical path) {parent n : Text}
    (hsplit : splitPath path = .ok (parent, n)) (hb : root.find? parent = some b) :
    path = Path.join b.path n ∧ Path.IsSegment n := by
  have hsegments := segments_of_splitPath hsplit
  have hmem : n ∈ Path.segments path := by
    rw [hsegments]
    exact List.mem_append_right _ List.mem_cons_self
  refine ⟨?_, Path.isSegment_of_mem_segments hmem⟩
  rw [Block.join_eq_ofNames h hb, ← hsegments]
  exact hp

/-- What a snapshot has of the block at a canonical path. -/
theorem find?_ofBlock (h : Grounded root) (hp : Path.IsCanonical path)
    (hb : root.find? path = some b) :
    (ofBlock root).find? path = some (BlockSnapshot.ofBlock b) := by
  have hfind := (Snapshot.shows_ofBlock h).find?_ofNames (Block.isSegment_of_descend? h.tree hb)
  rw [← hp, Block.entryAt, show root.descend? (Path.segments path) = some b from hb] at hfind
  exact hfind

/-- No name stands for two parameters of a block that is found. -/
theorem nodup_parameters (hm : Throughout Mapped root) (hapart : ∀ b ∈ root.descendants, b.Apart)
    (hb : root.find? path = some b) : (Named.names b.allParameters).Nodup := by
  have hmem := Block.mem_descendants_of_descend? _ hb
  exact Block.nodup_allParameters (All.descendant hm hmem).here (hapart b hmem)

/-! ### One kind of edits at a time -/

/-- **A child that is attached** is one more entry. -/
theorem refines_attach (h : Grounded root) (h' : Grounded (root.set path (b.attach c)))
    (hb : root.find? path = some b) (hfree : c.name ∉ Named.names b.children)
    (hleaf : c.children = []) (hc : Path.IsSegment c.name) :
    (ofBlock root).find? (Path.join b.path c.name) = none ∧
      ∃ new, ofBlock (root.set path (b.attach c)) =
        (ofBlock root).insert (Path.join b.path c.name) new :=
  (Snapshot.ofBlock_set_attach h h' hb hfree hleaf hc).imp_right fun heq => ⟨_, heq⟩

/-- An added child is one more entry of the view, under a path that had none. -/
theorem refines_of_addChild {name subtype : Option Text} (h : Grounded root)
    (h' : Grounded root') (he : Effect root catalog (.addChild path name subtype) root' landing) :
    (addChild path name subtype).Refines root landing.path (ofBlock root) (ofBlock root') := by
  cases he with
  | @included path n subtype b c hb hn hc =>
    obtain ⟨hmem, hname⟩ := Named.find?_eq_some hc
    have hsound := (Block.all_sound_of_find? h.tree hb).here
    have hplaced := hsound.unused c hmem
    have hretouch := retouch_elim_switchSubtype (c.mark true) subtype
    have hsame : (subtype.elim (c.mark true) (c.mark true).switchSubtype).name = c.name :=
      hretouch.place.name
    have hfree := Block.not_mem_children_of_mem_unused hsound hmem
    have hnew := refines_attach h h' hb (hsame ▸ hfree)
      (hretouch.children.trans (hsound.leaf c hmem)) (hsame ▸ hplaced.segment)
    rw [hsame, ← hplaced.path] at hnew
    exact hnew
  | @added path n name subtype b hb hn hfree =>
    have hname := name_added catalog b.path n subtype
    have hnot := (Block.hasChild_eq_false_iff.mp hfree).1
    have hnew := refines_attach h h' hb (hname.symm ▸ hnot)
      (retouch_elim_switchSubtype (Block.instantiate catalog b.path n) subtype).children
      (hname.symm ▸ (isHeaderName_of_isName hn).isSegment)
    rw [hname] at hnew
    exact hnew
  | switched hb hselected hc => cases hselected
  | updated hb hchanged hselected hkeeps hfits => cases hchanged

/-- A removed block takes the entries at and below its path out of the view, and nothing else
changes. -/
theorem refines_of_remove (h : Grounded root) (h' : Grounded root')
    (hp : Path.IsCanonical path) (he : Effect root catalog (.remove path) root' landing) :
    (remove path).Refines root landing.path (ofBlock root) (ofBlock root') := by
  cases he with
  | @removed path parent n b c hsplit hb hc =>
    obtain ⟨htarget, hn⟩ := eq_join_of_isCanonical h hp hsplit hb
    have hfound : root.find? path = some c := by
      rw [Block.find?, segments_of_splitPath hsplit, Block.descend?_append,
        show root.descend? (Path.segments parent) = some b from hb, Option.bind_some,
        Block.descend?, show Named.find? n b.children = some c from hc]
      rfl
    refine ⟨?_, fun hnone => ?_⟩
    · rw [htarget]
      exact Snapshot.ofBlock_set_withdraw catalog h h' hb hn
    · rw [hfound] at hnone
      cases hnone
  | @dropped path parent n b c hsplit hb hc =>
    obtain ⟨htarget, hn⟩ := eq_join_of_isCanonical h hp hsplit hb
    have hsame := Snapshot.ofBlock_set_offer h h' hb
    have hnot : n ∉ Named.names b.children := Named.name_of_find? hc ▸
      Block.not_mem_children_of_mem_unused (Block.all_sound_of_find? h.tree hb).here
        (Named.mem_of_find? hc)
    refine ⟨?_, fun _ => hsame⟩
    rw [htarget, Snapshot.eraseWithin_of_unused h hb hn hnot]
    exact hsame
  | switched hb hselected hc => cases hselected
  | updated hb hchanged hselected hkeeps hfits => cases hchanged

/-- A renamed block moves the entries at and below its path to the new one. -/
theorem refines_of_rename {newName : Text} (h : Grounded root) (h' : Grounded root')
    (hp : Path.IsCanonical path) (he : Effect root catalog (.rename path newName) root' landing) :
    (rename path newName).Refines root landing.path (ofBlock root) (ofBlock root') := by
  cases he with
  | @renamed path parent n newName b b' hsplit hb hn hfree hb' =>
    obtain ⟨rfl, hsegment⟩ := eq_join_of_isCanonical h hp hsplit hb
    have hparent := Block.path_ne_nil h (Block.mem_descendants_of_descend? _ hb)
    rw [splitPath_join hparent hsegment] at hsplit
    cases hsplit
    obtain ⟨hclear, hmoved⟩ := Snapshot.ofBlock_set_renameChild? h h' hb hsegment
      (isHeaderName_of_isName hn).isSegment hfree hb'
    exact ⟨b.path, Path.parent?_join hparent hsegment, rfl, hclear, hmoved⟩
  | switched hb hselected hc => cases hselected
  | updated hb hchanged hselected hkeeps hfits => cases hchanged

/-- **A block that is retouched** at a canonical path is another entry there. -/
theorem snapshot_set_of_retouch (h : Grounded root) (hp : Path.IsCanonical path)
    (hb : root.find? path = some b) (hr : b.Retouch c) (h' : Grounded (root.set path c))
    {new : BlockSnapshot} (hnew : BlockSnapshot.ofBlock c = new) :
    ofBlock (root.set path c) = (ofBlock root).insert path new := by
  rw [Snapshot.ofBlock_set_of_retouch h h' hb hr, ← eq_path_of_isCanonical h hp hb, hnew]

/-- **An edit that selects a subtype** is another entry with this subtype. -/
theorem switches_of_effect {subtype : Text} (h : Grounded root) (h' : Grounded root')
    (hp : Path.IsCanonical e.target) (hb : root.find? e.target = some b)
    (hselected : e.selected? b = some subtype) (he : Effect root catalog e root' landing) :
    Switches e.target subtype (ofBlock root) (ofBlock root') := by
  obtain ⟨c, hc, rfl⟩ := he.exists_switchSubtype? hb hselected
  exact ⟨_, find?_ofBlock h hp hb, BlockSnapshot.ofBlock c, Block.subtype_of_switchSubtype? hc,
    snapshot_set_of_retouch h hp hb (Block.retouch_switchSubtype? hc) h' rfl⟩

/-- **A value that is set** is another value in the entry of its block. -/
theorem sets_of_applySet {parameter subtype : Text} {read check : Slot → Except ValueError Value}
    (h : Grounded root) (h' : Grounded root') (hm : Throughout Mapped root)
    (hapart : ∀ b ∈ root.descendants, b.Apart) (hp : Path.IsCanonical e.target)
    (hselected : ∀ b, e.selected? b = if selectsSubtype b parameter then some subtype else none)
    (hread : ∀ {s t : Slot} {v : Value}, read s = .ok v → s.setValue v = .ok t →
      ∃ w, check s = .ok w ∧ t = s.give (some w))
    (he : Effect root catalog e root' landing)
    (happly : applySet root e.target parameter subtype read = .ok (root', landing)) :
    Sets root e.target parameter subtype check (ofBlock root) (ofBlock root') := by
  obtain ⟨b, hb, -⟩ := Except.exists_of_bind_eq_ok happly
  have hfind := find?_of_block hb
  refine ⟨b, hfind, ?_⟩
  split
  · next hselects =>
    exact switches_of_effect h h' hp hfind ((hselected b).trans (if_pos hselects)) he
  · next hselects =>
    obtain ⟨s, v, t, hs, hv, hset, rfl, -⟩ := exists_of_applySet hb hselects happly
    obtain ⟨w, hw, rfl⟩ := hread hv hset
    have hnodup := nodup_parameters hm hapart hfind
    exact ⟨s, hs, w, hw, _, find?_ofBlock h hp hfind, snapshot_set_of_retouch h hp hfind
      (Block.retouch_updateParameter fun _ _ _ => Slot.fits_setValue hset) h'
      (Block.snapshot_setValue hnodup hs rfl rfl)⟩

/-- An added parameter is one more value of one entry. -/
theorem refines_of_addParameter {name value : Text} (h : Grounded root) (h' : Grounded root')
    (hm : Throughout Mapped root) (hapart : ∀ b ∈ root.descendants, b.Apart)
    (hp : Path.IsCanonical path)
    (he : Effect root catalog (.addParameter path name value) root' landing) :
    (addParameter path name value).Refines root landing.path (ofBlock root) (ofBlock root') := by
  cases he with
  | @extended path name value b hb hn hvalue hfree =>
    have hnodup := nodup_parameters hm hapart hb
    refine ⟨_, find?_ofBlock h hp hb, ?_, ?_⟩
    · rw [Block.find?_values_of_apart hnodup, hfree, Option.map_none]
    · exact snapshot_set_of_retouch h hp hb (Block.retouch_addParameter (Slot.fits_user name value))
        h' (Block.snapshot_addParameter (s := Slot.user name value) hnodup hfree rfl)
  | switched hb hselected hc => cases hselected
  | updated hb hchanged hselected hkeeps hfits => cases hchanged

/-- A comment changes one comment of one entry. -/
theorem refines_of_setComment {parameter comment : Text} (h : Grounded root)
    (h' : Grounded root') (hm : Throughout Mapped root)
    (hapart : ∀ b ∈ root.descendants, b.Apart) (hp : Path.IsCanonical path)
    (happly : applySetComment root path parameter comment = .ok (root', landing)) :
    (setComment path parameter comment).Refines root landing.path (ofBlock root)
      (ofBlock root') := by
  obtain ⟨b, hb, happly⟩ := Except.exists_of_bind_eq_ok happly
  obtain ⟨s, hs, happly⟩ := Except.exists_of_bind_eq_ok happly
  cases happly
  have hfind := find?_of_block hb
  exact ⟨_, find?_ofBlock h hp hfind, snapshot_set_of_retouch h hp hfind
    (Block.retouch_updateParameter fun hi t ht =>
      Slot.fits_comments (Block.fits_of_parameter? hi ht) comment) h'
    (Block.snapshot_setComment (nodup_parameters hm hapart hfind) (parameter?_of_slot hs) comment)⟩

/-- **An edit whose target is canonical** is an operation on the flat view, where no name stands for
two parameters of a block. -/
theorem refines_of_apply (h : Grounded root) (hm : Throughout Mapped root)
    (hapart : ∀ b ∈ root.descendants, b.Apart) (hp : Path.IsCanonical e.target)
    (happly : e.apply root catalog = .ok (root', landing)) :
    e.Refines root landing.path (ofBlock root) (ofBlock root') := by
  have h' := grounded_apply h happly
  have he := effect_of_apply h.tree happly
  obtain ⟨_, hcheck, happly⟩ := Except.exists_of_bind_eq_ok happly
  cases e with
  | addChild path name subtype => exact refines_of_addChild h h' he
  | remove path => exact refines_of_remove h h' hp he
  | rename path newName => exact refines_of_rename h h' hp he
  | setSubtype path subtype =>
    obtain ⟨b, hb, -⟩ := Except.exists_of_bind_eq_ok happly
    exact switches_of_effect h h' hp (find?_of_block hb) rfl he
  | setValue path parameter value =>
    refine sets_of_applySet h h' hm hapart hp (fun _ => rfl) (fun hv hset => ?_) he happly
    cases hv
    exact Slot.value_setValue hset
  | setText path parameter text =>
    refine sets_of_applySet h h' hm hapart hp (fun _ => rfl) (fun hv hset => ?_) he happly
    rw [Slot.setValue_of_checkText hv] at hset
    cases hset
    exact ⟨_, hv, rfl⟩
  | addParameter path name value => exact refines_of_addParameter h h' hm hapart hp he
  | setComment path parameter comment => exact refines_of_setComment h h' hm hapart hp happly

/-- **A switch keeps the values of the block's own parameters**, apart from its `type`, exactly when
it masks none. -/
theorem keepsOwn_iff (h : Grounded root) (hm : Throughout Mapped root)
    (hapart : ∀ b ∈ root.descendants, b.Apart) (hp : Path.IsCanonical e.target)
    (happly : e.apply root catalog = .ok (root', landing)) :
    e.KeepsOwn root (ofBlock root) (ofBlock root') ↔ ¬ e.Masks root := by
  have h' := grounded_apply h happly
  have he := effect_of_apply h.tree happly
  -- For a switch of a block this is what the switch does to the entry of the block.
  have hswitch : ∀ {b : Block} {subtype : Text}, root.find? e.target = some b →
      e.selected? b = some subtype →
        ((∀ n ∈ Named.names b.info.parameters, n ≠ Slot.typeName →
          ((ofBlock root').find? e.target).map (fun s => s.values.find? n) =
            ((ofBlock root).find? e.target).map fun s => s.values.find? n) ↔
          ¬ b.Masks subtype) := by
    intro b subtype hb hselected
    have hmem := Block.mem_descendants_of_descend? _ hb
    obtain ⟨c, hc, rfl⟩ := he.exists_switchSubtype? hb hselected
    have hplace := (Block.retouch_switchSubtype? hc).place
    rw [find?_ofBlock h hp hb, find?_ofBlock h' hp (Block.find?_set hb hplace.name),
      ← Block.value_switchSubtype? (All.descendant hm hmem).here (hapart b hmem) hc]
    simp only [Option.map_some, Option.some.injEq]
  constructor
  · rintro hkeeps ⟨b, hb, subtype, hselected, hmasks⟩
    exact (hswitch hb hselected).mp
      (hkeeps b hb (by rw [show e.selected? b = some subtype from hselected]; rfl)) hmasks
  · intro hnot b hb hsome
    obtain ⟨subtype, hselected⟩ := Option.isSome_iff_exists.mp hsome
    exact (hswitch hb hselected).mpr fun hmasks => hnot ⟨b, hb, subtype, hselected, hmasks⟩

end Edit

/-! ### Runs -/

namespace Document

/-- **In every document of a run in which no name stands for two parameters of a block**, an edit
with a canonical target is an operation on the flat view of the document; and when it switches the
subtype of a block, the values of the block's own parameters stay as they are in the flat view,
apart from its `type`, exactly when the switch masks none of them. -/
theorem Reached.refines_apply {catalog : Catalog} {d d' : Document} {e : Edit} {r : EditResult}
    (h : Reached catalog d) (hapart : ∀ b ∈ d.root.descendants, b.Apart)
    (hp : Path.IsCanonical e.target) (happly : d.apply e = .ok (d', r)) :
    e.Refines d.root r.path (Snapshot.ofBlock d.root) (Snapshot.ofBlock d'.root) ∧
      (e.KeepsOwn d.root (Snapshot.ofBlock d.root) (Snapshot.ofBlock d'.root) ↔
        ¬ e.Masks d.root) := by
  obtain ⟨landing, he, -, hpath⟩ := root_of_apply happly
  rw [hpath]
  exact ⟨Edit.refines_of_apply h.grounded h.mapped hapart hp he,
    Edit.keepsOwn_iff h.grounded h.mapped hapart hp he⟩

/-- A switch back to a subtype, after a parameter was added whose name is not in the stash. -/
theorem Reached.refines_apply_sample : ∃ d d' r, Reached stashCatalog d ∧
    d.apply (.setSubtype "/A".toList "s".toList) = .ok (d', r) ∧
      (Edit.setSubtype "/A".toList "s".toList).Refines d.root r.path (Snapshot.ofBlock d.root)
        (Snapshot.ofBlock d'.root) ∧
      (Edit.setSubtype "/A".toList "s".toList).KeepsOwn d.root (Snapshot.ofBlock d.root)
        (Snapshot.ofBlock d'.root) := by
  let steps : List Edit := [.addChild "/".toList (some "A".toList) (some "s".toList),
    .setText "/A".toList "n".toList "1".toList, .setSubtype "/A".toList "t".toList,
    .addParameter "/A".toList "m".toList "2".toList]
  let last : Edit := .setSubtype "/A".toList "s".toList
  have hrun : (((Document.new stashCatalog).edits steps).toOption.bind fun d =>
      (d.apply last).toOption.map fun _ =>
        decide ((∀ b ∈ d.root.descendants, b.Apart) ∧ ¬ last.Masks d.root)) = some true := by
    decide +kernel
  obtain ⟨d, d', r, hreached, happly, hapart, hmasks⟩ := exists_of_run
    (P := fun d _ => (∀ b ∈ d.root.descendants, b.Apart) ∧ ¬ last.Masks d.root) hrun
  have hcanon : Path.IsCanonical last.target := by decide +kernel
  obtain ⟨hrefines, hkeeps⟩ := Reached.refines_apply hreached hapart hcanon happly
  exact ⟨d, d', r, hreached, happly, hrefines, hkeeps.mpr hmasks⟩

/-- **A switch can mask a parameter** of a block in which no name stands for two: the parameter `n`
that was added has another value in the flat view when the one of the subtype comes back. -/
theorem not_keepsOwn_stash : ∃ d d' r, Reached stashCatalog d ∧
    (∀ b ∈ d.root.descendants, b.Apart) ∧
      d.apply (.setSubtype "/A".toList "s".toList) = .ok (d', r) ∧
      ¬ (Edit.setSubtype "/A".toList "s".toList).KeepsOwn d.root (Snapshot.ofBlock d.root)
        (Snapshot.ofBlock d'.root) := by
  let steps : List Edit := [.addChild "/".toList (some "A".toList) (some "s".toList),
    .setText "/A".toList "n".toList "1".toList, .setSubtype "/A".toList "t".toList,
    .addParameter "/A".toList "n".toList "2".toList]
  let last : Edit := .setSubtype "/A".toList "s".toList
  have hrun : (((Document.new stashCatalog).edits steps).toOption.bind fun d =>
      (d.apply last).toOption.map fun next =>
        decide ((∀ b ∈ d.root.descendants, b.Apart) ∧ ¬ last.KeepsOwn d.root
          (Snapshot.ofBlock d.root) (Snapshot.ofBlock next.1.root))) = some true := by
    decide +kernel
  obtain ⟨d, d', r, hreached, happly, hapart, hkeeps⟩ := exists_of_run
    (P := fun d d' => (∀ b ∈ d.root.descendants, b.Apart) ∧ ¬ last.KeepsOwn d.root
      (Snapshot.ofBlock d.root) (Snapshot.ofBlock d'.root)) hrun
  exact ⟨d, d', r, hreached, hapart, happly, hkeeps⟩

end Document

end BlockEdit
