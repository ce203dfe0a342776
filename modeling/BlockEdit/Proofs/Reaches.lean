import BlockEdit.Proofs.Frames

/-!
# What an edit reaches

An edit whose target is spelled as the path of a block is reaches one subtree of the document, when
it is an edit of blocks: it tells the path of this subtree before and after, and its names lead to
the same blocks as before everywhere else. Every other edit changes only what one block knows.

Main statements:

* **`Edit.Exact.path_of_find?`**, **`Edit.Exact.eq_join`**: such a target is the path of the block
  that is found there, and splits into the path of the parent and a name.
* **`Edit.Effect.reaches_or_keeps`**: an edit of blocks reaches a subtree, and every other edit
  keeps them.
-/

namespace BlockEdit

/-- The path of a block below the root that is written from these names. -/
structure Path.SpelledBy (path : Text) (ns : List Text) : Prop where
  /-- There is a name. -/
  below : ns ≠ []
  /-- The names can stand between slashes. -/
  segment : ∀ n ∈ ns, IsSegment n
  /-- The path has a slash before each name. -/
  eq : path = ofSegments ns

namespace Edit

open Block (Grounded All Sound Shift)

/-- Where the names lead after the edit that led to a block before it. -/
def moves : Edit → List Text → List Text
  | rename path newName, ns =>
    if Path.segments path <+: ns then
      (Path.segments path).dropLast ++ newName :: ns.drop (Path.segments path).length
    else ns
  | _, ns => ns

/-- The target of the edit is spelled as the path of a block is, one of the document or one that is
offered. -/
def Exact (root : Block) (e : Edit) : Prop :=
  ∃ b ∈ root.descendants, ∃ c ∈ b :: b.unused, e.target = c.path

instance (root : Block) (e : Edit) : Decidable (e.Exact root) :=
  inferInstanceAs (Decidable (∃ b ∈ root.descendants, ∃ c ∈ b :: b.unused, e.target = c.path))

/-- The edit reaches the subtree at the old path, and leaves what it makes of it at the new one. -/
structure Reaches (e : Edit) (root root' : Block) (oldPath newPath : Text) (os ns : List Text) :
    Prop where
  /-- The old path is written from names. -/
  old : Path.SpelledBy oldPath os
  /-- So is the new path. -/
  new : Path.SpelledBy newPath ns
  /-- The trees differ only there. -/
  shift : Shift root root' os ns
  /-- What was below the old path is below the new one. -/
  moved : ∀ k, e.moves (os ++ k) = ns ++ k
  /-- Everything else is where it was. -/
  stays : ∀ ms, ¬ os <+: ms → e.moves ms = ms
  /-- A block that was there is the target. -/
  target : root.coreAt os = none ∨ Path.segments e.target = os

variable {root root' b : Block} {catalog : Catalog} {landing : Landing} {e : Edit}

/-- No edit moves a block to the root. -/
theorem moves_ne_nil (e : Edit) {ns : List Text} (h : ns ≠ []) : e.moves ns ≠ [] := by
  cases e with
  | rename path newName =>
    rw [moves]
    split
    · exact fun hnil => by cases (List.append_eq_nil_iff.mp hnil).2
    · exact h
  | _ => exact h

/-! ### Targets that are spelled as paths are -/

/-- The target of an exact edit is the root, or a name that is joined to the path of a block. -/
theorem Exact.cases (h : Grounded root) (he : e.Exact root) :
    e.target = Path.root ∨ ∃ b ∈ root.descendants, ∃ n, Path.IsSegment n ∧
      e.target = Path.join b.path n := by
  obtain ⟨b, hb, c, hc, htarget⟩ := he
  rw [htarget]
  rcases List.mem_cons.mp hc with rfl | hc
  · obtain ⟨ns, hns, -⟩ := Block.exists_descend? h.tree hb
    rcases List.eq_nil_or_concat ns with rfl | ⟨ms, n, rfl⟩
    · cases hns
      exact Or.inl h.path
    · rw [List.concat_eq_append, Block.descend?_append] at hns
      obtain ⟨p, hp, hns⟩ := Option.bind_eq_some_iff.mp hns
      rw [Block.descend?] at hns
      obtain ⟨d, hd, hns⟩ := Option.bind_eq_some_iff.mp hns
      cases hns
      have hp := Block.mem_descendants_of_descend? _ hp
      have hplaced := (h.tree.descendant hp).here.child c (Named.mem_of_find? hd)
      exact Or.inr ⟨p, hp, c.name, hplaced.segment, hplaced.path⟩
  · have hplaced := (h.tree.descendant hb).here.unused c hc
    exact Or.inr ⟨b, hb, c.name, hplaced.segment, hplaced.path⟩

/-- **The target of an exact edit** is the path of the block that is found there. -/
theorem Exact.path_of_find? (h : Grounded root) (he : e.Exact root)
    (hb : root.find? e.target = some b) : e.target = b.path := by
  rcases he.cases h with htarget | ⟨p, hp, n, hn, htarget⟩
  · rw [htarget] at hb ⊢
    cases hb
    exact h.path.symm
  · obtain ⟨ns, hns, -⟩ := Block.exists_descend? h.tree hp
    have hjoin := Block.join_of_descend? h ns hns n
    have hsegments : Path.segments e.target = ns ++ [n] := by
      rw [htarget, hjoin, Path.segments_ofSegments (Block.isSegment_of_mem_concat h.tree hns hn)]
    rw [Block.find?, hsegments] at hb
    rw [Block.path_of_descend? h hb (by simp), htarget, hjoin]

/-- **The target of an exact edit** splits into the path of a block and a name. -/
theorem Exact.eq_join (h : Grounded root) (he : e.Exact root) {parent n : Text}
    (hsplit : splitPath e.target = .ok (parent, n)) (hb : root.find? parent = some b) :
    parent = b.path ∧ Path.IsSegment n ∧ e.target = Path.join b.path n := by
  rcases he.cases h with htarget | ⟨p, hp, m, hm, htarget⟩
  · rw [htarget] at hsplit
    cases hsplit
  · rw [htarget, splitPath_join (Block.path_ne_nil h hp) hm] at hsplit
    cases hsplit
    rw [Block.find?_path h.tree h.path hp] at hb
    cases hb
    exact ⟨rfl, hm, htarget⟩

/-! ### What an edit reaches -/

/-- A name that is joined to the path of a block spells the way there. -/
theorem spelledBy_join (h : Grounded root) {ps : List Text} (hb : root.descend? ps = some b)
    {n : Text} (hn : Path.IsSegment n) : Path.SpelledBy (Path.join b.path n) (ps ++ [n]) :=
  ⟨by simp, Block.isSegment_of_mem_concat h.tree hb hn, Block.join_of_descend? h ps hb n⟩

/-- **An edit that keeps all names** reaches the child that it changes. -/
theorem reaches_of_child (h : Grounded root) {path n : Text} {c : Block}
    (hb : root.find? path = some b) (hn : Path.IsSegment n) (hc : c.name = b.name)
    (hshift : Shift b c [n] [n]) (hmoves : ∀ ms, e.moves ms = ms)
    (htarget : Named.find? n b.children = none ∨ e.target = Path.join b.path n) :
    ∃ os ns, e.Reaches root (root.set path c) (Path.join b.path n) (Path.join b.path n) os ns := by
  have hspelled := spelledBy_join h hb hn
  refine ⟨_, _, hspelled, hspelled, hshift.replaceAt hc hb, fun k => hmoves _,
    fun ms _ => hmoves ms, htarget.imp (fun hnone => ?_) fun htarget => ?_⟩
  · rw [Block.coreAt_append hb, Block.coreAt_cons, hnone, Option.bind_none]
  · rw [htarget, hspelled.eq, Path.segments_ofSegments hspelled.segment]

/-- **A block that gets another name** takes everything below it along. -/
theorem reaches_of_rename (h : Grounded root) {parent n newName : Text} {b' : Block}
    (hb : root.find? parent = some b) (hn : Path.IsSegment n) (hnew : Path.IsSegment newName)
    (hname : b'.name = b.name) (hshift : Shift b b' [n] [newName]) :
    ∃ os ns, (rename (Path.join b.path n) newName).Reaches root (root.set parent b')
      (Path.join b.path n) (Path.join b.path newName) os ns := by
  have hspelled := spelledBy_join h hb hn
  have hsegments : Path.segments (Path.join b.path n) = Path.segments parent ++ [n] := by
    rw [hspelled.eq, Path.segments_ofSegments hspelled.segment]
  refine ⟨_, _, hspelled, spelledBy_join h hb hnew, hshift.replaceAt hname hb, fun k => ?_,
    fun ms hms => ?_, Or.inr hsegments⟩
  · rw [moves, hsegments, if_pos (List.prefix_append _ k), List.dropLast_concat,
      List.drop_left, List.append_assoc]
    rfl
  · rw [moves, hsegments, if_neg hms]

/-- **A block that gets another subtype** is the only one that is reached. -/
theorem reaches_of_retouch (h : Grounded root) (he : e.Exact root) {c : Block}
    (hb : root.find? e.target = some b) (hbelow : b ≠ root) (hc : b.Retouch c)
    (hmoves : ∀ ms, e.moves ms = ms) :
    ∃ os ns, e.Reaches root (root.set e.target c) e.target e.target os ns := by
  have hspelled : Path.SpelledBy e.target (Path.segments e.target) := by
    have hne : Path.segments e.target ≠ [] := by
      intro hnil
      rw [Block.find?, hnil] at hb
      cases hb
      exact hbelow rfl
    refine ⟨hne, Block.isSegment_of_descend? h.tree hb, ?_⟩
    rw [← Block.path_of_descend? h hb hne]
    exact he.path_of_find? h hb
  have hshift := (Block.shift_of_retouch hc).replaceAt hc.place.name hb
  rw [List.append_nil] at hshift
  exact ⟨_, _, hspelled, hspelled, hshift, fun k => hmoves _, fun ms _ => hmoves ms, Or.inr rfl⟩

/-- The edit changes only what its target knows, and not the subtype. -/
structure Keeps (e : Edit) (root root' : Block) : Prop where
  /-- All names lead where they led. -/
  stays : ∀ ms, e.moves ms = ms
  /-- All other blocks are as they were. -/
  other : ∀ ms, Path.segments e.target ≠ ms → root'.coreAt ms = root.coreAt ms
  /-- All blocks have the subtypes that they had. -/
  subtype : ∀ ms, (root'.coreAt ms).map BlockInfo.subtype = (root.coreAt ms).map BlockInfo.subtype

/-- An edit that only retouches its target, and not the subtype, changes what the target knows and
nothing else. -/
theorem keeps_of_retouch {c : Block} (hb : root.find? e.target = some b) (hc : b.Retouch c)
    (hsubtype : c.info.subtype = b.info.subtype) (hmoves : ∀ ms, e.moves ms = ms) :
    e.Keeps root (root.set e.target c) := by
  have hother : ∀ ms, Path.segments e.target ≠ ms →
      (root.set e.target c).coreAt ms = root.coreAt ms :=
    fun ms hms => Block.coreAt_set_of_retouch hb hc hms
  refine ⟨hmoves, hother, fun ms => ?_⟩
  by_cases hms : Path.segments e.target = ms
  · subst hms
    have hnew : (root.set e.target c).find? e.target = some c :=
      Block.find?_set hb hc.place.name
    rw [Block.find?] at hb hnew
    rw [Block.coreAt, Block.coreAt, hb, hnew]
    exact congrArg some hsubtype
  · rw [hother ms hms]

/-- An edit that selects a subtype moves nothing. -/
theorem moves_of_selected {subtype : Text} (h : e.selected? b = some subtype) (ms : List Text) :
    e.moves ms = ms := by
  cases e with
  | rename path newName => cases h
  | _ => rfl

/-- An edit of a parameter moves nothing. -/
theorem moves_of_changed {n : Text} (h : e.changed? = some n) (ms : List Text) :
    e.moves ms = ms := by
  cases e with
  | rename path newName => cases h
  | _ => rfl

/-- **An edit of blocks** reaches a subtree, and every other edit keeps them. -/
theorem Effect.reaches_or_keeps (h : Grounded root) (hroot : root.info.schema = none)
    (hexact : e.Exact root) (he : Effect root catalog e root' landing) :
    (landing.structural = true ∧
        ∃ os ns, e.Reaches root root' landing.oldPath landing.path os ns) ∨
      landing.structural = false ∧ e.Keeps root root' := by
  cases he with
  | @included path n subtype b c hb hn hc =>
    obtain ⟨hmem, hname⟩ := Named.find?_eq_some hc
    have hsound := (Block.all_sound_of_find? h.tree hb).here
    have hplaced := hsound.unused c hmem
    have hplace := (retouch_elim_switchSubtype (c.mark true) subtype).place
    have hfree := Block.not_mem_children_of_mem_unused hsound hmem
    have hshift := Block.shift_attach (hplace.name.symm ▸ hfree)
    rw [show (subtype.elim (c.mark true) (c.mark true).switchSubtype).name = c.name from
      hplace.name] at hshift
    refine Or.inl ⟨rfl, ?_⟩
    rw [show (Landing.ofBlock c.path c.path).path = _ from hplaced.path,
      show (Landing.ofBlock c.path c.path).oldPath = _ from hplaced.path]
    exact reaches_of_child h hb hplaced.segment rfl hshift (fun _ => rfl)
      (Or.inl (Named.find?_eq_none hfree))
  | @added path n name subtype b hb hn hfree =>
    have hname := name_added catalog b.path n subtype
    have hnot := (Block.hasChild_eq_false_iff.mp hfree).1
    have hshift := Block.shift_attach (hname.symm ▸ hnot)
    rw [hname] at hshift
    exact Or.inl ⟨rfl, reaches_of_child h hb (isHeaderName_of_isName hn).isSegment rfl hshift
      (fun _ => rfl) (Or.inl (Named.find?_eq_none hnot))⟩
  | @removed path parent n b c hpath hb hc =>
    obtain ⟨-, hn, htarget⟩ := hexact.eq_join h hpath hb
    obtain rfl : path = Path.join b.path n := htarget
    have hsound := (Block.all_sound_of_find? h.tree hb).here
    exact Or.inl ⟨rfl, reaches_of_child h hb hn rfl (Block.shift_withdraw catalog hsound)
      (fun _ => rfl) (Or.inr rfl)⟩
  | @dropped path parent n b c hpath hb hc =>
    obtain ⟨-, hn, htarget⟩ := hexact.eq_join h hpath hb
    obtain rfl : path = Path.join b.path n := htarget
    exact Or.inl ⟨rfl, reaches_of_child h hb hn rfl (Block.shift_of_offer _ n)
      (fun _ => rfl) (Or.inr rfl)⟩
  | @renamed path parent n newName b b' hpath hb hn hfree hb' =>
    obtain ⟨rfl, hsegment, htarget⟩ := hexact.eq_join h hpath hb
    obtain rfl : path = Path.join b.path n := htarget
    have hsound := Block.all_sound_of_find? h.tree hb
    have hinfo := Block.info_renameChild? hb'
    have hnew := (isHeaderName_of_isName hn).isSegment
    exact Or.inl ⟨rfl, reaches_of_rename h hb hsegment hnew
      (congrArg BlockInfo.name hinfo) (Block.shift_renameChild? hsound hnew hb' hfree)⟩
  | @switched _ subtype b c hb hselected hc =>
    -- The subtree stays in place. It is never the whole tree, since the root has no schema.
    refine Or.inl ⟨rfl, reaches_of_retouch h hexact hb ?_ (Block.retouch_switchSubtype? hc)
      (moves_of_selected hselected)⟩
    rintro rfl
    rw [Block.switchSubtype?, Block.subtypeSchema?, hroot] at hc
    cases hc
  | @updated _ n f b hb hchanged hselected hkeeps hfits =>
    have hsubtype : (b.updateParameter n f).info.subtype = b.info.subtype := by
      rw [Block.updateParameter]
      split
      · rfl
      · rfl
    exact Or.inr ⟨rfl, keeps_of_retouch hb hfits hsubtype (moves_of_changed hchanged)⟩
  | extended hb hn hvalue hfree =>
    exact Or.inr ⟨rfl, keeps_of_retouch hb (Block.retouch_addParameter (Slot.fits_user _ _)) rfl
      fun _ => rfl⟩

/-- **The block at some names before** is the block at the names where they move, but the target can
come to know something else when it stays where it is. -/
theorem Reaches.core_eq {oldPath newPath : Text} {os ns ms : List Text}
    (hr : e.Reaches root root' oldPath newPath os ns) {b' : Block}
    (hb : root.descend? ms = some b) (hb' : root'.descend? (e.moves ms) = some b') :
    b'.info.core = b.info.core ∨ Path.segments e.target = ms ∧ e.moves ms = ms := by
  have hc : root.coreAt ms = some b.info.core := by rw [Block.coreAt, hb, Option.map_some]
  have hc' : root'.coreAt (e.moves ms) = some b'.info.core := by
    rw [Block.coreAt, hb', Option.map_some]
  by_cases hos : os <+: ms
  · obtain ⟨k, rfl⟩ := hos
    rw [hr.moved] at hc' ⊢
    refine (hr.shift.same k _ _ hc hc').imp_right ?_
    rintro ⟨rfl, rfl⟩
    rw [List.append_nil] at hc ⊢
    refine ⟨hr.target.resolve_left fun hnone => ?_, rfl⟩
    rw [hnone] at hc
    cases hc
  · rw [hr.stays ms hos] at hc'
    rw [hr.shift.stay ms hos fun hns => ?_, hc] at hc'
    · exact Or.inl (Option.some.inj hc').symm
    · rw [hr.shift.fresh ms hns hos] at hc
      cases hc

/-- After such an edit a block knows what it knew before, unless it is the target. -/
theorem Keeps.core_eq (hk : e.Keeps root root') {ms : List Text} {b' : Block}
    (hb : root.descend? ms = some b) (hb' : root'.descend? (e.moves ms) = some b') :
    b'.info.core = b.info.core ∨ Path.segments e.target = ms ∧ e.moves ms = ms := by
  refine (Decidable.em (Path.segments e.target = ms)).symm.imp (fun hms => ?_)
    fun hms => ⟨hms, hk.stays ms⟩
  have hcore := hk.other ms hms
  rw [hk.stays] at hb'
  rw [Block.coreAt, Block.coreAt, hb, hb'] at hcore
  exact Option.some.inj hcore

end Edit

end BlockEdit
