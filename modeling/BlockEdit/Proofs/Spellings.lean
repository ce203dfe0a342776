import BlockEdit.Proofs.FlatView
import BlockEdit.Proofs.Reaches

/-!
# Other spellings of a path

A path that someone types may have further slashes, and `Path.segments` does not see them. An edit
finds its blocks by the segments, so every spelling of its target is accepted alike and leaves the
same tree. What the edit says about where it landed keeps the spelling.

Main statements:

* **`Edit.apply_respell`**: with another spelling of its target an edit leaves the same tree.
* **`Edit.exists_exact`**: every edit that is accepted is an edit of a block that spells its path as
  the block does.
* **`Path.SpelledBy.of_isWithin`**: a spelling that is not canonical has no path of a block below
  it.
-/

namespace BlockEdit

namespace Path

variable {path top p q : Text} {ns : List Text}

/-- From the path that is written from names the names are read again. -/
theorem SpelledBy.segments (h : SpelledBy path ns) : segments path = ns := by
  rw [h.eq, segments_ofSegments h.segment]

/-- A path that is written from names is spelled as the path of a block is. -/
theorem SpelledBy.isCanonical (h : SpelledBy path ns) : IsCanonical path := by
  rw [IsCanonical, h.segments, ofNames_of_ne_nil h.below, h.eq]

/-- Canonical paths with the same segments are the same. -/
theorem IsCanonical.eq_of_segments (hp : IsCanonical p) (hq : IsCanonical q)
    (h : Path.segments q = Path.segments p) : q = p :=
  hq.trans ((congrArg ofNames h).trans hp.symm)

/-- A path is within itself. -/
theorem isWithin_self (path : Text) : isWithin path path = true :=
  isWithin_iff.mpr ⟨[], (List.append_nil path).symm, Or.inl rfl⟩

/-- What a path that is written from names lies below is written from the first of them. -/
theorem exists_prefix_of_isWithin : ∀ {ns : List Text} {top : Text},
    (∀ n ∈ ns, IsSegment n) → isWithin top (ofSegments ns) = true →
      ∃ ms, ms <+: ns ∧ top = ofSegments ms
  | [], top, _, hw => by
    obtain ⟨rest, hrest, -⟩ := isWithin_iff.mp hw
    exact ⟨[], List.nil_prefix, (List.append_eq_nil_iff.mp hrest.symm).1⟩
  | n :: ns, [], _, _ => ⟨[], List.nil_prefix, rfl⟩
  | n :: ns, c :: top, hns, hw => by
    obtain ⟨rest, heq, hrest⟩ := isWithin_iff.mp hw
    rw [ofSegments_cons, List.cons_append, List.cons_append] at heq
    obtain ⟨rfl, htail⟩ := List.cons.inj heq
    have hclean := (hns n List.mem_cons_self).2
    rcases List.append_eq_append_iff.mp htail with ⟨more, hmore, hbelow⟩ | ⟨more, hmore, hrest'⟩
    · -- The top goes on behind the first name.
      have hwithin : isWithin more (ofSegments ns) = true :=
        isWithin_iff.mpr ⟨rest, hbelow, hrest⟩
      obtain ⟨ms, hms, rfl⟩ :=
        exists_prefix_of_isWithin (fun m hm => hns m (List.mem_cons_of_mem _ hm)) hwithin
      exact ⟨n :: ms, List.cons_prefix_cons.mpr ⟨rfl, hms⟩, by rw [hmore, ofSegments_cons]; rfl⟩
    · -- The top ends within the first name, so it ends with it.
      have hnil : more = [] := by
        rcases hrest with rfl | ⟨t, rfl⟩
        · exact (List.append_eq_nil_iff.mp hrest'.symm).1
        · rcases more with _ | ⟨d, more⟩
          · rfl
          · obtain ⟨rfl, -⟩ := List.cons.inj hrest'
            have hslash := hclean '/' (hmore ▸ List.mem_append_right _ List.mem_cons_self)
            exact absurd hslash (by decide)
      rw [hnil, List.append_nil] at hmore
      refine ⟨[n], List.cons_prefix_cons.mpr ⟨rfl, List.nil_prefix⟩, ?_⟩
      rw [← hmore, ofSegments_cons]
      exact (List.append_nil _).symm

/-- **Below a spelling** that is not canonical there are no paths that are written from names. -/
theorem SpelledBy.of_isWithin (h : SpelledBy path ns) (hw : isWithin top path = true)
    (hne : Path.segments top ≠ []) : IsCanonical top := by
  rw [h.eq] at hw
  obtain ⟨ms, hms, rfl⟩ := exists_prefix_of_isWithin h.segment hw
  have hsegment : ∀ m ∈ ms, IsSegment m := fun m hm => h.segment m (hms.subset hm)
  rw [segments_ofSegments hsegment] at hne
  exact SpelledBy.isCanonical ⟨hne, hsegment, rfl⟩

end Path

namespace Edit

open Block (Grounded)

/-! ### Another spelling of the target -/

/-- The edit with another spelling of its target. -/
def respell (path : Text) : Edit → Edit
  | addChild _ name subtype => addChild path name subtype
  | remove _ => remove path
  | rename _ newName => rename path newName
  | setSubtype _ subtype => setSubtype path subtype
  | setValue _ parameter value => setValue path parameter value
  | setText _ parameter text => setText path parameter text
  | addParameter _ name value => addParameter path name value
  | setComment _ parameter comment => setComment path parameter comment

/-- Where the edit lands with another spelling of its target, if it lands here with its own. -/
def relanding (path : Text) : Edit → Landing → Landing
  | addChild _ _ _, landing => landing
  | rename _ newName, _ => .ofBlock path (Path.join ((Path.parent? path).getD []) newName)
  | _, landing => ⟨path, path, landing.structural⟩

/-- Another spelling becomes the target. -/
@[simp] theorem target_respell (path : Text) (e : Edit) : (e.respell path).target = path := by
  cases e <;> rfl

/-- Of two spellings the last one counts. -/
@[simp] theorem respell_respell (p q : Text) (e : Edit) :
    (e.respell p).respell q = e.respell q := by
  cases e <;> rfl

/-- The spelling that an edit has changes nothing. -/
@[simp] theorem respell_target (e : Edit) : e.respell e.target = e := by
  cases e <;> rfl

section respelled

variable {p q : Text} {root : Block}

/-- Two spellings of one path lead to the same block. -/
theorem find?_congr (h : Path.segments q = Path.segments p) : root.find? q = root.find? p := by
  rw [Block.find?, h, Block.find?]

/-- Two spellings of one path put a block in the same place. -/
theorem set_congr (h : Path.segments q = Path.segments p) (b : Block) :
    root.set q b = root.set p b := by
  rw [Block.set, h, Block.set]

/-- Apart from the fault, a computation goes on where its first part has a result. -/
theorem toOption_bind {ε α β : Type} (x : Except ε α) (f : α → Except ε β) :
    (x >>= f).toOption = x.toOption.bind fun a => (f a).toOption := by
  cases x <;> rfl

/-- Apart from the fault, a result is itself. -/
theorem toOption_ok {ε α : Type} (a : α) : (Except.ok a : Except ε α).toOption = some a := rfl

/-- Apart from the fault, asking for a block is finding it. -/
theorem toOption_block : (block root p).toOption = root.find? p := by
  rw [block]
  cases root.find? p <;> rfl

/-- Apart from the fault, so is asking for a parent. -/
theorem toOption_parentBlock : (parentBlock root p).toOption = root.find? p := by
  rw [parentBlock]
  cases root.find? p <;> rfl

/-- Apart from the fault, asking for a parameter is finding it. -/
theorem toOption_slot (b : Block) (n : Text) : (slot b p n).toOption = b.parameter? n := by
  rw [slot]
  cases b.parameter? n <;> rfl

/-- A path without segments is the root, which cannot be edited. -/
theorem splitPath_of_nil (h : Path.segments p = []) : splitPath p = .error .rootNotEditable := by
  rw [splitPath, h]
  rfl

/-- A path is split into a spelling of the parent and the last name. -/
theorem splitPath_of_concat {ps : List Text} {n : Text} (h : Path.segments p = ps ++ [n]) :
    splitPath p = .ok ((Path.parent? p).getD [], n) ∧
      Path.segments ((Path.parent? p).getD []) = ps := by
  have hlast : (Path.segments p).getLast? = some n := by rw [h, List.getLast?_concat]
  rcases hparent : Path.parent? p with _ | parent
  · rw [Path.parent?] at hparent
    split at hparent
    · next hroot =>
      rcases hroot with rfl | rfl
      · cases hlast
      · cases hlast
    · dsimp only at hparent
      split at hparent <;> cases hparent
  · refine ⟨by rw [splitPath, hlast, hparent]; rfl, ?_⟩
    have hsegments := Path.segments_parent? hparent hlast
    rw [h] at hsegments
    exact (List.append_inj' hsegments rfl).1.symm

/-- The parent of a target that splits. -/
theorem parent?_of_splitPath {path parent n : Text} (h : splitPath path = .ok (parent, n)) :
    Path.parent? path = some parent := by
  unfold splitPath at h
  split at h
  · next hparent =>
    cases h
    exact hparent
  · cases h

/-- Two spellings of a path split alike, or neither of them does. -/
theorem splitPath_respell (h : Path.segments q = Path.segments p) :
    splitPath p = .error .rootNotEditable ∧ splitPath q = .error .rootNotEditable ∨
      ∃ parent parent' n, splitPath p = .ok (parent, n) ∧ splitPath q = .ok (parent', n) ∧
        Path.segments parent' = Path.segments parent := by
  rcases List.eq_nil_or_concat (Path.segments p) with hnil | ⟨ps, n, hps⟩
  · exact Or.inl ⟨splitPath_of_nil hnil, splitPath_of_nil (h.trans hnil)⟩
  · rw [List.concat_eq_append] at hps
    obtain ⟨hp, hparent⟩ := splitPath_of_concat hps
    obtain ⟨hq, hparent'⟩ := splitPath_of_concat (h.trans hps)
    exact Or.inr ⟨_, _, n, hp, hq, hparent'.trans hparent.symm⟩

/-- Apart from the fault, a child is checked the same with each spelling. -/
theorem toOption_checkAdded (b : Block) (subtype : Option Text) :
    (checkAdded b q subtype).toOption = (checkAdded b p subtype).toOption := by
  simp only [checkAdded]
  split
  · rfl
  · rcases subtype with _ | subtype
    · rfl
    · dsimp only
      split
      · rfl
      · rfl

/-- Apart from the fault, a value is checked the same with each spelling. -/
theorem toOption_checkSet (h : Path.segments q = Path.segments p) (n subtype : Text)
    (read : Slot → Except ValueError Value) :
    (checkSet root q n subtype read).toOption = (checkSet root p n subtype read).toOption := by
  rw [checkSet, checkSet, toOption_bind, toOption_bind, toOption_block, toOption_block,
    find?_congr h]
  refine Option.bind_congr fun b _ => ?_
  split
  · rfl
  · rw [toOption_bind, toOption_bind, toOption_slot, toOption_slot]
    refine Option.bind_congr fun s _ => ?_
    cases read s <;> rfl

/-- **Whether an edit is accepted** does not depend on the spelling. -/
theorem toOption_check_respell {e : Edit} (h : Path.segments q = Path.segments e.target) :
    ((e.respell q).check root).toOption = (e.check root).toOption := by
  cases e with
  | addChild p name subtype =>
    change Path.segments q = Path.segments p at h
    simp only [respell, check, checkAddChild, toOption_bind, toOption_parentBlock, find?_congr h]
    refine Option.bind_congr fun b _ => ?_
    rcases name with _ | name
    · exact toOption_checkAdded b subtype
    · rw [toOption_bind, toOption_bind]
      refine Option.bind_congr fun _ _ => ?_
      rcases b.unused? name with _ | child
      · exact toOption_checkAdded b subtype
      · rfl
  | remove p =>
    -- A path is split alike in both spellings, up to the spelling of the parent.
    change Path.segments q = Path.segments p at h
    simp only [respell, check, checkRemove, toOption_bind, toOption_parentBlock]
    rcases splitPath_respell h with ⟨hp, hq⟩ | ⟨parent, parent', n, hp, hq, hsame⟩
    · rw [hp, hq]
      rfl
    · simp only [hp, hq, toOption_ok, Option.bind_some, find?_congr hsame]
      refine Option.bind_congr fun b _ => ?_
      split
      · rfl
      · rfl
  | rename p newName =>
    change Path.segments q = Path.segments p at h
    simp only [respell, check, checkRename, toOption_bind, toOption_block, find?_congr h]
    rcases splitPath_respell h with ⟨hp, hq⟩ | ⟨parent, parent', n, hp, hq, hsame⟩
    · rw [hp, hq]
      rfl
    · simp only [hp, hq, toOption_ok, Option.bind_some]
      refine Option.bind_congr fun b _ => ?_
      split
      · rfl
      · simp only [toOption_bind]
        refine Option.bind_congr fun _ _ => ?_
        split
        · rfl
        · simp only [toOption_bind, toOption_parentBlock,
            find?_congr hsame]
          refine Option.bind_congr fun b _ => ?_
          split
          · rfl
          · rfl
  | setSubtype p subtype =>
    change Path.segments q = Path.segments p at h
    simp only [respell, check, toOption_bind, toOption_block, find?_congr h]
  | setValue p n value => exact toOption_checkSet h n _ _
  | setText p n text => exact toOption_checkSet h n _ _
  | addParameter p n value =>
    change Path.segments q = Path.segments p at h
    simp only [respell, check, checkAddParameter, toOption_bind, toOption_block, find?_congr h]
    refine Option.bind_congr fun b _ => Option.bind_congr fun _ _ => ?_
    split
    · rfl
    · cases (Value.ofText value).checkWritable <;> rfl
  | setComment p n comment =>
    change Path.segments q = Path.segments p at h
    simp only [respell, check, toOption_bind, toOption_block, toOption_slot, find?_congr h]

variable {catalog : Catalog}

/-- A switch of the subtype lands where it was told to, and does the same with each spelling. -/
theorem toOption_applySwitch (h : Path.segments q = Path.segments p) (subtype : Text) :
    (applySwitch root q subtype).toOption =
      (applySwitch root p subtype).toOption.map fun after =>
        (after.1, ⟨q, q, after.2.structural⟩) := by
  simp only [applySwitch, toOption_bind, toOption_block, find?_congr h, set_congr h]
  cases root.find? p <;> rfl

/-- Setting a parameter lands where it was told to, and does the same with each spelling. -/
theorem toOption_applySet (h : Path.segments q = Path.segments p) (n subtype : Text)
    (read : Slot → Except ValueError Value) :
    (applySet root q n subtype read).toOption =
      (applySet root p n subtype read).toOption.map fun after =>
        (after.1, ⟨q, q, after.2.structural⟩) := by
  simp only [applySet, toOption_bind, toOption_block, find?_congr h]
  rcases hb : root.find? p with _ | b
  · rfl
  · simp only [Option.bind_some]
    split
    · exact toOption_applySwitch h subtype
    · simp only [toOption_bind, toOption_slot, set_congr h]
      rcases b.parameter? n with _ | s
      · rfl
      · simp only [Option.bind_some]
        cases (read s).bind s.setValue <;> rfl

/-- **What an edit makes of the tree** does not depend on the spelling. -/
theorem toOption_carryOut_respell {e : Edit} (h : Path.segments q = Path.segments e.target) :
    ((e.respell q).carryOut root catalog).toOption =
      (e.carryOut root catalog).toOption.map fun after => (after.1, e.relanding q after.2) := by
  cases e with
  | addChild p name subtype =>
    change Path.segments q = Path.segments p at h
    simp only [respell, carryOut, applyAddChild, relanding, toOption_bind, toOption_parentBlock,
      find?_congr h, set_congr h]
    exact (congrFun Option.map_id _).symm
  | remove p =>
    change Path.segments q = Path.segments p at h
    simp only [respell, carryOut, applyRemove, relanding, toOption_bind, toOption_parentBlock]
    rcases splitPath_respell h with ⟨hp, hq⟩ | ⟨parent, parent', n, hp, hq, hsame⟩
    · rw [hp, hq]
      rfl
    · simp only [hp, hq, toOption_ok, Option.bind_some, find?_congr hsame, set_congr hsame]
      rcases root.find? parent with _ | b
      · rfl
      · simp only [Option.bind_some]
        cases b.takeChild? n <;> rfl
  | rename p newName =>
    change Path.segments q = Path.segments p at h
    simp only [respell, carryOut, applyRename, relanding, toOption_bind, toOption_parentBlock]
    rcases splitPath_respell h with ⟨hp, hq⟩ | ⟨parent, parent', n, hp, hq, hsame⟩
    · rw [hp, hq]
      rfl
    · simp only [hp, hq, toOption_ok, Option.bind_some, find?_congr hsame, set_congr hsame,
        parent?_of_splitPath hq, Option.getD_some]
      cases root.find? parent <;> rfl
  | setSubtype p subtype => exact toOption_applySwitch h subtype
  | setValue p n value => exact toOption_applySet h n _ _
  | setText p n text => exact toOption_applySet h n _ _
  | addParameter p n value =>
    change Path.segments q = Path.segments p at h
    simp only [respell, carryOut, applyAddParameter, relanding, toOption_bind, toOption_block,
      find?_congr h, set_congr h]
    cases root.find? p <;> rfl
  | setComment p n comment =>
    change Path.segments q = Path.segments p at h
    simp only [respell, carryOut, applySetComment, relanding, toOption_bind, toOption_block,
      toOption_slot, find?_congr h, set_congr h]
    rcases root.find? p with _ | b
    · rfl
    · simp only [Option.bind_some]
      cases b.parameter? n <;> rfl

/-- **With another spelling of its target** an edit is accepted where it was, and leaves the same
tree. -/
theorem apply_respell {e : Edit} (h : Path.segments q = Path.segments e.target) {root' : Block}
    {landing : Landing} (happly : e.apply root catalog = .ok (root', landing)) :
    (e.respell q).apply root catalog = .ok (root', e.relanding q landing) := by
  have hsame : ((e.respell q).apply root catalog).toOption =
      (e.apply root catalog).toOption.map fun after => (after.1, e.relanding q after.2) := by
    simp only [apply, toOption_bind, toOption_check_respell h, toOption_carryOut_respell h,
      Option.map_bind]
    rfl
  rw [happly] at hsame
  rcases hq : (e.respell q).apply root catalog with reason | after
  · rw [hq] at hsame
    cases hsame
  · rw [hq] at hsame
    exact congrArg Except.ok (Option.some.inj hsame)

end respelled

/-! ### The spelling that a block has -/

variable {root root' b : Block} {catalog : Catalog} {landing : Landing} {e : Edit}

/-- A path that leads to a block has the segments of the path of the block. -/
theorem segments_path (h : Grounded root) {p : Text} (hb : root.find? p = some b) :
    Path.segments b.path = Path.segments p := by
  rw [Block.path_eq_ofNames h hb,
    Path.segments_ofNames fun _ hn => Path.isSegment_of_mem_segments hn]

/-- A path that splits leads to the child of this name. -/
theorem find?_of_splitPath {p parent n : Text} (hpath : splitPath p = .ok (parent, n))
    (hb : root.find? parent = some b) : root.find? p = Named.find? n b.children := by
  rw [Block.find?] at hb
  rw [Block.find?, segments_of_splitPath hpath, Block.descend?_append, hb, Option.bind_some,
    Block.descend?]
  exact Option.bind_fun_some _

/-- **Every edit that is accepted** is an edit of a block when it spells its target as the block
does. -/
theorem exists_exact (h : Grounded root) (happly : e.apply root catalog = .ok (root', landing)) :
    ∃ p, Path.segments p = Path.segments e.target ∧ (e.respell p).Exact root := by
  have hfound : ∀ {b : Block}, root.find? e.target = some b →
      ∃ p, Path.segments p = Path.segments e.target ∧ (e.respell p).Exact root := by
    intro b hb
    exact ⟨b.path, segments_path h hb, b, Block.mem_descendants_of_descend? _ hb, b,
      List.mem_cons_self, target_respell _ _⟩
  have hchild : ∀ {parent n : Text} {b c : Block}, splitPath e.target = .ok (parent, n) →
      root.find? parent = some b → Named.find? n b.children = some c →
        root.find? e.target = some c :=
    fun hpath hb hc => (find?_of_splitPath hpath hb).trans hc
  cases effect_of_apply h.tree happly with
  | included hb hn hc => exact hfound hb
  | added hb hn hfree => exact hfound hb
  | removed hpath hb hc => exact hfound (hchild hpath hb hc)
  | @dropped path parent n b c hpath hb hc =>
    obtain ⟨hmem, rfl⟩ := Named.find?_eq_some hc
    have hplaced := (Block.all_sound_of_find? h.tree hb).here.unused c hmem
    refine ⟨c.path, ?_, b, Block.mem_descendants_of_descend? _ hb, c,
      List.mem_cons_of_mem _ hmem, rfl⟩
    rw [hplaced.path, Path.segments_join_segment _ hplaced.segment, segments_path h hb]
    exact (segments_of_splitPath hpath).symm
  | @renamed path parent n newName b b' hpath hb hn hfree hb' =>
    obtain ⟨c, -, hc, -, -⟩ := Block.exists_of_renameChild? hb'
    exact hfound (hchild hpath hb hc)
  | switched hb hselected hc => exact hfound hb
  | updated hb hchanged hselected hkeeps hfits => exact hfound hb
  | extended hb hn hvalue hfree => exact hfound hb

/-- The target of an exact edit is canonical. -/
theorem Exact.isCanonical (h : Grounded root) (he : e.Exact root) :
    Path.IsCanonical e.target := by
  rcases he.cases h with htarget | ⟨b, hb, n, hn, htarget⟩
  · rw [htarget]
    rfl
  · obtain ⟨ns, hns, -⟩ := Block.exists_descend? h.tree hb
    rw [htarget]
    exact (spelledBy_join h hns hn).isCanonical

/-! ### Where an edit lands -/

/-- With its own spelling an edit lands where it lands. -/
theorem Effect.relanding_target (he : Effect root catalog e root' landing) :
    e.relanding e.target landing = landing := by
  cases he with
  | included => rfl
  | added => rfl
  | removed => rfl
  | dropped => rfl
  | renamed hpath hb hn hfree hb' =>
    rw [relanding, target, parent?_of_splitPath hpath]
    rfl
  | switched hb hselected hc =>
    cases e with
    | rename path newName => cases hselected
    | _ => rfl
  | updated hb hchanged hselected hkeeps hfits =>
    cases e with
    | rename path newName => cases hchanged
    | _ => rfl
  | extended => rfl

/-- **With another spelling** an edit lands at the same names, and is of the same kind. -/
theorem Effect.relanding_alike (he : Effect root catalog e root' landing) {q : Text}
    (hq : Path.segments q = Path.segments e.target) :
    Path.segments (e.relanding q landing).oldPath = Path.segments landing.oldPath ∧
      Path.segments (e.relanding q landing).path = Path.segments landing.path ∧
        (e.relanding q landing).structural = landing.structural := by
  cases he with
  | included => exact ⟨rfl, rfl, rfl⟩
  | added => exact ⟨rfl, rfl, rfl⟩
  | removed => exact ⟨hq, hq, rfl⟩
  | dropped => exact ⟨hq, hq, rfl⟩
  | renamed hpath hb hn hfree hb' =>
    refine ⟨hq, ?_, rfl⟩
    have hparent := (splitPath_of_concat (hq.trans (segments_of_splitPath hpath))).2
    exact (Path.segments_join _ _).trans ((congrArg (· ++ _) hparent).trans
      (Path.segments_join _ _).symm)
  | switched hb hselected hc =>
    cases e with
    | addChild path name subtype => cases hselected
    | rename path newName => cases hselected
    | _ => exact ⟨hq, hq, rfl⟩
  | updated hb hchanged hselected hkeeps hfits =>
    cases e with
    | addChild path name subtype => cases hchanged
    | rename path newName => cases hchanged
    | _ => exact ⟨hq, hq, rfl⟩
  | extended => exact ⟨hq, hq, rfl⟩

end Edit

end BlockEdit
