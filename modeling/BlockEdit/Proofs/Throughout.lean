import BlockEdit.Proofs.Reload

/-!
# What holds throughout a tree

Many invariants speak about what each block knows, not about the block's place or its children:
`Block.Throughout` says that such a thing holds of all blocks of a tree, used or not. When it does
not depend on the place of a block, it survives everything that edits and texts do to the children
of a block.

Main statements:

* **`Block.Throughout.set`**: a block can be replaced by a tree throughout which it holds too.
* **`Block.Throughout.replaceContents`**: a document takes over what holds throughout another one.
* **`Block.Throughout.of_parse`**: what settings keep holds throughout the tree of a text.
* **`Block.Throughout.of_effect`**: what the changes of one block keep holds throughout a document
  after an edit.
-/

namespace BlockEdit

/-- It does not matter to a block where it stands. -/
structure BlockInfo.Placeless (P : BlockInfo → Prop) : Prop where
  /-- It holds of a block under every name and at every path. -/
  place : ∀ {i : BlockInfo} (name path : Text), P i → P { i with name, path }
  /-- It holds of a block that becomes part of the document. -/
  included : ∀ {i : BlockInfo}, P i → P { i with included := true }

namespace Block

/-- It holds of what each block of the tree knows. -/
def Throughout (P : BlockInfo → Prop) : Block → Prop := All fun b => P b.info

namespace Throughout

variable {P : BlockInfo → Prop} {b c : Block}

/-- What holds throughout a tree holds of its block. -/
theorem here (h : Throughout P b) : P b.info := All.here h

/-- What holds throughout a tree holds throughout the children. -/
theorem child (h : Throughout P b) : ∀ c ∈ b.children, Throughout P c := All.child h

/-- What holds throughout a tree holds throughout what the catalog offers in it. -/
theorem unused (h : Throughout P b) : ∀ c ∈ b.unused, Throughout P c := All.unused h

/-- **A block that is retouched** can change what it knows. -/
theorem of_retouch (h : Throughout P b) (hr : b.Retouch c) (hc : P c.info) : Throughout P c := by
  refine .node hc ?_ ?_
  · rw [hr.children]
    exact h.child
  · rw [hr.unused]
    exact h.unused

/-- What holds throughout a tree still does when the block knows something else for which it
holds. -/
theorem with_info (h : Throughout P b) {info : BlockInfo} (hi : P info) :
    Throughout P { b with info } :=
  .node hi (fun c hc => h.child c hc) fun c hc => h.unused c hc

/-- What holds throughout a tree still does when the block has other children for which it holds. -/
theorem with_children (h : Throughout P b) {children unused : List Block}
    (hc : ∀ c ∈ children, Throughout P c) (hu : ∀ c ∈ unused, Throughout P c) :
    Throughout P { b with children, unused } :=
  .node h.here hc hu

/-! ### Operations on the children of a block -/

/-- A child for which it holds throughout can be added. -/
theorem attach (hb : Throughout P b) (hc : Throughout P c) : Throughout P (b.attach c) := by
  refine with_children hb (fun d hd => ?_) fun d hd => hb.unused d (Named.mem_of_mem_remove hd)
  rcases List.mem_append.mp hd with hd | hd
  · exact hb.child d hd
  · rw [List.mem_singleton.mp hd]
    exact hc

/-- A child can be taken out, if it holds throughout of what the catalog then offers in its
place. -/
theorem withdraw {catalog : Catalog} {n : Text} (hb : Throughout P b)
    (hnew : Throughout P ((instantiate catalog b.path n).mark false)) :
    Throughout P (b.withdraw catalog n) := by
  refine with_children hb (fun d hd => hb.child d (Named.mem_of_mem_remove hd)) fun d hd => ?_
  rcases List.mem_append.mp hd with hd | hd
  · exact hb.unused d hd
  · split at hd
    · rw [List.mem_singleton.mp hd]
      exact hnew
    · cases hd

/-- What does not depend on where a block lies holds throughout under new paths. -/
theorem rebase (hP : BlockInfo.Placeless P) (h : Throughout P b) :
    ∀ parent : Text, Throughout P (b.rebase parent) := by
  induction h with
  | @node b here _ _ ihc ihu =>
    intro parent
    rw [rebase_mk]
    refine .node (hP.place b.name _ here) (fun c hc => ?_) fun c hc => ?_
    · obtain ⟨d, hd, rfl⟩ := List.mem_map.mp hc
      exact ihc d hd _
    · obtain ⟨d, hd, rfl⟩ := List.mem_map.mp hc
      exact ihu d hd _

/-- What does not depend on where a block lies holds throughout when a child is renamed. -/
theorem renameChild? (hP : BlockInfo.Placeless P) {old new : Text} (hb : Throughout P b)
    (h : b.renameChild? old new = some c) : Throughout P c := by
  obtain ⟨d, children, hd, rfl, hperm⟩ := exists_of_renameChild? h
  have hchild := hb.child d (Named.mem_of_find? hd)
  refine with_children hb (fun e he => ?_) hb.unused
  rcases List.mem_cons.mp (hperm.mem_iff.mp he) with rfl | he
  · exact rebase hP (with_info hchild (hP.place new d.path hchild.here)) b.path
  · exact hb.child e (Named.mem_of_mem_remove (Named.mem_of_mem_remove he))

/-- The contents of another document keep what holds throughout it. -/
theorem replaceContents (hP : BlockInfo.Placeless P) (h : Throughout P c) :
    Throughout P (b.replaceContents c) := by
  rw [Block.replaceContents, rebaseAll_eq_map, rebaseAll_eq_map]
  refine .node (hP.place b.name b.path h.here) (fun d hd => ?_) fun d hd => ?_
  · obtain ⟨e, he, rfl⟩ := List.mem_map.mp hd
    exact rebase hP (h.child e he) b.path
  · obtain ⟨e, he, rfl⟩ := List.mem_map.mp hd
    exact rebase hP (h.unused e he) b.path

/-! ### Replacing a block -/

/-- A block for which it holds throughout can be put in any place. -/
theorem replaceAt {new : Block} (hnew : Throughout P new) : ∀ (ns : List Text) {b : Block},
    Throughout P b → Throughout P (b.replaceAt ns new)
  | [], _, _ => hnew
  | n :: ns, b, hb => by
    rw [Block.replaceAt]
    refine with_children hb (fun d hd => ?_) hb.unused
    rcases Named.mem_update hd with hd | ⟨e, he, rfl⟩
    · exact hb.child d hd
    · exact replaceAt hnew ns (hb.child e (Named.mem_of_find? he))

/-- **A block of a document** can be replaced by a tree throughout which it holds too. -/
theorem set {root new : Block} {path : Text} (h : Throughout P root) (hnew : Throughout P new) :
    Throughout P (root.set path new) :=
  replaceAt hnew _ h

/-- What holds throughout a tree holds throughout a block that is found in it. -/
theorem of_find? {root : Block} {path : Text} (h : Throughout P root)
    (hb : root.find? path = some b) : Throughout P b :=
  All.descendant h (mem_descendants_of_descend? _ hb)

/-! ### New blocks -/

section catalog

variable {catalog : Catalog}

/-- It holds throughout what a catalog offers at a path when it holds of each placeholder. -/
theorem placeholders (hnew : ∀ path name : Text,
    P { (described catalog path name).info with included := false }) :
    ∀ (levels : Nat) (path : Text), ∀ b ∈ Block.placeholders catalog levels path, Throughout P b
  | 0, _, b, hb => by
    rw [Block.placeholders] at hb
    cases hb
  | levels + 1, path, b, hb => by
    rw [Block.placeholders] at hb
    obtain ⟨name, -, rfl⟩ := List.mem_map.mp hb
    refine .node (hnew _ name) ?_ ?_
    · intro c hc
      cases hc
    · exact placeholders hnew levels (Path.join path name)

/-- **A new block** brings what a catalog offers in it. -/
theorem of_described (hnew : ∀ path name : Text,
    P { (described catalog path name).info with included := false }) {path : Text}
    (hc : c.children = []) (hu : c.unused = Block.placeholders catalog catalog.height path)
    (hi : P c.info) : Throughout P c := by
  refine .node hi ?_ ?_
  · rw [hc]
    intro d hd
    cases hd
  · rw [hu]
    exact placeholders hnew catalog.height path

/-! ### The tree of a text -/

/-- What holds of all that the catalog describes holds throughout what it offers. -/
theorem of_offered (hnew : ∀ d, AsDescribed catalog d → P d.info) {path : Text}
    (h : Offered catalog path b) : Throughout P b :=
  h.described.imp fun d hd => hnew d hd

/-- What sections leave over was offered. -/
theorem mem_of_mem_leftOver : ∀ (sections : List Section) {offers : List Block},
    b ∈ leftOver offers sections → b ∈ offers
  | [], _, h => h
  | _ :: sections, _, h => Named.mem_of_mem_remove (mem_of_mem_leftOver sections h)

mutual

/-- It holds throughout the block that a section grows into when settings keep it. -/
theorem grow (hP : BlockInfo.Placeless P) (hnew : ∀ d, AsDescribed catalog d → P d.info)
    (hset : ∀ d comment settings, AsDescribed catalog d →
      Outline.IsCommentLine comment ∧ '\n' ∉ comment → Setting.AllRegular settings →
        P ((d.commented comment).bindSettings settings).info) :
    ∀ (s : Section), s.Regular → Outline.IsCommentLine s.comment ∧ '\n' ∉ s.comment →
      ∀ {path : Text} {offers : List Block}, (∀ d ∈ offers, Offered catalog path d) →
        Throughout P (Block.grow catalog path offers s)
  | ⟨name, comment, settings, children⟩, hr, hcomment, path, offers, ho => by
    have hseed := offered_seed ho name
    have hretouch := retouch_sprout catalog path offers name comment settings
    have hinfo : P (sprout catalog path offers name comment settings).info :=
      hset _ comment settings hseed.described.here hcomment hr.settings
    have hunused : ∀ d ∈ (sprout catalog path offers name comment settings).unused,
        Offered catalog (sprout catalog path offers name comment settings).path d := by
      rw [hretouch.unused, hretouch.place.path]
      exact hseed.unused
    rw [Block.grow]
    refine .node (hP.included hinfo)
      (growAll hP hnew hset children (fun s hs => ⟨hr.inside s hs, hr.comments s hs⟩) hunused)
      fun d hd => ?_
    exact of_offered hnew (hunused d (mem_of_mem_leftOver _ hd))

/-- It holds throughout blocks that sections grow into, if it does not depend on places and holds of
what the catalog describes, with any regular settings and any comment. -/
theorem growAll (hP : BlockInfo.Placeless P) (hnew : ∀ d, AsDescribed catalog d → P d.info)
    (hset : ∀ d comment settings, AsDescribed catalog d →
      Outline.IsCommentLine comment ∧ '\n' ∉ comment → Setting.AllRegular settings →
        P ((d.commented comment).bindSettings settings).info) :
    ∀ (ss : List Section),
      (∀ s ∈ ss, s.Regular ∧ Outline.IsCommentLine s.comment ∧ '\n' ∉ s.comment) →
      ∀ {path : Text} {offers : List Block}, (∀ d ∈ offers, Offered catalog path d) →
        ∀ b ∈ Block.growAll catalog path offers ss, Throughout P b
  | [], _, _, _, _, b, hb => by
    rw [Block.growAll] at hb
    cases hb
  | s :: ss, hr, path, offers, ho, b, hb => by
    rw [Block.growAll] at hb
    rcases List.mem_cons.mp hb with rfl | hb
    · exact grow hP hnew hset s (hr s List.mem_cons_self).1 (hr s List.mem_cons_self).2 ho
    · exact growAll hP hnew hset ss (fun t ht => hr t (List.mem_cons_of_mem _ ht)) ho b hb

end

/-- **The tree of a text**: it holds throughout the tree when it holds of what a catalog describes,
and the settings of a section keep it. -/
theorem of_parse (hP : BlockInfo.Placeless P) (hnew : ∀ d, AsDescribed catalog d → P d.info)
    (hset : ∀ d comment settings, AsDescribed catalog d →
      Outline.IsCommentLine comment ∧ '\n' ∉ comment → Setting.AllRegular settings →
        P ((d.commented comment).bindSettings settings).info)
    (hroot : ∀ settings, Setting.AllRegular settings →
      P (settings.foldl bindSetting (instantiateRoot catalog)).info)
    {source : Text} {root : Block} (h : parse catalog source = .ok root) : Throughout P root := by
  obtain ⟨outline, ho, rfl⟩ := exists_outline_of_parse h
  have hr := Outline.regular_of_ofText ho
  have hretouch := retouch_foldl_bindSetting outline.settings (instantiateRoot catalog)
  have hunused : ∀ d ∈ (outline.settings.foldl bindSetting (instantiateRoot catalog)).unused,
      Offered catalog (outline.settings.foldl bindSetting (instantiateRoot catalog)).path d := by
    rw [hretouch.unused, hretouch.place.path]
    exact offered_placeholders catalog catalog.height Path.root
  refine .node (hroot _ hr.settings)
    (growAll hP hnew hset outline.children (fun s hs => ⟨hr.inside s hs, hr.comments s hs⟩) hunused)
    fun d hd => ?_
  exact of_offered hnew (hunused d (mem_of_mem_leftOver _ hd))

/-! ### Edits -/

/-- **What an edit does** keeps what holds throughout a document, when it holds of what a catalog
describes, of a block that is chosen from an offer, of a block of the user's choice, and of the
target of the edit after a switch or a change of its parameters. -/
theorem of_effect (hP : BlockInfo.Placeless P) (hnew : ∀ d, AsDescribed catalog d → P d.info)
    (hchosen : ∀ d : Block, P d.info → d.info.included = false → ∀ subtype : Option Text,
      P (subtype.elim (d.mark true) (d.mark true).switchSubtype).info)
    (huser : ∀ i : BlockInfo, P i → P { i with userAdded := true })
    {root root' : Block} {e : Edit} {landing : Landing}
    (hswitched : ∀ b ∈ root.find? e.target, ∀ subtype ∈ e.selected? b,
      ∀ c ∈ b.switchSubtype? subtype, P b.info → P c.info)
    (hupdated : ∀ b ∈ root.find? e.target, ∀ n ∈ e.changed?, e.selected? b = none →
      ∀ f : Slot → Slot, P b.info → (∀ s, b.parameter? n = some s → s.Keeps (f s)) →
        P (b.updateParameter n f).info)
    (hextended : ∀ b ∈ root.find? e.target, ∀ s ∈ e.added?, P b.info →
      b.parameter? s.name = none → P (b.addParameter s).info)
    (hs : All Sound root) (h : Throughout P root) (he : Edit.Effect root catalog e root' landing) :
    Throughout P root' := by
  have hdescribed : ∀ path name : Text,
      P { (described catalog path name).info with included := false } :=
    fun path name => hnew { described catalog path name with
      info := { (described catalog path name).info with included := false } } ⟨false, false, rfl⟩
  cases he with
  | @included path n subtype b c hb hn hc =>
    have hmem := Named.mem_of_find? hc
    have hoffered := (h.of_find? hb).unused c hmem
    have hplaced := (all_sound_of_find? hs hb).here.unused c hmem
    have hmark : Throughout P (c.mark true) := hoffered.with_info (hP.included hoffered.here)
    exact h.set ((h.of_find? hb).attach (hmark.of_retouch
      (Edit.retouch_elim_switchSubtype _ subtype) (hchosen c hoffered.here hplaced.included _)))
  | @added path n name subtype b hb hn hfree =>
    have hoffer := hdescribed (Path.join b.path n) n
    have hfresh : Throughout P (instantiate catalog b.path n) :=
      of_described hdescribed rfl rfl (hP.included hoffer)
    have hswitched := hchosen ((instantiate catalog b.path n).mark false) hoffer rfl subtype
    exact h.set ((h.of_find? hb).attach ((hfresh.of_retouch
      (Edit.retouch_elim_switchSubtype _ subtype) hswitched).with_info (huser _ hswitched)))
  | @removed path parent n b c hpath hb hc =>
    have hfresh : Throughout P ((instantiate catalog b.path n).mark false) :=
      of_described hdescribed rfl rfl (hdescribed (Path.join b.path n) n)
    exact h.set ((h.of_find? hb).withdraw hfresh)
  | @dropped path parent n b c hpath hb hc =>
    refine h.set ((h.of_find? hb).with_children (h.of_find? hb).child fun d hd => ?_)
    exact (h.of_find? hb).unused d (Named.mem_of_mem_remove hd)
  | @renamed path parent n newName b b' hpath hb hn hfree hb' =>
    exact h.set ((h.of_find? hb).renameChild? hP hb')
  | @switched e subtype b c hb hselected hc =>
    exact h.set ((h.of_find? hb).of_retouch (retouch_switchSubtype? hc)
      (hswitched b hb subtype hselected c hc (h.of_find? hb).here))
  | @updated e n f b hb hchanged hselected hkeeps hfits =>
    exact h.set ((h.of_find? hb).of_retouch hfits
      (hupdated b hb n hchanged hselected f (h.of_find? hb).here hkeeps))
  | @extended path name value b hb hn hvalue hfree =>
    exact h.set ((h.of_find? hb).of_retouch (retouch_addParameter (Slot.fits_user name value))
      (hextended b hb _ rfl (h.of_find? hb).here hfree))

end catalog

end Throughout

end Block

end BlockEdit
