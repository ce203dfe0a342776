import BlockEdit.Proofs.Growth
import BlockEdit.Proofs.SameText
import BlockEdit.Proofs.SortedMaps

/-!
# Formatting a document

A document that was read from a text is written again and read again. The second tree has the same
blocks as the first in the same order. Two blocks with the same place can hold their parameters and
their warnings in another order, but they say the same, and they are written the same way.

Main statements:

* **`Block.twin_grow`**: a block grows again from what is written for it.
* **`Block.exists_parse_serialize`**: a document that was formatted is the same document, and it is
  formatted already.
-/

namespace BlockEdit

namespace Block

open Layout (writtenSlots setting sectionOf sectionsOf outlineOf)

/-! ### Blocks that are written the same way -/

/-- Two blocks say the same, with everything inside of them, and are written the same way. -/
structure Twin (b c : Block) : Prop where
  /-- Block by block they are alike. -/
  descendants : List.Forall₂ Alike b.descendants c.descendants
  /-- Their lines are the same. -/
  text : SameText b c

namespace Twin

variable {bs cs : List Block}

/-- Trees that say the same one by one do so block by block. -/
theorem allDescendants (h : List.Forall₂ Twin bs cs) :
    List.Forall₂ Alike (allDescendants bs) (Block.allDescendants cs) :=
  forall₂_allDescendants (h.imp fun _ _ h => h.descendants)

/-- Trees that say the same one by one have the same lines. -/
theorem sameText (h : List.Forall₂ Twin bs cs) : List.Forall₂ SameText bs cs :=
  h.imp fun _ _ h => h.text

end Twin

variable {b c : Block}

/-- Only what the blocks know counts. -/
theorem Alike.with_children (h : Alike b c) (bs us cs vs : List Block) :
    Alike (mark true ⟨b.info, bs, us⟩) (mark true ⟨c.info, cs, vs⟩) :=
  ⟨h.name, h.path, h.comments, h.userAdded, h.snapshot, h.written, h.warnings⟩

/-- Alike blocks with twins inside of them are alike block by block. -/
theorem Alike.descendants (h : Alike b c) (hc : List.Forall₂ Twin b.children c.children) :
    List.Forall₂ Alike b.descendants c.descendants := by
  rw [descendants_eq_cons, descendants_eq_cons]
  exact .cons h (Twin.allDescendants hc)

/-- Blocks that are alike have the same lines. -/
theorem Alike.lines (h : Alike b c) : c.lines = b.lines := by
  rw [Block.lines, Block.lines, h.written]

/-- Alike blocks with twins inside of them are twins. -/
theorem Alike.twin (h : Alike b c) (hc : List.Forall₂ Twin b.children c.children) : Twin b c :=
  ⟨h.descendants hc, .of_children h.name h.comments h.lines (Twin.sameText hc)⟩

/-- Alike documents with twins below their roots have the same text. -/
theorem Alike.serialize (h : Alike b c) (hc : List.Forall₂ Twin b.children c.children)
    (indent : Text) : c.serialize indent = b.serialize indent :=
  SameText.serialize h.lines (Twin.sameText hc) indent

/-! ### Growing again -/

variable {catalog : Catalog}

/-- A block is written as one section: its name, its comment on one line, its settings and the
sections of its children. -/
theorem sectionOf_eq (b : Block) : sectionOf b =
    ⟨b.name, Text.dropEndWhile (· == '\r') (Text.replaceChar '\n' ' ' b.info.comments),
      (writtenSlots b).map setting, sectionsOf b.children⟩ := by
  cases b
  rfl

/-- The comment behind a header is read as it was written. -/
theorem comment_of_isCommentLine {comment : Text}
    (h : Outline.IsCommentLine comment ∧ '\n' ∉ comment) :
    Text.dropEndWhile (· == '\r') (Text.replaceChar '\n' ' ' comment) = comment := by
  have hsame : Text.replaceChar '\n' ' ' comment = comment := by
    conv => rhs; rw [← List.map_id comment]
    refine List.map_congr_left fun c hm => if_neg ?_
    rintro rfl
    exact h.2 hm
  rw [hsame]
  exact Text.dropEndWhile_eq_self h.1

/-- A block that a section grew into is written as what was bound to it. -/
theorem sectionOf_grow (catalog : Catalog) (path : Text) (offers : List Block)
    {name comment : Text} (settings : List Setting) (children : List Section)
    (hc : Outline.IsCommentLine comment ∧ '\n' ∉ comment) :
    sectionOf (grow catalog path offers ⟨name, comment, settings, children⟩) =
      ⟨name, comment, (writtenSlots (sprout catalog path offers name comment settings)).map setting,
        sectionsOf (growAll catalog (sprout catalog path offers name comment settings).path
          (sprout catalog path offers name comment settings).unused children)⟩ := by
  have hname : (sprout catalog path offers name comment settings).info.name = name :=
    name_sprout catalog path offers name comment settings
  have hcomment : Text.dropEndWhile (· == '\r') (Text.replaceChar '\n' ' '
      (sprout catalog path offers name comment settings).info.comments) = comment := by
    rw [(retouch_sprout catalog path offers name comment settings).comments]
    exact comment_of_isCommentLine hc
  rw [grow, sectionOf_eq]
  exact congrArg₂ (fun n c => Section.mk n c _ _) hname hcomment

mutual

/-- **A block grows again** from what is written for it. -/
theorem twin_grow (hc : catalog.TypesAreTexts) : ∀ (s : Section), s.Regular →
    (Outline.IsCommentLine s.comment ∧ '\n' ∉ s.comment) → ∀ (path : Text) {offers : List Block},
      (∀ c ∈ offers, All Pristine c) →
        Twin (grow catalog path offers s)
          (grow catalog path offers (sectionOf (grow catalog path offers s)))
  | ⟨name, comment, settings, children⟩, hr, hcomment, path, offers, ho => by
    have hpristine := all_pristine_seed hc ho path name
    have hstart : ((seed catalog path offers name).commented comment).Pristine :=
      hpristine.here.of_info rfl rfl rfl rfl rfl
    have halike : Alike (sprout catalog path offers name comment settings)
        (sprout catalog path offers name comment
          ((writtenSlots (sprout catalog path offers name comment settings)).map setting)) :=
      alike_bindSettings hstart hr.settings
    have hfirst := retouch_sprout catalog path offers name comment settings
    have hagain := retouch_sprout catalog path offers name comment
      ((writtenSlots (sprout catalog path offers name comment settings)).map setting)
    have hunused : ∀ c ∈ (sprout catalog path offers name comment settings).unused,
        All Pristine c := by
      rw [hfirst.unused]
      exact hpristine.unused
    have hinside := twins_growAll hc children
      (fun s hs => ⟨hr.inside s hs, hr.comments s hs⟩)
      (sprout catalog path offers name comment settings).path hunused
    rw [sectionOf_grow catalog path offers settings children hcomment, grow, grow, halike.path,
      hagain.unused.trans hfirst.unused.symm]
    exact (halike.with_children _ _ _ _).twin hinside

/-- **Blocks grow again** from what is written for them. -/
theorem twins_growAll (hc : catalog.TypesAreTexts) : ∀ (ss : List Section),
    (∀ s ∈ ss, s.Regular ∧ Outline.IsCommentLine s.comment ∧ '\n' ∉ s.comment) →
      ∀ (path : Text) {offers : List Block}, (∀ c ∈ offers, All Pristine c) →
        List.Forall₂ Twin (growAll catalog path offers ss)
          (growAll catalog path offers (sectionsOf (growAll catalog path offers ss)))
  | [], _, path, offers, _ => by
    rw [growAll, sectionsOf, growAll]
    exact .nil
  | s :: ss, hr, path, offers, ho => by
    have hfirst := hr s List.mem_cons_self
    rw [growAll, sectionsOf, growAll]
    exact .cons (twin_grow hc s hfirst.1 hfirst.2 path ho)
      (twins_growAll hc ss (fun t ht => hr t (List.mem_cons_of_mem _ ht)) path ho)

end

/-- The root of a document has the settings of its outline. -/
theorem growRoot_eq_bound (catalog : Catalog) {outline : Section}
    (hn : (Named.names outline.settings).Nodup) :
    growRoot catalog outline =
      ⟨((instantiateRoot catalog).bound outline.settings).info,
        growAll catalog Path.root (instantiateRoot catalog).unused outline.children,
        leftOver (instantiateRoot catalog).unused outline.children⟩ := by
  rw [growRoot, foldl_bindSetting_eq_bound hn (untouched_instantiateRoot catalog).nodup]
  rfl

/-- **A document grows again** from what is written for it. -/
theorem twin_growRoot (hc : catalog.TypesAreTexts) {outline : Section} (hr : outline.Regular) :
    Alike (growRoot catalog outline) (growRoot catalog (outlineOf (growRoot catalog outline))) ∧
      List.Forall₂ Twin (growRoot catalog outline).children
        (growRoot catalog (outlineOf (growRoot catalog outline))).children := by
  have hroot := untouched_instantiateRoot catalog
  have hn : (Named.names outline.settings).Nodup := hr.settings.nodup
  have halike := alike_bound hroot hn fun given hgiven => (hr.settings.each given hgiven).comments
  have hinside := twins_growAll hc outline.children (fun s hs => ⟨hr.inside s hs, hr.comments s hs⟩)
    Path.root (all_pristine_placeholders hc catalog.height Path.root)
  have hfirst := growRoot_eq_bound catalog hn
  have hsettings : (outlineOf (growRoot catalog outline)).settings =
      (instantiateRoot catalog).rewritten outline.settings := by
    rw [hfirst]
    rfl
  have hchildren : (outlineOf (growRoot catalog outline)).children =
      sectionsOf (growAll catalog Path.root (instantiateRoot catalog).unused outline.children) := by
    rw [hfirst]
    rfl
  have hn' : (Named.names (outlineOf (growRoot catalog outline)).settings).Nodup := by
    rw [hsettings]
    exact nodup_rewritten hroot hn
  rw [growRoot_eq_bound catalog hn', hsettings, hchildren, hfirst]
  exact ⟨⟨halike.name, halike.path, halike.comments, halike.userAdded, halike.snapshot,
    halike.written, halike.warnings⟩, hinside⟩

/-! ### What is read can be read again -/

/-- The names that are written in a block and in the headers inside of it can be read. -/
structure Spelled (b : Block) : Prop where
  /-- The names of parameters are words. -/
  words : ∀ s ∈ writtenSlots b, Token.IsWord s.name
  /-- The names of the children can stand in a header. -/
  headers : ∀ c ∈ b.children, Outline.IsHeaderName c.name

/-- The values that are written can be written. -/
def Writable (root : Block) : Prop :=
  ∀ b ∈ root.descendants, ∀ s ∈ b.allParameters, s.isWritten = true →
    ∀ v ∈ s.value, v.checkWritable = .ok ()

instance (root : Block) : Decidable root.Writable :=
  inferInstanceAs (Decidable (∀ b ∈ root.descendants, ∀ s ∈ b.allParameters, s.isWritten = true →
    ∀ v ∈ s.value, v.checkWritable = .ok ()))

/-- Values that can be written can be read again from their quotes. -/
theorem quotable_of_writable {root : Block} (hw : root.Writable) :
    ∀ d ∈ root.descendants, d.Quotable := by
  intro d hd s hmem
  obtain ⟨hall, hline⟩ := mem_allParameters_of_written hmem
  refine Token.isQuotable_of_needsBothQuotes ?_
  rw [Slot.text]
  rcases hv : s.value with _ | v
  · rfl
  · exact (Value.writable_iff v).mp (hw d hd s hall hline v hv)

/-- **A sound document with names that can be read** and values that can be read again from their
quotes can be read. -/
theorem readable_of_spelled {root : Block} (h : All Sound root)
    (hs : ∀ d ∈ root.descendants, d.Spelled) (hq : ∀ d ∈ root.descendants, d.Quotable) :
    ∀ d ∈ root.descendants, d.Readable := by
  intro d hd
  have hsound := h.descendant hd
  refine ⟨fun s hmem => ?_, (hs d hd).headers, nodup_children hsound.here⟩
  refine ⟨(hs d hd).words s hmem, ?_, hq d hd s hmem⟩
  rcases List.mem_append.mp (mem_allParameters_of_written hmem).1 with hall | hall
  · exact hsound.here.info.own s hall
  · exact hsound.here.info.live s hall

/-- Blocks that sections grow into have names that can stand in headers. -/
theorem headers_growAll (path : Text) (offers : List Block) {ss : List Section}
    (h : ∀ s ∈ ss, Outline.IsHeaderName s.name) :
    ∀ c ∈ growAll catalog path offers ss, Outline.IsHeaderName c.name := by
  intro c hm
  rw [growAll_eq_map] at hm
  obtain ⟨s, hs, rfl⟩ := List.mem_map.mp hm
  rw [name_grow]
  exact h s hs

mutual

/-- **What a section grows into** can be read again. -/
theorem spelled_grow (hc : catalog.TypesAreTexts) : ∀ (s : Section), s.Regular →
    ∀ (path : Text) {offers : List Block}, (∀ c ∈ offers, All Pristine c) →
      ∀ d ∈ (grow catalog path offers s).descendants, d.Spelled ∧ d.Distinct
  | ⟨name, comment, settings, children⟩, hr, path, offers, ho, d, hd => by
    have hpristine := all_pristine_seed hc ho path name
    have hstart : ((seed catalog path offers name).commented comment).Pristine :=
      hpristine.here.of_info rfl rfl rfl rfl rfl
    obtain ⟨hkeys, hnodup⟩ := written_bindSettings hstart hr.settings.nodup
    have hunused : ∀ c ∈ (sprout catalog path offers name comment settings).unused,
        All Pristine c := by
      rw [(retouch_sprout catalog path offers name comment settings).unused]
      exact hpristine.unused
    rw [grow] at hd
    rcases mem_descendants_cases hd with rfl | ⟨b, hb, hd⟩
    · refine ⟨⟨fun s hs => ?_, headers_growAll _ _ hr.names⟩, hnodup⟩
      obtain ⟨given, hgiven, hkey⟩ := hkeys s hs
      rw [← hkey]
      exact (hr.settings.each given hgiven).key
    · exact spelled_growAll hc children (fun s hs => hr.inside s hs) _ hunused b hb d hd

/-- Everywhere in them the names can be read, and no two lines set the same parameter. -/
theorem spelled_growAll (hc : catalog.TypesAreTexts) : ∀ (ss : List Section),
    (∀ s ∈ ss, s.Regular) → ∀ (path : Text) {offers : List Block},
      (∀ c ∈ offers, All Pristine c) → ∀ b ∈ growAll catalog path offers ss,
        ∀ d ∈ b.descendants, d.Spelled ∧ d.Distinct
  | [], _, path, offers, _, b, hb => by
    rw [growAll] at hb
    cases hb
  | s :: ss, hr, path, offers, ho, b, hb => by
    rw [growAll] at hb
    rcases List.mem_cons.mp hb with rfl | hb
    · exact spelled_grow hc s (hr s List.mem_cons_self) path ho
    · exact spelled_growAll hc ss (fun t ht => hr t (List.mem_cons_of_mem _ ht)) path ho b hb

end

/-- **What an outline grows into** can be read again. -/
theorem spelled_growRoot (hc : catalog.TypesAreTexts) {outline : Section} (hr : outline.Regular) :
    ∀ d ∈ (growRoot catalog outline).descendants, d.Spelled ∧ d.Distinct := by
  intro d hd
  have hroot := untouched_instantiateRoot catalog
  have hn : (Named.names outline.settings).Nodup := hr.settings.nodup
  rw [growRoot_eq_bound catalog hn] at hd
  rcases mem_descendants_cases hd with rfl | ⟨b, hb, hd⟩
  · refine ⟨⟨fun s hs => ?_, headers_growAll _ _ hr.names⟩, ?_⟩
    · obtain ⟨given, hgiven, hkey⟩ := key_of_mem_writtenSlots_bound hroot hn hs
      rw [← hkey]
      exact (hr.settings.each given hgiven).key
    · exact nodup_writtenSlots (nodup_bound hroot.nodup hn) (type_not_mem_bound hroot _)
  · exact spelled_growAll hc outline.children (fun s hs => hr.inside s hs) _
      (all_pristine_placeholders hc catalog.height Path.root) b hb d hd

/-! ### Formatting -/

section alike

variable {bs cs : List Block}

/-- What related blocks agree on, lists of them agree on. -/
theorem map_eq_of_forall₂ {α : Type} {R : Block → Block → Prop} {f g : Block → α}
    (h : List.Forall₂ R bs cs) (hf : ∀ b c, R b c → f c = g b) : cs.map f = bs.map g := by
  induction h with
  | nil => rfl
  | cons h _ ih => rw [List.map_cons, List.map_cons, hf _ _ h, ih]

/-- What holds of blocks holds of those that are related to them. -/
theorem forall_of_forall₂ {R : Block → Block → Prop} {P Q : Block → Prop}
    (h : List.Forall₂ R bs cs) (hb : ∀ b ∈ bs, P b) (hR : ∀ b c, R b c → P b → Q c) :
    ∀ c ∈ cs, Q c := by
  induction h with
  | nil => exact fun c hc => absurd hc List.not_mem_nil
  | cons h _ ih =>
    rw [List.forall_mem_cons] at hb
    exact List.forall_mem_cons.mpr ⟨hR _ _ h hb.1, ih hb.2⟩

/-- What alike blocks agree on, lists of them agree on. -/
theorem map_eq_of_alike {α : Type} {f : Block → α} (h : List.Forall₂ Alike bs cs)
    (hf : ∀ b c, Alike b c → f c = f b) : cs.map f = bs.map f :=
  map_eq_of_forall₂ h hf

/-- Alike blocks have the same warnings. -/
theorem warnings_perm_of_alike (h : List.Forall₂ Alike bs cs) :
    (cs.flatMap fun d => d.info.warnings).Perm (bs.flatMap fun d => d.info.warnings) := by
  induction h with
  | nil => exact .refl _
  | cons h _ ih =>
    rw [List.flatMap_cons, List.flatMap_cons]
    exact h.warnings.append ih

end alike

/-- Documents that are alike block by block are the same. -/
theorem structurallyEq_of_alike (h : List.Forall₂ Alike b.descendants c.descendants) :
    c.structurallyEq b = true := by
  have hsame : Snapshot.ofBlock c = Snapshot.ofBlock b := by
    refine congrArg SortedMap.ofList (map_eq_of_alike h fun b c hbc => ?_)
    rw [hbc.path, hbc.snapshot]
  rw [structurallyEq, hsame]
  exact Snapshot.same_refl _

/-- **Formatting is lossless and idempotent**: the text of a document that was read is read as the
same document, up to the order of its parameters and warnings, and it is formatted already. -/
theorem exists_parse_serialize (hc : catalog.TypesAreTexts) {indent : Text}
    (hi : ∀ c ∈ indent, c = ' ' ∨ c = '\t') {source : Text} {tree : Block}
    (h : parse catalog source = .ok tree) (hw : tree.Writable) :
    ∃ again, parse catalog (tree.serialize indent) = .ok again ∧
      again.structurallyEq tree = true ∧ again.paths = tree.paths ∧
      (again.descendants.map fun b => b.info.comments) =
        (tree.descendants.map fun b => b.info.comments) ∧
      (again.descendants.map fun b => b.info.userAdded) =
        (tree.descendants.map fun b => b.info.userAdded) ∧
      again.diagnostics.Perm tree.diagnostics ∧
      again.serialize indent = tree.serialize indent := by
  have hsound := (grounded_parse h).tree
  obtain ⟨outline, houtline, rfl⟩ := exists_outline_of_parse h
  have hr := Outline.regular_of_ofText houtline
  have hspelled := spelled_growRoot hc hr
  have hreadable := readable_of_spelled hsound (fun d hd => (hspelled d hd).1) (quotable_of_writable hw)
  have hfiller : ∀ c ∈ indent, Token.isFiller c = true := by
    intro c hm
    rcases hi c hm with rfl | rfl
    · rfl
    · rfl
  have hread : Outline.ofText ((growRoot catalog outline).serialize indent) =
      .ok (outlineOf (growRoot catalog outline)) :=
    (Layout.ofText_serialize_eq_ok_iff hfiller hreadable).mpr
      ⟨fun d hd => (hspelled d hd).2, rfl⟩
  obtain ⟨hroot, hinside⟩ := twin_growRoot hc hr
  have halike := hroot.descendants hinside
  refine ⟨_, parse_eq_growRoot catalog hread, structurallyEq_of_alike halike, ?_, ?_, ?_, ?_, ?_⟩
  · have hpaths := map_eq_of_alike halike fun b c hbc => hbc.path
    rw [descendants_eq_cons, descendants_eq_cons, List.map_cons, List.map_cons] at hpaths
    exact (List.cons.inj hpaths).2
  · exact map_eq_of_alike halike fun b c hbc => hbc.comments
  · exact map_eq_of_alike halike fun b c hbc => hbc.userAdded
  · exact warnings_perm_of_alike halike
  · exact hroot.serialize hinside indent

/-- A text with a subtype, a number that is none, and comments. -/
def sampleSource : Text := "[A]#block\nx=five # one\n# more\ny = 'a b'\n type=s\n[b]\n[]\n[]".toList

/-- The text is formatted with tabs, and it can be read again. -/
theorem exists_parse_serialize_sample : ∃ tree again,
    parse Document.sampleCatalog sampleSource = .ok tree ∧
      parse Document.sampleCatalog (tree.serialize ['\t']) = .ok again ∧
      again.structurallyEq tree = true ∧ tree.paths = ["/A".toList, "/A/b".toList] := by
  have hrun : (parse Document.sampleCatalog sampleSource).toOption.map (fun t =>
      (t.paths, decide t.Writable)) = some (["/A".toList, "/A/b".toList], true) := by decide +kernel
  rcases hd : parse Document.sampleCatalog sampleSource with e | tree
  · rw [hd] at hrun
    cases hrun
  · rw [hd] at hrun
    have hpair := Option.some.inj hrun
    have hindent : ∀ c ∈ ['\t'], c = ' ' ∨ c = '\t' := by simp
    obtain ⟨again, hagain, hsame, -⟩ := exists_parse_serialize (by decide) hindent hd
      (of_decide_eq_true (congrArg Prod.snd hpair))
    exact ⟨tree, again, rfl, hagain, hsame, congrArg Prod.fst hpair⟩

end Block

end BlockEdit
