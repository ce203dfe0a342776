import BlockEdit.Proofs.Quotable
import BlockEdit.Proofs.Tidy

/-!
# Edited documents

Each edit that is accepted leaves a tidy tree, so the names in the text of an edited document can be
read again. What is left to ask is whether each block is read back as itself. Not every block is: a
parameter without a value that has a comment is read back with one, and a default that holds quotes
of both kinds is read back as another text.

Main statements:

* **`Edit.all_tidy_apply`**: an edit that is accepted leaves a tidy tree.
* **`Document.reloads_iff_of_edits`**: when an edited document is read back as itself.
-/

namespace BlockEdit

namespace Edit

open Block (All Sound Tidy)

/-! ### Edits -/

/-- **What an edit does** leaves a tidy tree. -/
theorem Effect.all_tidy {root root' : Block} {catalog : Catalog} (hc : catalog.NamesAreWords)
    {e : Edit} {landing : Landing} (h : All Tidy root)
    (he : Effect root catalog e root' landing) : All Tidy root' := by
  cases he with
  | @included path n subtype b c hb hn hunused =>
    have htidy := Block.all_tidy_of_find? h hb
    obtain ⟨hmem, hname⟩ := Named.find?_eq_some hunused
    have hmark := Block.all_tidy_mark (htidy.unused c hmem) true
    refine Block.all_tidy_set h hb
      (Block.all_tidy_attach htidy (Block.all_tidy_elim_switchSubtype hmark subtype) ?_) rfl
    rw [(retouch_elim_switchSubtype (c.mark true) subtype).place.name]
    exact (show (c.mark true).name = n from hname).symm ▸ hn
  | @added path n name subtype b hb hn hfree =>
    have htidy := Block.all_tidy_of_find? h hb
    have hnew := Block.all_tidy_elim_switchSubtype (Block.all_tidy_instantiate hc b.path n) subtype
    have hinfo := hnew.here.info
    have hadded : All Tidy (Block.added catalog b.path n subtype) :=
      Block.all_tidy_with_info hnew ⟨hinfo.schema, hinfo.words, hinfo.nodup, hinfo.added,
        hinfo.live, hinfo.stashed⟩
    exact Block.all_tidy_set h hb
      (Block.all_tidy_attach htidy hadded ((name_added catalog b.path n subtype).symm ▸ hn)) rfl
  | @removed path parent n b c hpath hb hchild =>
    exact Block.all_tidy_set h hb
      (Block.all_tidy_withdraw hc (Block.all_tidy_of_find? h hb) n) rfl
  | @dropped path parent n b c hpath hb hunused =>
    have htidy := Block.all_tidy_of_find? h hb
    exact Block.all_tidy_set h hb (Block.all_tidy_with_children htidy
      (fun d hd => ⟨htidy.here.names d hd, htidy.child d hd⟩)
      fun d hd => htidy.unused d (Named.mem_of_mem_remove hd)) rfl
  | @renamed path parent n newName b b' hpath hb hn hfree hb' =>
    refine Block.all_tidy_set h hb
      (Block.all_tidy_renameChild? (Block.all_tidy_of_find? h hb) hn hb')
      (congrArg BlockInfo.name (Block.info_renameChild? hb'))
  | switched hb hselected hswitch =>
    have htidy := Block.all_tidy_of_find? h hb
    have hr := Block.retouch_switchSubtype? hswitch
    exact Block.all_tidy_set h hb (Block.all_tidy_of_retouch htidy hr
      (Block.orderly_switchSubtype? htidy.here.info hswitch)) hr.place.name
  | updated hb hchanged hselected hkeeps hfits =>
    have htidy := Block.all_tidy_of_find? h hb
    refine Block.all_tidy_set h hb (Block.all_tidy_of_retouch htidy hfits ?_) hfits.place.name
    exact Block.orderly_updateParameter htidy.here.info fun s hs =>
      ⟨(hkeeps s hs).name, (hkeeps s hs).userAdded, (hkeeps s hs).writable⟩
  | @extended path name value b hb hn hvalue hfree =>
    have htidy := Block.all_tidy_of_find? h hb
    have hr := @Block.retouch_addParameter b _ (Slot.fits_user name value)
    exact Block.all_tidy_set h hb (Block.all_tidy_of_retouch htidy hr
      (Block.orderly_addParameter htidy.here.info hn hvalue)) hr.place.name

/-- **An edit that is accepted** leaves a tidy tree. -/
theorem all_tidy_apply {root root' : Block} {catalog : Catalog} (hc : catalog.NamesAreWords)
    {e : Edit} {landing : Landing} (hs : All Sound root) (h : All Tidy root)
    (happly : e.apply root catalog = .ok (root', landing)) : All Tidy root' :=
  (effect_of_apply hs happly).all_tidy hc h

end Edit

/-- The names of a tidy block can be read again. -/
theorem Block.Tidy.spelled {b : Block} (h : b.Tidy) : b.Spelled := by
  refine ⟨fun s hs => ?_, fun c hc => Edit.isHeaderName_of_isName (h.names c hc)⟩
  rcases List.mem_append.mp (Block.mem_allParameters_of_written hs).1 with hm | hm
  · exact Edit.isWord_of_isName (h.info.words s hm)
  · exact Edit.isWord_of_isName (h.info.live.words s hm)

/-- In a tidy block each parameter that was added has a text that can be quoted. -/
theorem Block.Tidy.isQuotable_of_added {b : Block} (h : b.Tidy) {s : Slot}
    (hs : s ∈ b.info.parameters) (hadded : s.userAdded = true) : Token.IsQuotable s.text := by
  refine Token.isQuotable_of_needsBothQuotes ?_
  rw [Slot.text]
  rcases hv : s.value with _ | v
  · rfl
  · exact (Value.writable_iff v).mp (h.info.added s hs hadded v hv)

/-- **A value that cannot be read again** counts in a tidy block: it is none that a user added, so
no parameter of the subtype stands in for it. -/
theorem Block.Tidy.effective {b : Block} (h : b.Tidy) {s : Slot}
    (hs : s ∈ Layout.writtenSlots b) (hq : ¬ Token.IsQuotable s.text) : b.Effective s := by
  obtain ⟨before, after, hsplit, hafter⟩ : ∃ before after, b.allParameters = before ++ s :: after ∧
      s.name ∉ Named.names after := by
    have hlast : ∀ slots : List Slot, (Named.names slots).Nodup → s ∈ slots →
        ∃ before after, slots = before ++ s :: after ∧ s.name ∉ Named.names after := by
      intro slots hn hm
      obtain ⟨before, after, rfl⟩ := List.append_of_mem hm
      refine ⟨before, after, rfl, ?_⟩
      rw [Named.names_append, Named.names_cons] at hn
      exact (List.nodup_cons.mp (List.nodup_append.mp hn).2.1).1
    rcases List.mem_append.mp (mem_allParameters_of_written hs).1 with hm | hm
    · obtain ⟨before, after, hsplit, hafter⟩ := hlast _ h.info.nodup hm
      refine ⟨before, after ++ b.info.subtypeParameters, ?_, ?_⟩
      · rw [allParameters, hsplit, List.append_assoc]
        rfl
      · rw [Named.names_append, List.mem_append, not_or]
        exact ⟨hafter, fun hlive => hq (h.isQuotable_of_added hm (h.info.live.added s hm hlive))⟩
    · obtain ⟨before, after, hsplit, hafter⟩ := hlast _ h.info.live.nodup hm
      refine ⟨b.info.parameters ++ before, after, ?_, hafter⟩
      rw [allParameters, hsplit, List.append_assoc]
  rw [Effective, BlockSnapshot.ofBlock, hsplit, List.map_append, List.map_cons]
  refine SortedMap.find?_ofList_append ?_
  rw [List.map_map]
  exact hafter

/-! ### Runs of edits -/

namespace Document

open Block (All Tidy)

/-- **Edits that are accepted** keep the catalog and leave a tidy tree. -/
theorem all_tidy_edits {catalog : Catalog} (hc : catalog.NamesAreWords) : ∀ (es : List Edit)
    {d d' : Document}, Reached catalog d → d.catalog = catalog → All Tidy d.root →
      d.edits es = .ok d' → d'.catalog = catalog ∧ All Tidy d'.root
  | [], d, d', _, hcatalog, h, hd => by
    cases hd
    exact ⟨hcatalog, h⟩
  | e :: es, d, d', hreached, hcatalog, h, hd => by
    rw [Document.edits] at hd
    split at hd
    · next d₁ r happly =>
      obtain ⟨landing, he, hsame, -⟩ := root_of_apply happly
      rw [hcatalog] at he hsame
      exact all_tidy_edits hc es (hreached.apply happly) hsame
        (Edit.all_tidy_apply hc hreached.grounded.tree h he) hd
    · cases hd

/-- **An edited document reads back as itself** exactly when each of its blocks does: its values can
be read again from their quotes, no name is on two lines, and what is read is what was written. -/
theorem reloads_iff_of_edits {catalog : Catalog} (ht : catalog.TypesAreTexts)
    (hn : catalog.NamesAreWords) {es : List Edit} {d : Document}
    (hd : (Document.new catalog).edits es = .ok d) :
    Block.Reloads catalog Layout.defaultIndent d.root ↔
      ∀ b ∈ d.root.descendants, b.Quotable ∧ b.Distinct ∧
        (BlockSnapshot.ofBlock (b.readBack catalog)).same (BlockSnapshot.ofBlock b) = true := by
  have hroot := (Reached.edits es Reached.new hd).grounded
  have htidy := (all_tidy_edits hn es .new rfl (Block.all_tidy_instantiateRoot hn) hd).2
  have hhere : ∀ b ∈ d.root.descendants, b.Tidy := fun b hb => (htidy.descendant hb).here
  exact Block.reloads_iff_quotable ht (List.all_eq_true.mp rfl) hroot.tree hroot.path
    (fun b hb => (hhere b hb).spelled) fun b hb s hs hq => (hhere b hb).effective hs hq

/-- A catalog with one block `/A` that has a number `x`. -/
def numberCatalog : Catalog where
  entries := [("/A".toList,
    { parameters := [{ name := "x".toList, basicType := "Integer".toList }] })]

/-- The catalog with one number has words for its names. -/
theorem namesAreWords_numberCatalog : numberCatalog.NamesAreWords := by
  intro entry hentry
  obtain rfl := List.mem_singleton.mp hentry
  exact ⟨by decide, by decide⟩

/-- A run that adds the block and gives its number a value and a comment reads back as itself. -/
theorem reloads_of_edits_sample : ∃ d, (Document.new numberCatalog).edits
    [.addChild "/".toList (some "A".toList) none, .setText "/A".toList "x".toList "5".toList,
      .setComment "/A".toList "x".toList "note".toList] = .ok d ∧
      Block.Reloads numberCatalog Layout.defaultIndent d.root := by
  let steps : List Edit := [.addChild "/".toList (some "A".toList) none,
    .setText "/A".toList "x".toList "5".toList, .setComment "/A".toList "x".toList "note".toList]
  have hrun : ((Document.new numberCatalog).edits steps).toOption.map (fun d =>
      d.root.descendants.all fun b => decide b.Quotable && (decide b.Distinct &&
        (BlockSnapshot.ofBlock (b.readBack numberCatalog)).same (BlockSnapshot.ofBlock b))) =
          some true := by decide +kernel
  rcases hd : (Document.new numberCatalog).edits steps with e | d
  · rw [hd] at hrun
    cases hrun
  · rw [hd] at hrun
    have htrue := Option.some.inj hrun
    simp only [Bool.and_eq_true, decide_eq_true_eq, List.all_eq_true] at htrue
    refine ⟨d, rfl, ?_⟩
    exact (reloads_iff_of_edits (by decide) namesAreWords_numberCatalog hd).mpr htrue

/-- A comment on a number without a value is written behind nothing, and reading it back gives the
number a value. -/
theorem not_reloads_comment : numberCatalog.TypesAreTexts ∧ numberCatalog.NamesAreWords ∧
    ∃ d, (Document.new numberCatalog).edits [.addChild "/".toList (some "A".toList) none,
        .setComment "/A".toList "x".toList "note".toList] = .ok d ∧
      ¬ Block.Reloads numberCatalog Layout.defaultIndent d.root := by
  let steps : List Edit := [.addChild "/".toList (some "A".toList) none,
    .setComment "/A".toList "x".toList "note".toList]
  have hrun : ((Document.new numberCatalog).edits steps).toOption.map (fun d =>
      (Block.parse numberCatalog (d.text Layout.defaultIndent)).toOption.map fun again =>
        again.structurallyEq d.root) = some (some false) := by decide +kernel
  refine ⟨by decide, namesAreWords_numberCatalog, ?_⟩
  rcases hd : (Document.new numberCatalog).edits steps with e | d
  · rw [hd] at hrun
    cases hrun
  · rw [hd] at hrun
    refine ⟨d, rfl, fun ⟨again, hagain, hsame⟩ => ?_⟩
    have hfalse : (Block.parse numberCatalog (d.root.serialize Layout.defaultIndent)).toOption.map
        (fun again => again.structurallyEq d.root) = some false := Option.some.inj hrun
    rw [hagain] at hfalse
    have hdiffer : again.structurallyEq d.root = false := Option.some.inj hfalse
    rw [hsame] at hdiffer
    cases hdiffer

end Document

end BlockEdit
