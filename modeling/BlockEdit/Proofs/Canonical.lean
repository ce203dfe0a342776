import BlockEdit.Proofs.Edited
import BlockEdit.Proofs.Resaved

/-!
# When a saved document is formatted already

A document that is being edited knows more than its text says: who added a parameter, which text a
value was read from, and in which order the parameters came. What is read back knows only what the
catalog adds to the text. So a saved document is formatted already exactly when each of its blocks
has the lines that it is read back with. A parameter that a user adds to a block without a
description does not: it is written in quotes whether it needs them or not, and it is read back as
any other parameter there. All of this takes values that are read back from their quotes: where
one is not, neither the blocks nor the parameters tell what becomes of the text.

Main statements:

* **`Block.not_canonical_of_userAdded`**: a parameter that loses its quotes.
* **`Document.Reached.hasLineComment`**: no run changes a comment behind a header to one of several
  lines.
* **`Document.Reached.canonical_iff`**: when a saved document is formatted already.
-/

namespace BlockEdit

open Layout (writtenSlots setting outlineOf)

/-! ### Parameters that users add -/

namespace Slot

/-- Quotes around two texts give the same only if the texts are the same. -/
theorem quote_injective : Function.Injective quote := by
  intro t u h
  unfold quote at h
  split at h <;> split at h <;> simp_all

/-- A text that stands in quotes needs quotes again, since it starts with one. -/
theorem textNeedsQuotes_quote (t : Text) : textNeedsQuotes (quote t) = true := by
  unfold quote
  split <;> simp [textNeedsQuotes, asksForQuotes]

/-- A user's own parameter is written in quotes. -/
theorem writtenText_of_userAdded {s : Slot} (h : s.userAdded = true) :
    s.writtenText = quote s.text := by
  simp [writtenText, needsQuotes, h]

/-- A text in a block that the catalog does not know is written in quotes only if it needs them. -/
theorem writtenText_untyped (name t comments : Text) :
    ({ untyped name t with comments } : Slot).writtenText =
      if textNeedsQuotes t = true then quote t else t := by
  have hneeds : ({ untyped name t with comments } : Slot).needsQuotes = textNeedsQuotes t := by
    have hfree : ({ untyped name t with comments } : Slot).isFreeText = false := rfl
    rw [needsQuotes, hfree]
    rfl
  have htext : ({ untyped name t with comments } : Slot).text = t := rfl
  rw [writtenText, hneeds, htext]
  rcases t with _ | ⟨c, t⟩
  · rfl
  · rw [show (c :: t).isEmpty = false from rfl]
    simp

end Slot

namespace Block

variable {catalog : Catalog}

/-- A block that the catalog does not know starts without parameters. -/
theorem allParameters_blank_of_unknown {b : Block} (hb : (b.blank catalog).info.schema = none) :
    (b.blank catalog).allParameters = [] := by
  by_cases hp : b.path = Path.root
  · rw [blank_of_root hp]
    rfl
  · rw [blank_of_ne_root hp] at hb ⊢
    have hlookup : catalog.lookup b.path = none := hb
    rw [allParameters, described, fresh, hlookup]
    rfl

/-- **A parameter that a user adds** to a block that the catalog does not know is written in quotes,
and it is read back as one that has quotes only if it needs them. -/
theorem not_canonical_of_userAdded {b : Block} (hb : (b.blank catalog).info.schema = none)
    (hd : b.Distinct) {s : Slot} (hs : s ∈ writtenSlots b) (hu : s.userAdded = true)
    (ht : Slot.textNeedsQuotes s.text = false) : ¬ b.Canonical catalog := by
  intro hcanon
  have hempty := allParameters_blank_of_unknown hb
  have hnames : (b.blank catalog).subtypeNames = [] := by
    rw [subtypeNames, hb]
    rfl
  have hline : s.line ∈ (b.readBack catalog).lines := by
    rw [show (b.readBack catalog).lines = b.lines from hcanon]
    exact List.mem_map_of_mem hs
  rw [readBack, lines_bindSettings_of_empty hempty hnames (nodup_settings_of_distinct hd), lines,
    writtenSlots_bound_of_empty hempty] at hline
  obtain ⟨t, hmem, hsame⟩ := List.mem_map.mp hline
  obtain ⟨given, -, rfl⟩ := List.mem_map.mp hmem
  have hnew : (b.blank catalog).newSlot given =
      { Slot.untyped given.key given.value with comments := given.comments } := by
    rw [newSlot, isKnown, hb]
    rfl
  have htexts : ((b.blank catalog).newSlot given).writtenText = s.writtenText :=
    congrArg (fun line => line.2.1) hsame
  rw [hnew, Slot.writtenText_untyped, Slot.writtenText_of_userAdded hu] at htexts
  -- What is in quotes on the line is the text of `s`, or the quotes are part of what was read.
  split at htexts
  · next hneeds =>
    rw [Slot.quote_injective htexts, ht] at hneeds
    cases hneeds
  · next hneeds =>
    rw [htexts] at hneeds
    exact hneeds (Slot.textNeedsQuotes_quote s.text)

/-! ### The comments behind headers -/

/-- A block without a comment has one that is a line, if any. -/
theorem hasLineComment_of_eq_nil {i : BlockInfo} (h : i.comments = []) : i.HasLineComment := by
  rw [BlockInfo.HasLineComment, h]
  refine ⟨?_, List.not_mem_nil⟩
  rintro ⟨c, hc, -⟩
  cases hc

/-- A change of values and comments of parameters does not matter to the block's own comment. -/
theorem Retouch.hasLineComment {b c : Block} (h : b.Retouch c) (hb : b.info.HasLineComment) :
    c.info.HasLineComment := by
  rwa [BlockInfo.HasLineComment, h.comments]

end Block

/-- Whether the comment is a line does not depend on where the block lies. -/
theorem BlockInfo.placeless_hasLineComment : BlockInfo.Placeless HasLineComment where
  place _ _ h := h
  included h := h

namespace Block

/-- A block as the catalog describes it has no comment. -/
theorem hasLineComment_of_asDescribed {b : Block} (h : AsDescribed catalog b) :
    b.info.HasLineComment := by
  obtain ⟨included, userAdded, hinfo⟩ := h
  exact hasLineComment_of_eq_nil (by rw [hinfo]; rfl)

/-- The comments that are read are comments behind headers. -/
theorem throughout_hasLineComment_parse {source : Text} {root : Block}
    (h : parse catalog source = .ok root) : Throughout BlockInfo.HasLineComment root := by
  refine .of_parse BlockInfo.placeless_hasLineComment (fun d hd => hasLineComment_of_asDescribed hd)
    (fun d comment settings _ hcomment _ => ?_) (fun settings _ => ?_) h
  · exact (retouch_bindSettings _ settings).hasLineComment hcomment
  · exact (retouch_foldl_bindSetting settings _).hasLineComment (hasLineComment_of_eq_nil rfl)

end Block

/-- No edit changes a comment behind a header. -/
theorem Edit.hasLineComment_of_effect {root root' : Block} {catalog : Catalog} {e : Edit}
    {landing : Landing} (hs : Block.All Block.Sound root)
    (h : Block.Throughout BlockInfo.HasLineComment root)
    (he : Effect root catalog e root' landing) :
    Block.Throughout BlockInfo.HasLineComment root' := by
  refine .of_effect BlockInfo.placeless_hasLineComment
    (fun d hd => Block.hasLineComment_of_asDescribed hd)
    (fun d hd _ subtype => ?_) (fun i hi => hi)
    (fun b _ subtype _ c hc hb => (Block.retouch_switchSubtype? hc).hasLineComment hb)
    (fun b _ n _ _ f hb _ => ?_) (fun b _ s _ hb _ => hb) hs h he
  · exact (Edit.retouch_elim_switchSubtype _ subtype).hasLineComment hd
  · rw [Block.updateParameter]
    split
    · exact hb
    · exact hb

namespace Document

/-- The comments of blocks in a document that edits reach are lines, because only texts that were
read have them. -/
theorem Reached.hasLineComment {catalog : Catalog} {d : Document} (h : Reached catalog d) :
    Block.Throughout BlockInfo.HasLineComment d.root := by
  induction h with
  | new =>
    exact .of_described (fun _ _ => Block.hasLineComment_of_eq_nil rfl) rfl rfl
      (Block.hasLineComment_of_eq_nil rfl)
  | ofText h => exact Block.throughout_hasLineComment_parse (root_of_ofText h).1
  | apply before h ih =>
    obtain ⟨landing, he, -⟩ := root_of_apply h
    have htree := before.grounded.tree
    exact Edit.hasLineComment_of_effect htree ih (Edit.effect_of_apply htree he)
  | replaceText before h ih =>
    obtain ⟨parsed, hparse, hroot, -⟩ := root_of_replaceText h
    rw [hroot]
    exact (Block.throughout_hasLineComment_parse hparse).replaceContents
      BlockInfo.placeless_hasLineComment

/-- The comments behind the headers of a reached document are read as they are written. -/
theorem Reached.hasLineComment_inside {catalog : Catalog} {d : Document} (h : Reached catalog d) :
    ∀ b ∈ d.root.inside, b.info.HasLineComment := fun _ hb =>
  (Block.All.descendant h.hasLineComment (Block.mem_descendants_of_mem_inside hb)).here

section saved

variable {catalog : Catalog} {d : Document} {indent : Text} {again : Block}

/-- **A saved document is formatted already** exactly when each of its blocks, taken alone, has the
lines that it is read back with: the same parameters in the same order, with the same quotes and
the same comments. -/
theorem Reached.canonical_iff (h : Reached catalog d)
    (hi : ∀ c ∈ indent, Token.isFiller c = true)
    (hr : ∀ b ∈ d.root.descendants, b.Spelled ∧ b.Quotable)
    (hagain : Block.parse catalog (d.text indent) = .ok again) :
    again.serialize indent = d.text indent ↔ ∀ b ∈ d.root.descendants, b.Canonical catalog :=
  Block.serialize_eq_iff hi h.grounded.tree h.grounded.path h.hasLineComment_inside
    (fun b hb => (hr b hb).1) (fun b hb => (hr b hb).2) hagain

/-- A value that cannot be read again from its quotes is read as another one, with or without a
comment behind it. What stands in the blocks does not tell then whether the text comes back: both
documents have the lines that their blocks are read back with, block by block. -/
example :
    let misread := fun source : String =>
      (ofText .empty source.toList .memory).toOption.bind fun d =>
        (Block.parse .empty (d.text Layout.defaultIndent)).toOption.map fun again =>
          (decide (∀ b ∈ d.root.descendants, b.Canonical .empty),
            decide (∀ b ∈ d.root.descendants, b.Quotable),
            decide (again.serialize Layout.defaultIndent = d.text Layout.defaultIndent))
    misread "[A]\n  y = \"it's\" '\"  # b'\n[]\n" = some (true, false, true) ∧
      misread "[A]\n  y = \"it's\" '\" # b'\n[]\n" = some (true, false, false) := by
  decide +kernel

/-- A document is not formatted already when a user has added a parameter that needs no quotes to a
block that the catalog does not know. -/
theorem Reached.serialize_ne_of_userAdded (h : Reached catalog d)
    (hi : ∀ c ∈ indent, Token.isFiller c = true)
    (hr : ∀ b ∈ d.root.descendants, b.Spelled ∧ b.Quotable)
    (hagain : Block.parse catalog (d.text indent) = .ok again) {b : Block}
    (hb : b ∈ d.root.descendants) (hblank : (b.blank catalog).info.schema = none) {s : Slot}
    (hs : s ∈ writtenSlots b) (hu : s.userAdded = true)
    (ht : Slot.textNeedsQuotes s.text = false) : again.serialize indent ≠ d.text indent := by
  intro heq
  have hspelled : ∀ c ∈ d.root.descendants, c.Spelled := fun c hc => (hr c hc).1
  have hquotable : ∀ c ∈ d.root.descendants, c.Quotable := fun c hc => (hr c hc).2
  have htree := h.grounded.tree
  obtain ⟨outline, houtline, -⟩ := Block.exists_outline_of_parse hagain
  have hdistinct := ((Layout.ofText_serialize_eq_ok_iff hi
    (Block.readable_of_spelled htree hspelled hquotable)).mp houtline).1
  have hcanon := (Block.serialize_eq_iff hi htree h.grounded.path h.hasLineComment_inside hspelled
    hquotable hagain).mp heq
  exact Block.not_canonical_of_userAdded hblank (hdistinct b hb) hs hu ht (hcanon b hb)

/-- Here, too, values have to be read again from their quotes. A default with several lines can end
its block once it is written, and then a parameter that was added below is read into another block,
where the catalog asks for quotes. -/
example :
    let catalog : Catalog := ⟨[
      ("/P".toList, { parameters := [
        { name := "x".toList, default := some "it's\"\n[]\n\n[B]\n  y = \"o'z".toList }] }),
      ("/B/U".toList, { parameters := [
        { name := "n".toList, cppType := "FunctionExpression".toList }] })]⟩
    ((ofText catalog "[P]\n  [U]\n  []\n[]\n".toList .memory).toOption.bind fun start =>
      (start.edits [.setComment "/P".toList "x".toList "c".toList,
        .addParameter "/P/U".toList "n".toList "2".toList]).toOption.bind fun d =>
          (Block.parse catalog (d.text Layout.defaultIndent)).toOption.map fun again =>
            (decide (∀ b ∈ d.root.descendants, b.Quotable),
              decide (again.serialize Layout.defaultIndent = d.text Layout.defaultIndent))) =
      some (false, true) := by
  decide +kernel

end saved

/-- What a run that adds a block and gives its number a value saves is formatted already. -/
theorem Reached.canonical_iff_sample : ∃ d again, Reached numberCatalog d ∧
    (∀ b ∈ d.root.descendants, b.Spelled ∧ b.Quotable) ∧
      Block.parse numberCatalog (d.text Layout.defaultIndent) = .ok again ∧
        again.serialize Layout.defaultIndent = d.text Layout.defaultIndent := by
  let steps : List Edit := [.addChild "/".toList (some "A".toList) none,
    .setText "/A".toList "x".toList "5".toList, .setComment "/A".toList "x".toList "note".toList]
  have hrun : (((Document.new numberCatalog).edits steps).toOption.bind fun d =>
      (Block.parse numberCatalog (d.text Layout.defaultIndent)).toOption.map fun _ =>
        decide (∀ b ∈ d.root.descendants, b.Quotable ∧ b.Canonical numberCatalog)) =
          some true := by decide +kernel
  obtain ⟨d, hd, hrun⟩ := Option.bind_eq_some_iff.mp hrun
  obtain ⟨again, hagain, hblocks⟩ := Option.map_eq_some_iff.mp hrun
  have hd := eq_ok_of_toOption hd
  have hagain := eq_ok_of_toOption hagain
  have hblocks := of_decide_eq_true hblocks
  have htidy := (all_tidy_edits namesAreWords_numberCatalog steps .new rfl
    (Block.all_tidy_instantiateRoot namesAreWords_numberCatalog) hd).2
  have hr : ∀ b ∈ d.root.descendants, b.Spelled ∧ b.Quotable :=
    fun b hb => ⟨(htidy.descendant hb).here.spelled, (hblocks b hb).1⟩
  have hreached := Reached.edits steps .new hd
  refine ⟨d, again, hreached, hr, hagain, ?_⟩
  exact (hreached.canonical_iff (List.all_eq_true.mp rfl) hr hagain).mpr
    fun b hb => (hblocks b hb).2

/-- A parameter that is added to a block without a description gets quotes, and it loses them when
the saved text is read and written again. -/
theorem not_forall_canonical :
    ¬ ∀ (catalog : Catalog) (d : Document) (again : Block), Reached catalog d →
      Block.parse catalog (d.text Layout.defaultIndent) = .ok again →
        again.serialize Layout.defaultIndent = d.text Layout.defaultIndent := by
  intro hall
  let steps : List Edit := [.addParameter "/A".toList "x".toList "2".toList]
  have hrun : ((ofText Catalog.empty "[A]\n[]\n".toList .memory).toOption.bind fun start =>
      (start.edits steps).toOption.bind fun d =>
        (Block.parse Catalog.empty (d.text Layout.defaultIndent)).toOption.map fun again =>
          (d.text Layout.defaultIndent, again.serialize Layout.defaultIndent)) =
            some ("[A]\n  x = '2'\n[]\n".toList, "[A]\n  x = 2\n[]\n".toList) := by
    decide +kernel
  obtain ⟨start, hstart, hrun⟩ := Option.bind_eq_some_iff.mp hrun
  obtain ⟨d, hd, hrun⟩ := Option.bind_eq_some_iff.mp hrun
  obtain ⟨again, hagain, htexts⟩ := Option.map_eq_some_iff.mp hrun
  obtain ⟨hsaved, hwritten⟩ := Prod.mk.inj htexts
  have hreached := Reached.edits steps (.ofText (eq_ok_of_toOption hstart)) (eq_ok_of_toOption hd)
  have hsame := hall _ d again hreached (eq_ok_of_toOption hagain)
  rw [hsaved, hwritten] at hsame
  revert hsame
  decide

end Document

end BlockEdit
