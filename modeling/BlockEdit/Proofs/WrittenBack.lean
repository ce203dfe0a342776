import BlockEdit.Proofs.Misread
import BlockEdit.Proofs.Throughout

/-!
# Values that are written back

A value is read from the tokens behind the sign of its line, which can be in quotes of either kind;
it is written as one token, in one kind of quotes. The line of a parameter gives the value back when
it is cut into the name, the sign and values that are the text of the value, joined by spaces.

What a text says of a parameter is taken as it is, so a value can hold what no quotes can. Which
lines give their values back can be told from the values alone.

Main statements:

* **`Slot.writesBack_iff`**: a line gives its value back exactly when the value can be read again
  from its quotes.
* **`Block.writesBack_iff_of_parse`**: this holds of all parameters that the tree of a text has to
  write.
-/

namespace BlockEdit

/-! ### The line of a parameter -/

namespace Slot

/-- The line that is written for a parameter, up to its comment. -/
def assignment (s : Slot) : Text := s.name ++ " = ".toList ++ s.writtenText

/-- **The line gives the value back**: it is cut into the name, the sign and values only, and the
values, joined by spaces, are the text of the value. -/
def WritesBack (s : Slot) : Prop :=
  ∃ lexemes values texts, Lexeme.scan s.assignment = .ok lexemes ∧
    lexemes.map Lexeme.token = .word s.name :: .assign :: values ∧
    values.map Token.value? = texts.map some ∧ Text.joinWith [' '] texts = s.text

end Slot

open Token Outline

/-- When there are values only, they all stand in front. -/
theorem leadingValues_eq : ∀ {tokens : List Token} {texts : List Text},
    tokens.map value? = texts.map some → leadingValues tokens = texts
  | [], [], _ => rfl
  | token :: tokens, text :: texts, h => by
    obtain ⟨hfirst, hrest⟩ := List.cons.inj h
    rw [leadingValues, hfirst, Option.elim_some, leadingValues_eq hrest]
  | [], _ :: _, h => by cases h
  | _ :: _, [], h => by cases h

namespace Slot

variable {s : Slot}

/-- In front of the value the line has the name and the sign. -/
theorem scans_front (hw : IsWord s.name) (stop : Text) :
    Scans stop (s.name ++ (" = ".toList ++ stop)) [.word s.name, .assign] :=
  scans_word hw ⟨' ', '=' :: ' ' :: stop, rfl, rfl⟩
    (.filler rfl (scans_assign (.filler rfl .done)))

/-- **The tokens of the line** are the name, the sign and the tokens of the value. -/
theorem writesBack_iff_scans (hw : IsWord s.name) : s.WritesBack ↔
    ∃ values texts, Scans [] s.writtenText values ∧
      values.map Token.value? = texts.map some ∧ Text.joinWith [' '] texts = s.text := by
  obtain ⟨front, place, hfront, hscan⟩ := (scans_front hw s.writtenText).scanFrom 0
  rw [← List.append_assoc] at hscan
  constructor
  · rintro ⟨lexemes, values, texts, hline, htokens, hvalues, hjoin⟩
    rw [Lexeme.scan, assignment, hscan] at hline
    rcases hvalue : Lexeme.scanFrom 0 place s.writtenText with fault | back
    · rw [hvalue] at hline
      cases hline
    · rw [hvalue] at hline
      cases hline
      rw [List.map_append, hfront] at htokens
      have hback : back.map Lexeme.token = values := List.append_cancel_left htokens
      exact ⟨values, texts, hback ▸ scans_of_scanFrom hvalue, hvalues, hjoin⟩
  · rintro ⟨values, texts, hscans, hvalues, hjoin⟩
    obtain ⟨back, hback, htokens⟩ := hscans.exists_lexemes place
    refine ⟨front ++ back, values, texts, ?_, ?_, hvalues, hjoin⟩
    · rw [Lexeme.scan, assignment, hscan, hback]
      rfl
    · rw [List.map_append, hfront, htokens]
      rfl

/-- A value that can be read again from its quotes is written as its own tokens. -/
theorem scans_writtenText (hf : s.Fits) (hq : IsQuotable s.text) :
    Scans [] s.writtenText s.valueTokens := by
  rw [writtenText, valueTokens]
  split
  · have hquote := scans_quote hq (.done : Scans [] [] [])
    rwa [List.append_nil] at hquote
  · next hquotes =>
    by_cases hempty : s.text = []
    · rw [hempty]
      exact .done
    · have hneeds : s.needsQuotes = false := by
        simpa [hempty] using hquotes
      rw [if_neg (by simp [hempty])]
      exact scans_word_end (isWord_text hf hneeds hempty)

/-- **A line gives its value back** exactly when the value can be read again from its quotes: it has
no single quote, or it is what is read from the double quotes that it is written in. -/
theorem writesBack_iff (hw : IsWord s.name) (hf : s.Fits) : s.WritesBack ↔ IsQuotable s.text := by
  rw [writesBack_iff_scans hw]
  constructor
  · rintro ⟨values, texts, hscans, hvalues, hjoin⟩
    by_contra hq
    rw [writtenText_of_not_isQuotable hf hq] at hscans
    refine solid_ne_of_not_isQuotable hq Text.quotes_nil hscans ?_
    rw [leadingValues_eq hvalues, ← Text.solid_joinWith, hjoin]
  · intro hq
    have hscans := scans_writtenText hf hq
    rcases s.valueTokens_cases with ⟨hnone, htext⟩ | ⟨token, hone, hvalue⟩
    · rw [hnone] at hscans
      exact ⟨[], [], hscans, rfl, htext.symm⟩
    · rw [hone] at hscans
      exact ⟨[token], [s.text], hscans, congrArg (fun v => [v]) hvalue, Text.joinWith_singleton _ _⟩

end Slot

/-! ### The parameters of a tree -/

/-- All the parameters of a block: its own, those of its subtype and those in the stash. -/
def BlockInfo.slots (i : BlockInfo) : List Slot :=
  i.parameters ++ i.subtypeParameters ++ i.stash.flatMap Prod.snd

/-- What is written has a name that can be read. -/
def BlockInfo.Worded (i : BlockInfo) : Prop :=
  ∀ s ∈ i.slots, s.isWritten = true → IsWord s.name

/-- Every parameter that a sound block knows of has a value that fits, in the stash too. -/
theorem BlockInfo.Sound.fits_of_mem_slots {i : BlockInfo} (h : i.Sound) {s : Slot}
    (hs : s ∈ i.slots) : s.Fits := by
  rcases List.mem_append.mp hs with hs | hs
  · rcases List.mem_append.mp hs with hs | hs
    · exact h.own s hs
    · exact h.live s hs
  · obtain ⟨entry, hentry, hs⟩ := List.mem_flatMap.mp hs
    exact h.stashed entry hentry s hs

/-- Whether names can be read does not depend on where the block lies. -/
theorem BlockInfo.placeless_worded : Placeless Worded where
  place _ _ h := h
  included h := h

namespace Block

open BlockInfo (Worded)

variable {b : Block}

/-- A parameter that is changed is another one, or it is what the change has made of it. -/
theorem mem_slots_updateParameter {n : Text} {f : Slot → Slot} {s : Slot}
    (h : s ∈ (b.updateParameter n f).info.slots) :
    s ∈ b.info.slots ∨ ∃ t, b.parameter? n = some t ∧ s = f t := by
  rw [updateParameter] at h
  simp only [BlockInfo.slots, List.mem_append] at h ⊢
  split at h
  · rcases h with (hown | hlive) | hstash
    · rcases Named.mem_update hown with hown | ⟨t, ht, rfl⟩
      · exact Or.inl (Or.inl (Or.inl hown))
      · exact Or.inr ⟨t, by rw [parameter?, ht, Option.some_or], rfl⟩
    · exact Or.inl (Or.inl (Or.inr hlive))
    · exact Or.inl (Or.inr hstash)
  · next hhas =>
    have hnone := Named.find?_eq_none fun hm => hhas (Named.has_iff.mpr hm)
    rcases h with (hown | hlive) | hstash
    · exact Or.inl (Or.inl (Or.inl hown))
    · rcases Named.mem_update hlive with hlive | ⟨t, ht, rfl⟩
      · exact Or.inl (Or.inl (Or.inr hlive))
      · exact Or.inr ⟨t, by rw [parameter?, hnone, Option.none_or, ht], rfl⟩
    · exact Or.inl (Or.inr hstash)

/-- A change of a parameter whose name is a word leaves names that can be read. -/
theorem worded_updateParameter {n : Text} {f : Slot → Slot} (h : b.info.Worded) (hn : IsWord n)
    (hf : ∀ t, b.parameter? n = some t → (f t).name = n) :
    (b.updateParameter n f).info.Worded := by
  intro s hs hwritten
  rcases mem_slots_updateParameter hs with hold | ⟨t, ht, rfl⟩
  · exact h s hold hwritten
  · rw [hf t ht]
    exact hn

/-- A setting whose name is a word changes a parameter or adds one, under that name. -/
theorem worded_bindSetting {x : Setting} (h : b.info.Worded) (hx : IsWord x.key) :
    (b.bindSetting x).info.Worded := by
  rw [bindSetting]
  split
  · intro s hs hwritten
    simp only [addParameter, BlockInfo.slots, List.mem_append] at hs
    rcases hs with (hown | hlive) | hstash
    · rcases Named.mem_put hown with rfl | hown
      · rw [name_newSlot]
        exact hx
      · exact h s (List.mem_append_left _ (List.mem_append_left _ hown)) hwritten
    · exact h s (List.mem_append_left _ (List.mem_append_right _ hlive)) hwritten
    · exact h s (List.mem_append_right _ hstash) hwritten
  · next slot hslot =>
    have hname : slot.name = x.key := by
      rcases Option.or_eq_some_iff.mp hslot with hfind | ⟨-, hfind⟩
      · exact Named.name_of_find? hfind
      · exact Named.name_of_find? hfind
    dsimp only
    split
    · next t ht => exact worded_updateParameter h hx fun _ _ => (Slot.name_setText ht).trans hname
    · exact worded_updateParameter h hx fun _ _ => hname

/-- Settings whose names are words leave names that can be read. -/
theorem worded_foldl_bindSetting : ∀ (settings : List Setting) {b : Block}, b.info.Worded →
    (∀ x ∈ settings, IsWord x.key) → (settings.foldl bindSetting b).info.Worded
  | [], _, h, _ => h
  | x :: settings, _, h, hx => worded_foldl_bindSetting settings
      (worded_bindSetting h (hx x List.mem_cons_self)) fun y hy => hx y (List.mem_cons_of_mem _ hy)

/-- The name `type` is a word. -/
theorem isWord_typeName : IsWord Slot.typeName :=
  ⟨⟨'t', "ype".toList, rfl, rfl⟩, List.all_eq_true.mp (by decide)⟩

/-- The setting that chooses the subtype writes only parameters of its own name: those of the
subtype are not written yet. -/
theorem worded_bindType {x : Setting} (h : b.info.Worded) (hsubtype : b.info.subtype = none)
    (hlive : b.info.subtypeParameters = []) (hstash : b.info.stash = []) (hx : IsWord x.key) :
    (b.bindType x).info.Worded := by
  rw [bindType]
  split
  · exact worded_bindSetting h hx
  · split
    · next c hc =>
      have hswitched : c.info.Worded := by
        obtain ⟨schema, hs, -⟩ := Option.map_eq_some_iff.mp hc
        rw [switchSubtype?_of_unset hsubtype hlive hstash hs] at hc
        cases hc
        intro s hs hwritten
        simp only [BlockInfo.slots, List.mem_append, hstash] at hs
        rcases hs with (hown | hlive) | hstash
        · rcases Named.mem_update hown with hown | ⟨t, ht, rfl⟩
          · exact h s (List.mem_append_left _ (List.mem_append_left _ hown)) hwritten
          · rw [name_selectType, show t.name = Slot.typeName from Named.name_of_find? ht]
            exact isWord_typeName
        · rw [unwritten_of_mem_materialize hlive] at hwritten
          cases hwritten
        · cases hstash
      refine worded_updateParameter hswitched isWord_typeName fun t ht => ?_
      rcases Option.or_eq_some_iff.mp ht with hfind | ⟨-, hfind⟩
      · exact Named.name_of_find? hfind
      · exact Named.name_of_find? hfind
    · rw [clearSubtype, hsubtype]
      exact worded_bindSetting h hx

/-- A block that nothing was bound to has nothing to write. -/
theorem worded_fresh (name path : Text) (schema childSchema : Option BlockSchema) :
    (fresh name path schema childSchema).info.Worded := by
  intro s hs hwritten
  simp only [fresh, BlockInfo.slots, List.flatMap_nil, List.append_nil] at hs
  rcases schema with _ | schema
  · cases hs
  · rw [unwritten_of_mem_schemaSlots (s := s) hs] at hwritten
    cases hwritten

variable {catalog : Catalog}

/-- A block as the catalog describes it has written names that can be read after regular settings,
the `type` first and then the others. -/
theorem worded_bindSettings {settings : List Setting} (comment : Text)
    (hb : AsDescribed catalog b) (hr : Setting.AllRegular settings) :
    ((b.commented comment).bindSettings settings).info.Worded := by
  obtain ⟨included, userAdded, hinfo⟩ := hb
  have hstart : (b.commented comment).info.Worded := by
    rw [commented, hinfo]
    exact worded_fresh b.name b.path (catalog.lookup b.path) (catalog.wildcardFor b.path)
  have hunset : (b.commented comment).info.subtype = none ∧
      (b.commented comment).info.subtypeParameters = [] ∧
      (b.commented comment).info.stash = [] := by
    rw [commented, hinfo]
    exact ⟨rfl, rfl, rfl⟩
  rw [bindSettings]
  rcases splitType_cases settings with ⟨-, hsplit⟩ | ⟨type, others, -, hsplit, hperm⟩
  · rw [hsplit]
    exact worded_foldl_bindSetting settings hstart fun x hx => (hr.each x hx).key
  · rw [hsplit]
    have hkey : ∀ x ∈ type :: others, IsWord x.key :=
      fun x hx => (hr.each x (hperm.mem_iff.mpr hx)).key
    refine worded_foldl_bindSetting others ?_ fun x hx => hkey x (List.mem_cons_of_mem _ hx)
    exact worded_bindType hstart hunset.1 hunset.2.1 hunset.2.2 (hkey type List.mem_cons_self)

/-- **What the tree of a text has to write** has names that can be read. -/
theorem throughout_worded_parse {source : Text} {root : Block}
    (h : parse catalog source = .ok root) : Throughout Worded root := by
  refine .of_parse BlockInfo.placeless_worded (fun d hd => ?_)
    (fun d comment settings hd _ hr => worded_bindSettings comment hd hr)
    (fun settings hr => worded_foldl_bindSetting settings (worded_fresh _ _ _ _)
      fun x hx => (hr.each x hx).key) h
  obtain ⟨included, userAdded, hinfo⟩ := hd
  rw [hinfo]
  exact worded_fresh d.name d.path (catalog.lookup d.path) (catalog.wildcardFor d.path)

/-- **The line of a parameter in the tree of a text** gives its value back exactly when the value
has no single quote or is what is read from the double quotes that it is written in. -/
theorem writesBack_iff_of_parse {source : Text} {root : Block}
    (h : parse catalog source = .ok root) :
    All (fun b => ∀ s ∈ b.info.slots, s.isWritten = true →
      (s.WritesBack ↔ IsQuotable s.text)) root := by
  refine ((grounded_parse h).tree.and (throughout_worded_parse h)).imp ?_
  rintro b ⟨hsound, hworded⟩ s hs hwritten
  exact Slot.writesBack_iff (hworded s hs hwritten) (hsound.info.fits_of_mem_slots hs)

/-- A text with a value of two parts: the quotes of one kind around the first part are in the
second. -/
def quotesSource : Text := "[A]\n  x = \"it's\"\n  y = 'a\"b' \"it's\"\n[]\n".toList

/-- A value with a single quote gives itself back, and one that needs both kinds of quotes does
not. -/
theorem writesBack_iff_of_parse_sample : ∃ root, parse Catalog.empty quotesSource = .ok root ∧
    ∃ b ∈ root.children, ∃ x ∈ b.info.slots, ∃ y ∈ b.info.slots,
      x.isWritten = true ∧ x.WritesBack ∧ y.isWritten = true ∧ ¬ y.WritesBack := by
  have hrun : (parse Catalog.empty quotesSource).toOption.map (fun root =>
      decide (∃ b ∈ root.children, ∃ x ∈ b.info.slots, ∃ y ∈ b.info.slots,
        (x.isWritten = true ∧ IsQuotable x.text) ∧ y.isWritten = true ∧ ¬ IsQuotable y.text)) =
          some true := by decide +kernel
  rcases hroot : parse Catalog.empty quotesSource with fault | root
  · rw [hroot] at hrun
    cases hrun
  · rw [hroot] at hrun
    obtain ⟨b, hb, x, hx, y, hy, ⟨hxw, hxq⟩, hyw, hyq⟩ := of_decide_eq_true (Option.some.inj hrun)
    have hiff := ((writesBack_iff_of_parse hroot).child b hb).here
    exact ⟨root, rfl, b, hb, x, hx, y, hy, hxw, (hiff x hx hxw).mpr hxq, hyw,
      fun hback => hyq ((hiff y hy hyw).mp hback)⟩

/-- **Not every value that a text sets can be written back.** -/
theorem not_forall_writesBack : ¬ ∀ (catalog : Catalog) (source : Text) (root : Block),
    parse catalog source = .ok root →
      All (fun b => ∀ s ∈ b.info.slots, s.isWritten = true → s.WritesBack) root := by
  intro hall
  have hrun : (parse Catalog.empty quotesSource).toOption.map (fun root =>
      decide (∃ b ∈ root.children, ∃ s ∈ b.info.slots,
        s.isWritten = true ∧ (Lexeme.scan s.assignment).toOption = none)) = some true := by
    decide +kernel
  rcases hroot : parse Catalog.empty quotesSource with fault | root
  · rw [hroot] at hrun
    cases hrun
  · rw [hroot] at hrun
    obtain ⟨b, hb, s, hs, hwritten, hscan⟩ := of_decide_eq_true (Option.some.inj hrun)
    obtain ⟨lexemes, -, -, hline, -⟩ := ((hall _ _ _ hroot).child b hb).here s hs hwritten
    rw [hline] at hscan
    cases hscan

end Block

end BlockEdit
