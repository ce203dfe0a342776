import BlockEdit.Proofs.BlockEntries
import BlockEdit.Proofs.Edited
import BlockEdit.Proofs.Settings
import BlockEdit.Proofs.WrittenOutline

/-!
# One parameter, written and read

The lines of a parameter hold its name, its value and its comment, and nothing else that is written
has a say in how they are read. So what can be said of the way there and back is said of these lines
alone: which tokens they are, which value these make up, and what a block takes from them.

The value goes through two rules that have to agree: when it is put in quotes, and what the scanner
takes for a word or a string. That they do rests on `Slot.isWord_text` for a value without quotes,
and for one in quotes on `Value.checkWritable`, which lets no value through that they cannot hold.

Main statements:

* **`Layout.ofText_slotText`**: the lines of a parameter are read as its setting.
* **`Slot.survives_setValue`**: an accepted value and any comment come back.
-/

namespace BlockEdit

namespace Slot

/-- The tokens of the lines of a parameter: a comment a line above it, the name, the equality sign,
the value, the comment behind it, if there is one, and the end of the line. -/
def lineTokens (above : List Text) (name : Text) (values : List Token) (behind : Option Text) :
    List Token :=
  (above.flatMap fun body => [.comment body, .newline]) ++
    .word name :: .assign :: (values ++ behind.toList.map .comment ++ [.newline])

/-- What is written for the slot, behind `start`, gives back the value `v` and its comment. -/
structure Survives (start : Text) (s : Slot) (v : Value) : Prop where
  /-- The lines have their tokens, and the texts of the value, with a space between any two, read as
  the value. -/
  tokens : ∃ lexemes above values behind texts,
    Lexeme.scan (Layout.slotText start s) = .ok lexemes ∧
      lexemes.map Lexeme.token = lineTokens above s.name values behind ∧
        values.map Token.value? = texts.map some ∧
          s.type.read (Text.joinWith [' '] texts) = .ok v
  /-- The lines are one setting, and its comment is that of the slot without the carriage returns
  at the ends of its lines. -/
  outline : Outline.ofText (Layout.slotText start s) =
    .ok ⟨[], [], [⟨s.name, s.text, Layout.readComments s.comments⟩], []⟩
  /-- A block takes the comment from the setting, and, for a parameter of this type, the value. -/
  bound : ∀ b : Block, ∃ t,
    (b.bindSetting (Layout.setting s)).parameter? s.name = some t ∧
      t.comments = Layout.readComments s.comments ∧
        ∀ old, b.parameter? s.name = some old → old.type = s.type → t.value = some v

variable {s : Slot} {v w : Value}

/-! ### Values -/

/-- A value that was checked reads back from its text. -/
theorem read_text_of_checkValue (h : s.checkValue v = .ok w) : s.type.read w.text = .ok w :=
  ValueType.read_text (Value.hasType_of_conform (checkValue_eq_ok.mp h).1)

/-- **A slot with a checked value** can be read, whatever its comment is. -/
theorem readable_give (hw : Token.IsWord s.name) (h : s.checkValue v = .ok w) (comments : Text) :
    Readable { s.give (some w) with comments } := by
  obtain ⟨hconform, hwritable⟩ := checkValue_eq_ok.mp h
  refine ⟨hw, ?_, ?_⟩
  · exact fits_of_hasType (v := w) rfl (Value.hasType_of_conform hconform)
  · exact Token.isQuotable_of_needsBothQuotes ((Value.writable_iff w).mp hwritable)

/-- The texts of the value tokens, with a space between any two, are the text of the slot. -/
theorem exists_texts_valueTokens (s : Slot) : ∃ texts,
    s.valueTokens.map Token.value? = texts.map some ∧ Text.joinWith [' '] texts = s.text := by
  rcases s.valueTokens_cases with ⟨hnone, htext⟩ | ⟨token, hsome, hvalue⟩
  · exact ⟨[], by rw [hnone]; rfl, htext.symm⟩
  · exact ⟨[s.text], by rw [hsome, List.map_singleton, hvalue]; rfl, rfl⟩

end Slot

/-! ### The lines of a parameter -/

namespace Layout

open Token Outline

variable {s : Slot} {start : Text}

/-- The lines of a parameter, put together, are its tokens. -/
theorem flatLines_slotLines (s : Slot) : flatLines (slotLines s) =
    Slot.lineTokens (bodiesAbove s.comments) s.name s.valueTokens
      (if (behind s.comments).isEmpty then none else some (' ' :: behind s.comments)) := by
  have habove : ∀ bodies : List Text, flatLines (bodies.map fun body => [.comment body]) =
      bodies.flatMap fun body => [.comment body, .newline] := by
    intro bodies
    rw [flatLines, List.flatMap_map]
    rfl
  have hbehind : ∀ comment : Text, lineCommentTokens comment =
      (if comment.isEmpty then none else some (' ' :: comment)).toList.map .comment := by
    intro comment
    rw [lineCommentTokens]
    split
    · rfl
    · rfl
  rw [slotLines, flatLines_append, habove, flatLines_cons, hbehind, Slot.lineTokens]
  simp [flatLines]

/-- The tokens of the lines of a parameter. -/
theorem exists_scan_slotText (hr : s.Readable) (hs : ∀ c ∈ start, isFiller c = true) :
    ∃ lexemes, Lexeme.scan (slotText start s) = .ok lexemes ∧
      lexemes.map Lexeme.token = flatLines (slotLines s) := by
  have hscans := scans_slotText hr hs (Scans.done : Scans [] [] [])
  rw [List.append_nil, List.append_nil] at hscans
  obtain ⟨lexemes, hscan, htokens⟩ := hscans.exists_lexemes 0
  exact ⟨lexemes, by rw [Lexeme.scan, hscan]; rfl, htokens⟩

/-- **The lines of a parameter** are read as its setting. -/
theorem ofText_slotText (hr : s.Readable) (hs : ∀ c ∈ start, isFiller c = true) :
    Outline.ofText (slotText start s) = .ok ⟨[], [], [setting s], []⟩ := by
  obtain ⟨lexemes, hscan, htokens⟩ := exists_scan_slotText hr hs
  -- Behind the last line end stands an empty line, which changes nothing.
  have hlines := lines_of_flatLines
    (newline_not_mem_piece (.slot 0 (Block.instantiateRoot .empty) s)) htokens
  obtain ⟨own, last, hsplit, hown, hlast⟩ := List.map_eq_append_iff.mp hlines
  obtain ⟨line, none, rfl, hline, hnone⟩ := List.map_eq_cons_iff.mp hlast
  obtain rfl := List.map_eq_nil_iff.mp hnone
  obtain rfl := List.map_eq_nil_iff.mp hline
  have hread : readLines State.start (lines lexemes) =
      .ok (State.start.withSettings [setting s]) := by
    rw [hsplit, readLines_append_eq_ok_iff]
    exact ⟨_, (readLines_slotLines rfl hown).mpr ⟨List.not_mem_nil, rfl⟩, rfl⟩
  rw [Outline.ofText, hscan]
  simp only [ofLexemes, hread]
  rfl

end Layout

/-! ### What a block takes from a setting -/

namespace Block

variable {b : Block} {given : Setting} {v : Value}

/-- **A block takes the comment of a setting**, and its value where this is one of the type. -/
theorem parameter?_bindSetting (b : Block) (given : Setting) : ∃ t,
    (b.bindSetting given).parameter? given.key = some t ∧ t.comments = given.comments ∧
      ∀ old v, b.parameter? given.key = some old → old.type.read given.value = .ok v →
        t.value = some v := by
  rcases hfind : b.parameter? given.key with _ | s
  · refine ⟨b.newSlot given, ?_, ?_, fun _ _ hold => by cases hold⟩
    · have hname : Named.name (b.newSlot given) = given.key := name_newSlot b given
      have hput := Named.find?_put (b.newSlot given) b.info.parameters
      rw [hname] at hput
      have hbound : b.bindSetting given = b.addParameter (b.newSlot given) := by
        rw [bindSetting, hfind]
      rw [hbound, addParameter, parameter?, hput, Option.some_or]
    · rfl
  · have hname : s.name = given.key := by
      rw [parameter?_eq_find?] at hfind
      exact Named.name_of_find? hfind
    refine ⟨s.take given, ?_, ?_, ?_⟩
    · have hupdate := parameter?_updateParameter (f := fun _ => s.take given) hfind
        ((s.name_take given).trans hname) given.key
      rw [if_pos rfl] at hupdate
      rw [bindSetting_of_some hfind]
      exact hupdate
    · rcases hread : s.type.read given.value with e | v
      · rw [Slot.take_of_error hread]
        rfl
      · rw [Slot.take_of_ok hread]
        rfl
    · intro old v hold hread
      cases hold
      rw [Slot.take_of_ok hread]
      rfl

end Block

namespace Slot

variable {s s' : Slot} {v w : Value} {start : Text}

/-- **A slot with a checked value** gives it back with any comment. -/
theorem survives_give (hname : Token.IsWord s.name) (hs : ∀ c ∈ start, Token.isFiller c = true)
    (h : s.checkValue v = .ok w) (comments : Text) :
    Survives start { s.give (some w) with comments } w := by
  have hr := readable_give hname h comments
  have hread : s.type.read w.text = .ok w := read_text_of_checkValue h
  refine ⟨?_, Layout.ofText_slotText hr hs, fun b => ?_⟩
  · obtain ⟨lexemes, hscan, htokens⟩ := Layout.exists_scan_slotText hr hs
    obtain ⟨texts, hvalues, hjoin⟩ :=
      exists_texts_valueTokens ({ s.give (some w) with comments } : Slot)
    rw [Layout.flatLines_slotLines] at htokens
    exact ⟨lexemes, _, _, _, texts, hscan, htokens, hvalues, by rw [hjoin]; exact hread⟩
  · obtain ⟨t, ht, hcomments, hvalue⟩ := Block.parameter?_bindSetting b
      (Layout.setting { s.give (some w) with comments })
    exact ⟨t, ht, hcomments, fun old hold htype => hvalue old w hold (htype ▸ hread)⟩

/-- **Every accepted value and any comment** come back from what is written for them, for every slot
whose name is accepted and at every depth. -/
theorem survives_setValue (hname : Edit.checkName s.name = .ok ()) {indent : Text}
    (hi : ∀ c ∈ indent, Token.isFiller c = true) (depth : Nat) (hv : s.checkValue v = .ok w)
    (comments : Text) : ∃ s', s.setValue v = .ok s' ∧ s'.value = some w ∧
      Survives (Layout.margin indent depth) { s' with comments } w := by
  refine ⟨s.give (some w), ?_, rfl, ?_⟩
  · rw [setValue, hv]
    rfl
  · exact survives_give (Edit.isWord_of_isName (Edit.isName_of_checkName hname))
      (fun _ => Layout.isFiller_of_mem_times hi depth) hv comments

/-- A text that needs double quotes, with a comment of two lines. -/
theorem survives_setValue_sample :
    (Slot.user "x".toList []).checkValue (Value.ofText "it's".toList) =
        .ok (Value.ofText "it's".toList) ∧
      ∃ s', (Slot.user "x".toList []).setValue (Value.ofText "it's".toList) = .ok s' ∧
        s'.value = some (Value.ofText "it's".toList) ∧
          Survives (Layout.margin Layout.defaultIndent 1)
            { s' with comments := "so far\r\nonly".toList } (Value.ofText "it's".toList) := by
  have hv : (Slot.user "x".toList []).checkValue (Value.ofText "it's".toList) =
      .ok (Value.ofText "it's".toList) := rfl
  exact ⟨hv, survives_setValue rfl (List.all_eq_true.mp rfl) 1 hv "so far\r\nonly".toList⟩

end Slot

end BlockEdit
