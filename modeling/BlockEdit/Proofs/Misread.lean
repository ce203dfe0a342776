import BlockEdit.Proofs.Places
import BlockEdit.Proofs.Quotes

/-!
# Documents that are misread

When a value that is written cannot be read again from its quotes, the first such value tells: all
pieces in front of it are read as they are meant, so its line is read in its place, and what is read
there is another value. Nothing that follows can take it back.

Main statement:

* **`Layout.exists_misread`**: a document with a value that cannot be read again has a setting in
  its place with another value.
-/

namespace BlockEdit

open Outline Token

/-! ### The first value that cannot be read again -/

/-- A list that does not have a property throughout has a first element without it. -/
theorem exists_first_not {α : Type} {P : α → Prop} : ∀ {l : List α}, ¬ (∀ a ∈ l, P a) →
    ∃ before a after, l = before ++ a :: after ∧ (∀ b ∈ before, P b) ∧ ¬ P a
  | [], h => absurd (List.forall_mem_nil P) h
  | a :: l, h => by
    by_cases ha : P a
    · have hl : ¬ ∀ b ∈ l, P b := fun hall => h (List.forall_mem_cons.mpr ⟨ha, hall⟩)
      obtain ⟨before, b, after, rfl, hbefore, hb⟩ := exists_first_not hl
      exact ⟨a :: before, b, after, rfl, List.forall_mem_cons.mpr ⟨ha, hbefore⟩, hb⟩
    · exact ⟨[], a, l, rfl, List.forall_mem_nil P, ha⟩

/-- The names of a piece can be read, and its value is one of the type. -/
def Piece.Spelled : Piece → Prop
  | header _ b => IsHeaderName b.name
  | slot _ _ s => IsWord s.name ∧ s.Fits
  | close _ => True
  | separator => True

/-- A piece that cannot be read although its names can has a value that cannot be read again. -/
theorem Piece.exists_of_not_readable {p : Piece} (hs : p.Spelled) (hr : ¬ p.Readable) :
    ∃ depth b s, p = .slot depth b s ∧ ¬ IsQuotable s.text := by
  cases p with
  | header depth b => exact absurd hs hr
  | slot depth b s => exact ⟨depth, b, s, rfl, fun hq => hr ⟨hs.1, hs.2, hq⟩⟩
  | close depth => exact absurd trivial hr
  | separator => exact absurd trivial hr

/-! ### What follows a value -/

namespace Text

/-- Blanks in front of a text do not matter to its quotes. -/
theorem quotes_fillers {f : Text} (hf : ∀ c ∈ f, isFiller c = true) (t : Text) :
    quotes (f ++ t) = quotes t := by
  induction f with
  | nil => rfl
  | cons c f ih =>
    rw [List.cons_append, quotes_cons_of_isBlank (isBlank_of_isFiller (hf c List.mem_cons_self))]
    exact ih fun d hd => hf d (List.mem_cons_of_mem _ hd)

end Text

namespace Layout

open Text

variable {indent rest : Text}

/-- The lines of a parameter start without quotes. -/
theorem quotes_slotText {start : Text} (hs : ∀ c ∈ start, isFiller c = true) {s : Slot}
    (hw : IsWord s.name) : quotes (slotText start s ++ rest) = 0 := by
  obtain ⟨⟨c, name, hname, hc⟩, -⟩ := hw
  rw [slotText_eq, slotFront, commentLines]
  split
  · rcases hpieces : Text.pieces (· == '\n') s.comments with _ | ⟨line, lines⟩
    · exact absurd hpieces (Text.pieces_ne_nil _ _)
    · rw [List.flatMap_cons]
      simp only [List.append_assoc, List.cons_append]
      rw [quotes_fillers hs]
      exact quotes_cons rfl rfl _
  · rw [hname]
    simp only [List.append_assoc, List.cons_append, List.nil_append]
    rw [quotes_fillers hs]
    exact quotes_cons_of_isWordStart hc _

/-- **A piece starts without quotes**. -/
theorem quotes_piece (hi : ∀ c ∈ indent, isFiller c = true) {p : Piece} (hp : p.Spelled)
    (hr : quotes rest = 0) : quotes (p.text indent ++ rest) = 0 := by
  have hmargin : ∀ depth, ∀ c ∈ margin indent depth, isFiller c = true :=
    fun depth _ => isFiller_of_mem_times hi depth
  cases p with
  | header depth b =>
    rw [Piece.text, headerText]
    simp only [List.append_assoc, List.cons_append]
    rw [quotes_fillers (hmargin depth)]
    exact quotes_cons rfl rfl _
  | slot depth b s => exact quotes_slotText (hmargin depth) hp.1
  | close depth =>
    rw [Piece.text, List.append_assoc, quotes_fillers (hmargin depth)]
    exact quotes_cons rfl rfl _
  | separator =>
    rw [Piece.text, List.singleton_append, quotes_cons_of_isBlank rfl]
    exact hr

/-- A document whose pieces can be read starts with no quote. -/
theorem quotes_pieces (hi : ∀ c ∈ indent, isFiller c = true) : ∀ {ps : List Piece},
    (∀ p ∈ ps, p.Spelled) → quotes (ps.flatMap (Piece.text indent)) = 0
  | [], _ => rfl
  | p :: ps, hp => by
    rw [List.flatMap_cons]
    exact quotes_piece hi (hp p List.mem_cons_self)
      (quotes_pieces hi fun q hq => hp q (List.mem_cons_of_mem _ hq))

/-- What stands behind a value starts without quotes. -/
theorem quotes_slotEnd (s : Slot) (hr : quotes rest = 0) : quotes (slotEnd s ++ rest) = 0 := by
  rw [slotEnd, lineComment]
  split
  · rw [List.nil_append, List.singleton_append, quotes_cons_of_isBlank rfl]
    exact hr
  · simp only [List.cons_append]
    rw [quotes_cons_of_isBlank rfl, quotes_cons_of_isBlank rfl]
    exact quotes_cons rfl rfl _

end Layout

/-! ### The line of the value -/

namespace Slot

variable {s : Slot}

/-- A value that cannot be read again stands in double quotes. -/
theorem writtenText_of_not_isQuotable (hf : s.Fits) (h : ¬ IsQuotable s.text) :
    s.writtenText = '"' :: s.text ++ ['"'] := by
  have hsingle : s.text.contains '\x27' = true := by
    by_contra hno
    exact h fun hyes => absurd hyes hno
  have hne : s.text ≠ [] := by
    intro hnil
    rw [hnil] at hsingle
    cases hsingle
  have hquotes : s.needsQuotes = true := by
    by_contra hno
    have hword := isWord_text hf (Bool.eq_false_iff.mpr hno) hne
    have := hword.2 '\x27' (List.contains_iff_mem.mp hsingle)
    revert this
    decide
  rw [writtenText, if_pos (by simp [hquotes, hne]), quote, if_pos hsingle]

end Slot

namespace Outline

/-- The values of a line are those in front of anything else. -/
theorem leadingValues_lines : ∀ {lexemes line : List Lexeme} {more : List (List Lexeme)},
    lines lexemes = line :: more →
      leadingValues (line.map Lexeme.token) = leadingValues (lexemes.map Lexeme.token)
  | [], line, more, h => by
    cases h
    rfl
  | l :: lexemes, line, more, h => by
    rw [lines] at h
    split at h
    · next hl =>
      cases h
      rw [List.map_cons, leadingValues, hl]
      rfl
    · rcases hlines : lines lexemes with _ | ⟨first, others⟩
      · exact absurd hlines (lines_ne_nil lexemes)
      · rw [hlines] at h
        cases h
        rw [List.map_cons, List.map_cons, leadingValues, leadingValues,
          leadingValues_lines hlines]

/-- A setting that is read has the values in front of anything else. -/
theorem value_of_readSetting {key : Text} {start : Nat} {pending : List Text}
    {lexemes : List Lexeme} {l : Lexeme} {x : Setting}
    (h : readSetting key start pending (l :: lexemes) = .ok x) :
    x.key = key ∧ x.value = Text.joinWith [' '] (leadingValues (lexemes.map Lexeme.token)) := by
  rw [← takeValues_fst]
  rw [readSetting.eq_def] at h
  split at h
  · next he =>
    cases he
    rcases hend : lineEnd (takeComment (takeValues lexemes).2).2 with e | u
    · simp only [hend] at h
      cases h
    · simp only [hend] at h
      cases h
      exact ⟨rfl, rfl⟩
  · cases h

/-- Lexemes up to a value are cut into the lines above it and the start of its own. -/
theorem lines_to_value {ls : List (List Token)} (hls : ∀ line ∈ ls, Token.newline ∉ line)
    {key : Text} {front back first : List Lexeme} {more : List (List Lexeme)}
    (hfront : front.map Lexeme.token = flatLines ls ++ [.word key, .assign])
    (hback : lines back = first :: more) :
    ∃ cut start stop l, cut.map (List.map Lexeme.token) = ls ∧
      lines (front ++ back) = cut ++ (⟨.word key, start, stop⟩ :: l :: first) :: more := by
  obtain ⟨above, here, rfl, habove, hhere⟩ := List.map_eq_append_iff.mp hfront
  obtain ⟨k, rest, rfl, hk, hrest⟩ := List.map_eq_cons_iff.mp hhere
  obtain ⟨l, none, rfl, hl, hnone⟩ := List.map_eq_cons_iff.mp hrest
  obtain rfl := List.map_eq_nil_iff.mp hnone
  obtain ⟨token, start, stop⟩ := k
  obtain rfl : token = .word key := hk
  obtain ⟨cut, hcut, hlines⟩ := lines_flatLines_append ([⟨.word key, start, stop⟩, l] ++ back) hls habove
  have hnot : ∀ m ∈ [(⟨.word key, start, stop⟩ : Lexeme), l], m.token ≠ .newline := by
    simp [hl]
  refine ⟨cut, start, stop, l, hcut, ?_⟩
  rw [List.append_assoc, hlines, lines_append_of_not_newline hback hnot]
  rfl

/-- **A line that is read in a place** leaves its setting there. -/
theorem exists_holds_of_readLines {cut more : List (List Lexeme)} {key : Text} {start stop : Nat}
    {l : Lexeme} {rest : List Lexeme} {st st' : State}
    (h : readLines st (cut ++ (⟨.word key, start, stop⟩ :: l :: rest) :: more) = .ok st') :
    ∃ x, st'.whole.Holds ((cut.map (List.map Lexeme.token)).foldl lineMove st.place) x ∧
      x.key = key ∧
        x.value = Text.joinWith [' '] (leadingValues (rest.map Lexeme.token)) := by
  obtain ⟨before, hbefore, h⟩ := readLines_append_eq_ok_iff.mp h
  obtain ⟨here, hhere, hmore⟩ := readLines_cons_eq_ok_iff.mp h
  cases reads_of_readLine hhere with
  | quiet hquiet =>
    obtain ⟨body, hbody⟩ := hquiet _ _ rfl
    cases hbody
  | @setting _ _ _ _ x hx =>
    obtain ⟨hkey, hvalue⟩ := value_of_readSetting hx
    refine ⟨x, holds_readLines hmore ?_, hkey, hvalue⟩
    rw [← place_readLines hbefore]
    have hadded : x ∈ (before.withSettings [x]).current.settings :=
      List.mem_append_right _ (List.mem_singleton_self x)
    exact holds_whole hadded

end Outline

namespace Layout

open Text

/-! ### Every parameter has a piece -/

mutual

/-- Each parameter that is written in a block, at whatever depth, is a piece of it. -/
theorem exists_mem_blockPieces (depth : Nat) : ∀ b : Block, ∀ c ∈ b.descendants,
    ∀ s ∈ writtenSlots c, ∃ level, Piece.slot level c s ∈ blockPieces depth b
  | ⟨info, children, unused⟩, c, hc, s, hs => by
    rw [blockPieces]
    rcases Block.mem_descendants_cases hc with rfl | ⟨d, hd, hc⟩
    · refine ⟨depth + 1, List.mem_cons_of_mem _ (List.mem_append_left _ (List.mem_append_left _ ?_))⟩
      exact List.mem_map_of_mem hs
    · obtain ⟨level, hmem⟩ := exists_mem_blocksPieces (depth + 1) children d hd c hc s hs
      exact ⟨level,
        List.mem_cons_of_mem _ (List.mem_append_left _ (List.mem_append_right _ hmem))⟩

/-- Each parameter that is written in one of the blocks is a piece of theirs. -/
theorem exists_mem_blocksPieces (depth : Nat) : ∀ bs : List Block, ∀ b ∈ bs,
    ∀ c ∈ b.descendants, ∀ s ∈ writtenSlots c, ∃ level, Piece.slot level c s ∈ blocksPieces depth bs
  | b :: bs, d, hd, c, hc, s, hs => by
    rw [blocksPieces]
    rcases List.mem_cons.mp hd with heq | hd
    · rw [heq] at hc
      obtain ⟨level, hmem⟩ := exists_mem_blockPieces depth b c hc s hs
      exact ⟨level, List.mem_append_left _ hmem⟩
    · obtain ⟨level, hmem⟩ := exists_mem_blocksPieces depth bs d hd c hc s hs
      exact ⟨level, List.mem_append_right _ hmem⟩

end

/-- Each parameter that is written in a document is a piece of it. -/
theorem exists_mem_topPieces : ∀ (separate : Bool) (bs : List Block), ∀ b ∈ bs,
    ∀ c ∈ b.descendants, ∀ s ∈ writtenSlots c, ∃ level, Piece.slot level c s ∈ topPieces separate bs
  | separate, b :: bs, d, hd, c, hc, s, hs => by
    rw [topPieces]
    rcases List.mem_cons.mp hd with heq | hd
    · rw [heq] at hc
      obtain ⟨level, hmem⟩ := exists_mem_blockPieces 0 b c hc s hs
      exact ⟨level, List.mem_append_left _ (List.mem_append_right _ hmem)⟩
    · obtain ⟨level, hmem⟩ := exists_mem_topPieces true bs d hd c hc s hs
      exact ⟨level, List.mem_append_right _ hmem⟩

/-- **Every parameter that is written** has a piece. -/
theorem exists_mem_documentPieces {root b : Block} (hb : b ∈ root.descendants) {s : Slot}
    (hs : s ∈ writtenSlots b) : ∃ level, Piece.slot level b s ∈ documentPieces root := by
  rw [documentPieces]
  rcases Block.mem_descendants_cases hb with rfl | ⟨d, hd, hb⟩
  · exact ⟨0, List.mem_append_left _ (List.mem_map_of_mem hs)⟩
  · obtain ⟨level, hmem⟩ := exists_mem_topPieces _ root.children d hd b hb s hs
    exact ⟨level, List.mem_append_right _ hmem⟩

/-! ### The document -/

/-- The text up to the first value that cannot be read again is scanned as it is meant. -/
theorem scans_to_value {indent : Text} (hi : ∀ c ∈ indent, isFiller c = true)
    {before : List Piece} (hbefore : ∀ p ∈ before, p.Readable) {depth : Nat} {s : Slot}
    (hw : IsWord s.name) (stop : Text) :
    Scans stop (before.flatMap (Piece.text indent) ++
        (slotFront (margin indent depth) s ++ ' ' :: stop))
      (flatLines (before.flatMap Piece.lines ++
          (bodiesAbove s.comments).map fun body => [.comment body]) ++ [.word s.name, .assign]) := by
  have hmargin : ∀ c ∈ margin indent depth, isFiller c = true :=
    fun _ => isFiller_of_mem_times hi depth
  have hstop : Scans stop (' ' :: stop) [] := .filler rfl .done
  have := scans_pieces hi (scans_slotFront hw hmargin hstop) hbefore
  rwa [flatLines_append, List.append_assoc]

/-- **A text that is read** is read up to a value as it is meant, so that the setting of the value
comes to its place. -/
theorem exists_holds_of_ofText {indent : Text} (hi : ∀ c ∈ indent, isFiller c = true)
    {before : List Piece} (hbefore : ∀ p ∈ before, p.Readable) {depth : Nat} {s : Slot}
    (hw : IsWord s.name) {stop : Text} {outline : Section}
    (ho : ofText (before.flatMap (Piece.text indent) ++
      (slotFront (margin indent depth) s ++ ' ' :: stop)) = .ok outline) :
    ∃ tokens x, Scans [] stop tokens ∧ outline.Holds (before.foldl Piece.move []) x ∧
      x.key = s.name ∧ x.value = Text.joinWith [' '] (leadingValues tokens) := by
  obtain ⟨lexemes, st, hscan, hlines, houter, hclose⟩ := exists_readLines_of_ofText ho
  obtain ⟨front, place, hfront, hstop⟩ := (scans_to_value hi hbefore hw stop).scanFrom 0
  rw [hstop] at hscan
  rcases hvalue : Lexeme.scanFrom 0 place stop with e | back
  · rw [hvalue] at hscan
    cases hscan
  rw [hvalue] at hscan
  cases hscan
  rcases hfirst : lines back with _ | ⟨first, more⟩
  · exact absurd hfirst (lines_ne_nil back)
  have hnewline : ∀ line ∈ before.flatMap Piece.lines ++
      (bodiesAbove s.comments).map fun body => [Token.comment body], Token.newline ∉ line := by
    intro line hline
    rcases List.mem_append.mp hline with hline | hline
    · exact newline_not_mem_pieces before line hline
    · obtain ⟨body, -, rfl⟩ := List.mem_map.mp hline
      simp
  obtain ⟨cut, start, finish, l, hcut, hsplit⟩ := lines_to_value hnewline hfront hfirst
  rw [hsplit] at hlines
  obtain ⟨x, hx, hkey, hread⟩ := exists_holds_of_readLines hlines
  refine ⟨_, x, scans_of_scanFrom hvalue, ?_, hkey, by rw [hread, leadingValues_lines hfirst]⟩
  rw [hcut, List.foldl_append, foldl_lineMove_comments, foldl_lineMove_pieces _ hbefore] at hx
  rw [← hclose]
  rwa [State.whole, houter] at hx

/-- **A document with a value that cannot be read again** is read with another value in its
place. -/
theorem exists_misread {indent : Text} (hi : ∀ c ∈ indent, isFiller c = true) {root : Block}
    (h : Block.All Block.Sound root) (hp : root.path = Path.root)
    (hs : ∀ p ∈ documentPieces root, p.Spelled) (hq : ¬ ∀ d ∈ root.descendants, d.Quotable)
    {outline : Section} (ho : ofText (root.serialize indent) = .ok outline) :
    ∃ b ∈ root.descendants, ∃ s ∈ writtenSlots b, ¬ IsQuotable s.text ∧
      ∃ x, outline.Holds (Path.segments b.path) x ∧ x.key = s.name ∧
        solid x.value ≠ solid s.text := by
  have hreadable : ¬ ∀ p ∈ documentPieces root, p.Readable := by
    intro hall
    refine hq fun d hd s hs => ?_
    obtain ⟨level, hmem⟩ := exists_mem_documentPieces hd hs
    exact (hall _ hmem).quotable
  obtain ⟨before, p, after, hsplit, hbefore, hnot⟩ := exists_first_not hreadable
  have hmem : p ∈ documentPieces root := hsplit ▸ List.mem_append_right _ List.mem_cons_self
  obtain ⟨depth, b, s, rfl, hquot⟩ := Piece.exists_of_not_readable (hs p hmem) hnot
  obtain ⟨hw, hfits⟩ : IsWord s.name ∧ s.Fits := hs _ hmem
  obtain ⟨hb, hsb⟩ := among_documentPieces root _ hmem
  have hafter : ∀ q ∈ after, q.Spelled := fun q hq =>
    hs q (hsplit ▸ List.mem_append_right _ (List.mem_cons_of_mem _ hq))
  have hplace := inPlace_documentPieces h hp
  rw [hsplit] at hplace
  -- The text stops in front of the quotes of the value.
  have htext : root.serialize indent = before.flatMap (Piece.text indent) ++
      (slotFront (margin indent depth) s ++ ' ' ::
        ('"' :: s.text ++ '"' :: (slotEnd s ++ after.flatMap (Piece.text indent)))) := by
    rw [← text_documentPieces, hsplit, List.flatMap_append, List.flatMap_cons]
    show _ ++ (slotText _ s ++ _) = _
    rw [slotText_eq, Slot.writtenText_of_not_isQuotable hfits hquot]
    simp
  rw [htext] at ho
  obtain ⟨tokens, x, hscans, hx, hkey, hvalue⟩ := exists_holds_of_ofText hi hbefore hw ho
  refine ⟨b, hb, s, hsb, hquot, x, InPlace.slot before hplace ▸ hx, hkey, ?_⟩
  rw [hvalue, solid_joinWith]
  exact solid_ne_of_not_isQuotable hquot (quotes_slotEnd s (quotes_pieces hi hafter)) hscans

end Layout

end BlockEdit
