import BlockEdit.Proofs.Lookup
import BlockEdit.Proofs.ReadBack
import BlockEdit.Proofs.Scans
import BlockEdit.Tree.Layout

/-!
# The tokens of a written document

What `Layout` writes is scanned line by line: each parameter, each header and each end of a block
gives the tokens that are meant, whatever text follows. A value in quotes is one token, and a value
without quotes is a word.

Main statements:

* **`Slot.isWord_text`**: a value that is not empty and needs no quotes is a word.
* **`Layout.scans_serialize`**: the text of a document has the tokens of its lines.
-/

namespace BlockEdit

/-- What has to hold of a parameter for its lines to be read as they are meant. -/
structure Slot.Readable (s : Slot) : Prop where
  /-- The name is a word. -/
  word : Token.IsWord s.name
  /-- The value is one of the type. -/
  fits : s.Fits
  /-- The value can be read again from its quotes. -/
  quotable : Token.IsQuotable s.text

/-! ### Values -/

namespace Token

/-- What needs no quotes can start a word. -/
theorem isWordStart_of_isBareChar {c : Char} (h : Text.isBareChar c = true) :
    isWordStart c = true := by
  have hne : ∀ d : Char, Text.isBareChar d = false → c ≠ d := by
    rintro d hd rfl
    rw [h] at hd
    cases hd
  simp only [isWordStart, isWordPart, Bool.and_eq_true, bne_iff_ne, Bool.not_eq_true']
  refine ⟨⟨⟨⟨⟨⟨Text.not_isBlank_of_isBareChar h, ?_⟩, ?_⟩, ?_⟩, ?_⟩, ?_⟩, ?_⟩
  all_goals exact hne _ (by decide)

/-- A bare text is a word. -/
theorem isWord_of_isBare {t : Text} (h : Text.IsBare t) : IsWord t := by
  rcases t with _ | ⟨c, t⟩
  · exact absurd rfl h.1
  · refine ⟨⟨c, t, rfl, isWordStart_of_isBareChar (h.2 c List.mem_cons_self)⟩, fun d hd => ?_⟩
    exact isWordPart_of_isWordStart (isWordStart_of_isBareChar (h.2 d hd))

/-- A text that needs no quotes is a word. -/
theorem isWord_of_textNeedsQuotes {t : Text} (hne : t ≠ [])
    (h : Slot.textNeedsQuotes t = false) : IsWord t := by
  rw [Slot.textNeedsQuotes, Bool.or_eq_false_iff, List.any_eq_false] at h
  obtain ⟨hany, hfirst⟩ := h
  have hpart : ∀ c ∈ t, isWordPart c = true := by
    intro c hc
    have := hany c hc
    simp only [Slot.asksForQuotes, Bool.or_eq_true, not_or, beq_iff_eq, Bool.not_eq_true] at this
    obtain ⟨⟨⟨⟨hblank, -⟩, hassign⟩, hsingle⟩, hdouble⟩ := this
    simp only [isWordPart, Bool.and_eq_true, bne_iff_ne, Bool.not_eq_true']
    exact ⟨⟨⟨hblank, hassign⟩, hsingle⟩, hdouble⟩
  rcases t with _ | ⟨c, t⟩
  · exact absurd rfl hne
  · refine ⟨⟨c, t, rfl, ?_⟩, hpart⟩
    simp only [List.head?_cons, Option.map_some, Option.getD_some, Slot.asksForQuotesFirst,
      Bool.or_eq_false_iff, beq_eq_false_iff_ne] at hfirst
    simp only [isWordStart, Bool.and_eq_true, bne_iff_ne]
    exact ⟨⟨⟨hpart c List.mem_cons_self, hfirst.1.1⟩, hfirst.1.2⟩, hfirst.2⟩

end Token

namespace Slot

open Token

variable {s : Slot} {stop : Text}

/-- **A value that is not empty and needs no quotes** is a word. -/
theorem isWord_text (hf : s.Fits) (hq : s.needsQuotes = false) (hne : s.text ≠ []) :
    IsWord s.text := by
  rcases hv : s.value with _ | v
  · rw [text, hv] at hne
    exact absurd rfl hne
  · have htext : s.text = v.text := by rw [text, hv]; rfl
    have htype := hasType_of_fits hf hv
    rw [htext] at hne ⊢
    simp only [needsQuotes, Bool.or_eq_false_iff] at hq
    obtain ⟨⟨⟨⟨harray, -⟩, -⟩, -⟩, hstring⟩ := hq
    rcases ht : s.type with kind | kind
    · rw [ht] at htype
      rcases v with sc | items
      · by_cases hk : sc.kind = .string
        · cases sc with
          | string t =>
            rw [hv] at hstring
            exact isWord_of_textNeedsQuotes hne hstring
          | _ => cases hk
        · exact isWord_of_isBare (Scalar.isBare_text hk)
      · cases htype
    · rw [ht] at harray
      cases harray

/-- The token of a text in quotes. -/
def quoteToken (t : Text) : Token :=
  if t.contains '\x27' then .doubleQuoted t else .singleQuoted t

/-- The tokens of the value of a slot; there is at most one. -/
def valueTokens (s : Slot) : List Token :=
  if s.needsQuotes && (!s.text.isEmpty || s.userAdded) then [quoteToken s.text]
  else if s.text.isEmpty then [] else [.word s.text]

/-- A text in quotes is never empty. -/
theorem quote_ne_nil (t : Text) : quote t ≠ [] := by
  rw [quote]
  split
  · simp
  · simp

/-- A text in quotes is one token. -/
theorem scans_quote {t rest : Text} {tokens : List Token} (ht : IsQuotable t)
    (h : Scans stop rest tokens) : Scans stop (quote t ++ rest) (quoteToken t :: tokens) := by
  rw [quote, quoteToken]
  split
  · next hsingle =>
    have := scans_doubleQuoted (ht hsingle) h
    simpa using this
  · next hsingle =>
    have hparts : ∀ c ∈ t, isSinglePart c = true := by
      intro c hc
      rw [isSinglePart, bne_iff_ne]
      rintro rfl
      exact hsingle (List.contains_iff_mem.mpr hc)
    have := scans_singleQuoted hparts h
    simpa using this

/-- **The written value** has its tokens. -/
theorem scans_value {rest : Text} {tokens : List Token} (hs : s.Readable) (hr : EndsWord rest)
    (h : Scans stop rest tokens) :
    Scans stop ((if s.writtenText.isEmpty then [] else ' ' :: s.writtenText) ++ rest)
      (s.valueTokens ++ tokens) := by
  rw [writtenText, valueTokens]
  split
  · rw [if_neg (by simp [quote_ne_nil])]
    exact .filler rfl (scans_quote hs.quotable h)
  · next hquotes =>
    split
    · exact h
    · next hne =>
      have hne' : s.text ≠ [] := by simpa using hne
      have hq : s.needsQuotes = false := by
        rw [List.isEmpty_eq_false_iff.mpr hne'] at hquotes
        simpa using hquotes
      exact .filler rfl (scans_word (isWord_text hs.fits hq hne') hr h)

end Slot

/-! ### Lines -/

namespace Layout

open Token Outline

/-- The tokens of a comment behind something. -/
def lineCommentTokens (comment : Text) : List Token :=
  if comment.isEmpty then [] else [.comment (' ' :: comment)]

/-- What follows the mark in each line of a comment that stands above its parameter. -/
def bodiesAbove (comments : Text) : List Text :=
  if comments.contains '\n' then
    (Text.pieces (· == '\n') comments).map fun line => if line.isEmpty then [] else ' ' :: line
  else []

/-- The comment that stands behind its parameter. -/
def behind (comments : Text) : Text := if comments.contains '\n' then [] else comments

/-- The lines of a parameter. -/
def slotLines (s : Slot) : List (List Token) :=
  (bodiesAbove s.comments).map (fun body => [.comment body]) ++
    [.word s.name :: .assign :: (s.valueTokens ++ lineCommentTokens (behind s.comments))]

end Layout

/-- A piece of a document, at its depth. A document is written piece by piece. -/
inductive Piece where
  /-- The header line of a block. -/
  | header (depth : Nat) (b : Block)
  /-- The lines of a parameter of a block. -/
  | slot (depth : Nat) (b : Block) (s : Slot)
  /-- The last line of a block. -/
  | close (depth : Nat)
  /-- The empty line between two blocks. -/
  | separator

namespace Piece

open Layout

/-- The text of a piece. -/
def text (indent : Text) : Piece → Text
  | header depth b => headerText (margin indent depth) b
  | slot depth _ s => slotText (margin indent depth) s
  | close depth => margin indent depth ++ ['[', ']', '\n']
  | separator => ['\n']

/-- The tokens of the lines of a piece. -/
def lines : Piece → List (List Token)
  | header _ b => [.header b.name :: lineCommentTokens (Text.replaceChar '\n' ' ' b.info.comments)]
  | slot _ _ s => slotLines s
  | close _ => [[.header []]]
  | separator => [[]]

/-- What has to hold of a piece for its lines to be read as they are meant. -/
def Readable : Piece → Prop
  | header _ b => Outline.IsHeaderName b.name
  | slot _ _ s => s.Readable
  | close _ => True
  | separator => True

end Piece

namespace Layout

open Token Outline

mutual

/-- The pieces of a block and everything inside of it. -/
def blockPieces (depth : Nat) : Block → List Piece
  | ⟨info, children, unused⟩ =>
    .header depth ⟨info, children, unused⟩ ::
      ((writtenSlots ⟨info, children, unused⟩).map (.slot (depth + 1) ⟨info, children, unused⟩) ++
        blocksPieces (depth + 1) children ++ [.close depth])

/-- The pieces of blocks one after the other. -/
def blocksPieces (depth : Nat) : List Block → List Piece
  | [] => []
  | b :: bs => blockPieces depth b ++ blocksPieces depth bs

end

/-- The pieces of the blocks below the root. -/
def topPieces : Bool → List Block → List Piece
  | _, [] => []
  | separate, b :: bs =>
    (if separate then [.separator] else []) ++ blockPieces 0 b ++ topPieces true bs

/-- The pieces of a document. -/
def documentPieces (root : Block) : List Piece :=
  (writtenSlots root).map (.slot 0 root) ++
    topPieces (!(slotsText [] root).isEmpty) root.children

/-- The lines of a block and everything inside of it. -/
def blockLines (depth : Nat) (b : Block) : List (List Token) :=
  (blockPieces depth b).flatMap Piece.lines

/-- The lines of blocks one after the other. -/
def blocksLines (depth : Nat) (bs : List Block) : List (List Token) :=
  (blocksPieces depth bs).flatMap Piece.lines

/-- The lines of the blocks below the root. -/
def topLines (separate : Bool) (bs : List Block) : List (List Token) :=
  (topPieces separate bs).flatMap Piece.lines

/-- The lines of a document. -/
def documentLines (root : Block) : List (List Token) :=
  (documentPieces root).flatMap Piece.lines

/-- The lines of parameters are theirs one after the other. -/
theorem lines_slots (depth : Nat) (b : Block) (slots : List Slot) :
    (slots.map (Piece.slot depth b)).flatMap Piece.lines = slots.flatMap slotLines := by
  rw [List.flatMap_map]
  rfl

/-- The lines of a block are its header, its parameters, its children and its end. -/
theorem blockLines_mk (depth : Nat) (info : BlockInfo) (children unused : List Block) :
    blockLines depth ⟨info, children, unused⟩ =
      (.header info.name :: lineCommentTokens (Text.replaceChar '\n' ' ' info.comments)) ::
        ((writtenSlots ⟨info, children, unused⟩).flatMap slotLines ++
          blocksLines (depth + 1) children ++ [[.header []]]) := by
  rw [blockLines, blockPieces, List.flatMap_cons, List.flatMap_append, List.flatMap_append,
    lines_slots]
  rfl

/-- The lines of blocks are theirs one after the other. -/
theorem blocksLines_cons (depth : Nat) (b : Block) (bs : List Block) :
    blocksLines depth (b :: bs) = blockLines depth b ++ blocksLines depth bs := by
  rw [blocksLines, blocksPieces, List.flatMap_append]
  rfl

/-- The lines of the blocks at the top are theirs, with an empty line between two of them, and in
front where something precedes them. -/
theorem topLines_cons (separate : Bool) (b : Block) (bs : List Block) :
    topLines separate (b :: bs) =
      (if separate then [[]] else []) ++ blockLines 0 b ++ topLines true bs := by
  rw [topLines, topPieces, List.flatMap_append, List.flatMap_append]
  cases separate with
  | false => rfl
  | true => rfl

/-- The lines of a document are the parameters of the root and then the blocks at the top. -/
theorem documentLines_eq (root : Block) : documentLines root =
    (writtenSlots root).flatMap slotLines ++
      topLines (!(slotsText [] root).isEmpty) root.children := by
  rw [documentLines, documentPieces, List.flatMap_append, lines_slots]
  rfl

/-! ### The text of the pieces -/

section text

variable (indent : Text)

/-- The pieces of parameters give their text. -/
theorem text_slots (depth : Nat) (b : Block) (slots : List Slot) :
    (slots.map (Piece.slot depth b)).flatMap (Piece.text indent) =
      slots.flatMap (slotText (margin indent depth)) := by
  rw [List.flatMap_map]
  rfl

mutual

/-- **The text of a block** is that of its pieces. -/
theorem text_blockPieces (depth : Nat) : ∀ b : Block,
    (blockPieces depth b).flatMap (Piece.text indent) = blockText indent depth b
  | ⟨info, children, unused⟩ => by
    rw [blockPieces, List.flatMap_cons, List.flatMap_append, List.flatMap_append, text_slots,
      text_blocksPieces (depth + 1) children, blockText, slotsText]
    simp [Piece.text]

/-- The pieces of blocks give their text. -/
theorem text_blocksPieces (depth : Nat) : ∀ bs : List Block,
    (blocksPieces depth bs).flatMap (Piece.text indent) = blocksText indent depth bs
  | [] => by rw [blocksPieces, blocksText, List.flatMap_nil]
  | b :: bs => by
    rw [blocksPieces, List.flatMap_append, text_blockPieces depth b, text_blocksPieces depth bs,
      blocksText]

end

/-- The pieces of the blocks at the top give their text. -/
theorem text_topPieces : ∀ (separate : Bool) (bs : List Block),
    (topPieces separate bs).flatMap (Piece.text indent) = topText indent separate bs
  | _, [] => by rw [topPieces, topText, List.flatMap_nil]
  | separate, b :: bs => by
    rw [topPieces, List.flatMap_append, List.flatMap_append, text_blockPieces,
      text_topPieces true bs, topText]
    cases separate with
    | false => rfl
    | true => rfl

/-- **The text of a document** is that of its pieces. -/
theorem text_documentPieces (root : Block) :
    (documentPieces root).flatMap (Piece.text indent) = root.serialize indent := by
  rw [documentPieces, List.flatMap_append, text_slots, text_topPieces]
  rfl

end text

/-! ### Scanning the lines -/

/-- A line end ends a word. -/
theorem endsWord_newline (t : Text) : EndsWord ('\n' :: t) := ⟨'\n', t, rfl, by decide⟩

/-- A space ends a word. -/
theorem endsWord_space (t : Text) : EndsWord (' ' :: t) := ⟨' ', t, rfl, by decide⟩

/-- An indent is made of fillers at every depth. -/
theorem isFiller_of_mem_times {c : Char} {t : Text} (h : ∀ d ∈ t, isFiller d = true) :
    ∀ count : Nat, c ∈ Text.times count t → isFiller c = true
  | 0, hc => by cases hc
  | count + 1, hc => by
    rcases List.mem_append.mp hc with hc | hc
    · exact h c hc
    · exact isFiller_of_mem_times h count hc

section lines

variable {stop start rest : Text} {tokens : List Token}

/-- The comment behind something runs to the end of the line. -/
theorem scans_lineComment {comment : Text} (hc : '\n' ∉ comment)
    (h : Scans stop rest tokens) :
    Scans stop (lineComment comment ++ '\n' :: rest) (lineCommentTokens comment ++ .newline :: tokens) ∧
      EndsWord (lineComment comment ++ '\n' :: rest) := by
  rw [lineComment, lineCommentTokens]
  split
  · exact ⟨scans_newline h, endsWord_newline rest⟩
  · refine ⟨.filler rfl (.filler rfl ?_), endsWord_space _⟩
    have hbody : ∀ c ∈ ' ' :: comment, isCommentPart c = true := by
      intro c hm
      rw [isCommentPart, bne_iff_ne]
      rintro rfl
      rcases List.mem_cons.mp hm with hm | hm
      · revert hm
        decide
      · exact hc hm
    exact scans_comment hbody (scans_newline h)

/-- The lines of a comment above its parameter are scanned one by one. -/
theorem scans_commentLines (hs : ∀ c ∈ start, isFiller c = true) (comments : Text)
    (h : Scans stop rest tokens) :
    Scans stop (commentLines start comments ++ rest)
      (flatLines ((bodiesAbove comments).map fun body => [.comment body]) ++ tokens) := by
  rw [commentLines, bodiesAbove]
  split
  · have hpieces : ∀ line ∈ Text.pieces (· == '\n') comments, '\n' ∉ line := by
      intro line hline hm
      have := Text.not_mark_of_mem_pieces comments line hline '\n' hm
      revert this
      decide
    generalize Text.pieces (· == '\n') comments = lines at hpieces ⊢
    induction lines with
    | nil => exact h
    | cons line lines ih =>
      have hrest := ih fun l hl => hpieces l (List.mem_cons_of_mem _ hl)
      have hbody : ∀ c ∈ (if line.isEmpty then [] else ' ' :: line), isCommentPart c = true := by
        intro c hm
        rw [isCommentPart, bne_iff_ne]
        rintro rfl
        split at hm
        · cases hm
        · rcases List.mem_cons.mp hm with hm | hm
          · revert hm
            decide
          · exact hpieces line List.mem_cons_self hm
      have hline := scans_fillers hs (scans_comment hbody (scans_newline hrest))
      rw [List.map_cons, List.map_cons, flatLines_cons, List.flatMap_cons]
      simpa using hline
  · exact h

/-- The lines of a parameter up to its value. -/
def slotFront (start : Text) (s : Slot) : Text :=
  commentLines start s.comments ++ start ++ s.name ++ [' ', '=']

/-- What stands behind the value of a parameter, up to the end of the line. -/
def slotEnd (s : Slot) : Text := lineComment (behind s.comments) ++ ['\n']

/-- A parameter is written as its front, its value, if there is one, and its end. -/
theorem slotText_eq (start : Text) (s : Slot) : slotText start s = slotFront start s ++
    (if s.writtenText.isEmpty then [] else ' ' :: s.writtenText) ++ slotEnd s := by
  have hbehind : (if s.comments.contains '\n' then [] else lineComment s.comments) =
      lineComment (behind s.comments) := by
    rw [behind]
    split
    · rfl
    · rfl
  rw [slotText, hbehind, slotFront, slotEnd, List.append_assoc, List.append_assoc]

/-- Up to its value, the lines of a parameter have the tokens of its comment and its name. -/
theorem scans_slotFront {s : Slot} (hw : IsWord s.name) (hs : ∀ c ∈ start, isFiller c = true)
    (h : Scans stop rest tokens) :
    Scans stop (slotFront start s ++ rest)
      (flatLines ((bodiesAbove s.comments).map fun body => [.comment body]) ++
        .word s.name :: .assign :: tokens) := by
  have hname := scans_word hw (endsWord_space _) (.filler rfl (scans_assign h))
  have := scans_commentLines hs s.comments (scans_fillers hs hname)
  rw [slotFront]
  simpa using this

/-- **The lines of a parameter** have its tokens. -/
theorem scans_slotText {s : Slot} (hr : s.Readable) (hs : ∀ c ∈ start, isFiller c = true)
    (h : Scans stop rest tokens) :
    Scans stop (slotText start s ++ rest) (flatLines (slotLines s) ++ tokens) := by
  have hno : '\n' ∉ behind s.comments := by
    rw [behind]
    split
    · exact List.not_mem_nil
    · next hline => exact fun hm => hline (List.contains_iff_mem.mpr hm)
  obtain ⟨hscan, hword⟩ := scans_lineComment hno h
  have := scans_slotFront hr.word hs (Slot.scans_value hr hword hscan)
  rw [slotText_eq, slotEnd, slotLines, flatLines_append, flatLines_cons]
  simpa [flatLines] using this

/-- The header line of a block has its tokens. -/
theorem scans_headerText {b : Block} (hb : ∀ c ∈ b.name, isHeaderPart c = true)
    (hs : ∀ c ∈ start, isFiller c = true) (h : Scans stop rest tokens) :
    Scans stop (headerText start b ++ rest)
      (.header b.name :: lineCommentTokens (Text.replaceChar '\n' ' ' b.info.comments) ++
        .newline :: tokens) := by
  have hno : '\n' ∉ Text.replaceChar '\n' ' ' b.info.comments := by
    intro hm
    obtain ⟨c, -, hc⟩ := List.mem_map.mp hm
    split at hc
    · revert hc
      decide
    · next hne => exact hne hc
  have := scans_fillers hs (scans_header hb (scans_lineComment hno h).1)
  rw [headerText]
  simpa using this

end lines

/-- **The lines of a piece** have its tokens. -/
theorem scans_piece {stop indent rest : Text} (hi : ∀ c ∈ indent, isFiller c = true) {p : Piece}
    (hp : p.Readable) {tokens : List Token} (h : Scans stop rest tokens) :
    Scans stop (p.text indent ++ rest) (flatLines p.lines ++ tokens) := by
  have hmargin : ∀ depth, ∀ c ∈ margin indent depth, isFiller c = true :=
    fun depth _ => isFiller_of_mem_times hi depth
  cases p with
  | header depth b =>
    have := scans_headerText hp.part (hmargin depth) h
    simpa [Piece.text, Piece.lines, flatLines] using this
  | slot depth b s => exact scans_slotText hp (hmargin depth) h
  | close depth =>
    have := scans_fillers (hmargin depth) (scans_header (List.forall_mem_nil _) (scans_newline h))
    simpa [Piece.text, Piece.lines, flatLines] using this
  | separator => exact scans_newline h

/-- Pieces one after the other have their tokens. -/
theorem scans_pieces {stop indent rest : Text} (hi : ∀ c ∈ indent, isFiller c = true)
    {tokens : List Token} (h : Scans stop rest tokens) : {ps : List Piece} →
      (∀ p ∈ ps, p.Readable) → Scans stop (ps.flatMap (Piece.text indent) ++ rest)
        (flatLines (ps.flatMap Piece.lines) ++ tokens)
  | [], _ => h
  | p :: ps, hp => by
    have ih := scans_pieces hi h fun q hq => hp q (List.mem_cons_of_mem _ hq)
    have := scans_piece hi (hp p List.mem_cons_self) ih
    rw [List.flatMap_cons, List.flatMap_cons, flatLines_append, List.append_assoc,
      List.append_assoc]
    exact this

/-- No line of a piece holds a line end. -/
theorem newline_not_mem_piece (p : Piece) : ∀ line ∈ p.lines, Token.newline ∉ line := by
  intro line hline
  cases p with
  | header depth b =>
    obtain rfl := List.mem_singleton.mp hline
    rw [lineCommentTokens]
    split <;> simp
  | slot depth b s =>
    rw [Piece.lines, slotLines] at hline
    rcases List.mem_append.mp hline with hline | hline
    · obtain ⟨body, -, rfl⟩ := List.mem_map.mp hline
      simp
    · obtain rfl := List.mem_singleton.mp hline
      have hvalue : Token.newline ∉ s.valueTokens := by
        rw [Slot.valueTokens]
        split
        · rw [Slot.quoteToken]
          split <;> simp
        · split <;> simp
      have hcomment : Token.newline ∉ lineCommentTokens (behind s.comments) := by
        rw [lineCommentTokens]
        split <;> simp
      simp [hvalue, hcomment]
  | close depth =>
    obtain rfl := List.mem_singleton.mp hline
    simp
  | separator =>
    obtain rfl := List.mem_singleton.mp hline
    exact List.not_mem_nil

/-- **No line of pieces** holds a line end. -/
theorem newline_not_mem_pieces (ps : List Piece) :
    ∀ line ∈ ps.flatMap Piece.lines, Token.newline ∉ line := by
  intro line hline
  obtain ⟨p, -, hp⟩ := List.mem_flatMap.mp hline
  exact newline_not_mem_piece p line hp

end Layout

/-! ### Scanning a document -/

/-- The values that are written can be read again from their quotes. -/
def Block.Quotable (b : Block) : Prop := ∀ s ∈ Layout.writtenSlots b, Token.IsQuotable s.text

instance (b : Block) : Decidable b.Quotable :=
  inferInstanceAs (Decidable (∀ s ∈ Layout.writtenSlots b, Token.IsQuotable s.text))

/-- What has to hold of a block for its lines to be read as they are meant. -/
structure Block.Readable (b : Block) : Prop where
  /-- The parameters that are written can be read. -/
  slots : ∀ s ∈ Layout.writtenSlots b, s.Readable
  /-- The names of the children can stand in a header. -/
  names : ∀ c ∈ b.children, Outline.IsHeaderName c.name
  /-- No two children share a name. -/
  nodup : (Named.names b.children).Nodup

/-- The piece belongs to one of the blocks: a header to a child of it, a parameter to it. -/
def Piece.Among (bs : List Block) : Piece → Prop
  | header _ b => ∃ parent ∈ bs, b ∈ parent.children
  | slot _ b s => b ∈ bs ∧ s ∈ Layout.writtenSlots b
  | close _ => True
  | separator => True

namespace Layout

open Token Outline

/-- The pieces of parameters belong to their block. -/
theorem among_slots {bs : List Block} {depth : Nat} {b : Block} (hb : b ∈ bs) :
    ∀ p ∈ (writtenSlots b).map (Piece.slot depth b), p.Among bs := by
  intro p hp
  obtain ⟨s, hs, rfl⟩ := List.mem_map.mp hp
  exact ⟨hb, hs⟩

mutual

/-- **The pieces of a block** belong to it and to the blocks inside of it. -/
theorem among_blockPieces {bs : List Block} (depth : Nat) : ∀ b : Block,
    (∃ parent ∈ bs, b ∈ parent.children) → (∀ c ∈ b.descendants, c ∈ bs) →
      ∀ p ∈ blockPieces depth b, p.Among bs
  | ⟨info, children, unused⟩, hparent, hb, p, hp => by
    have hhere := hb _ (Block.mem_descendants_self _)
    rw [blockPieces, List.mem_cons, List.mem_append, List.mem_append, List.mem_singleton] at hp
    rcases hp with rfl | (hp | hp) | rfl
    · exact hparent
    · exact among_slots hhere p hp
    · exact among_blocksPieces (depth + 1) children (fun c hc => ⟨⟨_, hhere, hc⟩,
        fun d hd => hb d (Block.mem_descendants_of_child hc hd)⟩) p hp
    · trivial

/-- The pieces of blocks belong to the blocks around them and to those inside. -/
theorem among_blocksPieces {bs : List Block} (depth : Nat) : ∀ cs : List Block,
    (∀ c ∈ cs, (∃ parent ∈ bs, c ∈ parent.children) ∧ ∀ d ∈ c.descendants, d ∈ bs) →
      ∀ p ∈ blocksPieces depth cs, p.Among bs
  | [], _, p, hp => by
    rw [blocksPieces] at hp
    cases hp
  | c :: cs, h, p, hp => by
    rw [blocksPieces, List.mem_append] at hp
    obtain ⟨hparent, hinside⟩ := h c List.mem_cons_self
    rcases hp with hp | hp
    · exact among_blockPieces depth c hparent hinside p hp
    · exact among_blocksPieces depth cs (fun d hd => h d (List.mem_cons_of_mem _ hd)) p hp

end

/-- The pieces of the blocks at the top belong to the blocks around them and to those inside. -/
theorem among_topPieces {bs : List Block} : ∀ (separate : Bool) (cs : List Block),
    (∀ c ∈ cs, (∃ parent ∈ bs, c ∈ parent.children) ∧ ∀ d ∈ c.descendants, d ∈ bs) →
      ∀ p ∈ topPieces separate cs, p.Among bs
  | _, [], _, p, hp => by
    rw [topPieces] at hp
    cases hp
  | separate, c :: cs, h, p, hp => by
    rw [topPieces, List.mem_append, List.mem_append] at hp
    obtain ⟨hparent, hinside⟩ := h c List.mem_cons_self
    rcases hp with (hp | hp) | hp
    · split at hp
      · obtain rfl := List.mem_singleton.mp hp
        trivial
      · cases hp
    · exact among_blockPieces 0 c hparent hinside p hp
    · exact among_topPieces true cs (fun d hd => h d (List.mem_cons_of_mem _ hd)) p hp

/-- **The pieces of a document** belong to its blocks. -/
theorem among_documentPieces (root : Block) :
    ∀ p ∈ documentPieces root, p.Among root.descendants := by
  intro p hp
  have hroot := Block.mem_descendants_self root
  rw [documentPieces, List.mem_append] at hp
  rcases hp with hp | hp
  · exact among_slots hroot p hp
  · exact among_topPieces _ root.children (fun c hc =>
      ⟨⟨root, hroot, hc⟩, fun d hd => Block.mem_descendants_of_child hc hd⟩) p hp

/-- **The text of a document** has the tokens of its lines. -/
theorem scans_serialize {indent : Text} (hi : ∀ c ∈ indent, isFiller c = true) {root : Block}
    (hr : ∀ d ∈ root.descendants, d.Readable) :
    Scans [] (root.serialize indent) (flatLines (documentLines root)) := by
  have hpieces : ∀ p ∈ documentPieces root, p.Readable := by
    intro p hp
    have hamong := among_documentPieces root p hp
    cases p with
    | header depth b =>
      obtain ⟨parent, hparent, hb⟩ := hamong
      exact (hr parent hparent).names b hb
    | slot depth b s => exact (hr b hamong.1).slots s hamong.2
    | close depth => trivial
    | separator => trivial
  have := scans_pieces hi (Scans.done : Scans [] [] []) hpieces
  rwa [text_documentPieces, List.append_nil, List.append_nil] at this

end Layout

end BlockEdit
