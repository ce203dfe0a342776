import BlockEdit.Proofs.Texts
import BlockEdit.Proofs.TokenForms
import BlockEdit.Source.Outline
import Mathlib.Data.List.Nodup

/-!
# Regular outlines

Whatever text a document is read from, its outline has a certain form: names of blocks can stand in
a header, names of parameters are words, comments do not end in a carriage return, and no name is
used twice in one section.

The invariant of the reader is `Outline.Stack`: the open sections are regular, and the name of each
is new to the section around it.

Main statement:

* **`Outline.regular_of_ofText`**: the outline of a document is regular.
-/

namespace BlockEdit

namespace Token

/-- The text of a token has the characters that such a token can hold. -/
def Proper : Token → Prop
  | header inner => ∀ c ∈ inner, isHeaderPart c = true
  | comment body => ∀ c ∈ body, isCommentPart c = true
  | word t => IsWord t
  | _ => True

/-- **A token that is read** has the characters that it can hold. -/
theorem proper_of_next? {t rest : Text} {token : Token} (h : next? t = some (token, rest)) :
    token.Proper := by
  obtain ⟨-, hform, -⟩ := next?_eq_some_iff.mp h
  cases token with
  | header inner => exact hform
  | comment body => exact hform
  | word w => exact hform
  | _ => trivial

end Token

/-- **Every token of a text** has the characters that it can hold. -/
theorem Lexeme.proper_of_scanFrom {t : Text} : ∀ {skip offset : Nat} {lexemes : List Lexeme},
    scanFrom skip offset t = .ok lexemes → ∀ l ∈ lexemes, l.token.Proper := by
  induction t with
  | nil =>
    intro skip offset lexemes h
    rw [scanFrom_nil] at h
    cases h
    simp
  | cons c t ih =>
    intro skip offset lexemes h
    cases skip with
    | succ skip =>
      rw [scanFrom] at h
      exact ih h
    | zero =>
      rw [scanFrom] at h
      split at h
      · exact ih h
      · split at h
        · cases h
        · next token rest hnext =>
          rcases hs : scanFrom (token.lexeme.length - 1) (offset + c.utf8Size) t with e | more
          · rw [hs] at h
            cases h
          · rw [hs] at h
            cases h
            intro l hl
            rcases List.mem_cons.mp hl with rfl | hl
            · exact Token.proper_of_next? hnext
            · exact ih hs l hl

/-! ### The form of an outline -/

/-- A line of a comment as it is read: it does not end in a carriage return. -/
def Outline.IsCommentLine (t : Text) : Prop := ¬ Text.EndsIn (· == '\r') t

/-- A name that can stand in a header. -/
structure Outline.IsHeaderName (name : Text) : Prop where
  /-- It is a name of a block. -/
  block : isBlockName name = true
  /-- It holds nothing that ends a header. -/
  part : ∀ c ∈ name, Token.isHeaderPart c = true

/-- A setting as it is read. -/
structure Setting.Regular (s : Setting) : Prop where
  /-- The name of the parameter is a word. -/
  key : Token.IsWord s.key
  /-- The comment is made of lines. -/
  comments : ∀ line ∈ Text.pieces (· == '\n') s.comments, Outline.IsCommentLine line

/-- The settings of a section as they are read. -/
structure Setting.AllRegular (settings : List Setting) : Prop where
  /-- Each of them is regular. -/
  each : ∀ s ∈ settings, s.Regular
  /-- No two of them are for the same parameter. -/
  nodup : (settings.map Setting.key).Nodup

/-- A section as it is read, apart from its own name and comment. -/
inductive Section.Regular : Section → Prop
  /-- The settings and the sections inside of it are regular and have names of their own. -/
  | node {s : Section} (settings : Setting.AllRegular s.settings)
      (names : ∀ c ∈ s.children, Outline.IsHeaderName c.name)
      (comments : ∀ c ∈ s.children, Outline.IsCommentLine c.comment ∧ '\n' ∉ c.comment)
      (nodup : (s.children.map Section.name).Nodup)
      (inside : ∀ c ∈ s.children, c.Regular) : s.Regular

namespace Section.Regular

variable {s : Section}

/-- The settings of a regular section are regular and have names of their own. -/
theorem settings (h : s.Regular) : Setting.AllRegular s.settings := by
  cases h with
  | node h _ _ _ _ => exact h

/-- The names of its sections can stand in headers. -/
theorem names (h : s.Regular) : ∀ c ∈ s.children, Outline.IsHeaderName c.name := by
  cases h with
  | node _ h _ _ _ => exact h

/-- The comments of its sections are lines. -/
theorem comments (h : s.Regular) :
    ∀ c ∈ s.children, Outline.IsCommentLine c.comment ∧ '\n' ∉ c.comment := by
  cases h with
  | node _ _ h _ _ => exact h

/-- No two of its sections share a name. -/
theorem nodup (h : s.Regular) : (s.children.map Section.name).Nodup := by
  cases h with
  | node _ _ _ h _ => exact h

/-- The sections inside of it are regular. -/
theorem inside (h : s.Regular) : ∀ c ∈ s.children, c.Regular := by
  cases h with
  | node _ _ _ _ h => exact h

end Section.Regular

namespace Outline

/-! ### Lines keep the form -/

/-- The text of a comment does not end in a carriage return, since those are dropped. -/
theorem isCommentLine_commentText (body : Text) : IsCommentLine (commentText body) := by
  have h := Text.not_endsIn_dropEndWhile (· == '\r') body
  unfold IsCommentLine commentText
  split
  · next t ht =>
    rintro ⟨c, hc, hp⟩
    refine h ⟨c, ?_, hp⟩
    rw [ht, List.getLast?_cons, hc, Option.getD_some]
  · exact h

/-- The text of a comment has no characters but those of the comment. -/
theorem mem_of_mem_commentText {c : Char} {body : Text} (h : c ∈ commentText body) : c ∈ body := by
  unfold commentText at h
  split at h
  · next t ht =>
    refine Text.mem_of_mem_dropEndWhile (p := (· == '\r')) ?_
    rw [ht]
    exact List.mem_cons_of_mem _ h
  · exact Text.mem_of_mem_dropEndWhile h

/-- A comment on its own is a line of a comment without line ends. -/
theorem commentText_spec {body : Text} (h : ∀ c ∈ body, Token.isCommentPart c = true) :
    IsCommentLine (commentText body) ∧ '\n' ∉ commentText body := by
  refine ⟨isCommentLine_commentText body, fun hm => ?_⟩
  have := h '\n' (mem_of_mem_commentText hm)
  revert this
  decide

/-- What is left behind the comment of a line was there before, and the comment is a line. -/
theorem takeComment_spec {lexemes rest : List Lexeme} {comment : Option Text}
    (h : takeComment lexemes = (comment, rest)) (hp : ∀ l ∈ lexemes, l.token.Proper) :
    (∀ c ∈ comment, IsCommentLine c ∧ '\n' ∉ c) ∧ ∀ l ∈ rest, l ∈ lexemes := by
  unfold takeComment at h
  split at h
  · cases h
    refine ⟨?_, fun l hl => List.mem_cons_of_mem _ hl⟩
    intro c hc
    cases hc
    exact commentText_spec (hp _ List.mem_cons_self)
  · cases h
    exact ⟨fun c hc => (by cases hc), fun l hl => hl⟩

/-- What follows the values of a line was part of the line. -/
theorem mem_of_takeValues {lexemes : List Lexeme} : ∀ l ∈ (takeValues lexemes).2, l ∈ lexemes := by
  induction lexemes with
  | nil => simp [takeValues]
  | cons l lexemes ih =>
    rw [takeValues]
    split
    · exact fun k hk => List.mem_cons_of_mem _ (ih k hk)
    · exact fun k hk => hk

/-- The lines of the comment of a setting are those that it was put together from. -/
theorem isCommentLine_of_mem_pieces {lines : List Text}
    (h : ∀ line ∈ lines, IsCommentLine line ∧ '\n' ∉ line) :
    ∀ line ∈ Text.pieces (· == '\n') (Text.joinWith ['\n'] lines), IsCommentLine line := by
  by_cases hne : lines = []
  · subst hne
    intro line hline
    obtain rfl : line = [] := by simpa [Text.pieces] using hline
    rintro ⟨c, hc, -⟩
    cases hc
  · rw [Text.pieces_joinWith rfl ?_ hne]
    · exact fun line hline => (h line hline).1
    · intro line hline c hc
      rw [beq_eq_false_iff_ne]
      rintro rfl
      exact (h line hline).2 hc

/-- A setting that is read is regular: its name is a word, and its comment is made of the lines
before it and the one behind it. -/
theorem regular_of_readSetting {key : Text} {offset : Nat} {pending : List Text}
    {lexemes : List Lexeme} {s : Setting} (hk : Token.IsWord key)
    (hpend : ∀ line ∈ pending, IsCommentLine line ∧ '\n' ∉ line)
    (hp : ∀ l ∈ lexemes, l.token.Proper) (h : readSetting key offset pending lexemes = .ok s) :
    s.Regular := by
  unfold readSetting at h
  split at h
  · next start stop rest =>
    rcases ht : takeComment (takeValues rest).2 with ⟨comment, more⟩
    simp only [ht] at h
    rcases hend : lineEnd more with e | u
    · rw [hend] at h
      cases h
    · rw [hend] at h
      cases h
      refine ⟨hk, isCommentLine_of_mem_pieces ?_⟩
      have hrest : ∀ l ∈ (takeValues rest).2, l.token.Proper :=
        fun l hl => hp l (List.mem_cons_of_mem _ (mem_of_takeValues l hl))
      intro line hline
      rcases List.mem_append.mp hline with hline | hline
      · exact hpend line hline
      · exact (takeComment_spec ht hrest).1 line (Option.mem_toList.mp hline)
  · cases h

/-- The open section is regular so far. -/
def OpenSection.Regular (s : OpenSection) : Prop := s.close.Regular

/-- **The invariant of the reader**: the open sections are regular, and the name of each can stand
in a header and is new to the section around it. -/
inductive Stack : OpenSection → List OpenSection → Prop
  /-- Only the document is open. -/
  | document {s : OpenSection} (here : s.Regular) : Stack s []
  /-- A section is open inside of others. -/
  | nested {s parent : OpenSection} {outer : List OpenSection} (here : s.Regular)
      (name : IsHeaderName s.name) (comment : IsCommentLine s.comment ∧ '\n' ∉ s.comment)
      (fresh : s.name ∉ parent.children.map Section.name) (around : Stack parent outer) :
      Stack s (parent :: outer)

/-- The state of the reader is regular, and so are the comments that wait. -/
structure State.Regular (s : State) : Prop where
  /-- The open sections are regular. -/
  stack : Stack s.current s.outer
  /-- The comments that wait are lines. -/
  pending : ∀ line ∈ s.pending, IsCommentLine line ∧ '\n' ∉ line

/-- A section of which only the header is known is regular. -/
theorem regular_ofHeader (name : Text) (offset : Nat) (comment : Text) :
    (OpenSection.ofHeader name offset comment).Regular := by
  refine .node ⟨?_, List.nodup_nil⟩ ?_ ?_ List.nodup_nil ?_
  all_goals simp [OpenSection.ofHeader, OpenSection.close]

/-- At the start of a text the reader is regular. -/
theorem regular_start : State.start.Regular :=
  ⟨.document (regular_ofHeader [] 0 []), by simp [State.start]⟩

/-- The innermost section can change when it stays regular and keeps its header. -/
theorem Stack.replace {s t : OpenSection} {outer : List OpenSection} (h : Stack s outer)
    (ht : t.Regular) (hn : t.name = s.name) (hc : t.comment = s.comment) : Stack t outer := by
  cases h with
  | document _ => exact .document ht
  | nested _ name comment fresh around =>
    exact .nested ht (hn ▸ name) (hc ▸ comment) (hn ▸ fresh) around

/-- The section that is open is regular so far. -/
theorem Stack.here {s : OpenSection} {outer : List OpenSection} (h : Stack s outer) :
    s.Regular := by
  cases h with
  | document h => exact h
  | nested h _ _ _ _ => exact h

/-- Closing a block keeps the reader regular: the block becomes the last section of the one around
it, to which its name was new. -/
theorem regular_closeBlock {s s' : State} {offset : Nat} (h : s.Regular)
    (hs : closeBlock s offset = .ok s') : s'.Regular := by
  obtain ⟨current, outer, pending⟩ := s
  have hstack := h.stack
  cases hstack with
  | document _ => cases hs
  | @nested _ parent outer here name comment fresh around =>
    cases hs
    refine ⟨around.replace ?_ rfl rfl, by simp⟩
    -- The parent keeps what it had and gets one more section at its end.
    have hparent := around.here
    refine .node hparent.settings ?_ ?_ ?_ ?_
    · intro c hc
      rcases List.mem_append.mp hc with hc | hc
      · exact hparent.names c hc
      · obtain rfl := List.mem_singleton.mp hc
        exact name
    · intro c hc
      rcases List.mem_append.mp hc with hc | hc
      · exact hparent.comments c hc
      · obtain rfl := List.mem_singleton.mp hc
        exact comment
    · show ((parent.children ++ [current.close]).map Section.name).Nodup
      rw [List.map_append, List.nodup_append]
      refine ⟨hparent.nodup, List.nodup_singleton _, ?_⟩
      rintro n hn m hm rfl
      obtain rfl := List.mem_singleton.mp hm
      exact fresh hn
    · intro c hc
      rcases List.mem_append.mp hc with hc | hc
      · exact hparent.inside c hc
      · obtain rfl := List.mem_singleton.mp hc
        exact here

/-- The name in a header has no characters but those of the header. -/
theorem mem_of_mem_openName {c : Char} {inner : Text} (h : c ∈ openName inner) : c ∈ inner := by
  unfold openName at h
  split at h
  · next name hname =>
    refine Text.mem_of_mem_trim ?_
    rw [hname]
    exact List.mem_cons_of_mem _ (List.mem_cons_of_mem _ h)
  · exact Text.mem_of_mem_trim h

/-- Opening a block keeps the reader regular, since its name was checked against the sections that
are there. -/
theorem regular_openBlock {s s' : State} {inner comment : Text} {offset : Nat} (h : s.Regular)
    (hi : ∀ c ∈ inner, Token.isHeaderPart c = true)
    (hc : IsCommentLine comment ∧ '\n' ∉ comment)
    (hs : openBlock s inner offset comment = .ok s') : s'.Regular := by
  unfold openBlock at hs
  dsimp only at hs
  split at hs
  · cases hs
  · next hname =>
    split at hs
    · cases hs
    · next hfresh =>
      cases hs
      rw [Bool.not_eq_true, Bool.not_eq_false'] at hname
      refine ⟨.nested (regular_ofHeader _ offset comment)
        ⟨hname, fun c hc => hi c (mem_of_mem_openName hc)⟩ hc ?_ h.stack, by simp⟩
      · intro hm
        obtain ⟨c, hc, he⟩ := List.mem_map.mp hm
        refine hfresh (List.any_eq_true.mpr ⟨c, hc, ?_⟩)
        rw [he]
        exact decide_eq_true rfl

/-- A header keeps the reader regular: it closes a block or opens one, with the comment behind
it. -/
theorem regular_readHeader {s s' : State} {inner : Text} {offset : Nat} {rest : List Lexeme}
    (h : s.Regular) (hi : ∀ c ∈ inner, Token.isHeaderPart c = true)
    (hp : ∀ l ∈ rest, l.token.Proper) (hs : readHeader s inner offset rest = .ok s') :
    s'.Regular := by
  unfold readHeader at hs
  rcases ht : takeComment rest with ⟨comment, more⟩
  have hcomment := (takeComment_spec ht hp).1
  have hgiven : IsCommentLine (comment.getD []) ∧ '\n' ∉ comment.getD [] := by
    rcases comment with _ | c
    · exact ⟨fun ⟨d, hd, _⟩ => (by cases hd), List.not_mem_nil⟩
    · exact hcomment c rfl
  simp only [ht] at hs
  -- That nothing else stands on the line does not change the state.
  have hend : ∀ {next : State}, (do lineEnd more; pure next : Except (Nat × Cause) State) = .ok s' →
      next = s' := by
    intro next hn
    rcases he : lineEnd more with e | u
    · rw [he] at hn
      cases hn
    · rw [he] at hn
      cases hn
      rfl
  split at hs
  · rcases hcl : closeBlock s offset with e | next
    · rw [hcl] at hs
      cases hs
    · rw [hcl] at hs
      exact hend hs ▸ regular_closeBlock h hcl
  · rcases hop : openBlock s inner offset (comment.getD []) with e | next
    · rw [hop] at hs
      cases hs
    · rw [hop] at hs
      exact hend hs ▸ regular_openBlock h hi hgiven hop

/-- A setting keeps the reader regular, since its name was checked against the settings that are
there. -/
theorem regular_addSetting {s s' : State} {offset : Nat} {setting : Setting} (h : s.Regular)
    (hr : setting.Regular) (hs : addSetting s offset setting = .ok s') : s'.Regular := by
  unfold addSetting at hs
  split at hs
  · cases hs
  · next hfresh =>
    cases hs
    have here := h.stack.here
    refine ⟨h.stack.replace (.node ⟨?_, ?_⟩ here.names here.comments here.nodup here.inside) rfl rfl,
      by simp⟩
    · intro t ht
      rcases List.mem_append.mp ht with ht | ht
      · exact here.settings.each t ht
      · obtain rfl := List.mem_singleton.mp ht
        exact hr
    · show ((s.current.settings ++ [setting]).map Setting.key).Nodup
      rw [List.map_append, List.nodup_append]
      refine ⟨here.settings.nodup, List.nodup_singleton _, ?_⟩
      rintro k hk m hm rfl
      obtain rfl := List.mem_singleton.mp hm
      obtain ⟨t, ht, he⟩ := List.mem_map.mp hk
      exact hfresh (List.any_eq_true.mpr ⟨t, ht, decide_eq_true he⟩)

/-- **One line** keeps the invariant of the reader. -/
theorem regular_readLine {s s' : State} {line : List Lexeme} (h : s.Regular)
    (hp : ∀ l ∈ line, l.token.Proper) (hs : readLine s line = .ok s') : s'.Regular := by
  unfold readLine at hs
  split at hs
  · cases hs
    exact ⟨h.stack, by simp⟩
  · next token offset stop rest =>
    have htoken : token.Proper := hp _ List.mem_cons_self
    have hrest : ∀ l ∈ rest, l.token.Proper := fun l hl => hp l (List.mem_cons_of_mem _ hl)
    split at hs
    · next body =>
      rcases he : lineEnd rest with e | u
      · rw [he] at hs
        cases hs
      · rw [he] at hs
        cases hs
        refine ⟨h.stack, fun line hline => ?_⟩
        rcases List.mem_append.mp hline with hline | hline
        · exact h.pending line hline
        · obtain rfl := List.mem_singleton.mp hline
          exact commentText_spec htoken
    · exact regular_readHeader h htoken hrest hs
    · next key =>
      rcases hr : readSetting key offset s.pending rest with e | setting
      · rw [hr] at hs
        cases hs
      · rw [hr] at hs
        exact regular_addSetting h (regular_of_readSetting htoken h.pending hrest hr) hs
    · cases hs

/-- **Lines one after the other** keep the invariant of the reader. -/
theorem regular_readLines {lines : List (List Lexeme)} : ∀ {s s' : State}, s.Regular →
    (∀ line ∈ lines, ∀ l ∈ line, l.token.Proper) → readLines s lines = .ok s' → s'.Regular := by
  induction lines with
  | nil =>
    intro s s' h _ hs
    cases hs
    exact h
  | cons line lines ih =>
    intro s s' h hp hs
    rw [readLines] at hs
    split at hs
    · next next hnext =>
      exact ih (regular_readLine h (hp line List.mem_cons_self) hnext)
        (fun line hline => hp line (List.mem_cons_of_mem _ hline)) hs
    · cases hs

/-- The lines of a list of tokens hold nothing else. -/
theorem mem_of_mem_lines {lexemes : List Lexeme} :
    ∀ line ∈ lines lexemes, ∀ l ∈ line, l ∈ lexemes := by
  induction lexemes with
  | nil => simp [lines]
  | cons k lexemes ih =>
    intro line hline l hl
    rw [lines] at hline
    split at hline
    · rcases List.mem_cons.mp hline with rfl | hline
      · cases hl
      · exact List.mem_cons_of_mem _ (ih line hline l hl)
    · split at hline
      · obtain rfl := List.mem_singleton.mp hline
        obtain rfl := List.mem_singleton.mp hl
        exact List.mem_cons_self
      · next first more hlines =>
        rw [hlines] at ih
        rcases List.mem_cons.mp hline with rfl | hline
        · rcases List.mem_cons.mp hl with rfl | hl
          · exact List.mem_cons_self
          · exact List.mem_cons_of_mem _ (ih first List.mem_cons_self l hl)
        · exact List.mem_cons_of_mem _ (ih line (List.mem_cons_of_mem _ hline) l hl)

/-- A text is read as what its lines are read as, with every section closed. -/
theorem exists_readLines_of_ofText {source : Text} {outline : Section}
    (h : ofText source = .ok outline) : ∃ lexemes s, Lexeme.scanFrom 0 0 source = .ok lexemes ∧
      readLines State.start (lines lexemes) = .ok s ∧ s.outer = [] ∧ s.current.close = outline := by
  rw [ofText, Lexeme.scan] at h
  rcases hscan : Lexeme.scanFrom 0 0 source with e | lexemes
  · rw [hscan] at h
    cases h
  · rw [hscan] at h
    rcases ho : ofLexemes lexemes with e | o
    · simp only [Except.mapError, ho] at h
      cases h
    · simp only [Except.mapError, ho] at h
      cases h
      unfold ofLexemes at ho
      split at ho
      · next s hs =>
        unfold finish at ho
        split at ho
        · next houter =>
          cases ho
          exact ⟨lexemes, s, rfl, hs, houter, rfl⟩
        · cases ho
      · cases ho

/-- **The outline of a document** is regular. -/
theorem regular_of_ofText {source : Text} {outline : Section} (h : ofText source = .ok outline) :
    outline.Regular := by
  obtain ⟨lexemes, s, hscan, hs, -, rfl⟩ := exists_readLines_of_ofText h
  have hproper := Lexeme.proper_of_scanFrom hscan
  have hstate := regular_readLines regular_start
    (fun line hline l hl => hproper l (mem_of_mem_lines line hline l hl)) hs
  exact hstate.stack.here

end Outline

end BlockEdit
