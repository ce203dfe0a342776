import BlockEdit.Proofs.Names
import BlockEdit.Proofs.WrittenOutline
import BlockEdit.Tree.Binding
import Mathlib.Data.List.Forall2

/-!
# The grammar of documents

The tokens of a document are cut at the line ends, and each line has one of five forms. What the
lines have to satisfy together is said without a stack: blocks are opened and closed in balance, the
names in headers are names of blocks, and no two lines of one block open blocks of one name or set
one parameter. Two lines stand in one block when the blocks that are opened between them are closed
between them.

The reader knows the open blocks instead. `Line.Fits` is the condition for lines that come with some
blocks already open: read one line, and the rest has to fit to the blocks that are open then.

Main statements:

* **`Line.fits_cons_iff`**: how a line that is read changes what the lines below it have to fit to.
* **`exists_readLines_iff`**: which lines the reader accepts, whatever blocks are open.
* **`Block.parse_accepts_iff_grammatical`**: a text is read exactly when its tokens are those of a
  document, whatever the catalog.
-/

namespace BlockEdit

namespace Outline

/-! ### The forms of lines -/

/-- What a line of a document is. -/
inductive Line where
  /-- Nothing stands on it. -/
  | blank
  /-- Only a comment stands on it. -/
  | comment
  /-- It closes a block. -/
  | close
  /-- It opens a block of this name. -/
  | opened (name : Text)
  /-- It sets the parameter of this name to this text. -/
  | setting (key value : Text)
deriving DecidableEq, Repr

/-- The last tokens of a line: none, or a comment. -/
inductive IsLineEnd : List Token → Prop
  /-- The line ends here. -/
  | nothing : IsLineEnd []
  /-- The line ends in a comment. -/
  | comment (body : Text) : IsLineEnd [.comment body]

namespace Line

/-- The tokens of a line that has this form. -/
inductive Says : List Token → Line → Prop
  /-- A line without tokens. -/
  | blank : Says [] .blank
  /-- A comment of its own. -/
  | comment (body : Text) : Says [.comment body] .comment
  /-- A header that names nothing, or the block around it. -/
  | close {inner : Text} {rest : List Token}
      (h : Text.trim inner = [] ∨ Text.trim inner = "../".toList) (he : IsLineEnd rest) :
      Says (.header inner :: rest) .close
  /-- Any other header. -/
  | opened {inner : Text} {rest : List Token}
      (h : ¬ (Text.trim inner = [] ∨ Text.trim inner = "../".toList)) (he : IsLineEnd rest) :
      Says (.header inner :: rest) (.opened (openName inner))
  /-- A word, an equality sign, and any number of words and strings. -/
  | setting {key : Text} {values rest : List Token} {texts : List Text}
      (hv : values.map Token.value? = texts.map some) (he : IsLineEnd rest) :
      Says (.word key :: .assign :: (values ++ rest)) (.setting key (Text.joinWith [' '] texts))

/-- The two lines cannot stand in one block: they open blocks of one name, or set one parameter. -/
inductive Clash : Line → Line → Prop
  /-- Two blocks of one name. -/
  | opened (name : Text) : Clash (.opened name) (.opened name)
  /-- Two settings of one parameter. -/
  | setting (key value value' : Text) : Clash (.setting key value) (.setting key value')

/-- How many blocks are open behind the lines, of which `depth` were open before; nothing when more
are closed than are open. -/
def climb : (depth : Nat) → List Line → Option Nat
  | depth, [] => some depth
  | depth, .opened _ :: lines => climb (depth + 1) lines
  | 0, .close :: _ => none
  | depth + 1, .close :: lines => climb depth lines
  | depth, _ :: lines => climb depth lines

/-- The lines are those of a document. -/
structure WellFormed (lines : List Line) : Prop where
  /-- Every block that is opened is closed, and no other. -/
  balanced : climb 0 lines = some 0
  /-- The names of blocks are not empty and hold no slash and no blank. -/
  names : ∀ name, .opened name ∈ lines → name ≠ [] ∧ ∀ c ∈ name, c ≠ '/' ∧ Text.isBlank c = false
  /-- Lines of one block do not clash. -/
  apart : ∀ before x between y after, lines = before ++ x :: (between ++ y :: after) →
    climb 0 (x :: between) = some 0 → ¬ Clash x y

end Line

/-- The tokens are those of a document. -/
def Grammatical (tokens : List Token) : Prop :=
  ∃ forms, List.Forall₂ Line.Says (tokens.splitOn .newline) forms ∧ Line.WellFormed forms

/-! ### What a line does -/

/-- What reading a line of this form does. -/
inductive Line.Moves (st : State) : Line → State → Prop
  /-- An empty line changes the comments that wait. -/
  | blank {pending : List Text} : Moves st .blank { st with pending }
  /-- A comment changes the comments that wait. -/
  | comment {pending : List Text} : Moves st .comment { st with pending }
  /-- The innermost section is closed. -/
  | close {parent : OpenSection} {outer : List OpenSection} (ho : st.outer = parent :: outer) :
      Moves st .close
        ⟨{ parent with children := parent.children ++ [st.current.close] }, outer, []⟩
  /-- A section of a new name is opened. -/
  | opened {name comment : Text} {offset : Nat} (hn : isBlockName name = true)
      (hfresh : name ∉ st.current.children.map Section.name) :
      Moves st (.opened name) (st.opened name offset comment)
  /-- A new parameter is set. -/
  | setting {x : Setting} (hfresh : x.key ∉ st.current.settings.map Setting.key) :
      Moves st (.setting x.key x.value) (st.withSettings [x])

/-- A header closes a block when it holds nothing, or the way up. -/
theorem isClose_iff {inner : Text} :
    isClose inner = true ↔ Text.trim inner = [] ∨ Text.trim inner = "../".toList := by
  rw [isClose, Bool.or_eq_true, decide_eq_true_iff, decide_eq_true_iff]

/-- The name of a block has a character, and none of them is a slash or a blank. -/
theorem isBlockName_iff {name : Text} :
    isBlockName name = true ↔ name ≠ [] ∧ ∀ c ∈ name, c ≠ '/' ∧ Text.isBlank c = false := by
  simp [isBlockName]

/-- A line has ended exactly when nothing is left of it. -/
theorem lineEnd_eq_ok_iff {rest : List Lexeme} : lineEnd rest = .ok () ↔ rest = [] := by
  cases rest with
  | nil => simp [lineEnd]
  | cons l rest => simp [lineEnd]

/-- Behind the comment of a line nothing is left exactly at the end of a line. -/
theorem takeComment_eq_nil_iff {rest : List Lexeme} :
    (takeComment rest).2 = [] ↔ IsLineEnd (rest.map Lexeme.token) := by
  constructor
  · intro h
    unfold takeComment at h
    split at h
    · next body start stop more =>
      obtain rfl : more = [] := h
      exact .comment body
    · obtain rfl : rest = [] := h
      exact .nothing
  · intro h
    generalize htokens : rest.map Lexeme.token = tokens at h
    cases h with
    | nothing =>
      obtain rfl := List.map_eq_nil_iff.mp htokens
      rfl
    | comment body =>
      obtain ⟨⟨token, start, stop⟩, more, rfl, htoken, hmore⟩ := List.map_eq_cons_iff.mp htokens
      obtain rfl := List.map_eq_nil_iff.mp hmore
      obtain rfl : token = .comment body := htoken
      rfl

/-- The values at the start of a line are tokens with a text. -/
theorem tokens_takeValues : ∀ lexemes : List Lexeme, ∃ values : List Token,
    lexemes.map Lexeme.token = values ++ (takeValues lexemes).2.map Lexeme.token ∧
      values.map Token.value? = (takeValues lexemes).1.map some
  | [] => ⟨[], rfl, rfl⟩
  | l :: rest => by
    obtain ⟨values, htokens, hvalues⟩ := tokens_takeValues rest
    rw [takeValues]
    split
    · next v hv =>
      refine ⟨l.token :: values, ?_, ?_⟩
      · rw [List.map_cons, htokens, List.cons_append]
      · rw [List.map_cons, hvalues, hv, List.map_cons]
    · exact ⟨[], rfl, rfl⟩

/-- Tokens with a text in front of the end of a line are all of its values. -/
theorem takeValues_eq {values rest : List Token} {texts : List Text}
    (hv : values.map Token.value? = texts.map some) (he : IsLineEnd rest) :
    ∀ {lexemes : List Lexeme}, lexemes.map Lexeme.token = values ++ rest →
      (takeValues lexemes).1 = texts ∧ (takeValues lexemes).2.map Lexeme.token = rest := by
  induction values generalizing texts with
  | nil =>
    intro lexemes hl
    obtain rfl := List.map_eq_nil_iff.mp hv.symm
    cases he with
    | nothing =>
      obtain rfl := List.map_eq_nil_iff.mp hl
      exact ⟨rfl, rfl⟩
    | comment body =>
      obtain ⟨l, more, rfl, htoken, hmore⟩ := List.map_eq_cons_iff.mp hl
      have hvalue : l.token.value? = none := by rw [htoken]; rfl
      rw [takeValues, hvalue]
      exact ⟨rfl, hl⟩
  | cons token values ih =>
    intro lexemes hl
    obtain ⟨text, texts, rfl, htext, htexts⟩ := List.map_eq_cons_iff.mp hv.symm
    obtain ⟨l, more, rfl, htoken, hmore⟩ := List.map_eq_cons_iff.mp hl
    obtain ⟨hfirst, hsecond⟩ := ih htexts.symm hmore
    have hvalue : l.token.value? = some text := by rw [htoken, ← htext]
    rw [takeValues, hvalue]
    exact ⟨congrArg (text :: ·) hfirst, hsecond⟩

/-- **A setting that is read** has the form of a setting. -/
theorem says_of_readSetting {key : Text} {start : Nat} {pending : List Text}
    {rest : List Lexeme} {x : Setting} (h : readSetting key start pending rest = .ok x) :
    x.key = key ∧
      Line.Says (.word key :: rest.map Lexeme.token) (.setting key x.value) := by
  unfold readSetting at h
  split at h
  · next start' stop' rest =>
    rcases hc : takeComment (takeValues rest).2 with ⟨comment, more⟩
    simp only [hc] at h
    rcases he : lineEnd more with e | u
    · rw [he] at h
      cases h
    · rw [he] at h
      cases h
      obtain ⟨values, htokens, hvalues⟩ := tokens_takeValues rest
      have hend : (takeComment (takeValues rest).2).2 = [] := by
        rw [hc]
        exact lineEnd_eq_ok_iff.mp he
      refine ⟨rfl, ?_⟩
      rw [List.map_cons, htokens]
      exact .setting hvalues (takeComment_eq_nil_iff.mp hend)
  · cases h

/-- **A line that has the form of a setting** is read as one. -/
theorem exists_readSetting {key : Text} {start : Nat} {pending : List Text} {rest : List Lexeme}
    {values last : List Token} {texts : List Text}
    (hv : values.map Token.value? = texts.map some) (he : IsLineEnd last)
    (hr : rest.map Lexeme.token = .assign :: (values ++ last)) :
    ∃ x, readSetting key start pending rest = .ok x ∧ x.key = key ∧
      x.value = Text.joinWith [' '] texts := by
  obtain ⟨⟨token, start', stop'⟩, more, rfl, htoken, hmore⟩ := List.map_eq_cons_iff.mp hr
  obtain rfl : token = .assign := htoken
  obtain ⟨hfirst, hsecond⟩ := takeValues_eq hv he hmore
  have hend : (takeComment (takeValues more).2).2 = [] :=
    takeComment_eq_nil_iff.mpr (hsecond.symm ▸ he)
  rw [readSetting]
  dsimp only
  rw [hend, hfirst]
  exact ⟨_, rfl, rfl, rfl⟩

/-- A block can be closed exactly when one is open around it, and it becomes the last child of that
one. -/
theorem closeBlock_eq_ok_iff {st st' : State} {offset : Nat} :
    closeBlock st offset = .ok st' ↔ ∃ parent outer, st.outer = parent :: outer ∧
      st' = ⟨{ parent with children := parent.children ++ [st.current.close] }, outer, []⟩ := by
  rw [closeBlock]
  rcases st.outer with _ | ⟨parent, outer⟩
  · simp
  · simp [eq_comm]

/-- A block can be opened exactly when its name is the name of a block and new to the open one. -/
theorem openBlock_eq_ok_iff {st st' : State} {inner comment : Text} {offset : Nat} :
    openBlock st inner offset comment = .ok st' ↔ isBlockName (openName inner) = true ∧
      openName inner ∉ st.current.children.map Section.name ∧
        st' = st.opened (openName inner) offset comment := by
  have hany : st.current.children.any (·.name = openName inner) = true ↔
      openName inner ∈ st.current.children.map Section.name := by
    simp [List.any_eq_true]
  rw [openBlock]
  by_cases hname : isBlockName (openName inner) = true
  · by_cases hfresh : openName inner ∈ st.current.children.map Section.name
    · simp [hname, hany.mpr hfresh, hfresh]
    · simp [hname, Bool.eq_false_iff.mpr (mt hany.mp hfresh), hfresh, State.opened, eq_comm]
  · simp [hname]

/-- A header is read as what it closes or opens, when its line ends behind it. -/
theorem readHeader_eq_ok_iff {st st' : State} {inner : Text} {start : Nat} {rest : List Lexeme} :
    readHeader st inner start rest = .ok st' ↔ IsLineEnd (rest.map Lexeme.token) ∧
      (if isClose inner then closeBlock st start
        else openBlock st inner start ((takeComment rest).1.getD [])) = .ok st' := by
  have hend : ∀ {more : List Lexeme} {next : Except (Nat × Cause) State},
      (do let s ← next; lineEnd more; return s) = .ok st' ↔ more = [] ∧ next = .ok st' := by
    intro more next
    rw [← lineEnd_eq_ok_iff]
    rcases next with e | s
    · simp [bind, Except.bind]
    · rcases lineEnd more with e | u
      · simp [bind, Except.bind]
      · simp [bind, Except.bind, pure, Except.pure]
  rw [readHeader, ← takeComment_eq_nil_iff]
  rcases takeComment rest with ⟨comment, more⟩
  dsimp only
  split
  · exact hend
  · exact hend

/-- **A line that is read** has one of the five forms, and does what a line of that form does. -/
theorem moves_of_readLine {st st' : State} {line : List Lexeme} (h : readLine st line = .ok st') :
    ∃ x, Line.Says (line.map Lexeme.token) x ∧ Line.Moves st x st' := by
  rcases line with _ | ⟨⟨token, start, stop⟩, rest⟩
  · cases h
    exact ⟨.blank, .blank, .blank⟩
  · cases token with
    | comment body =>
      rw [readLine] at h
      rcases he : lineEnd rest with e | u
      · rw [he] at h
        cases h
      · rw [he] at h
        cases h
        obtain rfl := lineEnd_eq_ok_iff.mp he
        exact ⟨.comment, .comment body, .comment⟩
    | header inner =>
      obtain ⟨hend, hnext⟩ := readHeader_eq_ok_iff.mp h
      split at hnext
      · next hc =>
        obtain ⟨parent, outer, ho, rfl⟩ := closeBlock_eq_ok_iff.mp hnext
        exact ⟨.close, .close (isClose_iff.mp hc) hend, .close ho⟩
      · next hc =>
        obtain ⟨hname, hfresh, rfl⟩ := openBlock_eq_ok_iff.mp hnext
        exact ⟨_, .opened (fun hi => hc (isClose_iff.mpr hi)) hend, .opened hname hfresh⟩
    | word key =>
      rw [readLine] at h
      obtain ⟨x, hx, h⟩ := Except.exists_of_bind_eq_ok h
      obtain ⟨hfresh, rfl⟩ := Layout.addSetting_eq_ok_iff.mp h
      obtain ⟨rfl, hsays⟩ := says_of_readSetting hx
      exact ⟨_, hsays, .setting hfresh⟩
    | _ => cases h

/-! ### Lines inside of open blocks -/

/-- What the lines of a block can clash with: the names of the blocks that are opened in it and the
names of the parameters that are set in it. -/
structure Level where
  /-- The names of the blocks. -/
  names : List Text
  /-- The names of the parameters. -/
  keys : List Text

namespace Level

/-- The line clashes with one of the block. -/
def Has (l : Level) : Line → Prop
  | .opened name => name ∈ l.names
  | .setting key _ => key ∈ l.keys
  | _ => False

/-- The block with one more line. -/
def add (l : Level) : Line → Level
  | .opened name => { l with names := l.names ++ [name] }
  | .setting key _ => { l with keys := l.keys ++ [key] }
  | _ => l

/-- A line clashes with the lines of a block when it clashes with one of them. -/
theorem has_add {l : Level} {x y : Line} : (l.add x).Has y ↔ l.Has y ∨ Line.Clash x y := by
  have hclash : Line.Clash x y ↔ (∃ name, x = .opened name ∧ y = .opened name) ∨
      ∃ key value value', x = .setting key value ∧ y = .setting key value' := by
    constructor
    · rintro (⟨name⟩ | ⟨key, value, value'⟩)
      · exact .inl ⟨name, rfl, rfl⟩
      · exact .inr ⟨key, value, value', rfl, rfl⟩
    · rintro (⟨name, rfl, rfl⟩ | ⟨key, value, value', rfl, rfl⟩)
      · exact .opened name
      · exact .setting key value value'
  rw [hclash]
  cases x <;> cases y <;> simp [add, Has, eq_comm]

/-- A block without lines. -/
def empty : Level := ⟨[], []⟩

/-- Nothing clashes with a block in which there is nothing. -/
theorem not_has_empty (x : Line) : ¬ empty.Has x := by
  cases x <;> simp [empty, Has]

end Level

namespace Line

/-- The lines are those that can follow when these blocks are open, from the inside out. -/
structure Fits (levels : List Level) (lines : List Line) : Prop where
  /-- Every open block is closed, and so is every block that is opened. -/
  balanced : climb (levels.length - 1) lines = some 0
  /-- The names of blocks are names of blocks. -/
  names : ∀ name, .opened name ∈ lines → isBlockName name = true
  /-- A line does not clash with the open block that it stands in. -/
  fresh : ∀ between y after, lines = between ++ y :: after →
    ∀ k level, climb k between = some 0 → levels[k]? = some level → ¬ level.Has y
  /-- Lines of one block do not clash. -/
  apart : ∀ before x between y after, lines = before ++ x :: (between ++ y :: after) →
    climb 0 (x :: between) = some 0 → ¬ Clash x y

/-- The line can be the next one when these blocks are open. -/
def Admitted (here : Level) (outer : List Level) : Line → Prop
  | .close => outer ≠ []
  | .opened name => isBlockName name = true ∧ ¬ here.Has (.opened name)
  | x => ¬ here.Has x

/-- The open blocks behind a line. -/
def enter (here : Level) (outer : List Level) : Line → List Level
  | .close => outer
  | .opened name => .empty :: here.add (.opened name) :: outer
  | x => here.add x :: outer

/-- A line that can be the next one does not clash with the open block. -/
theorem Admitted.not_has {here : Level} {outer : List Level} {x : Line}
    (h : Admitted here outer x) : ¬ here.Has x := by
  cases x with
  | close => exact id
  | opened name => exact h.2
  | _ => exact h

/-- A line that opens and closes nothing does not change how many blocks are open. -/
theorem climb_cons_of_still {x : Line} (hc : x ≠ .close) (ho : ∀ name, x ≠ .opened name)
    (depth : Nat) (lines : List Line) : climb depth (x :: lines) = climb depth lines := by
  cases x with
  | close => exact absurd rfl hc
  | opened name => exact absurd rfl (ho name)
  | _ => rfl

/-- The lines below are in balance with the blocks that are open behind the first line. -/
theorem climb_cons_iff (here : Level) {outer : List Level} {x : Line} {lines : List Line} :
    climb outer.length (x :: lines) = some 0 ↔
      (x = .close → outer ≠ []) ∧ climb ((enter here outer x).length - 1) lines = some 0 := by
  cases x with
  | close => cases outer <;> simp [climb, enter]
  | opened name => simp [climb, enter]
  | _ => simp [climb, enter]

/-- A line further down does not clash with the open blocks and the first line exactly when it does
not clash with the blocks that are open behind the first line. -/
theorem fresh_cons_iff {here : Level} {outer : List Level} {x y : Line} {between : List Line} :
    (∀ k level, climb k (x :: between) = some 0 → (here :: outer)[k]? = some level →
        ¬ level.Has y) ∧ (climb 0 (x :: between) = some 0 → ¬ Clash x y) ↔
      ∀ k level, climb k between = some 0 → (enter here outer x)[k]? = some level →
        ¬ level.Has y := by
  -- A close leaves one open block fewer to the lines behind it, and a header one more.
  by_cases hclose : x = .close
  · subst hclose
    constructor
    · rintro ⟨h, -⟩ k level hk hl
      exact h (k + 1) level hk hl
    · intro h
      refine ⟨fun k level hk hl => ?_, fun h0 => by cases h0⟩
      cases k with
      | zero => cases hk
      | succ k => exact h k level hk hl
  by_cases hopened : ∃ name, x = .opened name
  · obtain ⟨name, rfl⟩ := hopened
    constructor
    · rintro ⟨h, hclash⟩ k level hk hl
      match k, hl with
      | 0, hl =>
        cases hl
        exact Level.not_has_empty y
      | 1, hl =>
        cases hl
        rw [Level.has_add, not_or]
        exact ⟨h 0 here hk rfl, hclash hk⟩
      | k + 2, hl => exact h (k + 1) level hk hl
    · intro h
      -- Back in the open block, the new name is one of those that a line can clash with.
      have hadd : climb 1 between = some 0 → ¬ here.Has y ∧ ¬ Clash (.opened name) y := by
        intro h1
        rw [← not_or, ← Level.has_add]
        exact h 1 _ h1 rfl
      refine ⟨fun k level hk hl => ?_, fun h0 => (hadd h0).2⟩
      cases k with
      | zero =>
        cases hl
        exact (hadd hk).1
      | succ k => exact h (k + 2) level hk hl
  · have hopened' : ∀ name, x ≠ .opened name := fun name hx => hopened ⟨name, hx⟩
    have hclimb := fun k => climb_cons_of_still hclose hopened' k between
    have henter : enter here outer x = here.add x :: outer := by
      cases x with
      | close => exact absurd rfl hclose
      | opened name => exact absurd rfl (hopened' name)
      | _ => rfl
    simp only [hclimb, henter]
    constructor
    · rintro ⟨h, hclash⟩ k level hk hl
      cases k with
      | zero =>
        cases hl
        rw [Level.has_add, not_or]
        exact ⟨h 0 here hk rfl, hclash hk⟩
      | succ k => exact h (k + 1) level hk hl
    · intro h
      have hadd : climb 0 between = some 0 → ¬ here.Has y ∧ ¬ Clash x y := by
        intro h0
        rw [← not_or, ← Level.has_add]
        exact h 0 _ h0 rfl
      refine ⟨fun k level hk hl => ?_, fun h0 => (hadd h0).2⟩
      cases k with
      | zero =>
        cases hl
        exact (hadd hk).1
      | succ k => exact h (k + 1) level hk hl

/-- **The first line** has to be admitted by the open blocks, and the lines below have to fit to the
blocks that are open behind it. -/
theorem fits_cons_iff {here : Level} {outer : List Level} {x : Line} {lines : List Line} :
    Fits (here :: outer) (x :: lines) ↔
      Admitted here outer x ∧ Fits (enter here outer x) lines := by
  constructor
  · intro h
    obtain ⟨hclose, hbalanced⟩ := (climb_cons_iff here).mp h.balanced
    have hfresh : ¬ here.Has x := h.fresh [] x lines rfl 0 here rfl rfl
    refine ⟨?_, hbalanced, fun name hm => h.names name (List.mem_cons_of_mem _ hm), ?_, ?_⟩
    · cases x with
      | close => exact hclose rfl
      | opened name => exact ⟨h.names name List.mem_cons_self, hfresh⟩
      | _ => exact hfresh
    · rintro between y after rfl
      exact fresh_cons_iff.mp ⟨h.fresh (x :: between) y after rfl, h.apart [] x between y after rfl⟩
    · rintro before z between y after rfl
      exact h.apart (x :: before) z between y after rfl
  · rintro ⟨hadmitted, h⟩
    refine ⟨(climb_cons_iff here).mpr ⟨?_, h.balanced⟩, ?_, ?_, ?_⟩
    · rintro rfl
      exact hadmitted
    · intro name hm
      rcases List.mem_cons.mp hm with rfl | hm
      · exact hadmitted.1
      · exact h.names name hm
    · rintro (_ | ⟨z, between⟩) y after hl k level hk hlevel
      · cases hl
        cases hk
        cases hlevel
        exact hadmitted.not_has
      · cases hl
        exact (fresh_cons_iff.mpr (h.fresh between y after rfl)).1 k level hk hlevel
    · rintro (_ | ⟨w, before⟩) z between y after hl hk
      · cases hl
        exact (fresh_cons_iff.mpr (h.fresh between y after rfl)).2 hk
      · cases hl
        exact h.apart before z between y after rfl hk

/-- Without a line left, no block can be open. -/
theorem fits_nil_iff {here : Level} {outer : List Level} :
    Fits (here :: outer) [] ↔ outer = [] := by
  constructor
  · intro h
    simpa [climb] using h.balanced
  · rintro rfl
    refine ⟨rfl, by simp, ?_, ?_⟩
    · rintro between y after hl
      cases between <;> cases hl
    · rintro before x between y after hl
      cases before <;> cases hl

/-- Outside of every block, the lines that fit are those of a document. -/
theorem fits_empty_iff {lines : List Line} : Fits [.empty] lines ↔ WellFormed lines := by
  constructor
  · intro h
    exact ⟨h.balanced, fun name hm => isBlockName_iff.mp (h.names name hm), h.apart⟩
  · intro h
    refine ⟨h.balanced, fun name hm => isBlockName_iff.mpr (h.names name hm), ?_, h.apart⟩
    rintro between y after - (_ | k) level - hl
    · cases hl
      exact Level.not_has_empty y
    · cases hl

end Line

/-! ### The reader -/

/-- What the next line of a section can clash with. -/
def OpenSection.level (s : OpenSection) : Level :=
  ⟨s.children.map Section.name, s.settings.map Setting.key⟩

/-- What the next lines of the sections around one of this name can clash with. -/
def levelsAround : (name : Text) → List OpenSection → List Level
  | _, [] => []
  | name, s :: outer => s.level.add (.opened name) :: levelsAround s.name outer

/-- What the lines that follow can clash with. -/
def State.around (st : State) : List Level := levelsAround st.current.name st.outer

/-- Nothing is around the open block only when no other block is open. -/
theorem around_eq_nil_iff {st : State} : st.around = [] ↔ st.outer = [] := by
  rw [State.around]
  cases st.outer <;> simp [levelsAround]

/-- **A line that is read** was admitted, and opens and closes the blocks that it should. -/
theorem Line.Moves.enter {st st' : State} {x : Line} (h : Line.Moves st x st') :
    Line.Admitted st.current.level st.around x ∧
      st'.current.level :: st'.around = Line.enter st.current.level st.around x := by
  cases h with
  | blank => exact ⟨id, rfl⟩
  | comment => exact ⟨id, rfl⟩
  | @close parent outer ho =>
    refine ⟨fun h => ?_, ?_⟩
    · rw [around_eq_nil_iff.mp h] at ho
      cases ho
    · rw [Line.enter, State.around, State.around, ho]
      simp [levelsAround, OpenSection.level, Level.add, OpenSection.close]
  | opened hn hfresh => exact ⟨⟨hn, hfresh⟩, rfl⟩
  | setting hfresh =>
    refine ⟨hfresh, ?_⟩
    simp [Line.enter, OpenSection.level, Level.add, State.withSettings, State.around]

/-- **A line of one of the five forms** is read when it is admitted. -/
theorem exists_readLine {st : State} {line : List Lexeme} {x : Line}
    (hs : Line.Says (line.map Lexeme.token) x)
    (ha : Line.Admitted st.current.level st.around x) :
    ∃ st', readLine st line = .ok st' ∧ Line.Moves st x st' := by
  generalize htokens : line.map Lexeme.token = tokens at hs
  cases hs with
  | blank =>
    obtain rfl := List.map_eq_nil_iff.mp htokens
    exact ⟨_, rfl, .blank⟩
  | comment body =>
    obtain ⟨⟨token, start, stop⟩, rest, rfl, rfl, hrest⟩ := List.map_eq_cons_iff.mp htokens
    obtain rfl := List.map_eq_nil_iff.mp hrest
    exact ⟨_, rfl, .comment⟩
  | @close inner rest hc he =>
    obtain ⟨⟨token, start, stop⟩, more, rfl, rfl, rfl⟩ := List.map_eq_cons_iff.mp htokens
    rcases ho : st.outer with _ | ⟨parent, outer⟩
    · exact absurd (around_eq_nil_iff.mpr ho) ha
    · refine ⟨_, readHeader_eq_ok_iff.mpr ⟨he, ?_⟩, .close ho⟩
      rw [if_pos (isClose_iff.mpr hc)]
      exact closeBlock_eq_ok_iff.mpr ⟨parent, outer, ho, rfl⟩
  | @opened inner rest hc he =>
    obtain ⟨⟨token, start, stop⟩, more, rfl, rfl, rfl⟩ := List.map_eq_cons_iff.mp htokens
    refine ⟨st.opened (openName inner) start ((takeComment more).1.getD []),
      readHeader_eq_ok_iff.mpr ⟨he, ?_⟩, .opened ha.1 ha.2⟩
    rw [if_neg fun h => hc (isClose_iff.mp h)]
    exact openBlock_eq_ok_iff.mpr ⟨ha.1, ha.2, rfl⟩
  | @setting key values rest texts hv he =>
    obtain ⟨⟨token, start, stop⟩, more, rfl, rfl, hmore⟩ := List.map_eq_cons_iff.mp htokens
    obtain ⟨x, hx, rfl, hvalue⟩ : ∃ x, readSetting key start st.pending more = .ok x ∧
        x.key = key ∧ x.value = Text.joinWith [' '] texts := exists_readSetting hv he hmore
    rw [← hvalue]
    refine ⟨_, ?_, .setting ha⟩
    rw [readLine, hx]
    exact Layout.addSetting_eq_ok_iff.mpr ⟨ha, rfl⟩

/-- **The lines that the reader accepts** up to the end of a document are those that have one of the
five forms each and fit to the blocks that are open. -/
theorem exists_readLines_iff {lines : List (List Lexeme)} : ∀ {st : State},
    (∃ st', readLines st lines = .ok st' ∧ st'.outer = []) ↔
      ∃ forms, List.Forall₂ Line.Says (lines.map (List.map Lexeme.token)) forms ∧
        Line.Fits (st.current.level :: st.around) forms := by
  induction lines with
  | nil =>
    intro st
    simp [readLines, Line.fits_nil_iff, around_eq_nil_iff]
  | cons line lines ih =>
    intro st
    constructor
    · rintro ⟨last, hread, hlast⟩
      obtain ⟨next, hline, hread⟩ := readLines_cons_eq_ok_iff.mp hread
      obtain ⟨x, hsays, hmoves⟩ := moves_of_readLine hline
      obtain ⟨hadmitted, henter⟩ := hmoves.enter
      obtain ⟨forms, hforms, hfits⟩ := ih.mp ⟨last, hread, hlast⟩
      exact ⟨x :: forms, .cons hsays hforms,
        Line.fits_cons_iff.mpr ⟨hadmitted, henter ▸ hfits⟩⟩
    · rintro ⟨forms, hforms, hfits⟩
      obtain ⟨x, forms, hsays, hrest, rfl⟩ := List.forall₂_cons_left_iff.mp hforms
      obtain ⟨hadmitted, hfits⟩ := Line.fits_cons_iff.mp hfits
      obtain ⟨next, hline, hmoves⟩ := exists_readLine hsays hadmitted
      rw [← hmoves.enter.2] at hfits
      obtain ⟨last, hread, hlast⟩ := ih.mpr ⟨forms, hrest, hfits⟩
      exact ⟨last, readLines_cons_eq_ok_iff.mpr ⟨next, hline, hread⟩, hlast⟩

/-- The lines of tokens are what is left between the line ends. -/
theorem tokens_lines (lexemes : List Lexeme) :
    (lines lexemes).map (List.map Lexeme.token) =
      (lexemes.map Lexeme.token).splitOn .newline := by
  induction lexemes with
  | nil => rfl
  | cons l lexemes ih =>
    rw [List.splitOn] at ih ⊢
    rw [lines, List.map_cons, List.splitOnP_cons_eq_if_modifyHead, ← ih]
    split
    · next h => rw [if_pos (by simp [h])]; rfl
    · next h =>
      rw [if_neg (by simp [h])]
      split
      · next h' => rw [h'] at ih; exact absurd ih.symm (List.splitOnP_ne_nil _ _)
      · next line more h' => rw [h']; rfl

/-- **The tokens that are read** are those of a document. -/
theorem exists_ofLexemes_iff {lexemes : List Lexeme} :
    (∃ outline, ofLexemes lexemes = .ok outline) ↔ Grammatical (lexemes.map Lexeme.token) := by
  have hfinish : (∃ outline, ofLexemes lexemes = .ok outline) ↔
      ∃ st', readLines State.start (lines lexemes) = .ok st' ∧ st'.outer = [] := by
    rw [ofLexemes]
    rcases readLines State.start (lines lexemes) with e | st'
    · simp
    · rcases ho : st'.outer with _ | ⟨parent, outer⟩
      · simp [finish, ho]
      · simp [finish, ho]
  rw [hfinish, exists_readLines_iff, tokens_lines, Grammatical]
  exact exists_congr fun forms => and_congr_right fun _ => Line.fits_empty_iff

end Outline

/-! ### Documents -/

namespace Block

open Outline

/-- **A text is read exactly when it is grammatical**, whatever the catalog: when the lines of its
tokens have the forms of lines, blocks are opened and closed in balance under names of blocks, and
no two lines of one block clash. Any other text has a fault. -/
theorem parse_accepts_iff_grammatical (catalog : Catalog) {source : Text} {lexemes : List Lexeme}
    (hs : Lexeme.scan source = .ok lexemes) :
    ((∃ root, parse catalog source = .ok root) ↔ Grammatical (lexemes.map Lexeme.token)) ∧
      (¬ Grammatical (lexemes.map Lexeme.token) →
        ∃ offset cause, parse catalog source = .error (Fault.locate source offset cause)) := by
  rw [← exists_ofLexemes_iff, parse, ofText, hs]
  dsimp only
  rcases ofLexemes lexemes with ⟨offset, cause⟩ | outline
  · refine ⟨?_, fun _ => ⟨offset, cause, rfl⟩⟩
    simp [Except.map, Except.mapError]
  · refine ⟨?_, fun h => absurd ⟨outline, rfl⟩ h⟩
    simp [Except.map, Except.mapError]

/-- A text with a block inside of a block. -/
def nestedSource : Text := "[A] # outer\n[./b]\nx = 'a b' c\n[../]\n[]".toList

/-- A text that sets a parameter twice. -/
def twiceSource : Text := "x = 1\ny = 2\nx = 3".toList

/-- A text with a block inside of a block is grammatical, and one that sets a parameter twice is
not. -/
theorem parse_accepts_iff_grammatical_sample : ∃ nested twice,
    Lexeme.scan nestedSource = .ok nested ∧ Lexeme.scan twiceSource = .ok twice ∧
      Grammatical (nested.map Lexeme.token) ∧ ¬ Grammatical (twice.map Lexeme.token) := by
  have hnested : (parse Catalog.empty nestedSource).toOption.isSome = true := by decide +kernel
  have htwice : (parse Catalog.empty twiceSource).toOption = none := by decide +kernel
  have hscans : (Lexeme.scan nestedSource).toOption.isSome = true ∧
      (Lexeme.scan twiceSource).toOption.isSome = true := by decide +kernel
  rcases hn : Lexeme.scan nestedSource with e | nested
  · rw [hn] at hscans
    cases hscans.1
  rcases ht : Lexeme.scan twiceSource with e | twice
  · rw [ht] at hscans
    cases hscans.2
  refine ⟨nested, twice, rfl, rfl, ?_, fun h => ?_⟩
  · refine (parse_accepts_iff_grammatical Catalog.empty hn).1.mp ?_
    rcases hp : parse Catalog.empty nestedSource with e | root
    · rw [hp] at hnested
      cases hnested
    · exact ⟨root, rfl⟩
  · obtain ⟨root, hp⟩ := (parse_accepts_iff_grammatical Catalog.empty ht).1.mpr h
    rw [hp] at htwice
    cases htwice

end Block

end BlockEdit
