import BlockEdit.Source.Scan

/-!
# The outline of a document

Before a catalog says what they mean, the lines of a document are settings `key = value` and block
sections that hold settings and further sections. `Outline.ofText` finds this structure.

A line is read as a whole: nothing, a comment, a header or a setting, each of the last two with a
comment behind it if there is one. Comments on lines of their own belong to the setting on the line
below them; an empty line or a header in between drops them.
-/

namespace BlockEdit

/-- A setting of a document. -/
structure Setting where
  /-- The name of the parameter. -/
  key : Text
  /-- The parts of the value without their quotes, with a space between any two. -/
  value : Text
  /-- The comments above the setting and behind it, one line each. -/
  comments : Text
deriving DecidableEq, Repr

/-- A block of a document as it is written. -/
structure Section where
  /-- The name of the block. -/
  name : Text
  /-- The comment behind its header. -/
  comment : Text
  /-- The settings, in order. -/
  settings : List Setting
  /-- The sections inside of it, in order. -/
  children : List Section
deriving Repr

namespace Outline

/-- A section whose end has not been seen yet. -/
structure OpenSection where
  /-- The name of the block. -/
  name : Text
  /-- The number of bytes before its header. -/
  offset : Nat
  /-- The comment behind its header. -/
  comment : Text
  /-- The settings so far. -/
  settings : List Setting
  /-- The sections inside of it that are closed. -/
  children : List Section
deriving Repr

/-- What has been read of a document: the section that the next line belongs to, the open sections
around it from the inside out, and the comments that wait for a setting. -/
structure State where
  /-- The innermost open section. -/
  current : OpenSection
  /-- The open sections around it. -/
  outer : List OpenSection
  /-- The comments on the lines directly above. -/
  pending : List Text
deriving Repr

namespace OpenSection

/-- The section that stands for the whole document. -/
def document : OpenSection := ⟨[], 0, [], [], []⟩

/-- A section of which only the header is known. -/
def ofHeader (name : Text) (offset : Nat) (comment : Text) : OpenSection :=
  ⟨name, offset, comment, [], []⟩

/-- The section as it is when it ends here. -/
def close (s : OpenSection) : Section := ⟨s.name, s.comment, s.settings, s.children⟩

end OpenSection

/-- Nothing has been read. -/
def State.start : State := ⟨OpenSection.document, [], []⟩

/-- The text of a comment: without the carriage returns at its end and the one space at its
start. -/
def commentText (body : Text) : Text :=
  match Text.dropEndWhile (· == '\r') body with
  | ' ' :: t => t
  | t => t

/-! ## Names in headers -/

/-- Whether a header with this text between its brackets closes a block. -/
def isClose (inner : Text) : Bool :=
  Text.trim inner = [] || Text.trim inner = "../".toList

/-- The block name that an opening header names; one `./` in front of it does not count. -/
def openName (inner : Text) : Text :=
  match Text.trim inner with
  | '.' :: '/' :: name => name
  | name => name

/-- Whether a block can have this name in a document. -/
def isBlockName (name : Text) : Bool :=
  !name.isEmpty && !name.any fun c => c == '/' || Text.isBlank c

/-! ## Lines -/

/-- The comment at the end of a line, and what follows it. -/
def takeComment : List Lexeme → Option Text × List Lexeme
  | ⟨.comment body, _, _⟩ :: rest => (some (commentText body), rest)
  | rest => (none, rest)

/-- The values at the start of a list of tokens, and what follows them. -/
def takeValues : List Lexeme → List Text × List Lexeme
  | [] => ([], [])
  | l :: rest =>
    match l.token.value? with
    | some v => let (vs, rest) := takeValues rest; (v :: vs, rest)
    | none => ([], l :: rest)

/-- A line has to end where nothing more is expected. -/
def lineEnd : List Lexeme → Except (Nat × Cause) Unit
  | [] => .ok ()
  | l :: _ => .error (l.start, .noLineEnd l.token)

/-- Reads the setting of a line behind its key. -/
def readSetting (key : Text) (offset : Nat) (pending : List Text) :
    List Lexeme → Except (Nat × Cause) Setting
  | ⟨.assign, _, _⟩ :: rest =>
    let (values, rest) := takeValues rest
    let (comment, rest) := takeComment rest
    (lineEnd rest).map fun _ =>
      { key
        value := Text.joinWith [' '] values
        comments := Text.joinWith ['\n'] (pending ++ comment.toList) }
  | _ => .error (offset, .noAssign key)

/-- Closes the innermost section. -/
def closeBlock (s : State) (offset : Nat) : Except (Nat × Cause) State :=
  match s.outer with
  | [] => .error (offset, .unmatchedClose)
  | parent :: outer =>
    .ok ⟨{ parent with children := parent.children ++ [s.current.close] }, outer, []⟩

/-- Opens a section in the innermost one. -/
def openBlock (s : State) (inner : Text) (offset : Nat) (comment : Text) :
    Except (Nat × Cause) State :=
  let name := openName inner
  if !isBlockName name then .error (offset, .invalidName (Text.trim inner))
  else if s.current.children.any (·.name = name) then .error (offset, .duplicateBlock name)
  else .ok ⟨OpenSection.ofHeader name offset comment, s.current :: s.outer, []⟩

/-- Reads a line that starts with a header. -/
def readHeader (s : State) (inner : Text) (offset : Nat) (rest : List Lexeme) :
    Except (Nat × Cause) State := do
  let (comment, rest) := takeComment rest
  let next ← if isClose inner then closeBlock s offset else openBlock s inner offset (comment.getD [])
  lineEnd rest
  return next

/-- Adds a setting to the innermost section. -/
def addSetting (s : State) (offset : Nat) (setting : Setting) : Except (Nat × Cause) State :=
  if s.current.settings.any (·.key = setting.key) then
    .error (offset, .duplicateParameter setting.key)
  else .ok ⟨{ s.current with settings := s.current.settings ++ [setting] }, s.outer, []⟩

/-- Reads one line. -/
def readLine (s : State) : List Lexeme → Except (Nat × Cause) State
  | [] => .ok { s with pending := [] }
  | ⟨token, offset, _⟩ :: rest =>
    match token with
    | .comment body =>
      (lineEnd rest).map fun _ => { s with pending := s.pending ++ [commentText body] }
    | .header inner => readHeader s inner offset rest
    | .word key => do
      let setting ← readSetting key offset s.pending rest
      addSetting s offset setting
    | token => .error (offset, .noLineStart token)

/-- Reads lines one after the other, up to the first fault. -/
def readLines : State → List (List Lexeme) → Except (Nat × Cause) State
  | s, [] => .ok s
  | s, line :: lines =>
    match readLine s line with
    | .ok s => readLines s lines
    | .error e => .error e

/-- The tokens between the line ends; there is always at least one line. -/
def lines : List Lexeme → List (List Lexeme)
  | [] => [[]]
  | l :: rest =>
    if l.token = .newline then [] :: lines rest
    else
      match lines rest with
      | [] => [[l]]
      | line :: more => (l :: line) :: more

/-- At the end of a document every block has to be closed. -/
def finish (s : State) : Except (Nat × Cause) Section :=
  match s.outer with
  | [] => .ok s.current.close
  | _ :: _ => .error (s.current.offset, .neverClosed s.current.name)

/-- The structure of a list of tokens. -/
def ofLexemes (lexemes : List Lexeme) : Except (Nat × Cause) Section :=
  match readLines State.start (lines lexemes) with
  | .ok s => finish s
  | .error e => .error e

/-- The structure of a document: the section that stands for the whole of it. -/
def ofText (source : Text) : Except Fault Section :=
  match Lexeme.scan source with
  | .error f => .error f
  | .ok lexemes =>
    (ofLexemes lexemes).mapError fun (offset, cause) => Fault.locate source offset cause

end Outline

end BlockEdit
