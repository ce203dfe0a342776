import BlockEdit.Command.Run

/-!
# A host without a system

A `World` is a directory that exists only as a value: its files, what was printed, and what was
complained about. Commands run in it like on any other host, so that what they do can be told from
what they leave behind.
-/

namespace BlockEdit

/-- A file of a directory. -/
structure WorldFile where
  /-- The names on the way to the file, its own the last. -/
  names : List Text
  /-- The text of the file, when its bytes are a text. -/
  text : Option Text
deriving DecidableEq

/-- A directory, and what a command left behind in it. -/
structure World where
  /-- All files below the directory. -/
  files : List WorldFile
  /-- What was printed. -/
  printed : Text
  /-- What was printed where errors go. -/
  complaints : Text
deriving DecidableEq

namespace World

/-- The directory with these files, before any command. -/
def ofFiles (files : List WorldFile) : World := ⟨files, [], []⟩

/-- Whether a directory stands at these names. -/
def isDirectory (w : World) (names : List Text) : Bool :=
  names.isEmpty || w.files.any fun f => names.isPrefixOf f.names && f.names.length != names.length

/-- The file at these names. -/
def file? (w : World) (names : List Text) : Option WorldFile := w.files.find? (·.names = names)

/-- Follows a path piece by piece from a place in the world. Every piece starts at a directory; one
dot stays there, two dots go to the directory around it, and nothing leads out of the world. -/
def follow (w : World) : List Text → List Text → Option (List Text)
  | place, [] => some place
  | place, piece :: rest =>
    if !w.isDirectory place then none
    else if piece.isEmpty || piece = ['.'] then follow w place rest
    else if piece = ['.', '.'] then
      if place.isEmpty then none else follow w place.dropLast rest
    else
      let place := place ++ [piece]
      if w.isDirectory place || (w.file? place).isSome then follow w place rest else none

/-- The place that a path leads to; a path from the root of the system leads nowhere. -/
def resolve (w : World) (path : Text) : Option (List Text) :=
  if path.isEmpty || path.head? = some '/' then none
  else w.follow [] (Text.pieces Path.isSlash path)

/-- What stands at a path. -/
def kind (w : World) (path : Text) : Option FileKind :=
  (w.resolve path).bind fun names =>
    if (w.file? names).isSome then some .file
    else if w.isDirectory names then some .directory
    else none

/-- The text of the file at a path. -/
def read (w : World) (path : Text) : Except ReadFault Text :=
  match w.resolve path with
  | none => .error .notFound
  | some names =>
    match w.file? names with
    | some f => f.text.elim (.error .notText) .ok
    | none => .error .isDirectory

/-- The world with another text in the file at a path. -/
def write (w : World) (path text : Text) : World :=
  match w.resolve path with
  | none => w
  | some names =>
    { w with
      files := w.files.map fun f => if f.names = names then { f with text := some text } else f }

/-- The files below the directory at a path. -/
def filesBelow (w : World) (path : Text) : List (List Text) :=
  match w.resolve path with
  | none => []
  | some names =>
    (w.files.filter fun f => names.isPrefixOf f.names).map fun f => f.names.drop names.length

/-- The world as a host. -/
def host : Host (StateM World) where
  kind path := do return (← get).kind path
  read path := do return (← get).read path
  write path text := modify fun w => w.write path text
  filesBelow path := do return (← get).filesBelow path
  print text := modify fun w => { w with printed := w.printed ++ text }
  complain text := modify fun w => { w with complaints := w.complaints ++ text }

/-- Runs a command line in the world. -/
def run (w : World) (args : List Text) : Outcome × World := (Command.run host args).run w

end World

end BlockEdit
