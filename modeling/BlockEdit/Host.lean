import BlockEdit.Text.Basic

/-!
# Hosts

Files are read and written through a `Host`: something that knows what stands at a path and can
print. What is written for any host runs on a system of files as well as on a value that stands for
one.
-/

namespace BlockEdit

/-- Why a file cannot be read. -/
inductive ReadFault where
  /-- Nothing stands at the path. -/
  | notFound
  /-- A directory stands at the path. -/
  | isDirectory
  /-- The bytes of the file are no text. -/
  | notText
deriving DecidableEq, Repr

/-- What can stand at a path. -/
inductive FileKind where
  /-- A file. -/
  | file
  /-- A directory. -/
  | directory
deriving DecidableEq, Repr

/-- What a program needs of the system that it runs on. -/
structure Host (m : Type → Type) where
  /-- What stands at a path. -/
  kind : Text → m (Option FileKind)
  /-- The text of a file. -/
  read : Text → m (Except ReadFault Text)
  /-- Replaces the text of a file. -/
  write : Text → Text → m Unit
  /-- The files in a directory and in the directories inside of it: for each of them the names on
  the way from the directory. -/
  filesBelow : Text → m (List (List Text))
  /-- Prints a text. -/
  print : Text → m Unit
  /-- Prints a text where errors go. -/
  complain : Text → m Unit

namespace ReadFault

/-- The fault in words. -/
def message : ReadFault → Text
  | .notFound => "No such file or directory (os error 2)".toList
  | .isDirectory => "Is a directory (os error 21)".toList
  | .notText => "stream did not contain valid UTF-8".toList

end ReadFault

end BlockEdit
