import BlockEdit.Host
import BlockEdit.Schema.Json

/-!
# The file of a catalog

An application writes its catalog into a file beside its executable, of the same name with the
ending `.json`. Another file can be named in its place.
-/

namespace BlockEdit

namespace Path

/-- The name without its ending: without the last dot and what follows it. A dot at the start of the
name does not begin an ending. -/
def stem (name : Text) : Text :=
  match (name.reverse.dropWhile (· != '.')).drop 1 with
  | [] => name
  | before => before.reverse

/-- The path without what does not name anything at its end: slashes and single dots. -/
def dropIdle (path : Text) : Text :=
  let kept := (Text.pieces isSlash path).reverse.dropWhile fun piece =>
    piece.isEmpty || piece = ['.']
  Text.joinWith ['/'] kept.reverse

/-- The path with the ending of its last name replaced by `ending`. A path that ends in no name is
kept. The old ending is cut off first, and where this leaves the two dots that lead to the directory
around, nothing is added to them. -/
def withEnding (path ending : Text) : Text :=
  let names := (Text.pieces isSlash (dropIdle path)).reverse
  match names with
  | [] => path
  | name :: before =>
    if name.isEmpty || name = ['.', '.'] then path
    else if stem name = ['.'] && dropIdle path = path then
      Text.joinWith ['/'] ((['.', '.'] :: before).reverse)
    else Text.joinWith ['/'] (((stem name ++ '.' :: ending) :: before).reverse)

end Path

namespace Catalog

variable {m : Type → Type} [Monad m]

/-- The file beside an executable that holds its catalog. -/
def fileBeside (executable : Text) : Text := Path.withEnding executable "json".toList

/-- Reads a catalog from a file. -/
def ofFile (host : Host m) (file : Text) : m (Except CatalogError Catalog) := do
  match ← host.read file with
  | .error fault => return .error (.io fault)
  | .ok text => return ofText text

/-- Reads the catalog of an executable, from the file beside it unless another one is named. -/
def ofExecutable (host : Host m) (file : Option Text) (executable : Text) :
    m (Except CatalogError Catalog) :=
  ofFile host (file.getD (fileBeside executable))

end Catalog

end BlockEdit
