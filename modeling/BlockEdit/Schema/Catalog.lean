import BlockEdit.Host
import BlockEdit.Path
import BlockEdit.Schema.Basic

/-!
# Catalogs

A catalog says for block paths which schema the blocks there have. A `*` in the path of an entry
stands for any name, and what stands at `parent/*` is the schema of the children that a user may
add under `parent`.

Of several entries that match a path, the one is taken that names the first segment in which they
differ, instead of leaving it open.

Main statements:

* **`find?_insert`**: an entry is found under the path that it was inserted with.
-/

namespace BlockEdit

/-- Why a catalog cannot be had. -/
inductive CatalogError where
  /-- The text is not the JSON of a catalog. -/
  | json
  /-- The file cannot be read. -/
  | io (fault : ReadFault)
  /-- A path does not start with a slash or is the root. -/
  | invalidPath (path : Text)
deriving DecidableEq

/-- The schemas of blocks by path, in the order in which they were given. -/
structure Catalog where
  /-- The entries: paths without slashes at their end, and the schemas. -/
  entries : List (Text × BlockSchema)
deriving DecidableEq

namespace CatalogError

/-- The error in words. -/
def message : CatalogError → Text
  | .json => "Invalid schema JSON".toList
  | .io fault => "IO error: ".toList ++ fault.message
  | .invalidPath path => "Schema path must start with '/': ".toList ++ path

end CatalogError

namespace Catalog

/-- The catalog that knows no block. -/
def empty : Catalog := ⟨[]⟩

/-- How many entries the catalog has. -/
def size (c : Catalog) : Nat := c.entries.length

/-- The catalog with a schema for the blocks at `path`. -/
def insert (c : Catalog) (path : Text) (schema : BlockSchema) : Except CatalogError Catalog :=
  if path.head? ≠ some '/' ∨ path = Path.root then .error (.invalidPath path)
  else .ok ⟨Named.put (Path.trimSlashes path, schema) c.entries⟩

/-- The catalog with a schema for the blocks at `path`, or as it is when the path is bad. -/
def insertIfValid (c : Catalog) (path : Text) (schema : BlockSchema) : Catalog :=
  (c.insert path schema).toOption.getD c

/-- The catalog with all of the entries, or the error of the first bad path. -/
def insertAll (c : Catalog) : List (Text × BlockSchema) → Except CatalogError Catalog
  | [] => .ok c
  | (path, schema) :: rest =>
    match c.insert path schema with
    | .ok c => insertAll c rest
    | .error e => .error e

/-! ## Look-up -/

/-- The entries by the segments of their paths. A path that is not written with one slash before
each segment is no pattern: only the very same text finds it. -/
def patterns (c : Catalog) : List (List Text × BlockSchema) :=
  c.entries.filterMap fun (path, schema) =>
    let names := Path.segments path
    if Path.ofSegments names = path then some (names, schema) else none

/-- What is left of the patterns that start with `name`. -/
def below (name : Text) (patterns : List (List Text × BlockSchema)) :
    List (List Text × BlockSchema) :=
  patterns.filterMap fun (names, schema) =>
    match names with
    | [] => none
    | first :: rest => if first = name then some (rest, schema) else none

/-- The schema of the best pattern for these names: a pattern that has the next name itself goes
before one that has the wildcard. -/
def best? : List Text → List (List Text × BlockSchema) → Option BlockSchema
  | [], patterns => (patterns.find? fun pattern => pattern.1.isEmpty).map Prod.snd
  | name :: rest, patterns =>
    if patterns.isEmpty then none
    else
      match best? rest (below name patterns) with
      | some schema => some schema
      | none =>
        if name = Path.wildcard then none else best? rest (below Path.wildcard patterns)

/-- The schema of the blocks at a path. -/
def lookup (c : Catalog) (path : Text) : Option BlockSchema :=
  match Named.find? path c.entries with
  | some (_, schema) => some schema
  | none =>
    match Path.segments path with
    | [] => none
    | names => best? names c.patterns

/-- The schema of the children that a user may add at a path. -/
def wildcardFor (c : Catalog) (path : Text) : Option BlockSchema :=
  c.lookup (Path.join path Path.wildcard)

/-- Whether the segments of an entry match the names, one by one. -/
def segmentsMatch : List Text → List Text → Bool
  | [], [] => true
  | s :: ss, n :: ns => (s = n || s = Path.wildcard) && segmentsMatch ss ns
  | _, _ => false

/-- The child that an entry declares for the parent with these names. -/
def declaredChild? (parent : List Text) (path : Text) : Option Text :=
  let names := Path.segments path
  match names.getLast? with
  | none => none
  | some last =>
    if last ≠ Path.wildcard ∧ segmentsMatch names.dropLast parent then some last else none

/-- The names that the catalog declares for the children of a path, in order. -/
def childrenOf (c : Catalog) (path : Text) : List Text :=
  (c.entries.filterMap fun entry => declaredChild? (Path.segments path) entry.1).foldl
    (fun names name => if name ∈ names then names else names ++ [name]) []

/-- The greatest number of segments of an entry. -/
def height (c : Catalog) : Nat :=
  (c.entries.map fun entry => (Path.segments entry.1).length).foldl max 0

/-! ## Laws -/

/-- **An entry is found** under the path that it was inserted with, slashes at its end apart. -/
theorem find?_insert {c d : Catalog} {path : Text} {schema : BlockSchema}
    (h : c.insert path schema = .ok d) :
    Named.find? (Path.trimSlashes path) d.entries = some (Path.trimSlashes path, schema) := by
  unfold insert at h
  split at h
  · cases h
  · cases h
    exact Named.find?_put (Path.trimSlashes path, schema) c.entries

end Catalog

end BlockEdit
