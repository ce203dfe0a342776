import BlockEdit.Edit.Apply
import BlockEdit.Identity
import BlockEdit.Tree.Binding
import BlockEdit.Tree.Layout

/-!
# Open documents

A document that is being edited is its tree, the catalog it was read with, the identities of its
blocks and a version that counts the changes. Its text is in memory only, or also in a file.

Main statements:

* **`version_apply`**, **`version_replaceText`**: a change that is accepted makes the version one
  greater and the document dirty.
-/

namespace BlockEdit

/-- Where the text of a document is kept. -/
inductive Storage where
  /-- In memory only. -/
  | memory
  /-- In a file. -/
  | file
deriving DecidableEq, Repr

/-- A document that is being edited. -/
structure Document where
  /-- How many changes there were. -/
  version : Nat
  /-- Where the text is kept. -/
  storage : Storage
  /-- Whether there were changes since the text was last written. -/
  dirty : Bool
  /-- The root of the tree. -/
  root : Block
  /-- The catalog that the document was read with. -/
  catalog : Catalog
  /-- The identities of the blocks. -/
  identities : IdentityTable

/-- Why something cannot be done with a document. -/
inductive DocumentError where
  /-- The text is no document. -/
  | parse (fault : Fault)
  /-- The file cannot be read. -/
  | io (fault : ReadFault)
  /-- The edit is not accepted. -/
  | edit (reason : EditError)
  /-- There is no file to write. -/
  | notFileBacked
deriving DecidableEq

/-- What an edit did. -/
structure EditResult where
  /-- The version after the edit. -/
  version : Nat
  /-- The path of the block after the edit. -/
  path : Text
  /-- How the identities moved. -/
  changes : IdentityChanges
  /-- The identities of the blocks that someone who shows the document has to look at again. -/
  touched : List Identity
deriving DecidableEq

namespace DocumentError

/-- The error in words. -/
def message : DocumentError → Text
  | .parse fault => "Parse error: ".toList ++ fault.message
  | .io fault => "IO error: ".toList ++ fault.message
  | .edit reason => "Mutation error: ".toList ++ reason.message
  | .notFileBacked => "Document is not file-backed".toList

end DocumentError

namespace Document

/-- A document with this tree. -/
def ofRoot (storage : Storage) (catalog : Catalog) (root : Block) : Document where
  version := 0
  storage := storage
  dirty := false
  root := root
  catalog := catalog
  identities := IdentityTable.ofTree root

/-- A document without blocks. -/
def new (catalog : Catalog) : Document := ofRoot .memory catalog (Block.instantiateRoot catalog)

/-- The document of a text. -/
def ofText (catalog : Catalog) (source : Text) (storage : Storage) :
    Except DocumentError Document :=
  match Block.parse catalog source with
  | .ok root => .ok (ofRoot storage catalog root)
  | .error fault => .error (.parse fault)

/-- The document of a file, of which the text was read or could not be read. -/
def ofFile (catalog : Catalog) : Except ReadFault Text → Except DocumentError Document
  | .ok source => ofText catalog source .file
  | .error fault => .error (.io fault)

/-- What was odd about the blocks when they were read. -/
def diagnostics (d : Document) : List Warning := d.root.diagnostics

/-- The text of the document. -/
def text (d : Document) (indent : Text) : Text := d.root.serialize indent

/-- The document after one more change. -/
def changed (d : Document) (root : Block) (identities : IdentityTable) : Document :=
  { d with version := d.version + 1, dirty := true, root, identities }

/-- The identity of the parent of the block at a path. -/
def parentIdentity? (identities : IdentityTable) (path : Text) : Option Identity :=
  (Path.parent? path).bind identities.identityAt?

/-- The document after an edit, and what the edit did, when the edit comes to its end. -/
def apply (d : Document) (e : Edit) : Except DocumentError (Document × EditResult) :=
  match e.apply d.root d.catalog with
  | .error reason => .error (.edit reason)
  | .ok (root, landing) =>
    if landing.structural then
      let (identities, changes) := d.identities.subtreeChanged root landing.oldPath landing.path
      .ok (d.changed root identities,
        { version := d.version + 1
          path := landing.path
          changes
          touched := changes.affected ++ (parentIdentity? identities landing.path).toList })
    else
      .ok (d.changed root d.identities,
        { version := d.version + 1
          path := landing.path
          changes := IdentityChanges.none
          touched := (d.identities.identityAt? landing.path).toList })

/-- The edit comes to its end: it is not accepted, or the table can cut the paths of the blocks that
it follows. -/
def Returns (d : Document) (e : Edit) : Prop :=
  ∀ after ∈ (e.apply d.root d.catalog).toOption,
    after.2.structural = true → IdentityTable.Cuts after.1 after.2.path

instance (d : Document) (e : Edit) : Decidable (d.Returns e) :=
  inferInstanceAs (Decidable (∀ after ∈ (e.apply d.root d.catalog).toOption,
    after.2.structural = true → IdentityTable.Cuts after.1 after.2.path))

/-- What comes of an edit; nothing when it breaks off. -/
def attempt (d : Document) (e : Edit) : Option (Except DocumentError (Document × EditResult)) :=
  if d.Returns e then some (d.apply e) else none

/-- The document with everything below its root replaced by that of a text, and the identities of
all its blocks. -/
def replaceText (d : Document) (source : Text) :
    Except DocumentError (Document × List Identity) :=
  match Block.parse d.catalog source with
  | .error fault => .error (.parse fault)
  | .ok parsed =>
    let root := d.root.replaceContents parsed
    let identities := IdentityTable.ofTree root
    .ok (d.changed root identities, identities.identities)

/-- The document after its text was written to its file, and that text. -/
def write (d : Document) : Except DocumentError (Document × Text) :=
  match d.storage with
  | .file => .ok ({ d with dirty := false }, d.text Layout.defaultIndent)
  | .memory => .error .notFileBacked

/-! ## Laws -/

/-- **An edit that is accepted** makes the version one greater and the document dirty. -/
theorem version_apply {d d' : Document} {e : Edit} {r : EditResult}
    (h : d.apply e = .ok (d', r)) :
    d'.version = d.version + 1 ∧ d'.dirty = true ∧ r.version = d'.version := by
  unfold apply at h
  split at h
  · cases h
  · split at h
    · cases h; exact ⟨rfl, rfl, rfl⟩
    · cases h; exact ⟨rfl, rfl, rfl⟩

/-- **A text that is accepted** makes the version one greater and the document dirty. -/
theorem version_replaceText {d d' : Document} {source : Text} {ids : List Identity}
    (h : d.replaceText source = .ok (d', ids)) :
    d'.version = d.version + 1 ∧ d'.dirty = true := by
  unfold replaceText at h
  split at h
  · cases h
  · cases h; exact ⟨rfl, rfl⟩

end Document

end BlockEdit
