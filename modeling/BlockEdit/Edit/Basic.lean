import BlockEdit.Tree.Subtype

/-!
# Edits

An edit changes one thing about a document: it adds, removes or renames a block, switches a subtype,
or changes a parameter. `Edit.check` says whether a document takes an edit and `Edit.apply` carries
it out; `Landing` says where it landed.

A `type` that is set on a block with subtypes is a switch of the subtype.
-/

namespace BlockEdit

/-- What someone can do to a document. -/
inductive Edit where
  /-- Adds a block under a path: by name, of a subtype, or both. -/
  | addChild (parent : Text) (name subtype : Option Text)
  /-- Removes a block and everything inside of it. -/
  | remove (path : Text)
  /-- Gives another name to a block that a user added. -/
  | rename (path newName : Text)
  /-- Switches the subtype of a block. -/
  | setSubtype (path subtype : Text)
  /-- Sets a parameter to a value. -/
  | setValue (path parameter : Text) (value : Value)
  /-- Sets a parameter to what its type reads in a text. -/
  | setText (path parameter text : Text)
  /-- Adds a parameter that the catalog does not know. -/
  | addParameter (path name value : Text)
  /-- Replaces the comment of a parameter. -/
  | setComment (path parameter comment : Text)
deriving DecidableEq

/-- Why a document does not take an edit. -/
inductive EditError where
  /-- No block stands at the path. -/
  | blockNotFound (path : Text)
  /-- No block stands at the path of the parent. -/
  | parentNotFound (path : Text)
  /-- The new name of a block is taken. -/
  | nameCollision (parent name : Text)
  /-- The name could not be read back. -/
  | invalidName (name : Text)
  /-- The block has its name from the catalog. -/
  | notUserAdded (path : Text)
  /-- The block cannot have the subtype. -/
  | unknownSubtype (path subtype : Text)
  /-- The catalog has no schema for children that a user adds. -/
  | noWildcard (path : Text)
  /-- The parameter does not take the value. -/
  | typeMismatch (path parameter : Text) (reason : ValueError)
  /-- The block has no such parameter. -/
  | parameterNotFound (path parameter : Text)
  /-- The block already has such a parameter. -/
  | duplicateParameter (path parameter : Text)
  /-- The root stays where it is. -/
  | rootNotEditable
deriving DecidableEq

/-- Where an edit landed. -/
structure Landing where
  /-- The path of the block before the edit. -/
  oldPath : Text
  /-- The path of the block after the edit. -/
  path : Text
  /-- Whether blocks or subtypes changed, so that identities may have moved. -/
  structural : Bool
deriving DecidableEq

namespace EditError

/-- The error in words. -/
def message : EditError → Text
  | .blockNotFound path => "Block not found: ".toList ++ path
  | .parentNotFound path => "Parent not found: ".toList ++ path
  | .nameCollision parent name =>
    "A block named '".toList ++ name ++ "' already exists under ".toList ++ parent
  | .invalidName name => "Invalid name: '".toList ++ name ++ "'".toList
  | .notUserAdded path => "Only user-added blocks can be renamed: ".toList ++ path
  | .unknownSubtype path subtype =>
    "Unknown subtype '".toList ++ subtype ++ "' for ".toList ++ path
  | .noWildcard path => "Block ".toList ++ path ++ " does not accept user-named children".toList
  | .typeMismatch path parameter reason =>
    "Type mismatch for ".toList ++ path ++ "/".toList ++ parameter ++ ": ".toList ++ reason.message
  | .parameterNotFound path parameter =>
    "Parameter not found: ".toList ++ path ++ "/".toList ++ parameter
  | .duplicateParameter path parameter =>
    "Parameter already exists: ".toList ++ path ++ "/".toList ++ parameter
  | .rootNotEditable => "The root block cannot be removed or renamed".toList

end EditError

namespace Landing

/-- An edit of blocks or subtypes. -/
def ofBlock (oldPath path : Text) : Landing := ⟨oldPath, path, true⟩

/-- An edit of parameters. -/
def ofParameters (path : Text) : Landing := ⟨path, path, false⟩

end Landing

namespace Edit

/-- The path that the edit names. -/
def target : Edit → Text
  | addChild parent _ _ => parent
  | remove path => path
  | rename path _ => path
  | setSubtype path _ => path
  | setValue path _ _ => path
  | setText path _ _ => path
  | addParameter path _ _ => path
  | setComment path _ _ => path

/-! ## Names -/

/-- The characters that a document gives another meaning inside or at the start of a name. -/
def isReserved (c : Char) : Bool :=
  Text.isBlank c || c == '/' || c == '[' || c == ']' || c == '=' || c == '#' || c == '\x27' ||
    c == '"'

/-- Whether a block or a parameter can be given this name: it must read back as one word. -/
def isName (name : Text) : Bool := !name.isEmpty && !name.any isReserved

/-- Refuses what is no name. -/
def checkName (name : Text) : Except EditError Unit :=
  if isName name then .ok () else .error (.invalidName name)

/-- The name with a number. -/
def numbered (base : Text) (index : Nat) : Text := base ++ '_' :: Text.ofNat index

/-- The first of the numbered names from `index` on that no child has; `tries` of them are looked
at, and the one behind them is taken unseen. -/
def freshFrom (parent : Block) (base : Text) : (tries index : Nat) → Text
  | 0, index => numbered base index
  | tries + 1, index =>
    if parent.hasChild (numbered base index) then freshFrom parent base tries (index + 1)
    else numbered base index

/-- A name for a new child: the one that was asked for if it is free, and otherwise the first free
numbered one. -/
def freshName (parent : Block) (asked : Option Text) : Text :=
  let first := freshFrom parent (asked.getD "New".toList)
    (parent.children.length + parent.unused.length) 0
  match asked with
  | some name => if parent.hasChild name then first else name
  | none => first

/-- The path of the parent and the name of the block at a path. -/
def splitPath (path : Text) : Except EditError (Text × Text) :=
  match (Path.segments path).getLast?, Path.parent? path with
  | some name, some parent => .ok (parent, name)
  | _, _ => .error .rootNotEditable

/-! ## What an edit names -/

/-- The block at a path. -/
def block (root : Block) (path : Text) : Except EditError Block :=
  match root.find? path with
  | some b => .ok b
  | none => .error (.blockNotFound path)

/-- The block at the path of a parent. -/
def parentBlock (root : Block) (path : Text) : Except EditError Block :=
  match root.find? path with
  | some b => .ok b
  | none => .error (.parentNotFound path)

/-- A parameter of a block. -/
def slot (b : Block) (path parameter : Text) : Except EditError Slot :=
  match b.parameter? parameter with
  | some s => .ok s
  | none => .error (.parameterNotFound path parameter)

/-- Whether setting the parameter selects the subtype of the block. -/
def selectsSubtype (b : Block) (parameter : Text) : Bool :=
  parameter == Slot.typeName && !b.subtypeNames.isEmpty

end Edit

end BlockEdit
