import BlockEdit.Edit.Basic

/-!
# Whether a document takes an edit

`Edit.check` looks at the document only; it does not try the edit out.
-/

namespace BlockEdit.Edit

/-- Refuses a subtype that the schema of the block does not have. -/
def checkSubtype (b : Block) (subtype : Text) : Except EditError Unit :=
  if b.hasSubtype subtype then .ok () else .error (.unknownSubtype b.path subtype)

/-- A child that the catalog offers can be had as it is or with one of its subtypes. -/
def checkOffered (child : Block) : Option Text → Except EditError Unit
  | some subtype => checkSubtype child subtype
  | none => .ok ()

/-- A block takes other children when the catalog has a schema for them or does not know the block;
their subtypes are those of that schema. -/
def checkAdded (b : Block) (path : Text) (subtype : Option Text) : Except EditError Unit :=
  if b.info.childSchema.isNone && b.isKnown then .error (.noWildcard path)
  else
    match subtype with
    | some subtype =>
      if (b.info.childSchema.bind fun schema => schema.subtype? subtype).isSome then .ok ()
      else .error (.unknownSubtype path subtype)
    | none => .ok ()

/-- Whether a child can be added. -/
def checkAddChild (root : Block) (path : Text) (name subtype : Option Text) :
    Except EditError Unit := do
  let b ← parentBlock root path
  match name with
  | none => checkAdded b path subtype
  | some name =>
    checkName name
    match b.unused? name with
    | some child => checkOffered child subtype
    | none => checkAdded b path subtype

/-- Whether a block can be removed. -/
def checkRemove (root : Block) (path : Text) : Except EditError Unit := do
  let (parent, name) ← splitPath path
  let b ← parentBlock root parent
  if b.hasChild name then .ok () else .error (.blockNotFound path)

/-- Whether a block can be renamed. -/
def checkRename (root : Block) (path newName : Text) : Except EditError Unit := do
  let (parent, name) ← splitPath path
  let b ← block root path
  if !b.info.userAdded then .error (.notUserAdded path)
  else
    checkName newName
    if newName = name then .ok ()
    else
      let p ← parentBlock root parent
      if p.hasChild newName then .error (.nameCollision parent newName) else .ok ()

/-- Whether a parameter takes what `read` makes of it; `subtype` is the subtype that it selects if
it selects one. -/
def checkSet (root : Block) (path parameter subtype : Text)
    (read : Slot → Except ValueError Value) : Except EditError Unit := do
  let b ← block root path
  if selectsSubtype b parameter then checkSubtype b subtype
  else
    let s ← slot b path parameter
    match read s with
    | .ok _ => .ok ()
    | .error e => .error (.typeMismatch path parameter e)

/-- Whether a parameter can be added. -/
def checkAddParameter (root : Block) (path name value : Text) : Except EditError Unit := do
  let b ← block root path
  checkName name
  if (b.parameter? name).isSome then .error (.duplicateParameter path name)
  else
    match (Value.ofText value).checkWritable with
    | .ok _ => .ok ()
    | .error e => .error (.typeMismatch path name e)

/-- Whether the document takes the edit. -/
def check (root : Block) : Edit → Except EditError Unit
  | addChild parent name subtype => checkAddChild root parent name subtype
  | remove path => checkRemove root path
  | rename path newName => checkRename root path newName
  | setSubtype path subtype => do checkSubtype (← block root path) subtype
  | setValue path parameter value =>
    checkSet root path parameter (value.string?.getD []) fun s => s.checkValue value
  | setText path parameter text =>
    checkSet root path parameter (Text.trim text) fun s => s.checkText text
  | addParameter path name value => checkAddParameter root path name value
  | setComment path parameter _ => do
    let b ← block root path
    let _ ← slot b path parameter
    return ()

end BlockEdit.Edit
