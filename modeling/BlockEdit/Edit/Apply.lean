import BlockEdit.Edit.Check

/-!
# Carrying out an edit

`Edit.apply` checks an edit and then carries it out. Each step can fail on its own when it does not
find what it needs; that none of them does after the check is a theorem about the two.
-/

namespace BlockEdit.Edit

/-- Adds a child: one that the catalog offers under this name, or else a new one under a free
name. -/
def applyAddChild (root : Block) (catalog : Catalog) (path : Text) (name subtype : Option Text) :
    Except EditError (Block × Landing) := do
  let b ← parentBlock root path
  match name.bind fun name => (b.includeChild? name).map fun b => (name, b) with
  | some (name, b) =>
    match b.child? name with
    | none => .error (.blockNotFound name)
    | some child =>
      let child := subtype.elim child child.switchSubtype
      return (root.set path { b with children := Named.update name (fun _ => child) b.children },
        Landing.ofBlock child.path child.path)
  | none =>
    let child := Block.instantiate catalog b.path (freshName b name)
    let child := subtype.elim child child.switchSubtype
    let child : Block := { child with info := { child.info with userAdded := true } }
    return (root.set path (b.insertChild child), Landing.ofBlock child.path child.path)

/-- Removes a block. What the catalog declares is offered again. -/
def applyRemove (root : Block) (catalog : Catalog) (path : Text) :
    Except EditError (Block × Landing) := do
  let (parent, name) ← splitPath path
  let b ← parentBlock root parent
  match b.takeChild? name with
  | none => .error (.blockNotFound path)
  | some (removed, b) =>
    let b :=
      if removed.info.included && (catalog.childrenOf b.path).contains name then
        b.insertUnused (Block.instantiate catalog b.path name)
      else b
    return (root.set parent b, Landing.ofBlock path path)

/-- Renames a block. -/
def applyRename (root : Block) (path newName : Text) : Except EditError (Block × Landing) := do
  let (parent, name) ← splitPath path
  let b ← parentBlock root parent
  return (root.set parent ((b.renameChild? name newName).getD b),
    Landing.ofBlock path (Path.join parent newName))

/-- Switches the subtype of a block. -/
def applySwitch (root : Block) (path subtype : Text) : Except EditError (Block × Landing) := do
  let b ← block root path
  return (root.set path (b.switchSubtype subtype), Landing.ofBlock path path)

/-- Sets a parameter to what `read` makes of it; `subtype` is the subtype that it selects if it
selects one. -/
def applySet (root : Block) (path parameter subtype : Text)
    (read : Slot → Except ValueError Value) : Except EditError (Block × Landing) := do
  let b ← block root path
  if selectsSubtype b parameter then applySwitch root path subtype
  else
    let s ← slot b path parameter
    match (read s).bind s.setValue with
    | .error e => .error (.typeMismatch path parameter e)
    | .ok s =>
      return (root.set path (b.updateParameter parameter fun _ => s), Landing.ofParameters path)

/-- Adds a parameter. -/
def applyAddParameter (root : Block) (path name value : Text) :
    Except EditError (Block × Landing) := do
  let b ← block root path
  return (root.set path (b.addParameter (Slot.user name value)), Landing.ofParameters path)

/-- Replaces the comment of a parameter. -/
def applySetComment (root : Block) (path parameter comment : Text) :
    Except EditError (Block × Landing) := do
  let b ← block root path
  let _ ← slot b path parameter
  return (root.set path (b.updateParameter parameter fun s => { s with comments := comment }),
    Landing.ofParameters path)

/-- Carries out an edit that has been checked. -/
def carryOut (root : Block) (catalog : Catalog) : Edit → Except EditError (Block × Landing)
  | addChild parent name subtype => applyAddChild root catalog parent name subtype
  | remove path => applyRemove root catalog path
  | rename path newName => applyRename root path newName
  | setSubtype path subtype => applySwitch root path subtype
  | setValue path parameter value =>
    applySet root path parameter (value.string?.getD []) fun _ => .ok value
  | setText path parameter text =>
    applySet root path parameter (Text.trim text) fun s => s.checkText text
  | addParameter path name value => applyAddParameter root path name value
  | setComment path parameter comment => applySetComment root path parameter comment

/-- The document after the edit, and where the edit landed. -/
def apply (e : Edit) (root : Block) (catalog : Catalog) : Except EditError (Block × Landing) := do
  e.check root
  e.carryOut root catalog

end BlockEdit.Edit
