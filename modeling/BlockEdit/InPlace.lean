import BlockEdit.Document

/-!
# Edits where the tree stands

An edit need not make a new tree: it can change the one that stands there, step by step, and a step
that fails leaves the tree as the steps before it have made it. `Work` is what is done in this way.
A block is found once, and the work goes on inside of it, so that what failed half way stays in the
tree. Whether anything can fail after the check is thus a question about these steps; for
`Edit.apply` and `Document.apply`, which give a tree only when all went well, there is none.
-/

namespace BlockEdit

/-- What is done to a block where it stands. The block that is left behind is part of the outcome,
also when the work fails. -/
abbrev Work (α : Type) := EStateM EditError Block α

namespace Work

variable {α : Type}

/-- Looks at the block and leaves it alone. -/
def look (f : Block → Except EditError α) : Work α := fun b =>
  match f b with
  | .ok a => .ok a b
  | .error reason => .error reason b

/-- Works on the block at a path. What the work has done to it stays, also when it fails. -/
def within (path : Text) (missing : EditError) (work : Work α) : Work α := fun root =>
  match root.find? path with
  | none => .error missing root
  | some b =>
    match work b with
    | .ok a b => .ok a (root.set path b)
    | .error reason b => .error reason (root.set path b)

/-- Works on a child of the document. What the work has done to it stays, also when it fails. -/
def withinChild (name : Text) (missing : EditError) (work : Work α) : Work α := fun b =>
  match b.child? name with
  | none => .error missing b
  | some child =>
    match work child with
    | .ok a child => .ok a { b with children := Named.update name (fun _ => child) b.children }
    | .error reason child =>
      .error reason { b with children := Named.update name (fun _ => child) b.children }

/-- Works on a parameter of the block at a path. A parameter that does not take the value is left
alone. -/
def withinSlot (path parameter : Text) (work : Slot → Except ValueError Slot) : Work Unit :=
  within path (.blockNotFound path) do
    let s ← look fun b => Edit.slot b path parameter
    match work s with
    | .ok s => modify fun b => b.updateParameter parameter fun _ => s
    | .error e => throw (.typeMismatch path parameter e)

/-- Takes a child out of the block, and gives it. -/
def takeChild (name : Text) (missing : EditError) : Work Block := fun b =>
  match b.takeChild? name with
  | none => .error missing b
  | some (removed, b) => .ok removed b

end Work

namespace Edit

open Work

/-- Adds a child: one that the catalog offers under this name is included first and looked up again
for its subtype; another one is made and then attached. -/
def addChildInPlace (catalog : Catalog) (path : Text) (name subtype : Option Text) :
    Work Landing :=
  within path (.parentNotFound path) do
    let b ← get
    match name.filter fun n => (b.unused? n).isSome with
    | some n =>
      modify fun b => (b.includeChild? n).getD b
      withinChild n (.blockNotFound n) do
        modify fun child => subtype.elim child child.switchSubtype
        let child ← get
        return Landing.ofBlock child.path child.path
    | none =>
      let child := Block.instantiate catalog b.path (freshName b name)
      let child := subtype.elim child child.switchSubtype
      let child : Block := { child with info := { child.info with userAdded := true } }
      modify fun b => b.insertChild child
      return Landing.ofBlock child.path child.path

/-- Removes a block: it is taken out first, and then what the catalog declares is offered again. -/
def removeInPlace (catalog : Catalog) (path : Text) : Work Landing := do
  let (parent, name) ← look fun _ => splitPath path
  within parent (.parentNotFound parent) do
    let removed ← takeChild name (.blockNotFound path)
    let b ← get
    if removed.info.included && (catalog.childrenOf b.path).contains name then
      modify fun b => b.insertUnused (Block.instantiate catalog b.path name)
  return Landing.ofBlock path path

/-- Renames a block. -/
def renameInPlace (path newName : Text) : Work Landing := do
  let (parent, name) ← look fun _ => splitPath path
  within parent (.parentNotFound parent) do
    modify fun b => (b.renameChild? name newName).getD b
  return Landing.ofBlock path (Path.join parent newName)

/-- Switches the subtype of a block. -/
def switchInPlace (path subtype : Text) : Work Landing := do
  within path (.blockNotFound path) do
    modify fun b => b.switchSubtype subtype
  return Landing.ofBlock path path

/-- Sets a parameter to what `read` makes of it; `subtype` is the subtype that it selects if it
selects one. -/
def setInPlace (path parameter subtype : Text) (read : Slot → Except ValueError Value) :
    Work Landing := do
  let b ← look fun root => block root path
  if selectsSubtype b parameter then switchInPlace path subtype
  else
    withinSlot path parameter fun s => (read s).bind s.setValue
    return Landing.ofParameters path

/-- Adds a parameter. -/
def addParameterInPlace (path name value : Text) : Work Landing := do
  within path (.blockNotFound path) do
    modify fun b => b.addParameter (Slot.user name value)
  return Landing.ofParameters path

/-- Replaces the comment of a parameter. -/
def setCommentInPlace (path parameter comment : Text) : Work Landing := do
  withinSlot path parameter fun s => .ok { s with comments := comment }
  return Landing.ofParameters path

/-- Carries out an edit that has been checked. -/
def carryOutInPlace (catalog : Catalog) : Edit → Work Landing
  | addChild parent name subtype => addChildInPlace catalog parent name subtype
  | remove path => removeInPlace catalog path
  | rename path newName => renameInPlace path newName
  | setSubtype path subtype => switchInPlace path subtype
  | setValue path parameter value =>
    setInPlace path parameter (value.string?.getD []) fun _ => .ok value
  | setText path parameter text =>
    setInPlace path parameter (Text.trim text) fun s => s.checkText text
  | addParameter path name value => addParameterInPlace path name value
  | setComment path parameter comment => setCommentInPlace path parameter comment

/-- Checks an edit, and carries it out. -/
def inPlace (catalog : Catalog) (e : Edit) : Work Landing := do
  look fun root => e.check root
  e.carryOutInPlace catalog

end Edit

/-! ## Documents -/

/-- What is done to an open document where it stands. -/
abbrev DocumentWork (α : Type) := EStateM DocumentError Document α

namespace Document

/-- Works on the tree of the document. What the work has done to it stays, also when it fails. -/
def onTree {α : Type} (work : Work α) : DocumentWork α := fun d =>
  match work d.root with
  | .ok a root => .ok a { d with root }
  | .error reason root => .error (.edit reason) { d with root }

/-- Counts one more change. -/
def countChange : DocumentWork Unit := do
  modify fun d => { d with version := d.version + 1 }
  modify fun d => { d with dirty := true }

/-- Carries out an edit on the document: on the tree first, then on the version and the
identities. -/
def applyInPlace (e : Edit) : DocumentWork EditResult := do
  let before ← get
  let landing ← onTree (e.inPlace before.catalog)
  countChange
  let d ← get
  if landing.structural then
    let (identities, changes) := d.identities.subtreeChanged d.root landing.oldPath landing.path
    modify fun d => { d with identities }
    return {
      version := d.version
      path := landing.path
      changes
      touched := changes.affected ++ (parentIdentity? identities landing.path).toList }
  else
    return {
      version := d.version
      path := landing.path
      changes := IdentityChanges.none
      touched := (d.identities.identityAt? landing.path).toList }

/-- Replaces everything below the root by what a text says, then the identities of all blocks. -/
def replaceInPlace (source : Text) : DocumentWork (List Identity) := do
  let d ← get
  match Block.parse d.catalog source with
  | .error fault => throw (.parse fault)
  | .ok parsed =>
    modify fun d => { d with root := d.root.replaceContents parsed }
    countChange
    modify fun d => { d with identities := IdentityTable.ofTree d.root }
    let d ← get
    return d.identities.identities

end Document

end BlockEdit
