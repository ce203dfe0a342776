import BlockEdit.Source.Outline
import BlockEdit.Tree.Subtype

/-!
# From an outline to a tree

Once the outline of a document is known, the catalog decides what it means. A section becomes the
placeholder that stands for it, or a block of the user's choice; its settings become the values of
the parameters they name. A value that does not have the type of its parameter is kept as a text,
and the block gets a warning.

The `type` of a block is read before its other settings, because it decides which parameters there
are.
-/

namespace BlockEdit

namespace Block

/-- The block with one more warning. -/
def warn (b : Block) (w : Warning) : Block :=
  { b with info := { b.info with warnings := b.info.warnings ++ [w] } }

/-- The slot that a setting makes when the block has no parameter of its name. -/
def newSlot (b : Block) (s : Setting) : Slot :=
  { (if b.isKnown then Slot.user s.key s.value else Slot.untyped s.key s.value) with
    comments := s.comments }

/-- The block with the value and the comment of a setting. -/
def bindSetting (b : Block) (s : Setting) : Block :=
  match b.parameter? s.key with
  | none => b.addParameter (b.newSlot s)
  | some slot =>
    let slot := { slot with comments := s.comments }
    match slot.setText s.value with
    | .ok slot => b.updateParameter s.key fun _ => slot
    | .error e =>
      (b.updateParameter s.key fun _ => slot.relaxTo s.value).warn
        (.invalidValue b.path s.key e.message)

/-- The block with the subtype that its `type` setting names. A name that the schema does not have
is a value like any other, and a block with subtypes gets a warning. -/
def bindType (b : Block) (s : Setting) : Block :=
  let subtype := Text.trim s.value
  if b.subtypeNames.isEmpty then b.bindSetting s
  else
    match b.switchSubtype? subtype with
    | some b => b.updateParameter Slot.typeName fun slot => { slot with comments := s.comments }
    | none => (b.clearSubtype.warn (.unknownType b.path subtype)).bindSetting s

/-- The setting that selects the subtype, and the others. -/
def splitType (settings : List Setting) : Option Setting × List Setting :=
  (settings.find? (·.key = Slot.typeName), settings.eraseP (·.key = Slot.typeName))

/-- The block with the values of all the settings, the subtype first. -/
def bindSettings (b : Block) (settings : List Setting) : Block :=
  let (type, others) := splitType settings
  others.foldl bindSetting (type.elim b b.bindType)

/-- The block that a section under `parent` stands for, and the parent without it: a placeholder if
there is one, or else a block that is the user's choice. -/
def claim (catalog : Catalog) (parent : Block) (name : Text) : Block × Block :=
  match parent.takeChild? name with
  | some (child, parent) => (child, parent)
  | none =>
    let child := instantiate catalog parent.path name
    ({ child with info := { child.info with userAdded := true } }, parent)

mutual

/-- The block with a section added as its last child. -/
def bindSection (catalog : Catalog) (parent : Block) : Section → Block
  | ⟨name, comment, settings, children⟩ =>
    let (child, parent) := claim catalog parent name
    let child := { child with info := { child.info with comments := comment } }
    parent.insertChild (bindSections catalog (child.bindSettings settings) children)

/-- The block with sections added one after the other. -/
def bindSections (catalog : Catalog) (parent : Block) : List Section → Block
  | [] => parent
  | s :: rest => bindSections catalog (bindSection catalog parent s) rest

end

/-- The document of an outline. -/
def ofOutline (catalog : Catalog) (outline : Section) : Block :=
  bindSections catalog (outline.settings.foldl bindSetting (instantiateRoot catalog))
    outline.children

/-- Reads a document. -/
def parse (catalog : Catalog) (source : Text) : Except Fault Block :=
  (Outline.ofText source).map (ofOutline catalog)

end Block

end BlockEdit
