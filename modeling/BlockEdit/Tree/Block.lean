import BlockEdit.Schema.Catalog
import BlockEdit.Source.Fault
import BlockEdit.Tree.Slot

/-!
# Blocks

A document is a tree of blocks. A block has parameters of its own and those of its active subtype;
its children are either part of the document (`children`) or placeholders for blocks that the
catalog offers (`unused`). What a block knows apart from its children is its `BlockInfo`.

A block stores its path. `Block.rebase` writes the paths of a whole subtree anew when it moves.

Main statements:

* **`Block.induct`**: induction over a tree, with the claim for all children of both lists.
* **`rebaseAll_eq_map`** and its companions: a list of blocks is treated block by block.
-/

namespace BlockEdit

/-- What a block knows apart from its children. -/
structure BlockInfo where
  /-- The name of the block; the root has none. -/
  name : Text
  /-- The path of the block. -/
  path : Text
  /-- The parameters of the block, apart from those of its subtype. -/
  parameters : List Slot
  /-- What the catalog says about the block. -/
  schema : Option BlockSchema
  /-- What the catalog says about children that a user adds. -/
  childSchema : Option BlockSchema
  /-- The active subtype. -/
  subtype : Option Text
  /-- The parameters of the active subtype. -/
  subtypeParameters : List Slot
  /-- The parameters of subtypes that were active before. -/
  stash : List (Text × List Slot)
  /-- Whether the block is part of the document. -/
  included : Bool
  /-- Whether the name of the block is a user's choice. -/
  userAdded : Bool
  /-- The comment behind the header. -/
  comments : Text
  /-- What was odd about the block when it was read. -/
  warnings : List Warning
deriving DecidableEq

/-- A block with everything inside of it. -/
structure Block where
  /-- What the block knows apart from its children. -/
  info : BlockInfo
  /-- The children that are part of the document, in order. -/
  children : List Block
  /-- The children that the catalog offers and the document does not have. -/
  unused : List Block

/-- The place where a block belongs decides what is found under its name. -/
instance : Named Block := ⟨fun b => b.info.name⟩

namespace Block

/-- The name of the block. -/
abbrev name (b : Block) : Text := b.info.name

/-- The path of the block. -/
abbrev path (b : Block) : Text := b.info.path

/-- **Induction over a tree**: a claim holds of every block when it holds of each block whose
children, in both lists, it holds of. -/
theorem induct {P : Block → Prop}
    (step : ∀ info children unused, (∀ b ∈ children, P b) → (∀ b ∈ unused, P b) →
      P ⟨info, children, unused⟩) : ∀ b, P b
  | ⟨info, children, unused⟩ =>
    step info children unused (fun b _ => induct step b) (fun b _ => induct step b)

/-! ## New blocks -/

/-- The slot with which a block with subtypes selects one of them. -/
def typeSlot (subtypes : List Text) : Slot :=
  Slot.ofSchema { name := Slot.typeName, options := subtypes }

/-- The parameters of a block of this schema. A block with subtypes has a `type`, whether the schema
lists it or not. -/
def schemaSlots (schema : BlockSchema) : List Slot :=
  let slots := Named.ofList (schema.parameters.map Slot.ofSchema)
  if !schema.subtypes.isEmpty && !Named.has Slot.typeName slots then
    typeSlot schema.subtypeNames :: slots
  else slots

/-- A block without children and subtype. -/
def fresh (name path : Text) (schema childSchema : Option BlockSchema) : Block where
  info :=
    { name, path, schema, childSchema
      parameters := (schema.map schemaSlots).getD []
      subtype := none
      subtypeParameters := []
      stash := []
      included := true
      userAdded := false
      comments := []
      warnings := [] }
  children := []
  unused := []

/-- The block that a catalog describes at a path, with no children yet. -/
def described (catalog : Catalog) (path name : Text) : Block :=
  fresh name path (catalog.lookup path) (catalog.wildcardFor path)

/-- Placeholders for the children that the catalog declares at a path, and inside of them for
theirs, so many levels deep. -/
def placeholders (catalog : Catalog) : (levels : Nat) → (path : Text) → List Block
  | 0, _ => []
  | levels + 1, path =>
    (catalog.childrenOf path).map fun name =>
      let path := Path.join path name
      let b := described catalog path name
      { b with
        info := { b.info with included := false }
        unused := placeholders catalog levels path }

/-- The block `name` under `parent`, with placeholders for all that the catalog declares in it. -/
def instantiate (catalog : Catalog) (parent name : Text) : Block :=
  let path := Path.join parent name
  { described catalog path name with unused := placeholders catalog catalog.height path }

/-- The root of a document that has no block yet. -/
def instantiateRoot (catalog : Catalog) : Block :=
  { fresh [] Path.root none none with
    unused := placeholders catalog catalog.height Path.root }

/-! ## The schema of a block -/

/-- Whether the block is the root. -/
def isRoot (b : Block) : Bool := b.path == Path.root

/-- Whether the catalog knows the block. -/
def isKnown (b : Block) : Bool := b.info.schema.isSome

/-- The names of the subtypes that the block can have. -/
def subtypeNames (b : Block) : List Text := (b.info.schema.map BlockSchema.subtypeNames).getD []

/-- What the catalog says about a subtype of the block. -/
def subtypeSchema? (b : Block) (subtype : Text) : Option SubtypeSchema :=
  b.info.schema.bind fun schema => schema.subtype? subtype

/-- Whether the block can have this subtype. -/
def hasSubtype (b : Block) (subtype : Text) : Bool := (b.subtypeSchema? subtype).isSome

/-- The path of the active subtype, which is part of the identity of the block. -/
def subtypePath (b : Block) : Option Text := b.info.subtype.map (Path.join b.path)

/-! ## Paths -/

mutual

/-- The block with the paths that it and the blocks inside of it have under `parent`. -/
def rebase (parent : Text) : Block → Block
  | ⟨info, children, unused⟩ =>
    let path := Path.join parent info.name
    ⟨{ info with path }, rebaseAll path children, rebaseAll path unused⟩

/-- All the blocks with the paths that they have under `parent`. -/
def rebaseAll (parent : Text) : List Block → List Block
  | [] => []
  | b :: bs => rebase parent b :: rebaseAll parent bs

end

/-! ## Walks -/

mutual

/-- The block and every block of the document inside of it, each before its children. -/
def descendants : Block → List Block
  | ⟨info, children, unused⟩ => ⟨info, children, unused⟩ :: allDescendants children

/-- The blocks, each followed by those inside of it. -/
def allDescendants : List Block → List Block
  | [] => []
  | b :: bs => descendants b ++ allDescendants bs

end

/-- The blocks of the document below this one. -/
def inside (b : Block) : List Block := allDescendants b.children

/-- The paths of the blocks of the document below this one. -/
def paths (b : Block) : List Text := b.inside.map path

/-- The block of the document that is reached from this one by the names. -/
def descend? : Block → List Text → Option Block
  | b, [] => some b
  | b, name :: rest => (Named.find? name b.children).bind fun child => descend? child rest

/-- The block with the one that is reached by the names replaced. -/
def replaceAt : Block → List Text → Block → Block
  | _, [], new => new
  | b, name :: rest, new =>
    { b with children := Named.update name (fun child => replaceAt child rest new) b.children }

/-- The block of a document at a path. -/
def find? (root : Block) (path : Text) : Option Block := root.descend? (Path.segments path)

/-- The document with the block at a path replaced. -/
def set (root : Block) (path : Text) (new : Block) : Block :=
  root.replaceAt (Path.segments path) new

/-- What was odd about the blocks of the document. -/
def diagnostics (b : Block) : List Warning := b.descendants.flatMap fun d => d.info.warnings

/-! ## Children -/

/-- The child of this name that is part of the document. -/
def child? (b : Block) (name : Text) : Option Block := Named.find? name b.children

/-- The unused child of this name. -/
def unused? (b : Block) (name : Text) : Option Block := Named.find? name b.unused

/-- Whether a child has this name, unused or not. -/
def hasChild (b : Block) (name : Text) : Bool := Named.has name b.children || Named.has name b.unused

/-- The block with a mark whether it is part of the document. -/
def mark (included : Bool) (b : Block) : Block := { b with info := { b.info with included } }

/-- Attaches a child to the document; it takes the place of children of its name in both lists. -/
def insertChild (b : Block) (child : Block) : Block :=
  { b with
    children := Named.put ((child.mark true).rebase b.path) b.children
    unused := Named.remove child.name b.unused }

/-- Attaches an unused child. -/
def insertUnused (b : Block) (child : Block) : Block :=
  { b with unused := Named.put ((child.mark false).rebase b.path) b.unused }

/-- Makes an unused child part of the document. -/
def includeChild? (b : Block) (name : Text) : Option Block :=
  (b.unused? name).map fun child =>
    { b with
      children := Named.put (child.mark true) b.children
      unused := Named.remove name b.unused }

/-- Takes a child out of the document, or out of the unused children if the document does not have
it. -/
def takeChild? (b : Block) (name : Text) : Option (Block × Block) :=
  match b.child? name with
  | some child => some (child, { b with children := Named.remove name b.children })
  | none =>
    (b.unused? name).map fun child => (child, { b with unused := Named.remove name b.unused })

/-- Gives a child of the document another name at the place where it is; a child that had the name
before goes. -/
def renameChild? (b : Block) (old new : Text) : Option Block :=
  (b.child? old).map fun child =>
    let renamed := ({ child with info := { child.info with name := new } } : Block).rebase b.path
    let others := Named.remove new (Named.remove old b.children)
    { b with children := others.insertIdx (min (Named.indexOf old b.children) others.length) renamed }

/-! ## Parameters -/

/-- The parameter of this name, of the block itself or else of its subtype. -/
def parameter? (b : Block) (name : Text) : Option Slot :=
  (Named.find? name b.info.parameters).or (Named.find? name b.info.subtypeParameters)

/-- The block with a parameter changed where it is. -/
def updateParameter (b : Block) (name : Text) (f : Slot → Slot) : Block :=
  if Named.has name b.info.parameters then
    { b with info := { b.info with parameters := Named.update name f b.info.parameters } }
  else
    { b with
      info := { b.info with subtypeParameters := Named.update name f b.info.subtypeParameters } }

/-- The parameters of the block, followed by those of its subtype. -/
def allParameters (b : Block) : List Slot := b.info.parameters ++ b.info.subtypeParameters

/-- The block with one more parameter, or with another one of that name. -/
def addParameter (b : Block) (s : Slot) : Block :=
  { b with info := { b.info with parameters := Named.put s b.info.parameters } }

/-- Puts the contents of another document under this root, which keeps its name and its path. -/
def replaceContents (b other : Block) : Block where
  info := { other.info with name := b.info.name, path := b.info.path }
  children := rebaseAll b.path other.children
  unused := rebaseAll b.path other.unused

/-! ## Laws -/

/-- Blocks get their paths one by one. -/
theorem rebaseAll_eq_map (parent : Text) (bs : List Block) :
    rebaseAll parent bs = bs.map (rebase parent) := by
  induction bs with
  | nil => rfl
  | cons b bs ih => rw [rebaseAll, ih, List.map_cons]

/-- The blocks of trees are those of each of them. -/
theorem allDescendants_eq_flatMap (bs : List Block) :
    allDescendants bs = bs.flatMap descendants := by
  induction bs with
  | nil => rfl
  | cons b bs ih => rw [allDescendants, ih, List.flatMap_cons]

/-- A new path leaves the name alone. -/
@[simp] theorem name_rebase (parent : Text) (b : Block) : (b.rebase parent).name = b.name := by
  cases b; rfl

/-- The new path of a block is its name below the parent. -/
@[simp] theorem path_rebase (parent : Text) (b : Block) :
    (b.rebase parent).path = Path.join parent b.name := by
  cases b; rfl

/-- The blocks of a tree are its top and those below. -/
theorem descendants_eq_cons (b : Block) : b.descendants = b :: b.inside := by
  cases b; rfl

end Block

end BlockEdit
