import BlockEdit.Text.Similarity
import BlockEdit.Text.SortedMap
import BlockEdit.Tree.Block

/-!
# Identities of blocks

Whoever shows a document addresses its blocks by identities. The identity of a block is made of its
path and the path of its active subtype, so it can be found anew at any time. An `IdentityTable`
holds the identities of one document and says how they move when the document changes.
-/

namespace BlockEdit

/-- The address of a block with a subtype: the two paths with `::` between them. -/
abbrev Identity := Text

namespace Identity

/-- What stands between the path of a block and that of its subtype. -/
def separator : Text := [':', ':']

/-- The identity of a block with this path and this path of its subtype. -/
def of (path : Text) (subtypePath : Option Text) : Identity :=
  path ++ separator ++ subtypePath.getD []

/-- The identity of a block. -/
def ofBlock (b : Block) : Identity := of b.path b.subtypePath

/-- Takes a text for an identity when it has a separator. -/
def ofText? (t : Text) : Option Identity := if Text.includes separator t then some t else none

/-- The path of the block. -/
def path (i : Identity) : Text :=
  match Text.splitFirst? separator i with
  | some (path, _) => path
  | none => i

/-- The path of the subtype. -/
def subtypePath (i : Identity) : Option Text :=
  match Text.splitFirst? separator i with
  | some (_, []) => none
  | some (_, subtypePath) => some subtypePath
  | none => none

end Identity

/-- How the identities of a document moved. -/
structure IdentityChanges where
  /-- The old and new identities of blocks that are still there. -/
  remapped : List (Identity × Identity)
  /-- The identities of new blocks. -/
  added : List Identity
  /-- The identities of blocks that are gone. -/
  removed : List Identity
deriving DecidableEq

namespace IdentityChanges

/-- No identity moved. -/
def none : IdentityChanges := ⟨[], [], []⟩

/-- Whether no identity moved. -/
def isEmpty (c : IdentityChanges) : Bool :=
  c.remapped.isEmpty && c.added.isEmpty && c.removed.isEmpty

/-- All identities that someone who shows the document has to look at again. -/
def affected (c : IdentityChanges) : List Identity :=
  (c.remapped.flatMap fun (old, new) => [old, new]) ++ c.added ++ c.removed

/-- The new identity of a block that moved. -/
def remapOf? (c : IdentityChanges) (i : Identity) : Option Identity :=
  (c.remapped.find? fun pair => pair.1 = i).map Prod.snd

end IdentityChanges

/-- Where the block of an identity is in a document that was read anew. -/
inductive Resolution where
  /-- The path is still there. -/
  | exact (i : Identity)
  /-- The path is gone; this is the block with the most similar path. -/
  | nearest (i : Identity) (score : Binary64)
  /-- The document has no block. -/
  | nowhere
deriving DecidableEq

namespace Resolution

/-- The identity that was found. -/
def identity? : Resolution → Option Identity
  | exact i => some i
  | nearest i _ => some i
  | nowhere => none

/-- Whether the path is still there. -/
def isExact : Resolution → Bool
  | exact _ => true
  | _ => false

end Resolution

/-- The identities of a document and their paths, both ways. -/
structure IdentityTable where
  /-- The paths by identity. -/
  byIdentity : SortedMap Text
  /-- The identities by path. -/
  byPath : SortedMap Identity
deriving DecidableEq

namespace IdentityTable

/-- The table without identities. -/
def empty : IdentityTable := ⟨.empty, .empty⟩

/-- The table with the identity of a block. -/
def insert (t : IdentityTable) (b : Block) : IdentityTable :=
  ⟨t.byIdentity.insert (Identity.ofBlock b) b.path, t.byPath.insert b.path (Identity.ofBlock b)⟩

/-- The blocks that have an identity: all blocks of a document but its root. -/
def addressable (root : Block) : List Block := root.descendants.filter fun b => !b.isRoot

/-- The table of a document. -/
def ofTree (root : Block) : IdentityTable := (addressable root).foldl insert empty

/-- The identity of the block at a path. -/
def identityAt? (t : IdentityTable) (path : Text) : Option Identity := t.byPath.find? path

/-- The path of the block with an identity. -/
def pathOf? (t : IdentityTable) (i : Identity) : Option Text := t.byIdentity.find? i

/-- All identities, in order. -/
def identities (t : IdentityTable) : List Identity := t.byIdentity.keys

/-! ## Changes of a subtree -/

/-- The table without the entries at and below a path, and those entries: the rest of the path
behind the top, and the identity. -/
def detach (t : IdentityTable) (top : Text) : IdentityTable × SortedMap Identity :=
  (t.byPath.entries.filter fun entry => Path.isWithin top entry.1).foldl
    (fun (t, previous) (path, i) =>
      (⟨t.byIdentity.erase i, t.byPath.erase path⟩,
        previous.insert (Text.dropBytes (Text.byteSize top) path) i))
    (t, .empty)

/-- Adds a block to the table and to the changes; `previous` are the identities that are left from
before, by the rest of their paths behind the top of the subtree. The path of the block is cut at
the size of the top, so it has to be one that `Cuts` allows. -/
def attach (newTop : Text) :
    IdentityTable × IdentityChanges × SortedMap Identity → Block →
      IdentityTable × IdentityChanges × SortedMap Identity
  | (t, changes, previous), b =>
    let i := Identity.ofBlock b
    let relative := Text.dropBytes (Text.byteSize newTop) b.path
    let t := t.insert b
    match previous.find? relative with
    | some old =>
      (t,
        if old = i then changes else { changes with remapped := changes.remapped ++ [(old, i)] },
        previous.erase relative)
    | none => (t, { changes with added := changes.added ++ [i] }, previous)

/-- The table after the blocks at and below `oldTop` became those at and below `newTop`, and how
their identities moved. Blocks are matched by the rest of their paths behind the top. -/
def subtreeChanged (t : IdentityTable) (root : Block) (oldTop newTop : Text) :
    IdentityTable × IdentityChanges :=
  let (t, previous) := t.detach oldTop
  let blocks := (root.find? newTop).elim [] Block.descendants
  let (t, changes, previous) := blocks.foldl (attach newTop) (t, IdentityChanges.none, previous)
  (t, { changes with removed := previous.values })

/-- The paths of all blocks at and below `newTop` can be cut at its size. A block that is found
under a longer spelling of its path has a path that ends before, and another one can have a
character across that place; then the blocks cannot be matched, and following them breaks off. -/
def Cuts (root : Block) (newTop : Text) : Prop :=
  ∀ b ∈ (root.find? newTop).elim [] Block.descendants,
    (Text.cut? (Text.byteSize newTop) b.path).isSome = true

instance (root : Block) (newTop : Text) : Decidable (Cuts root newTop) :=
  inferInstanceAs (Decidable (∀ b ∈ (root.find? newTop).elim [] Block.descendants,
    (Text.cut? (Text.byteSize newTop) b.path).isSome = true))

/-! ## After reading anew -/

/-- The best of the blocks so far and one more block: the first of those with the greatest
similarity to a path. -/
def better (path : Text) (best : Option (Block × Binary64)) (b : Block) :
    Option (Block × Binary64) :=
  let score := Text.similarity path b.path
  match best with
  | none => some (b, score)
  | some (a, s) => if s.units < score.units then some (b, score) else some (a, s)

/-- Where the block of an identity is in a document that was read anew: at the same path, or else
the block whose path is most similar. -/
def resolveAnew (root : Block) (i : Identity) : Resolution :=
  match (root.find? (Identity.path i)).filter fun b => !b.isRoot with
  | some b => .exact (Identity.ofBlock b)
  | none =>
    match (addressable root).foldl (better (Identity.path i)) none with
    | some (b, score) => .nearest (Identity.ofBlock b) score
    | none => .nowhere

end IdentityTable

end BlockEdit
