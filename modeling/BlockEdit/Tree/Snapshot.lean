import BlockEdit.Text.SortedMap
import BlockEdit.Tree.Block

/-!
# Snapshots

Two documents are the same when the same blocks stand at the same paths, with the same subtypes,
the same values and the same comments of parameters. A snapshot holds just this, sorted by path and
by name, so that it does not depend on the order of blocks and parameters.

Main statement:

* **`Block.structurallyEq_refl`**: every document is the same as itself.
-/

namespace BlockEdit

/-- What a snapshot holds of one block. -/
structure BlockSnapshot where
  /-- The active subtype. -/
  subtype : Option Text
  /-- The values of all parameters by name. -/
  values : SortedMap (Option Value)
  /-- The comments that are not empty, by the name of the parameter. -/
  comments : SortedMap Text
deriving DecidableEq

/-- The blocks of a document by path. -/
abbrev Snapshot := SortedMap BlockSnapshot

namespace BlockSnapshot

/-- The snapshot of one block. A name that both the block and its subtype have stands for the
parameter of the subtype. -/
def ofBlock (b : Block) : BlockSnapshot where
  subtype := b.info.subtype
  values := SortedMap.ofList (b.allParameters.map fun s => (s.name, s.value))
  comments := SortedMap.ofList
    ((b.allParameters.filter fun s => !s.comments.isEmpty).map fun s => (s.name, s.comments))

/-- Whether two lists have the same names with the same values. -/
def sameValues : List (Text × Option Value) → List (Text × Option Value) → Bool
  | [], [] => true
  | (n, v) :: vs, (m, w) :: ws => n == m && Value.sameOption v w && sameValues vs ws
  | _, _ => false

/-- Whether two blocks are the same. -/
def same (a b : BlockSnapshot) : Bool :=
  a.subtype == b.subtype && sameValues a.values.entries b.values.entries &&
    a.comments.entries == b.comments.entries

end BlockSnapshot

namespace Snapshot

/-- The snapshot of a document. -/
def ofBlock (root : Block) : Snapshot :=
  SortedMap.ofList (root.descendants.map fun b => (b.path, BlockSnapshot.ofBlock b))

/-- Whether two lists have the same paths with the same blocks. -/
def sameEntries : List (Text × BlockSnapshot) → List (Text × BlockSnapshot) → Bool
  | [], [] => true
  | (p, a) :: as, (q, b) :: bs => p == q && a.same b && sameEntries as bs
  | _, _ => false

/-- Whether two snapshots are the same. -/
def same (a b : Snapshot) : Bool := sameEntries a.entries b.entries

end Snapshot

/-- Whether two documents are the same. -/
def Block.structurallyEq (a b : Block) : Bool := (Snapshot.ofBlock a).same (Snapshot.ofBlock b)

/-! ## Laws -/

/-- A scalar is the same as itself. -/
theorem Scalar.same_refl (s : Scalar) : s.same s = true := by
  cases s <;> simp [Scalar.same, Binary64.same]

/-- A list is the same as itself. -/
theorem Value.sameItems_refl (ss : List Scalar) : Value.sameItems ss ss = true := by
  induction ss with
  | nil => rfl
  | cons s ss ih => simp [Value.sameItems, Scalar.same_refl, ih]

/-- A value, or the lack of one, is the same as itself. -/
theorem Value.sameOption_refl (v : Option Value) : Value.sameOption v v = true := by
  rcases v with _ | (s | ss)
  · rfl
  · exact Scalar.same_refl s
  · exact Value.sameItems_refl ss

/-- Values are the same as themselves. -/
theorem BlockSnapshot.sameValues_refl (vs : List (Text × Option Value)) :
    BlockSnapshot.sameValues vs vs = true := by
  induction vs with
  | nil => rfl
  | cons v vs ih => simp [BlockSnapshot.sameValues, Value.sameOption_refl, ih]

/-- What a snapshot says of a block is the same as itself. -/
theorem BlockSnapshot.same_refl (a : BlockSnapshot) : a.same a = true := by
  simp [BlockSnapshot.same, BlockSnapshot.sameValues_refl]

/-- A snapshot is the same as itself. -/
theorem Snapshot.same_refl (a : Snapshot) : a.same a = true := by
  unfold Snapshot.same
  induction a.entries with
  | nil => rfl
  | cons e es ih => simp [Snapshot.sameEntries, BlockSnapshot.same_refl, ih]

/-- **Every document** is the same as itself. -/
theorem Block.structurallyEq_refl (b : Block) : b.structurallyEq b = true :=
  Snapshot.same_refl _

end BlockEdit
