import BlockEdit.Tree.Block

/-!
# Subtypes of a block

A block has at most one active subtype at a time. Switching takes the values along: a parameter of
the new subtype gets the value of a parameter of the old one with the same name and type. The
parameters of the old subtype are stashed and come back when the block is switched back.

Main statements:

* **`switchSubtype?_isSome_iff`**: a block can be switched exactly to the subtypes of its schema.
* **`subtype_of_switchSubtype?`**: the subtype that a block was switched to is then active.
-/

namespace BlockEdit.Block

/-- The parameters that a subtype adds to the block: those of its schema that the block does not
have itself. -/
def materialize (b : Block) (schema : SubtypeSchema) : List Slot :=
  Named.ofList
    ((schema.parameters.filter fun p => !Named.has p.name b.info.parameters).map Slot.ofSchema)

/-- The parameters with the values of those of the old subtype that have the same name and type. -/
def carryOver (old : List Slot) (slots : List Slot) : List Slot :=
  slots.map fun s =>
    match Named.find? s.name old with
    | some o => if o.type = s.type then s.copyState o else s
    | none => s

/-- The slot with the name of the subtype as its value; a slot that does not take it becomes one of
texts. -/
def selectType (subtype : Text) (s : Slot) : Slot :=
  match s.setValue (Value.ofText subtype) with
  | .ok s => s
  | .error _ => s.relaxTo subtype

/-- The parameters of earlier subtypes, with those of the active one added. -/
def stashed (info : BlockInfo) : List (Text × List Slot) :=
  match info.subtype with
  | some old => Named.put (old, info.subtypeParameters) info.stash
  | none => info.stash

/-- The parameters of a subtype, from the stash or new, and the stash without them. -/
def unstash (b : Block) (subtype : Text) (schema : SubtypeSchema) :
    List Slot × List (Text × List Slot) :=
  match Named.find? subtype b.info.stash with
  | some (_, slots) => (slots, Named.remove subtype b.info.stash)
  | none => (b.materialize schema, b.info.stash)

/-- The block with another subtype; none when its schema does not have that. -/
def switchSubtype? (b : Block) (subtype : Text) : Option Block :=
  (b.subtypeSchema? subtype).map fun schema =>
    if b.info.subtype = some subtype then b
    else
      let (slots, stash) := b.unstash subtype schema
      { b with
        info :=
          { b.info with
            subtype := some subtype
            subtypeParameters := carryOver b.info.subtypeParameters slots
            stash := stashed { b.info with stash }
            parameters := Named.update Slot.typeName (selectType subtype) b.info.parameters } }

/-- The block with another subtype, or as it is when its schema does not have that. -/
def switchSubtype (b : Block) (subtype : Text) : Block := (b.switchSubtype? subtype).getD b

/-- The block without active subtype. -/
def clearSubtype (b : Block) : Block :=
  match b.info.subtype with
  | some _ =>
    { b with
      info := { b.info with subtype := none, subtypeParameters := [], stash := stashed b.info } }
  | none => b

/-- A block that a user adds under `parent`, of the schema for such blocks. -/
def ofWildcard (schema : BlockSchema) (parent name : Text) (subtype : Option Text) : Block :=
  let b := fresh name (Path.join parent name) (some schema) none
  subtype.elim b b.switchSubtype

/-! ## Laws -/

/-- **A block can be switched** exactly to the subtypes of its schema. -/
theorem switchSubtype?_isSome_iff (b : Block) (subtype : Text) :
    (b.switchSubtype? subtype).isSome = b.hasSubtype subtype := by
  simp [switchSubtype?, hasSubtype]

/-- **The subtype that a block was switched to** is active. -/
theorem subtype_of_switchSubtype? {b c : Block} {subtype : Text}
    (h : b.switchSubtype? subtype = some c) : c.info.subtype = some subtype := by
  simp only [switchSubtype?, Option.map_eq_some_iff] at h
  obtain ⟨schema, -, rfl⟩ := h
  split
  · next hs => exact hs
  · rfl

end BlockEdit.Block
