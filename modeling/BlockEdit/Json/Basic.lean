import BlockEdit.Number.Decimal

/-!
# JSON values

Catalogs, configurations and edits arrive as JSON. The members of an object keep their order and
their repetitions, because both can matter to the one who reads them.

A literal that is well formed but stands for nothing (a number beyond all finite ones, a text with
half of a surrogate pair) is `undefined`: it may stand where nobody reads it.
-/

namespace BlockEdit

/-- A JSON value. -/
inductive Json where
  /-- The value `null`. -/
  | null
  /-- A truth value. -/
  | bool (b : Bool)
  /-- A whole number that was written without point and exponent. -/
  | int (i : Int)
  /-- Any other number. -/
  | real (x : Binary64)
  /-- A text. -/
  | text (t : Text)
  /-- A list of values. -/
  | list (items : List Json)
  /-- An object: its members in the order in which they were written. -/
  | object (members : List (Text × Json))
  /-- A literal without a value. -/
  | undefined
deriving Inhabited

namespace Json

mutual

/-- Whether every literal in the value stands for something. -/
def isDefined : Json → Bool
  | .undefined => false
  | .list items => allDefined items
  | .object members => membersDefined members
  | _ => true

/-- Whether all the values are defined. -/
def allDefined : List Json → Bool
  | [] => true
  | j :: js => j.isDefined && allDefined js

/-- Whether the values of all the members are defined. -/
def membersDefined : List (Text × Json) → Bool
  | [] => true
  | (_, j) :: rest => j.isDefined && membersDefined rest

end

mutual

/-- How deep lists and objects are nested in the value. -/
def depth : Json → Nat
  | .list items => depthOfAll items + 1
  | .object members => depthOfMembers members + 1
  | _ => 0

/-- The depth of the deepest value. -/
def depthOfAll : List Json → Nat
  | [] => 0
  | j :: js => max j.depth (depthOfAll js)

/-- The depth of the deepest value of a member. -/
def depthOfMembers : List (Text × Json) → Nat
  | [] => 0
  | (_, j) :: rest => max j.depth (depthOfMembers rest)

end

end Json

end BlockEdit
