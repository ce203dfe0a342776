import BlockEdit.Edit.Basic
import BlockEdit.Json.Record
import BlockEdit.Schema.Json

/-!
# Edits as JSON

An edit is an object with one member, named after the kind of the edit, that holds its fields. A
scalar is an object with its kind and its value, and a value is a scalar or a list of scalars.
-/

namespace BlockEdit

namespace Scalar

/-- The names of the two fields. -/
def fieldNames : List Text := ["kind".toList, "value".toList]

/-- The kinds in the order in which they are counted. -/
def kinds : List ScalarKind := [.bool, .int, .real, .string]

/-- The kind of this name. -/
def kindOfName? (name : Text) : Option ScalarKind := kinds.find? fun kind => kind.text = name

/-- Reads the kind that a member of an object gives: its name, or an object with one member of that
name that is `null`. -/
def kindOfMember? : Json → Option ScalarKind
  | .text name => kindOfName? name
  | .object [(name, .null)] => kindOfName? name
  | _ => none

/-- Reads the kind that stands first in a list: its name, or how many kinds come before it. -/
def kindOfItem? : Json → Option ScalarKind
  | .text name => kindOfName? name
  | .int i => if 0 ≤ i then kinds[i.toNat]? else none
  | _ => none

/-- Reads what a scalar of this kind holds. A whole number will do for a number. -/
def ofContent? : ScalarKind → Json → Option Scalar
  | .bool, .bool b => some (.bool b)
  | .int, .int i => (Integer.ofInt? i).map .int
  | .real, .int i => (Binary64.ofInt? i).map .real
  | .real, .real x => some (.real x)
  | .string, .text t => some (.string t)
  | _, _ => none

/-- Reads a scalar. -/
def ofJson? (j : Json) : Option Scalar := do
  let fs ← Json.fields? fieldNames j
  let kind ← fs.required "kind".toList (if fs.byPlace then kindOfItem? else kindOfMember?)
  fs.required "value".toList (ofContent? kind)

/-- What a scalar holds. -/
def content : Scalar → Json
  | .bool b => .bool b
  | .int i => .int i.toInt
  | .real x => .real x
  | .string t => .text t

/-- Writes a scalar. -/
def toJson (s : Scalar) : Json :=
  .object [("kind".toList, .text s.kind.text), ("value".toList, s.content)]

end Scalar

namespace Value

/-- How deep lists and objects in a value may be nested, members that nobody reads included. -/
def depthLimit : Nat := 125

/-- Reads a value: a scalar, or a list of scalars. Every literal in it must stand for something. -/
def ofJson? (j : Json) : Option Value :=
  if !j.isDefined || depthLimit < j.depth then none
  else
    match Scalar.ofJson? j with
    | some s => some (.scalar s)
    | none => (Json.list? Scalar.ofJson? j).map .array

/-- Writes a value. -/
def toJson : Value → Json
  | .scalar s => s.toJson
  | .array items => .list (items.map Scalar.toJson)

end Value

namespace Edit

/-- Reads the fields of an edit of this kind. -/
def ofFields? (kind : Text) (j : Json) : Option Edit :=
  if kind = "AddChild".toList then do
    let fs ← Json.fields? ["parent_path".toList, "name".toList, "subtype".toList] j
    return addChild (← fs.required "parent_path".toList Json.text?)
      (← fs.optional "name".toList (Json.nullable? Json.text?))
      (← fs.optional "subtype".toList (Json.nullable? Json.text?))
  else if kind = "Remove".toList then do
    let fs ← Json.fields? ["path".toList] j
    return remove (← fs.required "path".toList Json.text?)
  else if kind = "Rename".toList then do
    let fs ← Json.fields? ["path".toList, "new_name".toList] j
    return rename (← fs.required "path".toList Json.text?)
      (← fs.required "new_name".toList Json.text?)
  else if kind = "SetSubtype".toList then do
    let fs ← Json.fields? ["path".toList, "subtype".toList] j
    return setSubtype (← fs.required "path".toList Json.text?)
      (← fs.required "subtype".toList Json.text?)
  else if kind = "SetValue".toList then do
    let fs ← Json.fields? ["path".toList, "parameter".toList, "value".toList] j
    return setValue (← fs.required "path".toList Json.text?)
      (← fs.required "parameter".toList Json.text?) (← fs.required "value".toList Value.ofJson?)
  else if kind = "SetValueText".toList then do
    let fs ← Json.fields? ["path".toList, "parameter".toList, "text".toList] j
    return setText (← fs.required "path".toList Json.text?)
      (← fs.required "parameter".toList Json.text?) (← fs.required "text".toList Json.text?)
  else if kind = "AddParameter".toList then do
    let fs ← Json.fields? ["path".toList, "name".toList, "value".toList] j
    return addParameter (← fs.required "path".toList Json.text?)
      (← fs.required "name".toList Json.text?) (← fs.required "value".toList Json.text?)
  else if kind = "SetComment".toList then do
    let fs ← Json.fields? ["path".toList, "parameter".toList, "comment".toList] j
    return setComment (← fs.required "path".toList Json.text?)
      (← fs.required "parameter".toList Json.text?) (← fs.required "comment".toList Json.text?)
  else none

/-- Reads an edit. -/
def ofJson? : Json → Option Edit
  | .object [(kind, fields)] => ofFields? kind fields
  | _ => none

/-- Reads the text of an edit. -/
def ofText? (t : Text) : Option Edit := (Json.ofText? t).bind ofJson?

/-- The kind of the edit and its fields. -/
def fields : Edit → Text × List (Text × Json)
  | addChild parent name subtype =>
    ("AddChild".toList, [("parent_path".toList, .text parent),
      ("name".toList, name.elim .null .text), ("subtype".toList, subtype.elim .null .text)])
  | remove path => ("Remove".toList, [("path".toList, .text path)])
  | rename path newName =>
    ("Rename".toList, [("path".toList, .text path), ("new_name".toList, .text newName)])
  | setSubtype path subtype =>
    ("SetSubtype".toList, [("path".toList, .text path), ("subtype".toList, .text subtype)])
  | setValue path parameter value =>
    ("SetValue".toList, [("path".toList, .text path), ("parameter".toList, .text parameter),
      ("value".toList, value.toJson)])
  | setText path parameter text =>
    ("SetValueText".toList, [("path".toList, .text path), ("parameter".toList, .text parameter),
      ("text".toList, .text text)])
  | addParameter path name value =>
    ("AddParameter".toList, [("path".toList, .text path), ("name".toList, .text name),
      ("value".toList, .text value)])
  | setComment path parameter comment =>
    ("SetComment".toList, [("path".toList, .text path), ("parameter".toList, .text parameter),
      ("comment".toList, .text comment)])

/-- Writes an edit. -/
def toJson (e : Edit) : Json := .object [(e.fields.1, .object e.fields.2)]

/-- The text of an edit. -/
def text (e : Edit) : Text := e.toJson.compact

end Edit

end BlockEdit
