import BlockEdit.Json.Reader
import BlockEdit.Json.Record
import BlockEdit.Json.Writer
import BlockEdit.Schema.Catalog

/-!
# Catalogs as JSON

A catalog is written as `{"blocks": {path: schema, …}}`. Every field but the name of a parameter may
be left out, and the options of a parameter may be given as one text with blanks between them.
-/

namespace BlockEdit

namespace ParameterSchema

/-- The names of the fields. -/
def fieldNames : List Text :=
  ["name".toList, "type".toList, "cpp_type".toList, "required".toList, "default".toList,
    "options".toList, "description".toList, "group".toList]

/-- Reads the options: a text of words, a list of texts, or nothing. -/
def options? : Json → Option (List Text)
  | .null => some []
  | .text t => some (Text.words t)
  | j => Json.list? Json.text? j

/-- Reads a parameter schema. -/
def ofJson? (j : Json) : Option ParameterSchema := do
  let fs ← Json.fields? fieldNames j
  return {
    name := ← fs.required "name".toList Json.text?
    basicType := ← fs.withDefault "type".toList "String".toList Json.text?
    cppType := ← fs.withDefault "cpp_type".toList [] Json.text?
    required := ← fs.withDefault "required".toList false Json.bool?
    default := ← fs.withDefault "default".toList none (Json.nullable? Json.text?)
    options := ← fs.withDefault "options".toList [] options?
    description := ← fs.withDefault "description".toList [] Json.text?
    group := ← fs.withDefault "group".toList "Main".toList Json.text? }

/-- Writes a parameter schema. -/
def toJson (p : ParameterSchema) : Json :=
  .object [
    ("name".toList, .text p.name),
    ("type".toList, .text p.basicType),
    ("cpp_type".toList, .text p.cppType),
    ("required".toList, .bool p.required),
    ("default".toList, p.default.elim .null .text),
    ("options".toList, .list (p.options.map .text)),
    ("description".toList, .text p.description),
    ("group".toList, .text p.group)]

end ParameterSchema

namespace SubtypeSchema

/-- The names of the fields. -/
def fieldNames : List Text := ["description".toList, "parameters".toList]

/-- Reads a subtype schema. -/
def ofJson? (j : Json) : Option SubtypeSchema := do
  let fs ← Json.fields? fieldNames j
  return {
    description := ← fs.withDefault "description".toList [] Json.text?
    parameters := ← fs.withDefault "parameters".toList [] (Json.list? ParameterSchema.ofJson?) }

/-- Writes a subtype schema. -/
def toJson (s : SubtypeSchema) : Json :=
  .object [
    ("description".toList, .text s.description),
    ("parameters".toList, .list (s.parameters.map ParameterSchema.toJson))]

end SubtypeSchema

namespace BlockSchema

/-- The names of the fields. -/
def fieldNames : List Text := ["description".toList, "parameters".toList, "subtypes".toList]

/-- Reads a block schema. -/
def ofJson? (j : Json) : Option BlockSchema := do
  let fs ← Json.fields? fieldNames j
  return {
    description := ← fs.withDefault "description".toList [] Json.text?
    parameters := ← fs.withDefault "parameters".toList [] (Json.list? ParameterSchema.ofJson?)
    subtypes := ← fs.withDefault "subtypes".toList [] (Json.dictionary? SubtypeSchema.ofJson?) }

/-- Writes a block schema. -/
def toJson (s : BlockSchema) : Json :=
  .object [
    ("description".toList, .text s.description),
    ("parameters".toList, .list (s.parameters.map ParameterSchema.toJson)),
    ("subtypes".toList, .object (s.subtypes.map fun (name, subtype) => (name, subtype.toJson)))]

end BlockSchema

namespace Catalog

/-- The names of the fields. -/
def fieldNames : List Text := ["blocks".toList]

/-- Reads the entries of a catalog, as they are written. -/
def entriesOfJson? (j : Json) : Option (List (Text × BlockSchema)) := do
  let fs ← Json.fields? fieldNames j
  fs.withDefault "blocks".toList [] (Json.dictionary? BlockSchema.ofJson?)

/-- Reads a catalog. -/
def ofJson (j : Json) : Except CatalogError Catalog :=
  match entriesOfJson? j with
  | none => .error .json
  | some entries => empty.insertAll entries

/-- Reads the text of a catalog. -/
def ofText (t : Text) : Except CatalogError Catalog :=
  match Json.ofText? t with
  | none => .error .json
  | some j => ofJson j

/-- Writes a catalog. -/
def toJson (c : Catalog) : Json :=
  .object [("blocks".toList, .object (c.entries.map fun (path, schema) => (path, schema.toJson)))]

/-- The text of a catalog. -/
def text (c : Catalog) : Text := c.toJson.pretty

end Catalog

end BlockEdit
