import BlockEdit.Json.Reader
import BlockEdit.Json.Record
import BlockEdit.Sync.Engine

/-!
# The configuration file

A directory can hold a `hitedit.config.json` that names a catalog and says how text is indented and
how long an engine waits. Whatever it does not say stays as it is without it.
-/

namespace BlockEdit

/-- What a configuration file says. -/
structure Config where
  /-- The file of the catalog, relative to the directory. -/
  schema : Option Text := none
  /-- The indentation of text for each level. -/
  indent : Text := Layout.defaultIndent
  /-- The time between an edit of a tree and the new text, in milliseconds. -/
  serializeDelay : Nat := 300
  /-- The time between typed text and the new tree, in milliseconds. -/
  parseDelay : Nat := 500
deriving DecidableEq

namespace Config

/-- The name of the file. -/
def fileName : Text := "hitedit.config.json".toList

/-- The names of the fields. -/
def fieldNames : List Text :=
  ["schema".toList, "indent".toList, "serializeDebounceMs".toList, "parseDebounceMs".toList]

/-- Reads a configuration. -/
def ofJson? (j : Json) : Option Config := do
  let fs ← Json.fields? fieldNames j
  return {
    schema := ← fs.withDefault "schema".toList none (Json.nullable? Json.text?)
    indent := ← fs.withDefault "indent".toList Layout.defaultIndent Json.text?
    serializeDelay := ← fs.withDefault "serializeDebounceMs".toList 300 Json.word?
    parseDelay := ← fs.withDefault "parseDebounceMs".toList 500 Json.word? }

/-- Reads the text of a configuration. -/
def ofText? (t : Text) : Option Config := (Json.ofText? t).bind ofJson?

/-- What the configuration says to an engine. -/
def sync (c : Config) : SyncConfig where
  serializeDelay := c.serializeDelay
  parseDelay := c.parseDelay
  indent := c.indent

end Config

end BlockEdit
