import BlockEdit.Text.Named
import BlockEdit.Json.Basic

/-!
# Records in JSON

A record with fields of fixed names is written as an object, whose members may stand in any order
and of which those with other names are ignored, or as the list of its fields in order.
-/

namespace BlockEdit.Json

/-- The fields of a record as they were given. -/
structure Fields where
  /-- The fields that were given, with their names. -/
  given : List (Text × Json)
  /-- Whether they were given by their place in a list. -/
  byPlace : Bool

/-- The members that are fields of the record; none when one of them is given twice. -/
def ownMembers? (names : List Text) : List (Text × Json) → Option (List (Text × Json))
  | [] => some []
  | (name, j) :: rest => do
    let own ← ownMembers? names rest
    if !names.contains name then some own
    else if Named.has name own then none
    else some ((name, j) :: own)

/-- Reads the value as a record with fields of these names. -/
def fields? (names : List Text) : Json → Option Fields
  | .object members => (ownMembers? names members).map fun own => ⟨own, false⟩
  | .list items => if items.length ≤ names.length then some ⟨names.zip items, true⟩ else none
  | _ => none

namespace Fields

/-- The value of a field that has to be given. -/
def required {α : Type} (fs : Fields) (name : Text) (read : Json → Option α) : Option α :=
  (Named.find? name fs.given).bind fun entry => read entry.2

/-- The value of a field that may be left out. -/
def withDefault {α : Type} (fs : Fields) (name : Text) (value : α) (read : Json → Option α) :
    Option α :=
  match Named.find? name fs.given with
  | some entry => read entry.2
  | none => some value

/-- The value of a field that may be left out of an object, but not of a list. -/
def optional {α : Type} (fs : Fields) (name : Text) (read : Json → Option (Option α)) :
    Option (Option α) :=
  match Named.find? name fs.given with
  | some entry => read entry.2
  | none => if fs.byPlace then none else some none

end Fields

/-! ## Plain values -/

/-- The value as a text. -/
def text? : Json → Option Text
  | .text t => some t
  | _ => none

/-- The value as a truth value. -/
def bool? : Json → Option Bool
  | .bool b => some b
  | _ => none

/-- The value as a list of whatever `read` reads. -/
def list? {α : Type} (read : Json → Option α) : Json → Option (List α)
  | .list items => items.mapM read
  | _ => none

/-- The value, or nothing when it is `null`. -/
def nullable? {α : Type} (read : Json → Option α) : Json → Option (Option α)
  | .null => some none
  | j => (read j).map some

/-- The value as a whole number that is not negative and fits into 64 bits. -/
def word? : Json → Option Nat
  | .int i => if 0 ≤ i ∧ i < 2 ^ 64 then some i.toNat else none
  | _ => none

/-- The value as an object whose members are read by `read`; a name that is given twice keeps its
first place and its last value. -/
def dictionary? {α : Type} (read : Json → Option α) : Json → Option (List (Text × α))
  | .object members => do
    let entries ← members.mapM fun (name, j) => (read j).map fun value => (name, value)
    return Named.ofList entries
  | _ => none

end BlockEdit.Json
