import BlockEdit.Edit.Json
import BlockEdit.Proofs.JsonTexts
import BlockEdit.Proofs.Records

/-!
# Edits on the wire

An edit is sent as a text and read again on the other side. Three ways of telling things apart are
nested in it: an edit by the name of its only member, a value by whether it is an object or a list,
and a scalar by the kind that stands beside what it holds. Reading goes through them in the order of
writing: a list of scalars is tried as a scalar first, but what stands first in it is no kind.

Real numbers are rounded on the way in, so an edit comes back when those in it do.

Main statements:

* **`Scalar.ofJson?_toJson`**, **`Value.ofJson?_toJson`**, **`Edit.ofJson?_toJson`**: what is
  written as JSON is read as the same thing.
* **`Edit.text_reads_back`**: an edit is read from its text as the same edit.
-/

namespace BlockEdit

/-! ### Scalars -/

namespace Scalar

/-- The real number that the scalar is, if it is one. -/
def reals : Scalar → List Binary64
  | real x => [x]
  | _ => []

variable {s : Scalar}

/-- A kind is read back from its name. -/
theorem kindOfName?_text (kind : ScalarKind) : kindOfName? kind.text = some kind := by
  cases kind
  all_goals rfl

/-- A scalar is read back from its kind and what it holds. -/
theorem ofContent?_content (s : Scalar) : ofContent? s.kind s.content = some s := by
  cases s with
  | bool b => rfl
  | int i => exact congrArg (Option.map int) (Integer.ofInt?_toInt i)
  | real x => rfl
  | string t => rfl

/-- A scalar is read from its two members, the kind first. -/
theorem ofJson?_members (kind content : Json) :
    ofJson? (.object [("kind".toList, kind), ("value".toList, content)]) =
      (kindOfMember? kind).bind fun kind => ofContent? kind content := rfl

/-- **A scalar** is read from what it is written as. -/
theorem ofJson?_toJson (s : Scalar) : ofJson? s.toJson = some s := by
  refine (ofJson?_members ..).trans ?_
  rw [kindOfMember?, kindOfName?_text]
  exact ofContent?_content s

/-- A list of scalars is not a scalar: what stands first in it is no kind. -/
theorem ofJson?_list (items : List Scalar) : ofJson? (.list (items.map toJson)) = none := by
  rcases items with _ | ⟨s, items⟩
  · rfl
  · rw [ofJson?, Json.fields?]
    split
    · rfl
    · rfl

/-- What is written for a scalar is defined. -/
theorem isDefined_toJson (s : Scalar) : s.toJson.isDefined = true := by
  cases s
  all_goals rfl

/-- A scalar is written as one object, with nothing nested in it. -/
theorem depth_toJson (s : Scalar) : s.toJson.depth = 1 := by
  cases s
  all_goals rfl

/-- What is written for a scalar can be read as text, if its real number can. -/
theorem legible_toJson (h : ∀ x ∈ s.reals, Json.ofText? (Json.realText x) = some (.real x)) :
    s.toJson.Legible := by
  have hcontent : s.content.Legible := by
    cases s with
    | bool b => trivial
    | int i =>
      have hlow := i.le_toInt
      have hhigh := i.toInt_lt
      exact ⟨by omega, by omega⟩
    | real x => exact h x List.mem_cons_self
    | string t => trivial
  exact ⟨trivial, hcontent, trivial⟩

end Scalar

/-! ### Values -/

namespace Value

/-- The real numbers in the value. -/
def reals : Value → List Binary64
  | scalar s => s.reals
  | array items => items.flatMap Scalar.reals

variable {v : Value}

/-- What is written for a value is defined. -/
theorem isDefined_toJson (v : Value) : v.toJson.isDefined = true := by
  cases v with
  | scalar s => exact s.isDefined_toJson
  | array items =>
    show Json.allDefined (items.map Scalar.toJson) = true
    induction items with
    | nil => rfl
    | cons s items ih => rw [List.map_cons, Json.allDefined, s.isDefined_toJson, ih]; rfl

/-- A list is written with its items nested once. -/
theorem depth_toJson_le (v : Value) : v.toJson.depth ≤ 2 := by
  cases v with
  | scalar s =>
    rw [toJson, s.depth_toJson]
    decide
  | array items =>
    have hall : Json.depthOfAll (items.map Scalar.toJson) ≤ 1 := by
      induction items with
      | nil => exact Nat.zero_le 1
      | cons s items ih =>
        rw [List.map_cons, Json.depthOfAll, s.depth_toJson]
        exact Nat.max_le.mpr ⟨Nat.le_refl 1, ih⟩
    exact Nat.succ_le_succ hall

/-- **A value** is read from what it is written as. -/
theorem ofJson?_toJson (v : Value) : ofJson? v.toJson = some v := by
  have hdepth : ¬ depthLimit < v.toJson.depth := by
    have := v.depth_toJson_le
    rw [depthLimit]
    omega
  rw [ofJson?, v.isDefined_toJson, decide_eq_false hdepth, if_neg (by decide)]
  cases v with
  | scalar s => rw [toJson, s.ofJson?_toJson]
  | array items =>
    rw [toJson, Scalar.ofJson?_list]
    exact congrArg (Option.map array) (Json.list?_map fun s _ => s.ofJson?_toJson)

/-- What is written for a value can be read as text, if its real numbers can. -/
theorem legible_toJson (h : ∀ x ∈ v.reals, Json.ofText? (Json.realText x) = some (.real x)) :
    v.toJson.Legible := by
  cases v with
  | scalar s => exact Scalar.legible_toJson h
  | array items =>
    refine Json.legible_list_iff.mpr fun j hj => ?_
    obtain ⟨s, hs, rfl⟩ := List.mem_map.mp hj
    exact Scalar.legible_toJson fun x hx => h x (List.mem_flatMap.mpr ⟨s, hs, hx⟩)

end Value

/-! ### Edits -/

namespace Edit

/-- The real numbers in the edit. -/
def reals : Edit → List Binary64
  | setValue _ _ value => value.reals
  | _ => []

variable {e : Edit}

/-- An edit that sets a value is read from its three fields. -/
theorem ofFields?_setValue (path parameter : Text) (j : Json) :
    ofFields? "SetValue".toList (.object [("path".toList, .text path),
      ("parameter".toList, .text parameter), ("value".toList, j)]) =
        (Value.ofJson? j).bind fun value => some (setValue path parameter value) := rfl

/-- **An edit** is read from what it is written as. -/
theorem ofJson?_toJson (e : Edit) : ofJson? e.toJson = some e := by
  cases e with
  | addChild parent name subtype =>
    -- a name or subtype that is left out is written as `null`
    rcases name with _ | name
    · rcases subtype with _ | subtype
      · rfl
      · rfl
    · rcases subtype with _ | subtype
      · rfl
      · rfl
  | remove path => rfl
  | rename path newName => rfl
  | setSubtype path subtype => rfl
  | setValue path parameter value =>
    refine (ofFields?_setValue path parameter value.toJson).trans ?_
    rw [value.ofJson?_toJson]
    rfl
  | setText path parameter text => rfl
  | addParameter path name value => rfl
  | setComment path parameter comment => rfl

/-- What is written for an edit can be read as text, if its real numbers can. -/
theorem legible_toJson (h : ∀ x ∈ e.reals, Json.ofText? (Json.realText x) = some (.real x)) :
    e.toJson.Legible := by
  have hoption : ∀ t : Option Text, (t.elim Json.null Json.text).Legible := by
    intro t
    cases t
    all_goals trivial
  cases e with
  | addChild parent name subtype =>
    exact ⟨⟨trivial, hoption name, hoption subtype, trivial⟩, trivial⟩
  | remove path => exact ⟨⟨trivial, trivial⟩, trivial⟩
  | rename path newName => exact ⟨⟨trivial, trivial, trivial⟩, trivial⟩
  | setSubtype path subtype => exact ⟨⟨trivial, trivial, trivial⟩, trivial⟩
  | setValue path parameter value =>
    exact ⟨⟨trivial, trivial, Value.legible_toJson h, trivial⟩, trivial⟩
  | setText path parameter text => exact ⟨⟨trivial, trivial, trivial, trivial⟩, trivial⟩
  | addParameter path name value => exact ⟨⟨trivial, trivial, trivial, trivial⟩, trivial⟩
  | setComment path parameter comment => exact ⟨⟨trivial, trivial, trivial, trivial⟩, trivial⟩

/-- **An edit comes back from its text**: it is read as the same edit, if the real numbers in it
come back from theirs. -/
theorem text_reads_back
    (h : ∀ x ∈ e.reals, Json.ofText? (Json.realText x) = some (.real x)) :
    ofText? e.text = some e := by
  rw [ofText?, text, Json.ofText?_compact (legible_toJson h)]
  exact e.ofJson?_toJson

/-- The number -0.5. -/
def minusHalf : Binary64 := ⟨true, 2 ^ 52, 1021, by decide⟩

/-- It comes back from its text: five divided by ten, rounded, is a half. -/
theorem ofText?_minusHalf : Json.ofText? (Json.realText minusHalf) = some (.real minusHalf) := by
  have htext : Json.realText minusHalf = ['-', '0', '.', '5'] := by decide +kernel
  have hscale : (Json.scale? 5 (-1)).map Binary64.neg = some minusHalf := by decide +kernel
  have hparts : Json.ofParts? true ['0'] (some ['5']) none =
      ((Json.scale? 5 (-1)).map Binary64.neg).map .real := by
    rw [Option.map_map]
    rfl
  rw [hscale] at hparts
  have hread : Json.readMagnitude? true ['0', '.', '5'] = some (.real minusHalf, []) :=
    congrArg (fun j : Option Json => some (j.getD .undefined, ([] : Text))) hparts
  rw [htext]
  exact Json.ofText?_of_writes (.number hread)

/-- An edit that sets a list with a scalar of each kind; the text in it needs escapes. -/
def mixedValues : Edit :=
  setValue "/A".toList "x".toList (.array [.real minusHalf, .int (-3), .bool true,
    .string ['"', '\\', '\n', '\x01', '\x27']])

/-- For instance, an edit that sets a list of all kinds of scalars is read back. -/
theorem text_reads_back_sample :
    (∀ x ∈ mixedValues.reals, Json.ofText? (Json.realText x) = some (.real x)) ∧
      ofText? mixedValues.text = some mixedValues := by
  have h : ∀ x ∈ mixedValues.reals, Json.ofText? (Json.realText x) = some (.real x) := by
    intro x hx
    rw [List.mem_singleton.mp hx]
    exact ofText?_minusHalf
  exact ⟨h, text_reads_back h⟩

end Edit

end BlockEdit
