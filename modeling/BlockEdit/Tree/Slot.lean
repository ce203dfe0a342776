import BlockEdit.Schema.Basic

/-!
# Parameter slots

A slot is one parameter of a block: what the catalog says about it, its value if it has one, and
what a document says about it. A slot is written when someone set it, when it was added by hand, or
when it differs from its default.

Main statements:

* **`value_setValue`**: a value that is set is the checked one.
* **`checkValue_eq_ok`**: what is checked has a type that fits and can be written.
-/

namespace BlockEdit

/-- One parameter of a block. -/
structure Slot where
  /-- The name of the parameter. -/
  name : Text
  /-- The type of its values. -/
  type : ValueType
  /-- The type that the application uses for it. -/
  cppType : Text
  /-- Whether the block is incomplete without a value. -/
  required : Bool
  /-- The value that stands when nobody has set one. -/
  default : Option Value
  /-- The value. -/
  value : Option Value
  /-- Whether a user added the parameter; the catalog does not know it then. -/
  userAdded : Bool
  /-- The group in which an editor shows it. -/
  group : Text
  /-- What the parameter is for. -/
  description : Text
  /-- The values to choose from. -/
  options : List Text
  /-- The comment of the parameter, of one or more lines. -/
  comments : Text
  /-- Whether a document or an edit has given the value. -/
  explicit : Bool
deriving DecidableEq

namespace Slot

instance : Named Slot := ⟨Slot.name⟩

/-- The parameter that selects the subtype of a block. -/
def typeName : Text := "type".toList

/-- The parameter that holds free text when its type in the application is a string. -/
def valueName : Text := "value".toList

/-- A slot that a catalog describes, at its default. -/
def ofSchema (p : ParameterSchema) : Slot where
  name := p.name
  type := p.valueType
  cppType := p.cppType
  required := p.required
  default := p.defaultValue
  value := p.defaultValue
  userAdded := false
  group := p.group
  description := p.description
  options := p.options
  comments := []
  explicit := false

/-- A text that a user adds to a block. -/
def user (name text : Text) : Slot where
  name := name
  type := ValueType.string
  cppType := []
  required := false
  default := none
  value := some (Value.ofText text)
  userAdded := true
  group := "Main".toList
  description := []
  options := []
  comments := []
  explicit := true

/-- A text in a block that no catalog describes. -/
def untyped (name text : Text) : Slot := { user name text with userAdded := false }

/-! ## Setting values -/

/-- The value as the slot would hold it, when it fits the type and can be written. -/
def checkValue (s : Slot) (v : Value) : Except ValueError Value := do
  let v ← v.conform s.type
  v.checkWritable
  return v

/-- What the slot would hold for a text that someone types. -/
def checkText (s : Slot) (t : Text) : Except ValueError Value := do
  s.checkValue (← s.type.read t)

/-- The slot with a value that someone gave. -/
def give (s : Slot) (v : Option Value) : Slot := { s with value := v, explicit := true }

/-- The slot with a value, when the value is accepted. -/
def setValue (s : Slot) (v : Value) : Except ValueError Slot :=
  (s.checkValue v).map fun v => s.give (some v)

/-- The slot with the value that a document has for it. -/
def setText (s : Slot) (t : Text) : Except ValueError Slot :=
  (s.type.read t).map fun v => s.give (some v)

/-- The slot as one of texts, with the text that did not read as its type. -/
def relaxTo (s : Slot) (t : Text) : Slot :=
  { s with type := s.type.relaxed }.give (s.type.relaxed.read t).toOption

/-- The slot with the value and the comment of another one. -/
def copyState (s other : Slot) : Slot :=
  { s with value := other.value, explicit := other.explicit, comments := other.comments }

/-! ## What is written -/

/-- Whether the slot differs from one that nobody has touched. -/
def hasChanged (s : Slot) : Bool := !Value.sameOption s.value s.default || !s.comments.isEmpty

/-- Whether a document has a line for the slot. -/
def isWritten (s : Slot) : Bool := s.explicit || s.userAdded || s.hasChanged

/-- Whether the slot holds free text by its name and its type in the application. -/
def isFreeText (s : Slot) : Bool :=
  (Text.includes "basic_string".toList s.cppType || Text.includes "std::string".toList s.cppType) &&
    s.name == valueName

/-- The characters that a text can hold only in quotes. -/
def asksForQuotes (c : Char) : Bool :=
  Text.isBlank c || c == ';' || c == '=' || c == '\x27' || c == '"'

/-- The characters that a text can start with only in quotes. -/
def asksForQuotesFirst (c : Char) : Bool := c == '[' || c == ']' || c == '#'

/-- Whether a text has to be in quotes. -/
def textNeedsQuotes (t : Text) : Bool := t.any asksForQuotes || (t.head?.map asksForQuotesFirst).getD false

/-- Whether the value is written in quotes. -/
def needsQuotes (s : Slot) : Bool :=
  s.type.isArray || s.userAdded || s.isFreeText || s.cppType == "FunctionExpression".toList ||
    ((s.value.bind Value.string?).map textNeedsQuotes).getD false

/-- The text in quotes: in single ones unless it holds a single quote. -/
def quote (t : Text) : Text :=
  if t.contains '\x27' then '"' :: t ++ ['"'] else '\x27' :: t ++ ['\x27']

/-- The text of the value; empty when there is none. -/
def text (s : Slot) : Text := (s.value.map Value.text).getD []

/-- The value as a document writes it. An empty value is written as nothing, except that a user's
own parameter keeps its quotes. -/
def writtenText (s : Slot) : Text :=
  if s.needsQuotes && (!s.text.isEmpty || s.userAdded) then quote s.text else s.text

/-! ## Laws -/

/-- **What is checked** is the conformed value, and it can be written. -/
theorem checkValue_eq_ok {s : Slot} {v w : Value} :
    s.checkValue v = .ok w ↔ v.conform s.type = .ok w ∧ w.checkWritable = .ok () := by
  simp only [checkValue]
  rcases v.conform s.type with e | u
  · simp [bind, Except.bind]
  · rcases h : u.checkWritable with e | ⟨⟩
    · simp only [bind, Except.bind, h, reduceCtorEq, false_iff, not_and]
      rintro ⟨rfl⟩
      simp [h]
    · simp only [bind, Except.bind, h, pure, Except.pure, Except.ok.injEq]
      constructor
      · rintro rfl; exact ⟨rfl, h⟩
      · exact fun hw => hw.1

/-- **A value that is set** is the checked one. -/
theorem value_setValue {s s' : Slot} {v : Value} (h : s.setValue v = .ok s') :
    ∃ w, s.checkValue v = .ok w ∧ s' = s.give (some w) := by
  unfold setValue at h
  rcases hv : s.checkValue v with e | w
  · simp [hv, Except.map] at h
  · simp only [hv, Except.map, Except.ok.injEq] at h
    exact ⟨w, rfl, h.symm⟩

end Slot

end BlockEdit
