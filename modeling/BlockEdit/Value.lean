import BlockEdit.Number.Decimal
import BlockEdit.Number.Integer

/-!
# Values of parameters

A parameter has a type and, mostly, a value of that type. A type is a kind of scalar, or a list of
scalars of one kind. Text of a document is read by `ValueType.read`; a value that comes from
elsewhere is checked by `Value.conform`, and by `Value.checkWritable` for whether a document can
hold it.

Main statements:

* **`writable_iff`**: a value cannot be written exactly when its text needs both kinds of quotes.
* **`hasType_of_read`**: what a type reads is of that type.
-/

namespace BlockEdit

/-- The kinds of scalars. -/
inductive ScalarKind where
  /-- Truth values. -/
  | bool
  /-- Whole numbers. -/
  | int
  /-- Numbers. -/
  | real
  /-- Texts. -/
  | string
deriving DecidableEq, Repr

/-- The types of parameters. -/
inductive ValueType where
  /-- One scalar. -/
  | scalar (kind : ScalarKind)
  /-- A list of scalars of one kind. -/
  | array (kind : ScalarKind)
deriving DecidableEq, Repr

/-- A single value. -/
inductive Scalar where
  /-- A truth value. -/
  | bool (b : Bool)
  /-- A whole number. -/
  | int (i : Int64)
  /-- A number. -/
  | real (x : Binary64)
  /-- A text. -/
  | string (t : Text)
deriving DecidableEq

/-- The value of a parameter. -/
inductive Value where
  /-- One scalar. -/
  | scalar (s : Scalar)
  /-- A list of scalars. -/
  | array (items : List Scalar)
deriving DecidableEq

/-- Why a text or a value is not accepted for a parameter. -/
inductive ValueError where
  /-- The text does not read as the type. -/
  | invalid (expected : ValueType) (found : Text)
  /-- The value is of another shape or kind, which is described. -/
  | mismatch (expected : ValueType) (found : Text)
  /-- No quotes can hold the text. -/
  | unwritable (text : Text)
deriving DecidableEq

namespace ScalarKind

/-- The kind that a catalog means by a name; names that are not known mean texts. -/
def ofName (name : Text) : ScalarKind :=
  let name := Text.trim name
  if name ∈ ["Boolean".toList, "Bool".toList, "bool".toList] then .bool
  else if name ∈ ["Integer".toList, "Int".toList, "int".toList] then .int
  else if name ∈ ["Real".toList, "Float".toList, "Double".toList, "real".toList] then .real
  else .string

/-- The name of the kind. -/
def text : ScalarKind → Text
  | .bool => "Bool".toList
  | .int => "Int".toList
  | .real => "Real".toList
  | .string => "String".toList

end ScalarKind

namespace Scalar

/-- The kind of the scalar. -/
def kind : Scalar → ScalarKind
  | .bool _ => .bool
  | .int _ => .int
  | .real _ => .real
  | .string _ => .string

/-- Reads a truth value in one of its eight spellings, in whatever case. -/
def readBool? (token : Text) : Option Bool :=
  let token := Text.lower token
  if token ∈ ["true".toList, "1".toList, "yes".toList, "on".toList] then some true
  else if token ∈ ["false".toList, "0".toList, "no".toList, "off".toList] then some false
  else none

/-- Reads a token as a scalar of the given kind. -/
def read? (kind : ScalarKind) (token : Text) : Option Scalar :=
  match kind with
  | .bool => (readBool? token).map .bool
  | .int => (Integer.ofText? token).map .int
  | .real => (Binary64.ofText? token).map .real
  | .string => some (.string token)

/-- The scalar as a document writes it, without quotes. -/
def text : Scalar → Text
  | .bool true => "true".toList
  | .bool false => "false".toList
  | .int i => Integer.text i
  | .real x => x.text
  | .string t => t

/-- Whether the scalar, written in a list, is read as one item. -/
def isItem : Scalar → Bool
  | .string t => !t.isEmpty && !t.any Text.isBlank
  | _ => true

/-- The scalar as one of the given kind; a whole number is also a number. -/
def conform? (s : Scalar) (kind : ScalarKind) : Option Scalar :=
  match s, kind with
  | .int i, .real => (Binary64.ofInt? i.toInt).map .real
  | s, kind => if s.kind = kind then some s else none

/-- Whether two scalars are the same value: the zeros of both signs are. -/
def same : Scalar → Scalar → Bool
  | .real x, .real y => x.same y
  | s, t => s == t

end Scalar

namespace ValueType

/-- The type of free texts. -/
def string : ValueType := .scalar .string

/-- The type that a catalog means by a name such as `Integer` or `Array:Real`. -/
def ofName (name : Text) : ValueType :=
  match "Array:".toList.isPrefixOf? (Text.trim name) with
  | some item => .array (ScalarKind.ofName item)
  | none => .scalar (ScalarKind.ofName name)

/-- The kind of the scalars. -/
def kind : ValueType → ScalarKind
  | .scalar kind => kind
  | .array kind => kind

/-- Whether values of the type are lists. -/
def isArray : ValueType → Bool
  | .scalar _ => false
  | .array _ => true

/-- The type of the same shape that takes any text. -/
def relaxed : ValueType → ValueType
  | .scalar _ => .scalar .string
  | .array _ => .array .string

/-- The name of the type. -/
def text : ValueType → Text
  | .scalar kind => kind.text
  | .array kind => "Array:".toList ++ kind.text

/-- Reads the items of a list one by one; the first that does not read is the error. -/
def readItems (type : ValueType) : List Text → Except ValueError (List Scalar)
  | [] => .ok []
  | token :: rest =>
    match Scalar.read? type.kind token with
    | none => .error (.invalid type token)
    | some item => (readItems type rest).map (item :: ·)

/-- Reads text of a document, without quotes, as a value of the type. A list has its items between
blanks; a scalar that is not a text may have blanks around it. -/
def read (type : ValueType) (t : Text) : Except ValueError Value :=
  match type with
  | .scalar .string => .ok (.scalar (.string t))
  | .scalar kind =>
    match Scalar.read? kind (Text.trim t) with
    | some s => .ok (.scalar s)
    | none => .error (.invalid type t)
  | .array _ => (readItems type (Text.words t)).map .array

end ValueType

namespace Value

/-- A text as a value. -/
def ofText (t : Text) : Value := .scalar (.string t)

/-- The value as a document writes it, before quoting. -/
def text : Value → Text
  | .scalar s => s.text
  | .array items => Text.joinWith [' '] (items.map Scalar.text)

/-- The value when it is one scalar. -/
def scalar? : Value → Option Scalar
  | .scalar s => some s
  | .array _ => none

/-- The value when it is a text. -/
def string? : Value → Option Text
  | .scalar (.string t) => some t
  | _ => none

/-- The type of the value as an error names it: a list is named after its first item. -/
def describe : Value → Text
  | .scalar s => s.kind.text
  | .array [] => "Array".toList
  | .array (item :: _) => "Array:".toList ++ item.kind.text

/-- One item of a list as an item of the given kind that can be told from its neighbours. -/
def conformItem? (kind : ScalarKind) (item : Scalar) : Option Scalar :=
  (item.conform? kind).bind fun item => if item.isItem then some item else none

/-- The value as one of the given type: of the same shape, and each scalar of its kind. -/
def conform (v : Value) (type : ValueType) : Except ValueError Value :=
  match v, type with
  | .scalar s, .scalar kind =>
    match s.conform? kind with
    | some s => .ok (.scalar s)
    | none => .error (.mismatch type v.describe)
  | .array items, .array kind =>
    match items.mapM (conformItem? kind) with
    | some items => .ok (.array items)
    | none => .error (.mismatch type v.describe)
  | _, _ => .error (.mismatch type v.describe)

/-- Whether the text fits into no quotes: it holds a single quote, so that it needs double quotes,
and something that double quotes cannot hold. -/
def needsBothQuotes (t : Text) : Bool :=
  t.contains '\x27' && (t.contains '"' || t.contains '\n' || t.contains '\\')

/-- Whether a document can hold the value. -/
def checkWritable (v : Value) : Except ValueError Unit :=
  if needsBothQuotes v.text then .error (.unwritable v.text) else .ok ()

/-- Whether two lists hold the same values item by item. -/
def sameItems : List Scalar → List Scalar → Bool
  | [], [] => true
  | s :: ss, t :: ts => s.same t && sameItems ss ts
  | _, _ => false

/-- Whether two values are the same. -/
def same : Value → Value → Bool
  | .scalar s, .scalar t => s.same t
  | .array ss, .array ts => sameItems ss ts
  | _, _ => false

/-- Whether two parameters both have no value or have the same value. -/
def sameOption : Option Value → Option Value → Bool
  | none, none => true
  | some v, some w => v.same w
  | _, _ => false

/-- Whether the value is of the given type. -/
def HasType : Value → ValueType → Prop
  | .scalar s, .scalar kind => s.kind = kind
  | .array items, .array kind => ∀ item ∈ items, item.kind = kind ∧ item.isItem = true
  | _, _ => False

end Value

namespace ValueError

/-- The error in words. -/
def message : ValueError → Text
  | .invalid expected found =>
    "expected ".toList ++ expected.text ++ ", found '".toList ++ found ++ "'".toList
  | .mismatch expected found => "expected ".toList ++ expected.text ++ ", found ".toList ++ found
  | .unwritable t => "'".toList ++ t ++ "' mixes quote characters and cannot be written back".toList

end ValueError

/-! ## Laws -/

/-- **A value can be written** unless its text needs both kinds of quotes. -/
theorem Value.writable_iff (v : Value) :
    v.checkWritable = .ok () ↔ needsBothQuotes v.text = false := by
  unfold checkWritable
  split <;> simp_all

/-- A scalar that is read as a kind is of the kind. -/
theorem Scalar.kind_of_read? {kind : ScalarKind} {token : Text} {s : Scalar}
    (h : Scalar.read? kind token = some s) : s.kind = kind := by
  cases kind <;> simp only [read?, Option.map_eq_some_iff, Option.some.injEq] at h
  · obtain ⟨_, -, rfl⟩ := h; rfl
  · obtain ⟨_, -, rfl⟩ := h; rfl
  · obtain ⟨_, -, rfl⟩ := h; rfl
  · subst h; rfl

/-- Items that are read for a list are of its kind, and each can stand in a list, because tokens are
not empty and hold no blank. -/
theorem ValueType.kind_of_readItems {type : ValueType} :
    (tokens : List Text) → (∀ w ∈ tokens, w ≠ [] ∧ ∀ c ∈ w, Text.isBlank c = false) →
      ∀ {items : List Scalar}, readItems type tokens = .ok items →
        ∀ item ∈ items, item.kind = type.kind ∧ item.isItem = true
  | [], _, items, h => by simp only [readItems, Except.ok.injEq] at h; simp [← h]
  | token :: rest, hw, items, h => by
    simp only [readItems] at h
    rcases hs : Scalar.read? type.kind token with _ | s
    · simp [hs] at h
    · rw [hs] at h
      rcases hr : readItems type rest with _ | tail
      · simp [hr, Except.map] at h
      · simp only [hr, Except.map, Except.ok.injEq] at h
        subst h
        intro item hitem
        rcases List.mem_cons.mp hitem with rfl | hitem
        · refine ⟨Scalar.kind_of_read? hs, ?_⟩
          have hword := hw token List.mem_cons_self
          cases item with
          | string t =>
            have : t = token := by
              rcases type with kind | kind <;> cases kind <;>
                simp_all [ValueType.kind, Scalar.read?]
            subst this
            simp only [Scalar.isItem, Bool.and_eq_true, Bool.not_eq_true', List.isEmpty_eq_false_iff,
              List.any_eq_false]
            exact ⟨hword.1, fun c hc => by simp [hword.2 c hc]⟩
          | _ => rfl
        · exact kind_of_readItems rest (fun w hm => hw w (List.mem_cons_of_mem _ hm)) hr item hitem

/-- **What a type reads** is of that type. -/
theorem ValueType.hasType_of_read {type : ValueType} {t : Text} {v : Value}
    (h : type.read t = .ok v) : v.HasType type := by
  rcases type with kind | kind
  · cases kind <;> simp only [read] at h
    · split at h
      · next hs => cases h; exact Scalar.kind_of_read? hs
      · cases h
    · split at h
      · next hs => cases h; exact Scalar.kind_of_read? hs
      · cases h
    · split at h
      · next hs => cases h; exact Scalar.kind_of_read? hs
      · cases h
    · cases h; rfl
  · simp only [read] at h
    rcases hr : readItems (.array kind) (Text.words t) with _ | items
    · simp [hr, Except.map] at h
    · simp only [hr, Except.map, Except.ok.injEq] at h
      subst h
      exact fun item hitem =>
        kind_of_readItems (Text.words t) (fun w hw => Text.mem_words hw) hr item hitem

end BlockEdit
