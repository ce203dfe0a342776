import BlockEdit.Text.Basic

/-!
# Block paths

A block is addressed by the names on the way from the root to it, written with a slash before each:
`/Kernels/diff`. The root is `/`. A path that someone types may have further slashes at its start,
at its end and between the names; `segments` does not see them.

Main statement:

* **`segments_join`**: joining a name to a path adds the segments of the name.
-/

namespace BlockEdit.Path

/-- The path of the root. -/
def root : Text := ['/']

/-- The segment that stands for any name in the paths of a catalog. -/
def wildcard : Text := ['*']

/-- Whether a character is the slash. -/
def isSlash (c : Char) : Bool := c == '/'

/-- The nonempty names between the slashes. -/
def segments (path : Text) : List Text := (Text.pieces isSlash path).filter (!·.isEmpty)

/-- The path of the child `name` under `parent`. -/
def join (parent name : Text) : Text :=
  if parent = root ∨ parent = [] then '/' :: name else parent ++ '/' :: name

/-- The path with a slash before each segment. -/
def ofSegments (names : List Text) : Text := names.flatMap ('/' :: ·)

/-- The path without the slashes it ends with. -/
def trimSlashes (path : Text) : Text := Text.dropEndWhile isSlash path

/-- The path of the parent, cut before the last slash that has a name behind it; the root has no
parent. -/
def parent? (path : Text) : Option Text :=
  if path = root ∨ path = [] then none
  else
    let before := (trimSlashes path).reverse.dropWhile (!isSlash ·)
    match before.drop 1 with
    | [] => some root
    | before => some before.reverse

/-- Whether `path` is `top` or lies below it. -/
def isWithin (top path : Text) : Bool :=
  match top.isPrefixOf? path with
  | some [] => true
  | some (c :: _) => c == '/'
  | none => false

/-! ## Laws -/

/-- A mark cuts a text: its pieces are those before the mark and then those after it. -/
theorem pieces_append_mark {p : Char → Bool} {mark : Char} (h : p mark = true) (a b : Text) :
    Text.pieces p (a ++ mark :: b) = Text.pieces p a ++ Text.pieces p b := by
  induction a with
  | nil => simp [Text.pieces, h]
  | cons c a ih =>
    simp only [List.cons_append, Text.pieces, ih]
    split
    · simp
    · rcases ha : Text.pieces p a with _ | ⟨w, ws⟩
      · exact absurd ha (Text.pieces_ne_nil p a)
      · simp

/-- **A name adds its segments** to those of the path that it is joined to. -/
theorem segments_join (parent name : Text) :
    segments (join parent name) = segments parent ++ segments name := by
  have hcons : ∀ t : Text, segments ('/' :: t) = segments t := by
    intro t
    simp [segments, Text.pieces, isSlash]
  have happend : ∀ a b : Text, segments (a ++ '/' :: b) = segments a ++ segments b := by
    intro a b
    have h := pieces_append_mark (show isSlash '/' = true from rfl) a b
    simp only [segments, h, List.filter_append]
  unfold join
  split
  · next h =>
    rw [hcons]
    rcases h with rfl | rfl <;> rfl
  · exact happend parent name

end BlockEdit.Path
