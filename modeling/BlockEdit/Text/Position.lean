import BlockEdit.Text.Basic

/-!
# Positions in a text

An offset counts the bytes before a place; a reader counts lines and characters. `lineColumn` goes
from the first to the second, both of them starting at one.
-/

namespace BlockEdit.Text

/-- The number of line ends in the text. -/
def lineEnds : Text → Nat
  | [] => 0
  | c :: t => if c = '\n' then lineEnds t + 1 else lineEnds t

/-- What stands after the last line end of the text. -/
def lastLine : Text → Text
  | [] => []
  | c :: t => if lineEnds (c :: t) = 0 then c :: t else lastLine t

/-- The line and column of the place with `offset` bytes before it; a place beyond the end counts
as the end. -/
def lineColumn (source : Text) (offset : Nat) : Nat × Nat :=
  let before := takeBytes offset source
  (lineEnds before + 1, (lastLine before).length + 1)

/-- A place is a boundary when a whole number of characters stands before it. -/
def IsBoundary (source : Text) (offset : Nat) : Prop :=
  ∃ before after, source = before ++ after ∧ byteSize before = offset

end BlockEdit.Text
