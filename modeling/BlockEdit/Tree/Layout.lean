import BlockEdit.Tree.Block

/-!
# The text of a document

A document is written in one way only: `[name]` headers and `[]` at the end of a block, one
parameter a line, everything in a block one level deeper than the block, and an empty line between
the blocks below the root. The `type` of a block comes first, then its own parameters, then those of
its subtype. Only the slots for which `Slot.isWritten` holds have a line.
-/

namespace BlockEdit

namespace Layout

/-- The start of a line at this depth. -/
def margin (indent : Text) (depth : Nat) : Text := Text.times depth indent

/-- The comment of a parameter as lines of their own, when it has several. -/
def commentLines (start comments : Text) : Text :=
  if comments.contains '\n' then
    (Text.pieces (· == '\n') comments).flatMap fun line =>
      start ++ '#' :: ((if line.isEmpty then [] else ' ' :: line) ++ ['\n'])
  else []

/-- The comment behind a parameter or a header, when there is one. -/
def lineComment (comment : Text) : Text :=
  if comment.isEmpty then [] else ' ' :: ' ' :: '#' :: ' ' :: comment

/-- The lines of a parameter. -/
def slotText (start : Text) (s : Slot) : Text :=
  let value := s.writtenText
  commentLines start s.comments ++ start ++ s.name ++ [' ', '='] ++
    (if value.isEmpty then [] else ' ' :: value) ++
    (if s.comments.contains '\n' then [] else lineComment s.comments) ++ ['\n']

/-- The slots of a block that are written, in the order of their lines. -/
def writtenSlots (b : Block) : List Slot :=
  ((b.parameter? Slot.typeName).toList ++
    b.info.parameters.filter (·.name ≠ Slot.typeName) ++ b.info.subtypeParameters).filter
      Slot.isWritten

/-- The lines of the parameters of a block. -/
def slotsText (start : Text) (b : Block) : Text := (writtenSlots b).flatMap (slotText start)

/-- The header line of a block. -/
def headerText (start : Text) (b : Block) : Text :=
  start ++ '[' :: b.name ++ [']'] ++ lineComment (Text.replaceChar '\n' ' ' b.info.comments) ++
    ['\n']

mutual

/-- The lines of a block and everything inside of it. -/
def blockText (indent : Text) (depth : Nat) : Block → Text
  | ⟨info, children, unused⟩ =>
    headerText (margin indent depth) ⟨info, children, unused⟩ ++
      slotsText (margin indent (depth + 1)) ⟨info, children, unused⟩ ++
      blocksText indent (depth + 1) children ++ margin indent depth ++ ['[', ']', '\n']

/-- The lines of blocks one after the other. -/
def blocksText (indent : Text) (depth : Nat) : List Block → Text
  | [] => []
  | b :: bs => blockText indent depth b ++ blocksText indent depth bs

end

/-- The blocks below the root, with an empty line in front of each but the first, and of the first
too when something stands before it. -/
def topText (indent : Text) : Bool → List Block → Text
  | _, [] => []
  | separate, b :: bs =>
    (if separate then ['\n'] else []) ++ blockText indent 0 b ++ topText indent true bs

/-- The indentation that a document has unless someone asks for another: two spaces. -/
def defaultIndent : Text := [' ', ' ']

end Layout

/-- The text of a document. -/
def Block.serialize (indent : Text) (root : Block) : Text :=
  let settings := Layout.slotsText [] root
  settings ++ Layout.topText indent (!settings.isEmpty) root.children

end BlockEdit
