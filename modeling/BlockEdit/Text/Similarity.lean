import BlockEdit.Number.Binary64

/-!
# Similarity of texts

The distance of two texts is the least number of characters to insert, delete or replace on the way
from one to the other. It is computed row by row: each row holds the distances of one start of the
first text from all starts of the second.
-/

namespace BlockEdit.Text

/-- The rest of a row: `c` is the new character of the first text, `left` the distance found last,
and `diagonal` and `above` come from the row before. -/
def nextEntries (c : Char) : (left diagonal : Nat) → (above : List Nat) → Text → List Nat
  | _, _, [], _ => []
  | _, _, _, [] => []
  | left, diagonal, up :: above, d :: t =>
    let entry := min (min (left + 1) (up + 1)) (if c = d then diagonal else diagonal + 1)
    entry :: nextEntries c entry up above t

/-- The row behind one more character of the first text. -/
def nextRow (c : Char) (t : Text) : List Nat → List Nat
  | [] => []
  | first :: above => (first + 1) :: nextEntries c (first + 1) first above t

/-- The least number of insertions, deletions and replacements between two texts. -/
def distance (s t : Text) : Nat :=
  (s.foldl (fun row c => nextRow c t row) (List.range (t.length + 1))).getLastD 0

/-- The similarity of two texts: one less the share of their distance in the length of the longer
one. -/
def similarity (s t : Text) : Binary64 :=
  let longer := max s.length t.length
  let share :=
    if longer = 0 then some (Binary64.zero false)
    else Binary64.ofRatio? false (distance s t * Binary64.unitsOfOne) longer
  (share.bind Binary64.oneMinus?).getD (Binary64.zero false)

end BlockEdit.Text
