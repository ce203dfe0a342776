import BlockEdit.Number.Binary64

/-!
# Decimal notation of binary64 numbers

`Decimal.shortest` finds the fewest digits that read back: it tries one digit, two digits and so on
up to seventeen, each time with the two neighbours of the number on that decimal grid, and keeps a
neighbour only when reading it gives the number again. Of two, the nearer is taken; which of two
equally near ones is a `Tie`. The exact expansion stands behind all grids.

Main statement:

* **`readsBack_of_shortestFrom`**: what the search over the grids finds reads back.
-/

namespace BlockEdit

/-- The decimal `digits * 10 ^ exponent`. -/
structure Decimal where
  /-- The digits as one whole number. -/
  digits : Nat
  /-- The power of ten that they are multiplied with. -/
  exponent : Int
deriving DecidableEq, Repr

namespace Decimal

/-- Which of two neighbours stands for a number in the middle between them. -/
inductive Tie where
  /-- The greater one. -/
  | greater
  /-- The one whose last digit is even. -/
  | even
deriving DecidableEq, Repr

/-- Whether `below` is the one of the two neighbours. -/
def Tie.takes (below : Nat) : Tie → Bool
  | greater => false
  | even => below % 2 == 0

/-- The same value without the last digit when that is zero. -/
def dropZero (d : Decimal) : Decimal :=
  if d.digits % 10 = 0 then ⟨d.digits / 10, d.exponent + 1⟩ else d

/-- Whether reading the decimal gives the magnitude of `x`. -/
def readsBack (x : Binary64) (d : Decimal) : Bool :=
  Binary64.ofDecimal? x.negative d.digits d.exponent == some x

/-- The place of the decimal point: the magnitude is below `10 ^ point x` and no smaller power of
ten is above it. -/
def point (x : Binary64) : Int :=
  (Binary64.digitCount (x.units * 10 ^ 400 / Binary64.unitsOfOne) : Int) - 400

/-- The magnitude in units of `10 ^ exponent`, as a ratio. -/
def onGrid (x : Binary64) (exponent : Int) : Nat × Nat :=
  if 0 ≤ exponent then (x.units, Binary64.unitsOfOne * 10 ^ exponent.toNat)
  else (x.units * 10 ^ exponent.natAbs, Binary64.unitsOfOne)

/-- The nearer of the two neighbours on the grid of `10 ^ exponent` that reads back. -/
def onGrid? (tie : Tie) (x : Binary64) (exponent : Int) : Option Decimal :=
  let (numerator, denominator) := onGrid x exponent
  let below : Decimal := ⟨numerator / denominator, exponent⟩
  let above : Decimal := ⟨numerator / denominator + 1, exponent⟩
  let twice := 2 * (numerator % denominator)
  let belowWins := twice < denominator || (twice == denominator && tie.takes below.digits)
  match readsBack x below, readsBack x above with
  | true, true => some (if belowWins then below else above)
  | true, false => some below
  | false, true => some above
  | false, false => none

/-- The magnitude written out in full. -/
def exact (x : Binary64) : Decimal := ⟨x.units * 5 ^ 1074, -1074⟩

/-- The first grid with `count` or more digits on which a neighbour reads back. -/
def shortestFrom (tie : Tie) (x : Binary64) : (grids count : Nat) → Option Decimal
  | 0, _ => none
  | grids + 1, count =>
    (onGrid? tie x (point x - count)).or (shortestFrom tie x grids (count + 1))

/-- The fewest digits that read back. -/
def shortest (tie : Tie) (x : Binary64) : Decimal :=
  if x.isZero then ⟨0, 0⟩ else ((shortestFrom tie x 17 1).map dropZero).getD (exact x)

/-- The digits as a text. -/
def digitText (d : Decimal) : Text := Text.ofNat d.digits

/-- The text with `count` zeros. -/
def zeros (count : Nat) : Text := List.replicate count '0'

/-- The digits with the decimal point among them, and without a point when they are whole. -/
def positional (d : Decimal) : Text :=
  let ds := d.digitText
  if 0 ≤ d.exponent then ds ++ zeros d.exponent.toNat
  else
    let places := d.exponent.natAbs
    if places < ds.length then ds.take (ds.length - places) ++ '.' :: ds.drop (ds.length - places)
    else '0' :: '.' :: (zeros (places - ds.length) ++ ds)

/-- One digit before the point, the others behind it, and the power of ten, with `plus` in front of
it unless it is negative. -/
def scientific (plus : Text) (d : Decimal) : Text :=
  let ds := d.digitText
  let exponent := d.exponent + ds.length - 1
  let power := if exponent < 0 then Text.ofInt exponent else plus ++ Text.ofInt exponent
  match ds with
  | first :: second :: rest => first :: '.' :: second :: rest ++ 'e' :: power
  | ds => ds ++ 'e' :: power

end Decimal

namespace Binary64

/-- The sign of the number as a text. -/
def signText (x : Binary64) : Text := if x.negative then ['-'] else []

/-- The digits of a number in a document: as few as read back, and the greater ones of two equally
near. -/
def decimal (x : Binary64) : Decimal := Decimal.shortest .greater x

/-- Positional notation without exponent. -/
def positionalText (x : Binary64) : Text := x.signText ++ x.decimal.positional

/-- Whether the number is nonzero and outside of `[1e-4, 1e15)`. -/
def needsExponent (x : Binary64) : Bool :=
  !x.isZero && (x.units * 10 ^ 4 < unitsOfOne || 10 ^ 15 * unitsOfOne ≤ x.units)

/-- How a number is written in a document: with an exponent when it is nonzero and outside of
`[1e-4, 1e15)`. -/
def text (x : Binary64) : Text :=
  if x.needsExponent then x.signText ++ x.decimal.scientific [] else x.positionalText

/-! ## Reading -/

/-- The value of a run of decimal digits. -/
def digitsValue (ds : Text) : Nat := ds.foldl (fun n c => 10 * n + (c.toNat - '0'.toNat)) 0

/-- A sign and what follows it; no sign means plus. -/
def splitSign : Text → Bool × Text
  | '-' :: t => (true, t)
  | '+' :: t => (false, t)
  | t => (false, t)

/-- The exponent behind a significand: nothing at all, or a letter, a sign and digits. -/
def readExponent? : Text → Option Int
  | [] => some 0
  | c :: t =>
    if c = 'e' ∨ c = 'E' then
      let (negative, ds) := splitSign t
      if ds.isEmpty || !ds.all Char.isDigit then none
      else some (if negative then -(digitsValue ds : Int) else digitsValue ds)
    else none

/-- Reads a number: a sign, digits with at most one point among them and at least one digit, and
an exponent. A number too great to be finite is refused. -/
def ofText? (t : Text) : Option Binary64 :=
  let (negative, t) := splitSign t
  let whole := t.takeWhile Char.isDigit
  let rest := t.dropWhile Char.isDigit
  let (fraction, rest) :=
    match rest with
    | '.' :: more => (more.takeWhile Char.isDigit, more.dropWhile Char.isDigit)
    | rest => ([], rest)
  if whole.isEmpty && fraction.isEmpty then none
  else do
    let exponent ← readExponent? rest
    ofDecimal? negative (digitsValue (whole ++ fraction)) (exponent - fraction.length)

end Binary64

/-! ## Laws -/

namespace Decimal

/-- The decimal that a grid yields was read back before it was taken. -/
theorem readsBack_of_onGrid? {tie : Tie} {x : Binary64} {exponent : Int} {d : Decimal}
    (h : onGrid? tie x exponent = some d) : readsBack x d = true := by
  simp only [onGrid?] at h
  split at h
  · next hb ha =>
    cases h
    split <;> assumption
  · next hb _ => cases h; exact hb
  · next _ ha => cases h; exact ha
  · cases h

/-- **What the search finds reads back** as the number it was made for. -/
theorem readsBack_of_shortestFrom {tie : Tie} {x : Binary64} {d : Decimal} :
    (grids count : Nat) → shortestFrom tie x grids count = some d → readsBack x d = true
  | 0, _, h => by simp [shortestFrom] at h
  | grids + 1, count, h => by
    simp only [shortestFrom] at h
    rcases hg : onGrid? tie x (point x - count) with _ | e
    · rw [hg, Option.none_or] at h
      exact readsBack_of_shortestFrom grids (count + 1) h
    · rw [hg, Option.some_or] at h
      cases h
      exact readsBack_of_onGrid? hg

end Decimal

end BlockEdit
