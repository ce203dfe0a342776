import BlockEdit.Text.Basic

/-!
# Whole numbers in 64 bits

Whole values of parameters have 64 bits and a sign. A text is read with at most one sign and at
least one digit, and refused when the number does not fit.

Powers of whole numbers are those of the core library throughout, whatever else is in sight.
-/

namespace BlockEdit

@[default_instance 30000]
instance (priority := 30000) powNat : Pow Nat Nat := instPowNat

attribute [default_instance 20000] instPowNat

namespace Integer

/-- Whether a whole number fits into 64 bits with a sign. -/
def fits (i : Int) : Bool := -(2 ^ 63) ≤ i && i < 2 ^ 63

/-- The number in 64 bits, when it fits. -/
def ofInt? (i : Int) : Option Int64 := if fits i then some (Int64.ofInt i) else none

/-- The value of a nonempty run of decimal digits. -/
def natOfText? (ds : Text) : Option Nat :=
  if ds.isEmpty || !ds.all Char.isDigit then none
  else some (ds.foldl (fun n c => 10 * n + (c.toNat - '0'.toNat)) 0)

/-- Reads a whole number with an optional sign. -/
def ofText? : Text → Option Int64
  | '-' :: ds => (natOfText? ds).bind fun n => ofInt? (-(n : Int))
  | '+' :: ds => (natOfText? ds).bind fun n => ofInt? n
  | ds => (natOfText? ds).bind fun n => ofInt? n

/-- The number in decimal notation. -/
def text (i : Int64) : Text := Text.ofInt i.toInt

end Integer

end BlockEdit
