import BlockEdit.Json.Basic

/-!
# Numbers in JSON texts

A number without point and exponent that fits into 64 bits is whole. All others are binary64
numbers, found the quick way: as many leading digits as fit into 64 bits are rounded once and then
multiplied with or divided by a rounded power of ten. The result can differ in the last bit from
the nearest number.
-/

namespace BlockEdit.Json

/-- The least number that does not fit into 64 bits. -/
def wordLimit : Nat := 2 ^ 64

/-- The value of a decimal digit. -/
def digitValue (c : Char) : Nat := c.toNat - '0'.toNat

/-- Takes digits into a significand as long as it fits into 64 bits; the digits that are left. -/
def takeDigits : Nat → Text → Nat × Text
  | n, [] => (n, [])
  | n, d :: ds => if n * 10 + digitValue d < wordLimit then takeDigits (n * 10 + digitValue d) ds else (n, d :: ds)

/-- The number nearest to a power of ten. -/
def powerOfTen? (exponent : Nat) : Option Binary64 := Binary64.ofDecimal? false 1 exponent

/-- Divides by `10 ^ 308` as long as the exponent is too small for one division. -/
def scaleDown? : Nat → Binary64 → Nat → Option Binary64
  | 0, x, _ => some x
  | steps + 1, x, exponent =>
    if exponent ≤ 308 then (powerOfTen? exponent).bind x.div?
    else if x.isZero then some x
    else do
      let power ← powerOfTen? 308
      scaleDown? steps (← x.div? power) (exponent - 308)

/-- The significand times a power of ten, each step rounded; none when that is not finite. -/
def scale? (significand : Nat) (exponent : Int) : Option Binary64 := do
  let x ← Binary64.ofInt? significand
  if exponent < 0 then scaleDown? 4 x exponent.natAbs
  else if exponent ≤ 308 then (← powerOfTen? exponent.toNat).mul? x
  else if x.isZero then some x
  else none

/-- The exponent as a 32-bit word holds it: the sum stops at the ends of its range. -/
def clampExponent (exponent : Int) : Int := max (-(2 ^ 31)) (min exponent (2 ^ 31 - 1))

/-- The number with these digits before the point, behind it, and with this exponent (whether it
has a minus sign, and its digits); none when it is not finite. -/
def ofParts? (negative : Bool) (whole : Text) (fraction : Option Text)
    (exponent : Option (Bool × Text)) : Option Json :=
  let (significand, left) := takeDigits 0 whole
  if fraction.isNone && exponent.isNone then
    if !left.isEmpty then signed (scale? significand left.length)
    else if !negative then some (.int significand)
    else if significand = 0 ∨ 2 ^ 63 < significand then signed (Binary64.ofInt? significand)
    else some (.int (-(significand : Int)))
  else
    let digits := fraction.getD []
    let (significand, unused) := takeDigits significand digits
    let base : Int := (left.length : Int) - (digits.length - unused.length)
    match exponent with
    | none => signed (scale? significand base)
    | some (minus, ds) =>
      let power := Binary64.digitsValue ds
      if 2 ^ 31 ≤ power then
        if significand ≠ 0 ∧ !minus then none else signed (some (Binary64.zero false))
      else
        signed (scale? significand (clampExponent (if minus then base - power else base + power)))
where
  /-- The magnitude with the sign of the number. -/
  signed (x : Option Binary64) : Option Json :=
    x.map fun x => .real (if negative then x.neg else x)

end BlockEdit.Json
