import BlockEdit.Number.Integer

/-!
# Finite binary64 numbers

A finite number of the binary64 format is a sign, a significand of at most 53 bits and an exponent.
All finite magnitudes are whole multiples of `2 ^ -1074`; `Binary64.units` counts them, so exact
arithmetic on magnitudes is arithmetic on natural numbers, and no floating-point operation occurs.

`ofRatio?` is the one place where a number is rounded: to the nearest representable number, a tie
going to the even significand.
-/

namespace BlockEdit

/-- A finite number of the binary64 format, of magnitude `significand * 2 ^ exponent` in units of
`2 ^ -1074`. -/
structure Binary64 where
  /-- Whether the number carries a minus sign; zero has both signs. -/
  negative : Bool
  /-- The significand as a whole number. -/
  significand : Nat
  /-- The exponent above that of the unit. -/
  exponent : Nat
  /-- The significand has at most 53 bits, and fewer only at the least exponent. -/
  canonical : significand < 2 ^ 53 ∧ exponent ≤ 2045 ∧ (exponent = 0 ∨ 2 ^ 52 ≤ significand)
deriving DecidableEq, Repr

namespace Binary64

/-- How many units of `2 ^ -1074` the magnitude has. -/
def units (x : Binary64) : Nat := x.significand * 2 ^ x.exponent

/-- How many units the number one has. -/
def unitsOfOne : Nat := 2 ^ 1074

/-- The zero of the given sign. -/
def zero (negative : Bool) : Binary64 := ⟨negative, 0, 0, by decide⟩

/-- Whether the magnitude is zero. -/
def isZero (x : Binary64) : Bool := x.significand == 0

/-- The number with the other sign. -/
def neg (x : Binary64) : Binary64 := { x with negative := !x.negative }

/-- Two numbers are the same value when they are equal or both zero, of whatever sign. -/
def same (x y : Binary64) : Bool := x == y || (x.isZero && y.isZero)

/-! ## Rounding -/

/-- The whole number nearest to `numerator / denominator`; of two, the even one. -/
def roundHalfEven (numerator denominator : Nat) : Nat :=
  let quotient := numerator / denominator
  let remainder := numerator % denominator
  if 2 * remainder < denominator then quotient
  else if denominator < 2 * remainder then quotient + 1
  else quotient + quotient % 2

/-- The number with these fields, when they are canonical. -/
def ofFields? (negative : Bool) (significand exponent : Nat) : Option Binary64 :=
  if h : significand < 2 ^ 53 ∧ exponent ≤ 2045 ∧ (exponent = 0 ∨ 2 ^ 52 ≤ significand) then
    some ⟨negative, significand, exponent, h⟩
  else none

/-- The number nearest to `numerator / denominator` units; none when that is beyond the greatest
finite number. -/
def ofRatio? (negative : Bool) (numerator denominator : Nat) : Option Binary64 :=
  let exponent := (numerator / denominator).log2 - 52
  let significand := roundHalfEven numerator (denominator * 2 ^ exponent)
  if significand = 2 ^ 53 then ofFields? negative (2 ^ 52) (exponent + 1)
  else ofFields? negative significand exponent

/-- The number nearest to a whole number. -/
def ofInt? (i : Int) : Option Binary64 := ofRatio? (i < 0) (i.natAbs * unitsOfOne) 1

/-- The product, rounded. -/
def mul? (x y : Binary64) : Option Binary64 :=
  ofRatio? (x.negative != y.negative) (x.units * y.units) unitsOfOne

/-- The quotient by a number other than zero, rounded. -/
def div? (x y : Binary64) : Option Binary64 :=
  ofRatio? (x.negative != y.negative) (x.units * unitsOfOne) y.units

/-- One less a magnitude of at most one, rounded. -/
def oneMinus? (x : Binary64) : Option Binary64 := ofRatio? false (unitsOfOne - x.units) 1

/-! ## Decimals -/

/-- The number of digits of a positive number in decimal notation. -/
def digitCount (n : Nat) : Nat := (Nat.toDigits 10 n).length

/-- The number nearest to `digits * 10 ^ exponent`. Beyond 310 digits before the point there is
none, and with 340 zeros behind the point it is zero. -/
def ofDecimal? (negative : Bool) (digits : Nat) (exponent : Int) : Option Binary64 :=
  let point := exponent + digitCount digits
  if digits = 0 then some (zero negative)
  else if 310 < point then none
  else if point < -340 then some (zero negative)
  else if 0 ≤ exponent then ofRatio? negative (digits * 10 ^ exponent.toNat * unitsOfOne) 1
  else ofRatio? negative (digits * unitsOfOne) (10 ^ exponent.natAbs)

end Binary64

end BlockEdit
