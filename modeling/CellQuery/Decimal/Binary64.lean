/-!
# Binary floating point

A finite number of the 64-bit format, without its sign, is a whole number of units of 2^-1074: at
most 53 binary digits, followed by zeros. Decimals are rounded to the nearest such number, a tie
to the one whose last digit is even.
-/

namespace CellQuery.Decimal

/-- The exponent of the smallest positive number. -/
def unitExponent : Nat := 1074

/-- The length of a significand in binary digits. -/
def precision : Nat := 53

/-- The least count of units that is too large for the format. -/
def overflow : Nat := Nat.pow 2 (1024 + unitExponent)

/-- The distance, in units, from a number of `n` units to the next larger one. -/
def gapAbove (n : Nat) : Nat :=
  Nat.pow 2 (n.log2 + 1 - precision)

/-- `num / den` to the nearest whole number, a tie to the even one. -/
def roundDiv (num den : Nat) : Nat :=
  let q := num / den
  let r := num % den
  if den < 2 * r ∨ (2 * r = den ∧ q % 2 = 1) then q + 1 else q

/-- `num / den` units rounded to a number of the format, as long as it is not too large. -/
def roundUnits (num den : Nat) : Option Nat :=
  let gap := gapAbove (num / den)
  let n := roundDiv num (den * gap) * gap
  if n < overflow then some n else none

/-- The number nearest to `digits · 10 ^ exponent`. Exponents that lead out of the range of the
format whatever the digits are not raised to a power. -/
def ofDecimal (digits : Nat) (exponent : Int) : Option Nat :=
  let magnitude : Int := (Nat.toDigits 10 digits).length + exponent
  if digits = 0 ∨ magnitude < -330 then some 0
  else if 310 < magnitude then none
  else roundUnits (digits * Nat.pow 10 exponent.toNat * Nat.pow 2 unitExponent)
    (Nat.pow 10 (-exponent).toNat)

/-! ### Arithmetic -/

/-- A whole number as a number of the format. -/
def ofNat? (n : Nat) : Option Nat :=
  roundUnits (n * Nat.pow 2 unitExponent) 1

/-- The product of two numbers of units, as long as it is not too large. -/
def mul? (a b : Nat) : Option Nat :=
  roundUnits (a * b) (Nat.pow 2 unitExponent)

/-- The quotient of two numbers of units, as long as it is not too large. -/
def div? (a b : Nat) : Option Nat :=
  roundUnits (a * Nat.pow 2 unitExponent) b

end CellQuery.Decimal
