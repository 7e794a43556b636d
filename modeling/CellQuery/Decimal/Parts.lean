import CellQuery.Decimal.Binary64

/-!
# Decimals from parts

A decimal is read in two roundings. Its significand becomes a number of the format, and that one is
multiplied or divided by a power of ten, which is a number of the format too. So what is read is
often the number nearest to the decimal (`ofDecimal`), but now and then a neighbour of it.
-/

namespace CellQuery.Decimal

/-- The exponent of the largest power of ten in the format. -/
def maxPower : Nat := 308

/-- `10 ^ k` as a number of the format. -/
def powerOfTen? (k : Nat) : Option Nat :=
  ofDecimal 1 k

/-- `n` units times `10 ^ k`. -/
def mulPower? (n k : Nat) : Option Nat :=
  if k ≤ maxPower then (powerOfTen? k).bind (mul? n)
  else if n = 0 then some 0
  else none

/-- `n` units divided by `10 ^ k`, by the largest power again and again where `k` is too large for
one division. -/
def divPower? (n k : Nat) : Option Nat :=
  if k ≤ maxPower then (powerOfTen? k).bind (div? n)
  else if n = 0 then some 0
  else do
    let n ← (powerOfTen? maxPower).bind (div? n)
    divPower? n (k - maxPower)
termination_by k
decreasing_by
  unfold maxPower at *
  omega

/-- The number that `significand · 10 ^ exponent` is read as. -/
def ofParts? (significand : Nat) (exponent : Int) : Option Nat := do
  let n ← ofNat? significand
  if 0 ≤ exponent then mulPower? n exponent.toNat else divPower? n (-exponent).toNat

end CellQuery.Decimal
