import CellQuery.Decimal.Shortest

/-!
# Writing decimals

Where the point and the exponent of a decimal go. A record holds the decisions.
-/

namespace CellQuery.Decimal

/-- Where a decimal is written without an exponent, and what is written for the parts it lacks. -/
structure Layout where
  /-- The exponents of the first digit from which on, and up to which, no exponent is written. -/
  plainFrom : Int
  plainTo : Int
  /-- What stands for the fraction of a whole number written without exponent. -/
  wholeFraction : List Char
  /-- The sign of an exponent that is not negative. -/
  plus : List Char

/-- Cells: no exponent from `0.00001` to below `1e+16`, and never without a fraction. -/
def Layout.cell : Layout where
  plainFrom := -5
  plainTo := 15
  wholeFraction := ['0']
  plus := ['+']

namespace Layout

/-- The point stands behind the first `n` digits, with zeros where there are fewer. -/
def plain (l : Layout) (digits : List Char) (n : Nat) : List Char :=
  let fraction := digits.drop n
  digits.take n ++ List.replicate (n - digits.length) '0' ++
    '.' :: if fraction.isEmpty then l.wholeFraction else fraction

/-- One digit before the point and an exponent behind the others. A single digit has no point. -/
def scientific (l : Layout) (d : Scientific) : List Char :=
  let fraction := d.digits.drop 1
  d.digits.take 1 ++ (if fraction.isEmpty then [] else '.' :: fraction) ++
    'e' :: (if d.exponent < 0 then ['-'] else l.plus) ++ Nat.toDigits 10 d.exponent.natAbs

/-- A decimal without its sign: below one with zeros behind the point, else with the point among its
digits, and with an exponent outside the range of the layout. -/
def write (l : Layout) (d : Scientific) : List Char :=
  if d.exponent < l.plainFrom ∨ l.plainTo < d.exponent then l.scientific d
  else if d.exponent < 0 then
    ['0', '.'] ++ List.replicate (-d.exponent - 1).toNat '0' ++ d.digits
  else l.plain d.digits (d.exponent + 1).toNat

/-- A number of `n` units, with its sign. -/
def writeUnits (l : Layout) (negative : Bool) (n : Nat) : List Char :=
  (if negative then ['-'] else []) ++
    if n = 0 then '0' :: '.' :: l.wholeFraction else l.write (shortest n)

end Layout

end CellQuery.Decimal
