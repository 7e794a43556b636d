import CellQuery.Decimal.Binary64

/-!
# Shortest digits

The fewest decimal digits that are read back as a given floating point number, and among those the
ones nearest to it. For one digit, two digits and so on the two neighbours of the number on that
decimal grid are tried, in exact arithmetic.
-/

namespace CellQuery.Decimal

/-- A positive decimal: its digits without zeros at the end, and the power of ten that the first
one counts. -/
structure Scientific where
  digits : List Char
  exponent : Int
  deriving DecidableEq, Repr

/-! ### The decimals that read back -/

/-- The distance, in units, from a number of `n` units to the next smaller one. It is half the
distance above where the binary exponent drops, except at the bottom of the format. -/
def gapBelow (n : Nat) : Nat :=
  let gap := gapAbove n
  if n = Nat.pow 2 (precision - 1) * gap then (gap + 1) / 2 else gap

/-- Compares `d · 10 ^ exponent` with `quarters` quarter units. -/
def compareQuarters (d : Nat) (exponent : Int) (quarters : Nat) : Ordering :=
  compare (d * Nat.pow 10 exponent.toNat * Nat.pow 2 (unitExponent + 2))
    (quarters * Nat.pow 10 (-exponent).toNat)

/-- Whether `d · 10 ^ exponent` lies among the reals that round to `n` units: up to half way to
either neighbour, both ends included if the significand is even. -/
def readsBack (n d : Nat) (exponent : Int) : Bool :=
  let even := n / gapAbove n % 2 == 0
  let low := compareQuarters d exponent (4 * n - 2 * gapBelow n)
  let high := compareQuarters d exponent (4 * n + 2 * gapAbove n)
  (low == .gt || (even && low == .eq)) && (high == .lt || (even && high == .eq))

/-! ### The search -/

/-- The least power of ten above `n` units. -/
def decimalScale (n : Nat) : Int :=
  let one := Nat.pow 2 unitExponent
  if one ≤ n then (Nat.toDigits 10 (n / one)).length
  else 1 - ((Nat.toDigits 10 ((one - 1) / n)).length : Int)

/-- The multiple of `10 ^ exponent` next to `n` units that reads back, the nearer one if both do
and the even one if both are as near. -/
def nearestOn (n : Nat) (exponent : Int) : Option Nat :=
  let num := n * Nat.pow 10 (-exponent).toNat
  let den := Nat.pow 2 unitExponent * Nat.pow 10 exponent.toNat
  let d := num / den
  match readsBack n d exponent, readsBack n (d + 1) exponent with
  | true, true => some (roundDiv num den)
  | true, false => some d
  | false, true => some (d + 1)
  | false, false => none

/-- The digits of `d · 10 ^ exponent`. -/
def Scientific.ofNat (d : Nat) (exponent : Int) : Scientific :=
  let digits := Nat.toDigits 10 d
  ⟨(digits.reverse.dropWhile (· == '0')).reverse, exponent + digits.length - 1⟩

/-- The shortest decimal that reads back as `n` units. Seventeen digits always do. -/
def shortest (n : Nat) : Scientific :=
  let scale := decimalScale n
  let found := (List.range 17).findSome? fun k =>
    let exponent := scale - (k + 1 : Nat)
    (nearestOn n exponent).map fun d => Scientific.ofNat d exponent
  found.getD (.ofNat (n / Nat.pow 2 unitExponent) 0)

end CellQuery.Decimal
