import CellQuery.Decimal.Layout
import CellQuery.Decimal.Parts

/-!
# JSON numbers

A numeral keeps its spelling. The number it stands for is a whole number of 64 bits if it is
written as one and fits, and otherwise a floating point number; a numeral beyond the range of both
stands for nothing.
-/

namespace CellQuery.Json

open Decimal

/-! ### Numerals -/

/-- An exponent as it is written: its letter, its sign if it has one and its digits. -/
structure Exponent where
  mark : Char
  sign : Option Char
  digits : List Char
  deriving DecidableEq, Repr

/-- A numeral as it is written, in its parts. -/
structure Numeral where
  negative : Bool
  whole : List Char
  fraction : Option (List Char)
  exponent : Option Exponent
  deriving DecidableEq, Repr

namespace Exponent

/-- The text of an exponent. -/
def spelling (e : Exponent) : List Char :=
  e.mark :: e.sign.toList ++ e.digits

end Exponent

namespace Numeral

/-- The text of a numeral. -/
def spelling (n : Numeral) : List Char :=
  (if n.negative then ['-'] else []) ++ n.whole ++ (n.fraction.map ('.' :: ·)).getD [] ++
    (n.exponent.map Exponent.spelling).getD []

end Numeral

/-! ### Reading -/

/-- The digits at the front of a text, and what follows them. -/
def digitsOf (cs : List Char) : List Char × List Char :=
  (cs.takeWhile Char.isDigit, cs.dropWhile Char.isDigit)

/-- The whole part of a numeral. A zero is never followed by another digit. -/
def scanWhole (cs : List Char) : Option (List Char × List Char) :=
  match digitsOf cs with
  | ([], _) => none
  | ('0' :: _ :: _, _) => none
  | (ds, rest) => some (ds, rest)

/-- The fraction at the front of `cs`, if there is one. A point needs a digit behind it. -/
def scanFraction (cs : List Char) : Option (Option (List Char) × List Char) :=
  match cs with
  | '.' :: cs =>
    match digitsOf cs with
    | ([], _) => none
    | (ds, rest) => some (some ds, rest)
  | _ => some (none, cs)

/-- The sign at the front of `cs`, if there is one. -/
def scanSign (cs : List Char) : Option Char × List Char :=
  match cs with
  | '+' :: rest => (some '+', rest)
  | '-' :: rest => (some '-', rest)
  | _ => (none, cs)

/-- The exponent at the front of `cs`, if there is one. Its letter needs a digit behind it. -/
def scanExponent (cs : List Char) : Option (Option Exponent × List Char) :=
  match cs with
  | c :: cs' =>
    if c = 'e' ∨ c = 'E' then
      let (sign, cs') := scanSign cs'
      match digitsOf cs' with
      | ([], _) => none
      | (ds, rest) => some (some ⟨c, sign, ds⟩, rest)
    else some (none, cs)
  | [] => some (none, [])

/-- The numeral at the front of `cs`, after the sign that has been read, and what follows it. -/
def scanNumeral (negative : Bool) (cs : List Char) : Option (Numeral × List Char) := do
  let (whole, rest) ← scanWhole cs
  let (fraction, rest) ← scanFraction rest
  let (exponent, rest) ← scanExponent rest
  return (⟨negative, whole, fraction, exponent⟩, rest)

/-! ### Progress -/

theorem digitsOf_length (cs : List Char) : (digitsOf cs).2.length ≤ cs.length :=
  (List.dropWhile_sublist _).length_le

theorem digitsOf_length_lt {cs ds rest : List Char} {d : Char}
    (h : digitsOf cs = (d :: ds, rest)) : rest.length < cs.length := by
  have := congrArg List.length (List.takeWhile_append_dropWhile (p := Char.isDigit) (l := cs))
  simp only [digitsOf, Prod.mk.injEq] at h
  simp only [h.1, h.2, List.length_append, List.length_cons] at this
  omega

theorem scanWhole_length {cs ds rest : List Char} (h : scanWhole cs = some (ds, rest)) :
    rest.length < cs.length := by
  unfold scanWhole at h
  split at h
  · simp at h
  · simp at h
  · next ds' rest' hne _ heq =>
    cases h
    cases ds with
    | nil => exact (hne rfl).elim
    | cons d ds => exact digitsOf_length_lt heq

theorem scanFraction_length {cs rest : List Char} {f : Option (List Char)}
    (h : scanFraction cs = some (f, rest)) : rest.length ≤ cs.length := by
  unfold scanFraction at h
  split at h
  · next cs =>
    have := digitsOf_length cs
    split at h
    · simp at h
    · next heq =>
      cases h
      simp only [heq] at this
      simp only [List.length_cons]
      omega
  · cases h
    simp

theorem scanSign_length (cs : List Char) : (scanSign cs).2.length ≤ cs.length := by
  unfold scanSign
  split <;> simp

theorem scanExponent_length {cs rest : List Char} {e : Option Exponent}
    (h : scanExponent cs = some (e, rest)) : rest.length ≤ cs.length := by
  unfold scanExponent at h
  split at h
  · next c cs' =>
    split at h
    · have h₁ := scanSign_length cs'
      have h₂ := digitsOf_length (scanSign cs').2
      dsimp only at h
      split at h
      · simp at h
      · next heq =>
        cases h
        simp only [heq] at h₂
        simp only [List.length_cons]
        omega
    · cases h
      simp
  · cases h
    simp

theorem scanNumeral_length {negative : Bool} {cs rest : List Char} {n : Numeral}
    (h : scanNumeral negative cs = some (n, rest)) : rest.length < cs.length := by
  simp only [scanNumeral, Option.bind_eq_bind, Option.bind_eq_some_iff, Option.pure_def,
    Prod.exists, Option.some.injEq, Prod.mk.injEq] at h
  obtain ⟨_, _, h₁, _, _, h₂, _, _, h₃, _, rfl⟩ := h
  have := scanWhole_length h₁
  have := scanFraction_length h₂
  have := scanExponent_length h₃
  omega

/-! ### Numbers -/

/-- A number in a document. A floating point number is a sign and a count of units. -/
inductive Number where
  | integer (n : Int)
  | float (negative : Bool) (units : Nat)
  deriving DecidableEq, Repr

/-- The number that digits write. -/
def natOfDigits (ds : List Char) : Nat :=
  ds.foldl (fun n d => 10 * n + (d.toNat - '0'.toNat)) 0

/-- The power of ten that an exponent names. -/
def Exponent.value (e : Exponent) : Int :=
  if e.sign = some '-' then -(natOfDigits e.digits : Int) else natOfDigits e.digits

/-- Adds digits to a significand as long as it fits in 64 bits. Gives it and the digits left
over. -/
def takeSignificand : Nat → List Char → Nat × List Char
  | m, [] => (m, [])
  | m, d :: ds =>
    let next := 10 * m + (d.toNat - '0'.toNat)
    if next < UInt64.size then takeSignificand next ds else (m, d :: ds)

/-- The significand that a numeral is read with, and the power of ten that it counts. Digits left
over before the point raise the power; behind it they are ignored. -/
def Numeral.parts (n : Numeral) : Nat × Int :=
  let fraction := n.fraction.getD []
  let (m, beyond) := takeSignificand 0 n.whole
  let (m, ignored) := takeSignificand m fraction
  let place := (beyond.length : Int) - (fraction.length - ignored.length : Nat)
  (m, place + (n.exponent.map Exponent.value).getD 0)

/-- The floating point number that a numeral is read as. -/
def Numeral.float? (n : Numeral) : Option Number :=
  let (significand, exponent) := n.parts
  (ofParts? significand exponent).map (.float n.negative)

/-- The number that a numeral stands for. Minus zero is a floating point number, since no whole
number has its sign. -/
def Numeral.number? (n : Numeral) : Option Number :=
  let m := natOfDigits n.whole
  if n.fraction.isSome || n.exponent.isSome then n.float?
  else if n.negative then if 0 < m ∧ m ≤ UInt64.size / 2 then some (.integer (-m)) else n.float?
  else if m < UInt64.size then some (.integer m)
  else n.float?

/-- The text of a number: a floating point number always has a point or an exponent. -/
def Number.write : Number → List Char
  | .integer n => (if n < 0 then ['-'] else []) ++ Nat.toDigits 10 n.natAbs
  | .float negative units => Layout.cell.writeUnits negative units

end CellQuery.Json
