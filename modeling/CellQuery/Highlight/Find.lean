import CellQuery.Highlight.Span
import CellQuery.Search.Options
import CellQuery.Text.Offset

/-!
# Finding operands in a cell

A cell is compared in its normalized form, which may have other lengths than the cell itself. So
every normalized character is placed at the span of the character it comes from, and what is found
in the normalized form covers whole characters of the cell.
-/

namespace CellQuery

open Text

/-! ### Placed characters -/

/-- A character of a normalized text, at the bytes of the character it comes from. -/
structure Placed where
  char : Char
  source : Span
  deriving DecidableEq, Repr

/-- The normalized form of a text that begins at byte `offset`, each character with its source. -/
def placeFrom (o : Options) (offset : Nat) : List Char → List Placed
  | [] => []
  | c :: cs =>
    (o.image c).map (⟨·, offset, offset + c.utf8Size⟩) ++ placeFrom o (offset + c.utf8Size) cs

theorem map_char_placeFrom (o : Options) (offset : Nat) (cs : List Char) :
    (placeFrom o offset cs).map Placed.char = o.normalizeChars cs := by
  induction cs generalizing offset with
  | nil => rfl
  | cons c cs ih => simp [placeFrom, ih, Options.normalizeChars, Function.comp_def]

/-- The range from the first source to the last. -/
def sourceSpan? (ps : List Placed) : Option Span := do
  let first ← ps.head?
  let last ← ps.getLast?
  return ⟨first.source.start, last.source.stop⟩

/-! ### Occurrences -/

/-- Whether placed characters begin with a needle. -/
def startsWith : List Char → List Placed → Bool
  | [], _ => true
  | _ :: _, [] => false
  | c :: cs, p :: ps => c == p.char && startsWith cs ps

/-- The occurrences of a needle from left to right. The search goes on behind each one found, so
none overlaps the one before. -/
def occurrences (needle : List Char) (ps : List Placed) : List (List Placed) :=
  match ps with
  | [] => []
  | p :: rest =>
    if startsWith needle (p :: rest) then
      (p :: rest).take needle.length :: occurrences needle (rest.drop (needle.length - 1))
    else occurrences needle rest
termination_by ps.length
decreasing_by
  · simp only [List.length_drop, List.length_cons]
    omega
  · simp

/-- What one needle, already normalized, covers. An empty one covers nothing. -/
def findNeedle (o : Options) (ps : List Placed) (needle : List Char) : List Span :=
  if needle.isEmpty then []
  else if o.exactMatch then
    if ps.map Placed.char = needle then (sourceSpan? ps).toList else []
  else (occurrences needle ps).filterMap sourceSpan?

/-- The spans of `text` that the tokens are found at, token by token. They may overlap. -/
def findSpans (text : String) (tokens : List String) (o : Options) : List Span :=
  let ps := placeFrom o 0 text.toList
  tokens.flatMap fun t => findNeedle o ps (o.normalizeChars t.toList)

end CellQuery
