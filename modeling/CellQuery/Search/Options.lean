import CellQuery.Text.Lowercase
import CellQuery.Text.Occurrence

/-!
# Search options

When a cell counts as a hit for an operand: with or without regard to case, as a whole or in
part. Cells and operands are brought to one form first (`normalize`), character by character.
-/

namespace CellQuery

open Text

/-- How cells and operands are compared. By default case does not matter and a part will do. -/
structure Options where
  caseSensitive : Bool := false
  exactMatch : Bool := false
  deriving DecidableEq, Repr

namespace Options

/-- What a character is compared as. -/
def image (o : Options) (c : Char) : List Char :=
  if o.caseSensitive then [c] else lowerChar c

/-- What characters are compared as, in order. -/
def normalizeChars (o : Options) (cs : List Char) : List Char :=
  cs.flatMap o.image

/-- What a text is compared as. -/
def normalize (o : Options) (s : String) : String :=
  .ofList (o.normalizeChars s.toList)

@[simp] theorem toList_normalize (o : Options) (s : String) :
    (o.normalize s).toList = o.normalizeChars s.toList := by
  simp [normalize]

@[simp] theorem normalizeChars_append (o : Options) (a b : List Char) :
    o.normalizeChars (a ++ b) = o.normalizeChars a ++ o.normalizeChars b := by
  simp [normalizeChars]

theorem normalize_of_caseSensitive {o : Options} (h : o.caseSensitive = true) (s : String) :
    o.normalize s = s := by
  have : o.image = fun c => [c] := funext fun c => if_pos h
  simp [normalize, normalizeChars, this]

theorem normalize_of_not_caseSensitive {o : Options} (h : o.caseSensitive = false) (s : String) :
    o.normalize s = lowercase s := by
  have : o.image = lowerChar := funext fun c => if_neg (by simp [h])
  simp [normalize, normalizeChars, lowercase, lowerChars, this]

/-- Whether a cell is a hit for a needle, both already normalized. -/
def accepts (o : Options) (cell needle : String) : Bool :=
  if o.exactMatch then cell == needle else occursIn needle.toList cell.toList

end Options

end CellQuery
