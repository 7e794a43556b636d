/-!
# Blank characters

The characters with Unicode's White_Space property, and the two things the library does with
them: cutting them off both ends of a text (`trim`) and splitting a text into the words between
them (`words`).
-/

namespace CellQuery.Text

/-! ### The character class -/

/-- The code points with the White_Space property, as closed ranges. -/
def blankRanges : List (Nat × Nat) :=
  [(0x09, 0x0D), (0x20, 0x20), (0x85, 0x85), (0xA0, 0xA0), (0x1680, 0x1680), (0x2000, 0x200A),
    (0x2028, 0x2029), (0x202F, 0x202F), (0x205F, 0x205F), (0x3000, 0x3000)]

/-- Whether a character is white space. -/
def isBlank (c : Char) : Bool :=
  blankRanges.any fun (first, last) => first ≤ c.toNat && c.toNat ≤ last

/-! ### Trimming -/

section Trim

/-- Cuts the blank characters off the end. -/
def trimEnd (cs : List Char) : List Char :=
  (cs.reverse.dropWhile isBlank).reverse

/-- Cuts the blank characters off both ends. -/
def trimChars (cs : List Char) : List Char :=
  trimEnd (cs.dropWhile isBlank)

/-- A text without the blank characters at both ends. -/
def trim (s : String) : String :=
  .ofList (trimChars s.toList)

@[simp] theorem toList_trim (s : String) : (trim s).toList = trimChars s.toList := by
  simp [trim]

/-- A text is blank if it has nothing but blank characters, the empty text included. -/
def blank (s : String) : Bool :=
  s.toList.all isBlank

end Trim

/-! ### Words -/

section Words

/-- The maximal runs of characters of `cs` that are not blank, in order. -/
def wordsOf (cs : List Char) : List (List Char) :=
  match _h : cs.dropWhile isBlank with
  | [] => []
  | c :: rest =>
    (c :: rest.takeWhile (!isBlank ·)) :: wordsOf (rest.dropWhile (!isBlank ·))
termination_by cs.length
decreasing_by
  have h₁ := (List.dropWhile_sublist (l := cs) isBlank).length_le
  have h₂ := (List.dropWhile_sublist (l := rest) (!isBlank ·)).length_le
  simp only [_h, List.length_cons] at h₁
  omega

/-- The words of a text. -/
def words (s : String) : List String :=
  (wordsOf s.toList).map .ofList

end Words

end CellQuery.Text
