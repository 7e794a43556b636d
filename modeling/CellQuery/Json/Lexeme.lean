import CellQuery.Json.Numeral
import CellQuery.Json.Text

/-!
# The lexemes of a JSON text

A text is split into punctuation, literals, numerals and strings with white space between them.
Where it stops being JSON, `invalid` stands for all the rest.
-/

namespace CellQuery.Json

/-- The smallest pieces of a JSON text. -/
inductive Lexeme where
  | lbracket
  | rbracket
  | lbrace
  | rbrace
  | comma
  | colon
  | null
  | bool (b : Bool)
  | numeral (n : Numeral)
  | text (codes : List Code)
  | invalid
  deriving DecidableEq, Repr

/-- The white space of JSON. -/
def isSpace (c : Char) : Bool :=
  c == ' ' || c == '\t' || c == '\n' || c == '\r'

namespace Lexeme

/-- A lexeme that is a string, after its opening quote. -/
def text? (cs : List Char) : Option (Lexeme × List Char) :=
  (scanCodes cs).map fun (codes, rest) => (text codes, rest)

/-- A lexeme that is a numeral, after its sign. -/
def numeral? (negative : Bool) (cs : List Char) : Option (Lexeme × List Char) :=
  (scanNumeral negative cs).map fun (n, rest) => (numeral n, rest)

/-- The lexeme at the front of a text that does not begin with white space, and what follows it. -/
def next? : List Char → Option (Lexeme × List Char)
  | '[' :: rest => some (lbracket, rest)
  | ']' :: rest => some (rbracket, rest)
  | '\x7b' :: rest => some (lbrace, rest)
  | '\x7d' :: rest => some (rbrace, rest)
  | ',' :: rest => some (comma, rest)
  | ':' :: rest => some (colon, rest)
  | '"' :: rest => text? rest
  | '-' :: rest => numeral? true rest
  | 'n' :: 'u' :: 'l' :: 'l' :: rest => some (null, rest)
  | 't' :: 'r' :: 'u' :: 'e' :: rest => some (bool true, rest)
  | 'f' :: 'a' :: 'l' :: 's' :: 'e' :: rest => some (bool false, rest)
  | cs => numeral? false cs

theorem text?_length {cs rest : List Char} {l : Lexeme} (h : text? cs = some (l, rest)) :
    rest.length < cs.length := by
  simp only [text?, Option.map_eq_some_iff, Prod.exists, Prod.mk.injEq] at h
  obtain ⟨_, _, h, _, rfl⟩ := h
  exact scanCodes_length h

theorem numeral?_length {negative : Bool} {cs rest : List Char} {l : Lexeme}
    (h : numeral? negative cs = some (l, rest)) : rest.length < cs.length := by
  simp only [numeral?, Option.map_eq_some_iff, Prod.exists, Prod.mk.injEq] at h
  obtain ⟨_, _, h, _, rfl⟩ := h
  exact scanNumeral_length h

theorem next?_length {cs rest : List Char} {l : Lexeme} (h : next? cs = some (l, rest)) :
    rest.length < cs.length := by
  unfold next? at h
  split at h
  case h_7 cs => exact Nat.lt_succ_of_lt (text?_length h)
  case h_8 cs => exact Nat.lt_succ_of_lt (numeral?_length h)
  case h_12 => exact numeral?_length h
  all_goals
    cases h
    simp only [List.length_cons]
    omega

end Lexeme

/-- The lexemes of a text, up to the first place where it stops being JSON. -/
def lexemes (cs : List Char) : List Lexeme :=
  match _h : cs.dropWhile isSpace with
  | [] => []
  | c :: rest =>
    match _hn : Lexeme.next? (c :: rest) with
    | some (l, rest) => l :: lexemes rest
    | none => [.invalid]
termination_by cs.length
decreasing_by
  have h₁ := (List.dropWhile_sublist (l := cs) isSpace).length_le
  have h₂ := Lexeme.next?_length _hn
  rw [_h] at h₁
  omega

end CellQuery.Json
