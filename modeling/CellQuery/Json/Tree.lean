import CellQuery.Json.Lexeme

/-!
# The structure of a JSON text

A tree keeps everything as it is written: numerals with their spelling, strings with their escapes,
the fields of an object in order and with repetitions. It is read by a machine with a stack of the
arrays and objects that are still open (`read`), which takes one value off the front of the text.
-/

namespace CellQuery.Json

/-- A JSON value as it is written. -/
inductive Tree where
  | null
  | bool (b : Bool)
  | numeral (n : Numeral)
  | text (codes : List Code)
  | array (elements : List Tree)
  | object (fields : List (List Code × Tree))
  deriving Repr

/-! ### The machine -/

/-- An array or object that is still open, with what it holds so far, the last first. -/
inductive Frame where
  | array (elements : List Tree)
  | object (fields : List (List Code × Tree)) (key : List Code)
  deriving Repr

/-- What may come next. -/
inductive Phase where
  | value
  /-- The first element of an array, or its end. -/
  | element
  /-- The first key of an object, or its end. -/
  | field
  /-- A further key of an object with these fields. -/
  | key (fields : List (List Code × Tree))
  /-- Whatever can follow a value. -/
  | after (v : Tree)
  deriving Repr

/-- The phase after a lexeme that can begin a value. -/
def begin? : Lexeme → Option Phase
  | .null => some (.after .null)
  | .bool b => some (.after (.bool b))
  | .numeral n => some (.after (.numeral n))
  | .text codes => some (.after (.text codes))
  | .lbracket => some .element
  | .lbrace => some .field
  | _ => none

/-- Reads on until the value begun at the bottom of the stack is complete. Gives it and what
follows. -/
def read : Phase → List Frame → List Lexeme → Option (Tree × List Lexeme)
  | .after v, [], rest => some (v, rest)
  | .after v, .array vs :: stack, .comma :: rest => read .value (.array (v :: vs) :: stack) rest
  | .after v, .array vs :: stack, .rbracket :: rest =>
    read (.after (.array (v :: vs).reverse)) stack rest
  | .after v, .object fs k :: stack, .comma :: rest => read (.key ((k, v) :: fs)) stack rest
  | .after v, .object fs k :: stack, .rbrace :: rest =>
    read (.after (.object ((k, v) :: fs).reverse)) stack rest
  | .value, stack, l :: rest =>
    match begin? l with
    | some phase => read phase stack rest
    | none => none
  | .element, stack, .rbracket :: rest => read (.after (.array [])) stack rest
  | .element, stack, l :: rest =>
    match begin? l with
    | some phase => read phase (.array [] :: stack) rest
    | none => none
  | .field, stack, .rbrace :: rest => read (.after (.object [])) stack rest
  | .field, stack, .text k :: .colon :: rest => read .value (.object [] k :: stack) rest
  | .key fs, stack, .text k :: .colon :: rest => read .value (.object fs k :: stack) rest
  | _, _, _ => none

/-- The value at the front of a text, and the lexemes that follow it. -/
def Tree.read? (s : String) : Option (Tree × List Lexeme) :=
  read .value [] (lexemes s.toList)

/-- The value of a text that holds nothing else. -/
def Tree.parse? (s : String) : Option Tree :=
  match read? s with
  | some (v, []) => some v
  | _ => none

end CellQuery.Json
