import CellQuery.Query.Token
import CellQuery.Text.Blank

/-!
# Reading a query

Blank characters and commas separate. What begins at a character that does not separate is the
first of these that applies (`Lexeme.next`):

* a phrase: a quote, at least one character other than a quote, a quote;
* a parenthesis;
* a keyword, in any case, that no letter, digit or underscore follows;
* a word: everything up to the next separator or parenthesis.

Reading cannot fail. A lexeme that leaves no operand behind (a phrase of blanks, a word that is
only an empty pair of quotes) is dropped.
-/

namespace CellQuery

open Text

/-! ### Character classes -/

/-- A character that stands between lexemes. -/
def isSeparator (c : Char) : Bool :=
  isBlank c || c == ','

/-- A character that a word goes on with. -/
def isWordChar (c : Char) : Bool :=
  !(isSeparator c || c == '(' || c == ')')

/-- A character that keeps a keyword before it from ending: ASCII only, so `AND` ends before `é`. -/
def continuesKeyword (c : Char) : Bool :=
  c.isAlphanum || c == '_'

/-! ### Lexemes -/

/-- A piece of a query's text, with its spelling. A phrase is kept without its quotes. -/
inductive Lexeme where
  | phrase (body : List Char)
  | paren (op : Operator)
  | keyword (op : Operator) (spelling : List Char)
  | word (spelling : List Char)
  deriving DecidableEq, Repr

namespace Lexeme

/-- The text of a lexeme. -/
def spelling : Lexeme → List Char
  | phrase body => '"' :: body ++ ['"']
  | paren op => op.text.toList
  | keyword _ s => s
  | word s => s

/-- A phrase at the front of `cs`, and what follows it. -/
def phrase? : List Char → Option (Lexeme × List Char)
  | '"' :: cs =>
    match cs.takeWhile (· ≠ '"'), cs.dropWhile (· ≠ '"') with
    | c :: body, _ :: rest => some (phrase (c :: body), rest)
    | _, _ => none
  | _ => none

/-- A parenthesis at the front of `cs`, and what follows it. -/
def paren? : List Char → Option (Lexeme × List Char)
  | '(' :: rest => some (paren .lparen, rest)
  | ')' :: rest => some (paren .rparen, rest)
  | _ => none

/-- Whether `cs` spells `op`, whatever the case of its letters. -/
def spells (op : Operator) (cs : List Char) : Bool :=
  cs.map Char.toUpper == op.text.toList

/-- The keyword `op` at the front of `cs`, and what follows it. -/
def keywordOf? (op : Operator) (cs : List Char) : Option (Lexeme × List Char) :=
  let spelling := cs.take op.text.length
  let rest := cs.drop op.text.length
  if spells op spelling && !(rest.head?.any continuesKeyword) then some (keyword op spelling, rest)
  else none

/-- A keyword at the front of `cs`, and what follows it. -/
def keyword? (cs : List Char) : Option (Lexeme × List Char) :=
  Operator.keywords.findSome? (keywordOf? · cs)

/-- The lexeme at the front of `c :: cs`, where `c` does not separate, and what follows it. -/
def next (c : Char) (cs : List Char) : Lexeme × List Char :=
  ((phrase? (c :: cs)).or ((paren? (c :: cs)).or (keyword? (c :: cs)))).getD
    (word (c :: cs.takeWhile isWordChar), cs.dropWhile isWordChar)

/-- A word that begins and ends with a quote, without the two. -/
def unquote (cs : List Char) : List Char :=
  match cs with
  | '"' :: rest => if rest.getLast? = some '"' then rest.dropLast else cs
  | _ => cs

/-- The token that a lexeme stands for, if it leaves one. -/
def token? : Lexeme → Option Token
  | phrase body => if body.all isBlank then none else some (.operand (.ofList body))
  | paren op => some (.operator op)
  | keyword op _ => some (.operator op)
  | word s => if (unquote s).all isBlank then none else some (.operand (.ofList (unquote s)))

/-! ### Progress -/

theorem phrase?_length {cs : List Char} {r : Lexeme × List Char} (h : phrase? cs = some r) :
    r.2.length < cs.length := by
  unfold phrase? at h
  split at h
  · next cs =>
    split at h
    · next hdrop =>
      have := (List.dropWhile_sublist (l := cs) (· ≠ '"')).length_le
      cases h
      simp only [hdrop, List.length_cons] at this ⊢
      omega
    · simp at h
  · simp at h

theorem paren?_length {cs : List Char} {r : Lexeme × List Char} (h : paren? cs = some r) :
    r.2.length < cs.length := by
  unfold paren? at h
  split at h
  · cases h
    simp
  · cases h
    simp
  · simp at h

theorem keywordOf?_length {op : Operator} {cs : List Char} {r : Lexeme × List Char}
    (h : keywordOf? op cs = some r) : r.2.length < cs.length := by
  simp only [keywordOf?] at h
  split at h
  · next hs =>
    cases h
    rw [Bool.and_eq_true] at hs
    have hlen := congrArg List.length (eq_of_beq hs.1)
    have hpos : 0 < op.text.toList.length := by cases op <;> decide
    simp only [List.length_map, List.length_take] at hlen
    simp only [List.length_drop]
    omega
  · simp at h

theorem next_length (c : Char) (cs : List Char) : (next c cs).2.length ≤ cs.length := by
  have hdrop := (List.dropWhile_sublist (l := cs) isWordChar).length_le
  unfold next
  cases hp : phrase? (c :: cs) with
  | some r => simpa using Nat.le_of_lt_succ (phrase?_length hp)
  | none =>
    cases hq : paren? (c :: cs) with
    | some r => simpa using Nat.le_of_lt_succ (paren?_length hq)
    | none =>
      cases hk : keyword? (c :: cs) with
      | some r =>
        obtain ⟨op, -, hop⟩ := List.exists_of_findSome?_eq_some hk
        simpa using Nat.le_of_lt_succ (keywordOf?_length hop)
      | none => simpa using hdrop

end Lexeme

/-! ### The whole query -/

/-- The lexemes of a query from left to right. -/
def lexemes (cs : List Char) : List Lexeme :=
  match _h : cs.dropWhile isSeparator with
  | [] => []
  | c :: rest => (Lexeme.next c rest).1 :: lexemes (Lexeme.next c rest).2
termination_by cs.length
decreasing_by
  have h₁ := (List.dropWhile_sublist (l := cs) isSeparator).length_le
  have h₂ := Lexeme.next_length c rest
  simp only [_h, List.length_cons] at h₁
  omega

/-- The tokens of a query, in the order of the lexemes that leave one. -/
def tokenize (query : String) : List Token :=
  (lexemes query.toList).filterMap Lexeme.token?

end CellQuery
