/-!
# Tokens

A query is a list of operands, connectives and parentheses. The order in which connectives bind
is `Operator.precedence`: `NOT` before `AND` before `OR`.
-/

namespace CellQuery

/-! ### Operators -/

/-- The connectives and the parentheses. -/
inductive Operator where
  | and
  | or
  | not
  | lparen
  | rparen
  deriving DecidableEq, Repr

namespace Operator

/-- The operators that are written as words. -/
def keywords : List Operator :=
  [and, or, not]

/-- The text of an operator, a connective in capitals. -/
def text : Operator → String
  | and => "AND"
  | or => "OR"
  | not => "NOT"
  | lparen => "("
  | rparen => ")"

/-- The operator with a text. -/
def ofText? (s : String) : Option Operator :=
  [and, or, not, lparen, rparen].find? (·.text == s)

/-- Binding strength. A parenthesis never competes on it. -/
def precedence : Operator → Nat
  | not => 3
  | and => 2
  | or => 1
  | lparen => 0
  | rparen => 0

/-- Whether equal operators in a row are applied from the right. -/
def rightAssociative : Operator → Bool
  | not => true
  | _ => false

/-- The number of values that the operator takes off the stack of a postfix program. A
parenthesis has no place in one. -/
def arity : Operator → Nat
  | not => 1
  | and => 2
  | or => 2
  | lparen => 0
  | rparen => 0

theorem ofText?_text (op : Operator) : ofText? op.text = some op := by
  cases op <;> decide

end Operator

/-! ### Tokens -/

/-- A token of a query or of a postfix program. -/
inductive Token where
  | operand (text : String)
  | operator (op : Operator)
  deriving DecidableEq, Repr

namespace Token

/-- The text of a token, an operand without quotes. -/
def text : Token → String
  | operand s => s
  | operator op => op.text

/-- The text of an operand. -/
def operand? : Token → Option String
  | operand s => some s
  | operator _ => none

/-- The operator of a token that is one. -/
def operator? : Token → Option Operator
  | operand _ => none
  | operator op => some op

/-- Whether a token is an operand. -/
def isOperand (t : Token) : Bool :=
  t.operand?.isSome

end Token

/-- The operands of a query in the order they are written. -/
def operands (tokens : List Token) : List String :=
  tokens.filterMap Token.operand?

theorem mem_operands {tokens : List Token} {s : String} :
    s ∈ operands tokens ↔ .operand s ∈ tokens := by
  simp only [operands, List.mem_filterMap]
  constructor
  · rintro ⟨t, ht, hs⟩
    cases t with
    | operand _ =>
      cases hs
      exact ht
    | operator op => cases hs
  · intro h
    exact ⟨.operand s, h, rfl⟩

end CellQuery
