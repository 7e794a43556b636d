/-!
# What can be wrong with a query

The two causes for which a query has no answer, and their texts.
-/

namespace CellQuery

/-- Why a query has no answer. -/
inductive QueryError where
  /-- The token at `position` is a parenthesis without its partner. -/
  | unbalancedParentheses (position : Nat)
  /-- The parentheses match, but an operator lacks an operand or an operand an operator. -/
  | invalidExpression
  deriving DecidableEq, Repr

/-- The text of a failure. -/
def QueryError.message : QueryError → String
  | unbalancedParentheses position => s!"parentheses unbalanced (at token {position})"
  | invalidExpression => "invalid boolean expression"

end CellQuery
