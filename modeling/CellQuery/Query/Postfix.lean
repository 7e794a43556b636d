import CellQuery.Query.Error
import CellQuery.Query.Token

/-!
# Postfix programs

`compile` puts each operator after its operands, in one pass over the tokens with a stack of the
operators that still wait for their right operand. An open parenthesis waits on the stack too, as
a floor that no operator reaches below. No operator is ever supplied between adjacent operands.
-/

namespace CellQuery

/-- An operator that waits on the stack, with the index of its token. -/
structure Pending where
  position : Nat
  op : Operator
  deriving DecidableEq, Repr

namespace Pending

/-- The token of a waiting operator. -/
def token (p : Pending) : Token :=
  .operator p.op

/-- An open parenthesis. No operator reaches below it. -/
def isFloor (p : Pending) : Bool :=
  p.op == .lparen

/-- Whether `p` takes its operands before `incoming` does, if it stands to the left. -/
def bindsBefore (incoming : Operator) (p : Pending) : Bool :=
  !p.isFloor &&
    (incoming.precedence < p.op.precedence ||
      (incoming.precedence == p.op.precedence && !incoming.rightAssociative))

end Pending

/-- The operators above the innermost open parenthesis, and the stack below it. -/
def closeGroup (stack : List Pending) : Option (List Token × List Pending) :=
  match stack.dropWhile (!·.isFloor) with
  | [] => none
  | _ :: below => some ((stack.takeWhile (!·.isFloor)).map Pending.token, below)

/-- What is left to emit when the tokens end. -/
def drain (stack : List Pending) : Except QueryError (List Token) :=
  match stack.find? Pending.isFloor with
  | some p => .error (.unbalancedParentheses p.position)
  | none => .ok (stack.map Pending.token)

/-- The program for the tokens from index `position` on, above the operators in `stack`. -/
def compileFrom (position : Nat) (stack : List Pending) :
    List Token → Except QueryError (List Token)
  | [] => drain stack
  | .operand s :: rest => (compileFrom (position + 1) stack rest).map (.operand s :: ·)
  | .operator .lparen :: rest => compileFrom (position + 1) (⟨position, .lparen⟩ :: stack) rest
  | .operator .rparen :: rest =>
    match closeGroup stack with
    | none => .error (.unbalancedParentheses position)
    | some (popped, below) => (compileFrom (position + 1) below rest).map (popped ++ ·)
  | .operator op :: rest =>
    let popped := (stack.takeWhile (·.bindsBefore op)).map Pending.token
    let waiting := stack.dropWhile (·.bindsBefore op)
    (compileFrom (position + 1) (⟨position, op⟩ :: waiting) rest).map (popped ++ ·)

/-- The postfix program of a query, or the index of a parenthesis without its partner. -/
def compile (tokens : List Token) : Except QueryError (List Token) :=
  compileFrom 0 [] tokens

end CellQuery
