import CellQuery.Query.Error
import CellQuery.Query.Token

/-!
# Running a postfix program

An operand pushes its truth value; an operator replaces the values it takes by its own. A program
is well formed if it never takes a value that is not there and leaves exactly one behind, which
`checkArity` decides from the height of the stack alone. A stack may serve many runs, as each of
them begins by clearing it (`OnStack.run`).
-/

namespace CellQuery

/-! ### Stack heights -/

/-- The height of the stack after `program`, if no operator finds too few values. -/
def heightAfter (height : Nat) : List Token → Option Nat
  | [] => some height
  | .operand _ :: rest => heightAfter (height + 1) rest
  | .operator op :: rest =>
    if op.arity = 0 ∨ height < op.arity then none else heightAfter (height - op.arity + 1) rest

/-- Accepts the programs that leave one value on an empty stack, whatever the values are. -/
def checkArity (program : List Token) : Except QueryError Unit :=
  if heightAfter 0 program = some 1 then .ok () else .error .invalidExpression

/-! ### Values -/

/-- The stack after one token, its top first. -/
def execToken (value : String → Bool) (stack : List Bool) : Token → Option (List Bool)
  | .operand s => some (value s :: stack)
  | .operator .not =>
    match stack with
    | a :: rest => some ((!a) :: rest)
    | _ => none
  | .operator .and =>
    match stack with
    | b :: a :: rest => some ((a && b) :: rest)
    | _ => none
  | .operator .or =>
    match stack with
    | b :: a :: rest => some ((a || b) :: rest)
    | _ => none
  | .operator .lparen => none
  | .operator .rparen => none

/-- The stack after `program`, its top first. None if an operator finds too few values. -/
def exec (value : String → Bool) (stack : List Bool) : List Token → Option (List Bool)
  | [] => some stack
  | t :: rest => (execToken value stack t).bind fun st => exec value st rest

/-- The value that `program` leaves, started on an empty stack. -/
def run (value : String → Bool) (program : List Token) : Except QueryError Bool :=
  match exec value [] program with
  | some [b] => .ok b
  | _ => .error .invalidExpression

/-! ### A stack for many runs -/

/-- Work on a stack that was there before and stays behind. If it fails, it leaves the stack as it
is then. -/
abbrev OnStack (α : Type) :=
  ExceptT QueryError (StateM (List Bool)) α

namespace OnStack

/-- Puts a value on top. -/
def push (b : Bool) : OnStack Unit :=
  modify (b :: ·)

/-- Takes the top value off. On an empty stack it fails and leaves it empty. -/
def pop : OnStack Bool := do
  match ← get with
  | [] => throw .invalidExpression
  | b :: rest =>
    set rest
    return b

/-- One token: an operand is pushed, an operator takes its values off and pushes its own. -/
def step (value : String → Bool) : Token → OnStack Unit
  | .operand s => push (value s)
  | .operator .not => do
    let a ← pop
    push (!a)
  | .operator .and => do
    let b ← pop
    let a ← pop
    push (a && b)
  | .operator .or => do
    let b ← pop
    let a ← pop
    push (a || b)
  | .operator .lparen => throw .invalidExpression
  | .operator .rparen => throw .invalidExpression

/-- Takes off the only value that there is to be. -/
def popLast : OnStack Bool := do
  let b ← pop
  if (← get).isEmpty then return b else throw .invalidExpression

/-- A run of `program`, whatever is on the stack. -/
def run (value : String → Bool) (program : List Token) : OnStack Bool := do
  set ([] : List Bool)
  program.forM (step value)
  popLast

/-- What the work gives if it begins on `stack`, and the stack it leaves. -/
def outcome {α : Type} (work : OnStack α) (stack : List Bool) : Except QueryError α × List Bool :=
  (ExceptT.run work).run stack

end OnStack

end CellQuery
