import CellQuery.Query.Lexer
import CellQuery.Query.Machine
import CellQuery.Query.Postfix
import CellQuery.Search.Match
import CellQuery.Table.Selection

/-!
# Evaluating a query

The rows of a grid for which a query is true. The query is compiled and checked before any row is
looked at, so whether it has an answer does not depend on the grid.
-/

namespace CellQuery

/-- A program with its operands in the form in which cells are compared. -/
def normalizeProgram (o : Options) (program : List Token) : List Token :=
  program.map fun
    | .operand s => .operand (o.normalize s)
    | .operator op => .operator op

/-- The indexes, from `index` on, of the rows that `keep` holds for. -/
def keepRows (keep : List String → Except QueryError Bool) (index : Nat) :
    List (List String) → Except QueryError (List Nat)
  | [] => .ok []
  | cells :: rest =>
    match keep cells with
    | .error e => .error e
    | .ok kept =>
      (keepRows keep (index + 1) rest).map fun rows => if kept then index :: rows else rows

/-- The indexes of the rows for which the query is true. The empty query is true of every row. -/
def evaluate (g : Grid) (tokens : List Token) (o : Options) (s : Selection) :
    Except QueryError (List Nat) :=
  if tokens.isEmpty then .ok (List.range g.size)
  else do
    let program ← compile tokens
    checkArity program
    let columns := s.indexes g.columnCount
    keepRows (fun cells => run (cellsMatch o cells columns) (normalizeProgram o program)) 0
      (g.compared o.caseSensitive)

/-- The indexes of the rows for which the text of a query is true. -/
def evaluateQuery (g : Grid) (query : String) (o : Options) (s : Selection) :
    Except QueryError (List Nat) :=
  evaluate g (tokenize query) o s

end CellQuery
