import CellQuery.Highlight.Row
import CellQuery.Search.Evaluate
import CellQuery.Session.Basic

/-!
# Searching in a session

A query is answered with the rows for which it is true, each with its highlights. A search whose
ticket has become stale has an outcome without rows.
-/

namespace CellQuery

/-- A row of a result. -/
structure ResultRow where
  /-- The index of the row in the table. -/
  index : Nat
  cells : List String
  /-- The marked text of each cell, none for a cell without marks. -/
  highlights : List (Option String)
  summary : String
  deriving DecidableEq, Repr

/-- What a query that has an answer is answered with. -/
structure Outcome where
  /-- None if the search was superseded. -/
  rows : Option (List ResultRow)
  operands : List String
  deriving DecidableEq, Repr

namespace Session

/-- The result for a row, with a last cell for the summary if there is a column for it. -/
def resultRow (s : Session) (index : Nat) (cells : List String) (highlights : List (Option String))
    (summary : String) : ResultRow :=
  if s.matchesColumn then ⟨index, cells ++ [summary], highlights ++ [none], summary⟩
  else ⟨index, cells, highlights, summary⟩

/-- The result for row `index` of the table. Without operands there is nothing to mark. -/
def result? (s : Session) (operands : List String) (index : Nat) : Option ResultRow :=
  s.table.rows[index]?.map fun cells =>
    if operands.isEmpty then s.resultRow index cells (List.replicate cells.length none) ""
    else
      let h := rowHighlights s.grid s.table.columns s.style index operands s.options
        s.selection.restriction
      s.resultRow index cells h.highlights h.summary

/-- Answers a query for a ticket. The ticket is read before the results are made and again before
they are given out. -/
def searchWith (s : Session) (query : String) (ticket : Ticket) : Except QueryError Outcome := do
  let tokens := tokenize (Text.trim query)
  let indexes ← evaluate s.grid tokens s.options s.selection
  let operands := operands tokens
  if ticket.isStale s.generation then return ⟨none, operands⟩
  return ⟨ticket.guard s.generation (indexes.filterMap (s.result? operands)), operands⟩

/-- Answers a query in a generation of its own, also if the query has no answer. -/
def search (s : Session) (query : String) : Except QueryError Outcome × Session :=
  let (ticket, s) := s.bump
  (s.searchWith query ticket, s)

end Session

end CellQuery
