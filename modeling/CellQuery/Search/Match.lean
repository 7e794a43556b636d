import CellQuery.Search.Options
import CellQuery.Table.Grid

/-!
# Matching a row

A row matches a keyword if one of its cells is a hit. Nothing matches an empty keyword, and an
empty cell is no hit.
-/

namespace CellQuery

/-- The cells to look at: those of `columns` that exist, or all where `columns` is empty. -/
def cellsAt (cells : List String) (columns : List Nat) : List String :=
  if columns.isEmpty then cells else columns.filterMap (cells[·]?)

/-- Whether a needle, already normalized, hits one of the cells. -/
def cellsMatch (o : Options) (cells : List String) (columns : List Nat) (needle : String) : Bool :=
  !needle.isEmpty && (cellsAt cells columns).any fun cell => !cell.isEmpty && o.accepts cell needle

/-- Whether a row of a grid matches a keyword. A row that the grid does not have matches nothing. -/
def matchRow (g : Grid) (row : Nat) (keyword : String) (o : Options) (columns : List Nat) : Bool :=
  match g.row? row o.caseSensitive with
  | some cells => cellsMatch o cells columns (o.normalize keyword)
  | none => false

end CellQuery
