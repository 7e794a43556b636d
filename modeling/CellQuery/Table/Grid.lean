import CellQuery.Table.Basic
import CellQuery.Text.Lowercase

/-!
# The cells to search

A search reads the cells of a table either as they are or in lower case. Both readings are made
once for a table.
-/

namespace CellQuery

/-- The cells of a table in both readings, row by row. -/
structure Grid where
  verbatim : List (List String)
  folded : List (List String)
  columnCount : Nat
  deriving DecidableEq, Repr

namespace Grid

/-- The grid of a table. -/
def ofTable (t : Table) : Grid where
  verbatim := t.rows
  folded := t.rows.map (·.map Text.lowercase)
  columnCount := t.columnCount

/-- The number of rows. -/
def size (g : Grid) : Nat :=
  g.verbatim.length

/-- The rows as a search compares them. -/
def compared (g : Grid) (caseSensitive : Bool) : List (List String) :=
  if caseSensitive then g.verbatim else g.folded

/-- A row as a search compares it. -/
def row? (g : Grid) (i : Nat) (caseSensitive : Bool) : Option (List String) :=
  (g.compared caseSensitive)[i]?

/-- The indexes of all columns. -/
def allColumns (g : Grid) : List Nat :=
  List.range g.columnCount

end Grid

end CellQuery
