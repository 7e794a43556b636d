import CellQuery.Generation.Basic
import CellQuery.Highlight.Style
import CellQuery.Table.Grid
import CellQuery.Table.Keyword
import CellQuery.Table.Selection

/-!
# Sessions

A session keeps a table and how it is to be searched. The table is always replaced together with its
grid, and the keys of the selected columns are kept beside the selection, so that they can be
looked up again in the next table.
-/

namespace CellQuery

/-- The header of the column that says which operands were found in a row. -/
def matchesLabel : String :=
  "Keywords found"

/-- A table, how it is searched, and how results are shown. -/
structure Session where
  table : Table
  grid : Grid
  selectedKeys : List String
  selection : Selection
  options : Options
  style : Style
  /-- Whether results have a last column that says which operands were found. -/
  matchesColumn : Bool
  referenceKeywords : List String
  generation : Generation
  deriving DecidableEq, Repr

namespace Session

/-! ### Beginning -/

/-- A session over one table, with nothing selected or switched on. -/
def ofTable (t : Table) : Session where
  table := t
  grid := .ofTable t
  selectedKeys := []
  selection := .all
  options := {}
  style := .page
  matchesColumn := false
  referenceKeywords := []
  generation := {}

/-- A session over two tables side by side. The cells of the first one are the keywords that the
second one is searched for. -/
def ofComparison (reference comparison : Table) : Session :=
  { ofTable (.sideBySide reference comparison) with
    matchesColumn := true
    referenceKeywords := keywords reference.rows.flatten }

/-! ### Changing -/

/-- Looks the selected keys up in the table. -/
def resolve (s : Session) : Session :=
  { s with selection := .ofKeys s.selectedKeys s.table.columns }

/-- Keywords belong to a comparison and end with it. -/
def replace (s : Session) (t : Table) (matchesColumn : Bool) : Session :=
  resolve { s with
    table := t
    grid := .ofTable t
    matchesColumn := matchesColumn
    referenceKeywords := [] }

/-- Changes how cells are compared, from the next search on. -/
def setOptions (s : Session) (o : Options) : Session :=
  { s with options := o }

/-- Changes how matches are marked, from the next search on. -/
def setStyle (s : Session) (style : Style) : Session :=
  { s with style := style }

/-- Restricts the search to the columns with these keys, or to none in particular if there are
none. -/
def select (s : Session) (keys : List String) : Session :=
  resolve { s with selectedKeys := keys }

/-- Ticks or unticks the column with the key `key`, if there is one. -/
def toggle? (s : Session) (key : String) (on : Bool) : Option Session :=
  (columnIndex? s.table.columns key).map fun index =>
    let selection := s.selection.toggle index on s.table.columnCount
    { s with selection := selection, selectedKeys := selection.keys s.table.columns }

/-- Begins a generation, which makes every ticket issued before stale. -/
def bump (s : Session) : Ticket × Session :=
  let (ticket, g) := s.generation.bump
  (ticket, { s with generation := g })

/-- Begins the generation of a number given from outside, if it is not behind the latest one. -/
def ticketFor (s : Session) (version : UInt64) : Ticket × Session :=
  let (ticket, g) := s.generation.ticketFor version
  (ticket, { s with generation := g })

/-! ### Reading -/

/-- The headers of results. -/
def headers (s : Session) : List String :=
  s.table.labels ++ if s.matchesColumn then [matchesLabel] else []

end Session

end CellQuery
