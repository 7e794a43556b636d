import CellQuery.Highlight.Style
import CellQuery.Search.Match
import CellQuery.Text.Blank

/-!
# Highlights of a row

Which operands of a query were found in which cells of a row, the cells with their marks, and a
summary of both for people.
-/

namespace CellQuery

/-- An operand and the columns in which it was found. -/
structure Hit where
  operand : String
  columns : List Nat
  deriving DecidableEq, Repr

/-- What a row shows for the operands of a query. -/
structure RowHighlights where
  summary : String
  /-- The marked cell for each column, none where nothing was found. -/
  highlights : List (Option String)
  hits : List Hit
  deriving DecidableEq, Repr

/-! ### Hits -/

/-- The columns in which an operand is found, among `columns`. -/
def hitColumns (o : Options) (cells : List String) (columns : List Nat) (operand : String) :
    List Nat :=
  columns.filter fun i => cells[i]?.any (o.accepts · (o.normalize operand))

/-- The operands that are found, in order. An operand is trimmed first, and passed over if it is
blank. -/
def rowHits (o : Options) (cells : List String) (columns : List Nat) (operands : List String) :
    List Hit :=
  (((operands.map Text.trim).filter (!·.isEmpty)).map fun s =>
    ⟨s, hitColumns o cells columns s⟩).filter (!·.columns.isEmpty)

/-- The operands to mark in a column, each once. -/
def operandsAt (hits : List Hit) (column : Nat) : List String :=
  ((hits.filter (·.columns.contains column)).map Hit.operand).eraseDups

/-! ### Summaries -/

/-- An operand with the labels of its columns in parentheses. -/
def Hit.describe (columns : List Column) (h : Hit) : String :=
  h.operand ++ " (" ++ String.intercalate ", " (h.columns.map (labelAt columns)) ++ ")"

/-- All hits in one line. -/
def summarize (columns : List Column) (hits : List Hit) : String :=
  String.intercalate "; " (hits.map (·.describe columns))

/-! ### The row -/

/-- The highlights of row `row` of a grid. Operands are looked for in the columns `requested`, or in
all if there are none. A row that the grid does not have has no hits. -/
def rowHighlights (g : Grid) (columns : List Column) (style : Style) (row : Nat)
    (operands : List String) (o : Options) (requested : List Nat) : RowHighlights :=
  match g.verbatim[row]?, g.row? row o.caseSensitive with
  | some cells, some compared =>
    let hits := rowHits o compared (if requested.isEmpty then g.allColumns else requested) operands
    { summary := summarize columns hits
      highlights := g.allColumns.map fun i =>
        match operandsAt hits i with
        | [] => none
        | found => some (highlightCell (cells[i]?.getD "") found o style)
      hits := hits }
  | _, _ => ⟨"", List.replicate g.columnCount none, []⟩

end CellQuery
