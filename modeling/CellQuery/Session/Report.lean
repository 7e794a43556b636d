import CellQuery.Session.Search

/-!
# Reports

The outcome of a search as text: the headers, then for each row its cells and below them the
operands found, then the number of rows.
-/

namespace CellQuery

/-- A cell as a style writes it, with its marks if it has any. -/
def writeCell (style : Style) (cell : String) (highlight : Option String) : String :=
  highlight.getD (style.write cell)

/-- A row with its index, and its summary on a line below unless it is empty. -/
def ResultRow.report (style : Style) (r : ResultRow) : String :=
  let cells := List.zipWith (writeCell style) r.cells r.highlights
  s!"[{r.index}] " ++ String.intercalate " | " cells ++ "\n" ++
    if r.summary.isEmpty then "" else "    " ++ r.summary ++ "\n"

/-- The headers, the rows and their number, or a note that a later search has taken over. -/
def Outcome.report (headers : List String) (style : Style) (o : Outcome) : String :=
  match o.rows with
  | none => "(superseded)\n"
  | some rows =>
    String.intercalate " | " headers ++ "\n" ++ String.join (rows.map (·.report style)) ++
      s!"{rows.length} row(s)\n"

end CellQuery
