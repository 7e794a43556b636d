import CellQuery.Table.Column

/-!
# Tables

Rows of text under columns. Every row has exactly one cell per column; whoever builds a table from
ragged rows fits them first (`fitRow`), with empty cells for what is missing.
-/

namespace CellQuery

/-! ### Fitting rows -/

section Fit

/-- A row made `width` cells long: cut if it is longer, filled with empty cells if shorter. -/
def fitRow (width : Nat) (row : List String) : List String :=
  row.take width ++ List.replicate (width - row.length) ""

@[simp] theorem length_fitRow (width : Nat) (row : List String) :
    (fitRow width row).length = width := by
  simp [fitRow]
  omega

theorem fitRow_of_length {width : Nat} {row : List String} (h : row.length = width) :
    fitRow width row = row := by
  simp [fitRow, ← h]

end Fit

/-! ### The type -/

/-- Columns and rows that fit them. -/
structure Table where
  columns : List Column
  rows : List (List String)
  fits : ∀ row ∈ rows, row.length = columns.length
  deriving DecidableEq, Repr

namespace Table

/-- The table with the given columns and rows, each row fitted to the columns. -/
def ofRows (columns : List Column) (rows : List (List String)) : Table where
  columns := columns
  rows := rows.map (fitRow columns.length)
  fits := by simp

/-- The rows of a table fit as they are. -/
theorem ofRows_rows (t : Table) : ofRows t.columns t.rows = t := by
  have hfit : t.rows.map (fitRow t.columns.length) = t.rows.map id :=
    List.map_congr_left fun row hrow => fitRow_of_length (t.fits row hrow)
  rw [List.map_id] at hfit
  simp only [ofRows, hfit]

/-- The table without columns and rows. -/
def empty : Table :=
  ofRows [] []

/-- The number of columns. -/
def columnCount (t : Table) : Nat :=
  t.columns.length

/-- The number of rows. -/
def size (t : Table) : Nat :=
  t.rows.length

/-- The labels of the columns, in order. -/
def labels (t : Table) : List String :=
  t.columns.map Column.label

/-- The keys of the columns, in order. -/
def keys (t : Table) : List String :=
  t.columns.map Column.key

theorem length_row {t : Table} {i : Nat} {row : List String} (h : t.rows[i]? = some row) :
    row.length = t.columnCount :=
  t.fits row (List.mem_of_getElem? h)

/-! ### Comparison -/

/-- Row `i`, or as many empty cells where the table has no such row. -/
def rowOrBlank (t : Table) (i : Nat) : List String :=
  t.rows[i]?.getD (List.replicate t.columnCount "")

theorem length_rowOrBlank (t : Table) (i : Nat) : (t.rowOrBlank i).length = t.columnCount := by
  unfold rowOrBlank
  cases h : t.rows[i]? with
  | none => simp
  | some row => simpa using length_row h

/-- Two tables row by row next to each other, as long as the longer one. -/
def sideBySide (reference comparison : Table) : Table :=
  ofRows
    (reference.columns.map (·.onSide .reference) ++ comparison.columns.map (·.onSide .comparison))
    ((List.range (max reference.size comparison.size)).map fun i =>
      reference.rowOrBlank i ++ comparison.rowOrBlank i)

end Table

end CellQuery
