import CellQuery.Table.Basic
import CellQuery.Text.Blank

/-!
# Tables with a header row

Labels come from header texts: trimmed, a number in place of a blank one, and from the second use
of a label on its count behind it. Without header texts the first record holds them.
-/

namespace CellQuery

open Text

/-! ### Labels -/

section Labels

/-- The label that a header text asks for. -/
def baseLabel (index : Nat) (header : String) : String :=
  if blank header then fallbackLabel index else trim header

/-- A label told apart from its earlier uses: ` (2)` behind the second, ` (3)` behind the third. -/
def numbered (earlier : List String) (base : String) : String :=
  match earlier.count base with
  | 0 => base
  | n + 1 => s!"{base} ({n + 2})"

/-- Tells labels apart from those in `earlier` and from each other, from left to right. -/
def numberFrom (earlier : List String) : List String → List String
  | [] => []
  | base :: rest => numbered earlier base :: numberFrom (base :: earlier) rest

/-- The labels for header texts. -/
def headerLabels (headers : List String) : List String :=
  numberFrom [] (headers.mapIdx baseLabel)

end Labels

/-! ### Records -/

section Records

/-- The text of a cell that may be absent. -/
def cellText (cell : Option String) : String :=
  cell.getD ""

/-- The table of `records` under `headers`, one column for each. -/
def Table.ofHeaders (headers : List String) (records : List (List (Option String))) : Table :=
  .ofRows ((headerLabels headers).map .single) (records.map (·.map cellText))

/-- The table of `records` under `headers`. Where there are no headers at all there are no columns,
and then no rows either. -/
def Table.ofRecords (headers : List String) (records : List (List (Option String))) : Table :=
  match headers, records with
  | h :: hs, records => ofHeaders (h :: hs) records
  | [], (cell :: cells) :: records => ofHeaders ((cell :: cells).map cellText) records
  | [], _ => empty

end Records

end CellQuery
