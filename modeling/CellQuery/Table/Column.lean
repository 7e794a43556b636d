/-!
# Columns

A column has a key, by which selections name it, and a label, by which people do. The key also
says which table of a comparison the column comes from.
-/

namespace CellQuery

/-- Where a column comes from. -/
inductive Origin where
  | single
  | reference
  | comparison
  deriving DecidableEq, Repr

namespace Origin

/-- What the keys of the columns of one origin begin with, before a full stop. -/
def tag : Origin → String
  | single => "col"
  | reference => "ref"
  | comparison => "cmp"

/-- The name of an origin. -/
def name : Origin → String
  | single => "single"
  | reference => "reference"
  | comparison => "comparison"

/-- The origin with a name. -/
def ofName? (s : String) : Option Origin :=
  [single, reference, comparison].find? (·.name == s)

theorem ofName?_name (o : Origin) : ofName? o.name = some o := by
  cases o <;> decide

end Origin

/-- A column of a table. -/
structure Column where
  key : String
  label : String
  origin : Origin
  deriving DecidableEq, Repr

/-- The label of a column that has none of its own. People count columns from one. -/
def fallbackLabel (index : Nat) : String :=
  s!"Column {index + 1}"

/-- The column of a table on its own. -/
def Column.single (label : String) : Column :=
  ⟨s!"{Origin.single.tag}.{label}", label, .single⟩

/-- A column as one side of a comparison, where key and label are the same text. -/
def Column.onSide (origin : Origin) (c : Column) : Column :=
  let name := s!"{origin.tag}.{c.label}"
  ⟨name, name, origin⟩

/-- The index of the first column with the key `key`. -/
def columnIndex? (columns : List Column) (key : String) : Option Nat :=
  columns.findIdx? (·.key == key)

/-- The label to name a column by. A missing or unlabelled one goes by its number. -/
def labelAt (columns : List Column) (index : Nat) : String :=
  match columns[index]? with
  | some c => if c.label.isEmpty then fallbackLabel index else c.label
  | none => fallbackLabel index

end CellQuery
