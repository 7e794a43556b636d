import CellQuery.Table.Column

/-!
# Selections of columns

Which columns a search looks at: all of them, or those of a list. Naming every column, or none,
is the same as naming no restriction, so `normalized` keeps the two apart from real restrictions.
-/

namespace CellQuery

/-- The columns that a search looks at. -/
inductive Selection where
  | all
  | only (indexes : List Nat)
  deriving DecidableEq, Repr

namespace Selection

/-! ### Making one -/

/-- The selection of `indexes`, none of them twice, out of `count` columns. -/
def normalized (indexes : List Nat) (count : Nat) : Selection :=
  if indexes.isEmpty || count ≤ indexes.length then all else only indexes

/-- The indexes below `count`, each at its first occurrence. -/
def ofIndexes (indexes : List Nat) (count : Nat) : Selection :=
  normalized (indexes.filter (· < count)).eraseDups count

/-- The columns with the given keys. Keys that no column has count for nothing. -/
def ofKeys (keys : List String) (columns : List Column) : Selection :=
  ofIndexes (keys.filterMap (columnIndex? columns)) columns.length

/-- Ticks or unticks one column. Unticking the last one ticks all. -/
def toggle (s : Selection) (index : Nat) (on : Bool) (count : Nat) : Selection :=
  if count ≤ index then s
  else
    let ticked := match s with
      | all => List.range count
      | only indexes => indexes
    if on then normalized (if ticked.contains index then ticked else ticked ++ [index]) count
    else normalized (ticked.filter (· ≠ index)) count

/-! ### Reading one -/

/-- Whether there is no restriction. -/
def isAll : Selection → Bool
  | all => true
  | only _ => false

/-- The columns to look at, out of `count`. -/
def indexes (s : Selection) (count : Nat) : List Nat :=
  match s with
  | all => List.range count
  | only indexes => indexes

/-- The columns that a restriction names, none if there is no restriction. -/
def restriction : Selection → List Nat
  | all => []
  | only indexes => indexes

/-- Whether a search looks at a column. -/
def contains (s : Selection) (index : Nat) : Bool :=
  match s with
  | all => true
  | only indexes => indexes.contains index

/-- The keys of the restricted columns, none if there is no restriction. -/
def keys (s : Selection) (columns : List Column) : List String :=
  (s.restriction.filterMap (columns[·]?)).map Column.key

/-- The labels of the restricted columns in the order of the table. -/
def labels (s : Selection) (columns : List Column) : List String :=
  match s with
  | all => []
  | only indexes => (columns.zipIdx.filter (indexes.contains ·.2)).map (·.1.label)

/-- A short text for people: at most three labels, then how many more there are. -/
def describe (s : Selection) (columns : List Column) : String :=
  let labels := s.labels columns
  if labels.isEmpty then "All"
  else
    let preview := String.intercalate ", " (labels.take 3)
    if labels.length ≤ 3 then preview else s!"{preview} +{labels.length - 3}"

end Selection

end CellQuery
