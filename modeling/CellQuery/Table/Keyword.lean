import CellQuery.Text.Blank

/-!
# Keywords

The distinct texts among some values, without the blanks around them.
-/

namespace CellQuery

/-- The trimmed values that are not blank, each at its first occurrence. -/
def keywords (values : List String) : List String :=
  ((values.map Text.trim).filter (!·.isEmpty)).eraseDups

end CellQuery
