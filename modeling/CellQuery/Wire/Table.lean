import CellQuery.Table.Basic
import CellQuery.Wire.Codec

/-!
# Tables on the wire

Columns and tables as JSON. The rows of a table may be ragged; they are fitted to its columns.
-/

namespace CellQuery.Wire

instance : Wire Origin where
  toValue o := .text o.name
  ofTree? t := (nameOf? t).bind Origin.ofName?

instance : Wire Column where
  toValue c :=
    .object [("key", toValue c.key), ("label", toValue c.label), ("origin", toValue c.origin)]
  ofTree? t := do
    let fields ← fieldsOf? ["key", "label", "origin"] t
    return ⟨← required? fields "key", ← required? fields "label", ← required? fields "origin"⟩

instance : Wire Table where
  toValue t := .object [("columns", toValue t.columns), ("rows", toValue t.rows)]
  ofTree? t := do
    let fields ← fieldsOf? ["columns", "rows"] t
    return .ofRows (← optional? fields "columns" []) (← optional? fields "rows" [])

end CellQuery.Wire
