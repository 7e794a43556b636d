import CellQuery.Json.Value
import CellQuery.Table.Header

/-!
# Table files

A table file is a JSON text in one of two forms: an array of rows whose first one holds the
headers, or an object with `rows` and perhaps `headers`. A cell is a string, nothing at all
(`null`), or any other value, which then reads as its JSON text.
-/

namespace CellQuery

open Json

/-! ### Forms -/

/-- Why a text is no table file. -/
inductive FileError where
  /-- The text is not JSON. -/
  | syntactic
  /-- The text is JSON that is no table. -/
  | shape
  deriving DecidableEq, Repr

/-- The text of a cell, unless the cell is absent. -/
def Json.Value.cell? : Value → Option String
  | .null => none
  | .text s => some s
  | v => some v.toString

/-- The elements of an array. -/
def Json.Value.elements? : Value → Option (List Value)
  | .array vs => some vs
  | _ => none

/-- The rows of an array of arrays. -/
def Json.Value.rows? (v : Value) : Option (List (List Value)) :=
  v.elements?.bind (·.mapM elements?)

/-- The headers and records of a file. -/
structure Document where
  headers : List Value
  rows : List (List Value)

/-- The values of the fields with key `key`. -/
def fieldValues (key : String) (fields : List (String × Value)) : List Value :=
  (fields.filter (·.1 == key)).map (·.2)

/-- The document in an object. Its two fields may be in any order but not repeated, and other
fields do not matter. -/
def Document.ofFields? (fields : List (String × Value)) : Option Document :=
  match fieldValues "headers" fields, fieldValues "rows" fields with
  | [], [rows] => rows.rows?.map (⟨[], ·⟩)
  | [headers], [rows] => do
    let headers ← headers.elements?
    let rows ← rows.rows?
    return ⟨headers, rows⟩
  | _, _ => none

/-- The document in a value, in either of the two forms. -/
def Document.ofValue? : Value → Option Document
  | .array vs => (vs.mapM Value.elements?).map (⟨[], ·⟩)
  | .object fields => ofFields? fields
  | _ => none

/-! ### Tables -/

/-- The table of a document. An absent header is one without text. -/
def Document.table (d : Document) : Table :=
  .ofRecords (d.headers.map fun v => cellText v.cell?) (d.rows.map (·.map Value.cell?))

/-- The table in a file. Its first value is read, and found to be a table or not, before anything
behind that value is looked at. -/
def Table.parse (text : String) : Except FileError Table :=
  match Tree.read? text with
  | none => .error .syntactic
  | some (tree, rest) =>
    match tree.value? with
    | none => .error .syntactic
    | some v =>
      match Document.ofValue? v with
      | none => .error .shape
      | some d => if rest.isEmpty then .ok d.table else .error .syntactic

end CellQuery
