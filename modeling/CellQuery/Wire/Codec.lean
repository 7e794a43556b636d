import CellQuery.Json.Value

/-!
# Values as JSON

How the values of a search travel. A type is written as one JSON value and read from the structure
of any JSON text that means it: a record as an object whose fields may come in any order, among
unknown ones, or as an array in the order of its fields; a name as a string or as an object with
that one key over `null`.
-/

namespace CellQuery

open Json

/-- A type that travels as JSON: the value it is written as, and the trees it is read from. -/
class Wire (α : Type) where
  toValue : α → Value
  ofTree? : Tree → Option α

namespace Wire

variable {α : Type}

/-- A record is written in the order of its fields. -/
def encode [Wire α] (x : α) : String :=
  .ofList (toValue x).spell

/-- Reads a text that holds one value and nothing else. -/
def decode? [Wire α] (s : String) : Option α :=
  (Tree.parse? s).bind ofTree?

/-! ### Plain values -/

instance : Wire Bool where
  toValue := .bool
  ofTree?
    | .bool b => some b
    | _ => none

instance : Wire String where
  toValue := .text
  ofTree?
    | .text codes => textOf? codes
    | _ => none

instance [Wire α] : Wire (List α) where
  toValue xs := .array (xs.map toValue)
  ofTree?
    | .array vs => vs.mapM ofTree?
    | _ => none

/-! ### Names and records -/

/-- The name that a tree gives. -/
def nameOf? : Tree → Option String
  | .text codes => textOf? codes
  | .object [(k, .null)] => textOf? k
  | _ => none

/-- The name that a tree gives which was held back until a later field told what it is. Here the
name may also stand over an empty object. -/
def heldNameOf? : Tree → Option String
  | .object [(k, .object [])] => textOf? k
  | t => nameOf? t

/-- The fields of a record, out of `names`, that a tree gives. None of them may be given twice, and
an array may not have more elements than the record has fields. -/
def fieldsOf? (names : List String) : Tree → Option (List (String × Tree))
  | .object fields => do
    let named ← fields.mapM fun (k, v) => (textOf? k).map (·, v)
    let known := named.filter fun (k, _) => names.contains k
    if (known.map (·.1)).Nodup then some known else none
  | .array vs => if vs.length ≤ names.length then some (names.zip vs) else none
  | _ => none

/-- A field that must be there. -/
def required? [Wire α] (fields : List (String × Tree)) (name : String) : Option α :=
  (fields.lookup name).bind ofTree?

/-- A field that may be left out. -/
def optional? [Wire α] (fields : List (String × Tree)) (name : String) (default : α) : Option α :=
  match fields.lookup name with
  | some t => ofTree? t
  | none => some default

end Wire

end CellQuery
