import CellQuery.Json.Tree

/-!
# JSON values

What a tree stands for, with strings as text and numerals as numbers. A tree stands for nothing if
a string in it has half a surrogate pair, a numeral is out of range or it is nested too deeply. A
value is written without spaces, the fields of an object as they come (`Value.spell`) or, where no
order is meant, by their keys, each once (`Value.toString`).
-/

namespace CellQuery.Json

/-- A JSON value, whatever way it was written. -/
inductive Value where
  | null
  | bool (b : Bool)
  | number (n : Number)
  | text (s : String)
  | array (elements : List Value)
  | object (fields : List (String × Value))
  deriving Repr

/-! ### From trees -/

/-- The text that codes stand for. -/
def textOf? (codes : List Code) : Option String :=
  (joinCodes? codes).map .ofList

/-- How deep arrays and objects may be nested. -/
def maxDepth : Nat := 127

mutual

/-- The value of a tree in which at most `depth` arrays and objects are nested. -/
def Tree.valueWithin? (depth : Nat) : Tree → Option Value
  | .null => some .null
  | .bool b => some (.bool b)
  | .numeral n => n.number?.map .number
  | .text codes => (textOf? codes).map .text
  | .array vs =>
    match depth with
    | 0 => none
    | depth + 1 => (elementsWithin? depth vs).map .array
  | .object fs =>
    match depth with
    | 0 => none
    | depth + 1 => (fieldsWithin? depth fs).map .object

/-- The values of the elements of an array. -/
def elementsWithin? (depth : Nat) : List Tree → Option (List Value)
  | [] => some []
  | v :: rest => do
    let v ← v.valueWithin? depth
    let rest ← elementsWithin? depth rest
    return v :: rest

/-- The fields of an object, in order and with repetitions. -/
def fieldsWithin? (depth : Nat) : List (List Code × Tree) → Option (List (String × Value))
  | [] => some []
  | (k, v) :: rest => do
    let k ← textOf? k
    let v ← v.valueWithin? depth
    let rest ← fieldsWithin? depth rest
    return (k, v) :: rest

end

/-- The value of a tree that is not nested too deeply. -/
def Tree.value? (t : Tree) : Option Value :=
  t.valueWithin? maxDepth

/-! ### Writing -/

section Write

variable {α : Type}

/-- Sets the field `k` of fields in ascending order of their keys. -/
def setField (k : String) (v : α) : List (String × α) → List (String × α)
  | [] => [(k, v)]
  | (k', v') :: rest =>
    if k < k' then (k, v) :: (k', v') :: rest
    else if k = k' then (k, v) :: rest
    else (k', v') :: setField k v rest

/-- Fields in ascending order of their keys. A repeated key keeps its last value. -/
def orderFields (fields : List (String × α)) : List (String × α) :=
  fields.foldl (fun fs (k, v) => setField k v fs) []

/-- Texts with a separator between them. -/
def joinWith (separator : List Char) : List (List Char) → List Char
  | [] => []
  | [s] => s
  | s :: rest => s ++ separator ++ joinWith separator rest

end Write

mutual

/-- The text of a value, the fields of an object as they come. -/
def Value.spell : Value → List Char
  | .null => ['n', 'u', 'l', 'l']
  | .bool true => ['t', 'r', 'u', 'e']
  | .bool false => ['f', 'a', 'l', 's', 'e']
  | .number n => n.write
  | .text s => quote s
  | .array vs => '[' :: joinWith [','] (spellElements vs) ++ [']']
  | .object fs => '\x7b' :: joinWith [','] (spellFields fs) ++ ['\x7d']

/-- The texts of the elements of an array. -/
def spellElements : List Value → List (List Char)
  | [] => []
  | v :: rest => v.spell :: spellElements rest

/-- The texts of the fields of an object, each behind its key. -/
def spellFields : List (String × Value) → List (List Char)
  | [] => []
  | (k, v) :: rest => (quote k ++ ':' :: v.spell) :: spellFields rest

end

mutual

/-- The value with the fields of all its objects by their keys, each once. -/
def Value.ordered : Value → Value
  | .array vs => .array (orderedElements vs)
  | .object fs => .object (orderFields (orderedFields fs))
  | v => v

/-- The elements of an array with their objects ordered. -/
def orderedElements : List Value → List Value
  | [] => []
  | v :: rest => v.ordered :: orderedElements rest

/-- The fields of an object with the objects in them ordered, themselves left in place. -/
def orderedFields : List (String × Value) → List (String × Value)
  | [] => []
  | (k, v) :: rest => (k, v.ordered) :: orderedFields rest

end

/-- The text of a value, where no order of fields is meant. -/
def Value.toString (v : Value) : String :=
  .ofList v.ordered.spell

end CellQuery.Json
