import CellQuery.Highlight.Style
import CellQuery.Query.Token
import CellQuery.Wire.Codec

/-!
# Queries on the wire

Tokens, search options and mark styles as JSON.
-/

namespace CellQuery.Wire

instance : Wire Operator where
  toValue op := .text op.text
  ofTree? t := (nameOf? t).bind Operator.ofText?

/-- The token of a kind, an operator by the name that `name?` finds in the value. -/
def tokenOf? (name? : Json.Tree → Option String) (kind : String) (value : Json.Tree) :
    Option Token :=
  match kind with
  | "operand" => (ofTree? value).map .operand
  | "operator" => ((name? value).bind Operator.ofText?).map .operator
  | _ => none

/-- A token names its kind and carries its value apart. In an array the kind is a plain string. In
an object the value may come first, and is then held back until the kind is known. -/
instance : Wire Token where
  toValue
    | .operand s => .object [("type", .text "operand"), ("value", toValue s)]
    | .operator op => .object [("type", .text "operator"), ("value", toValue op)]
  ofTree?
    | .array [kind, value] => do tokenOf? nameOf? (← ofTree? kind) value
    | .array _ => none
    | t => do
      match ← fieldsOf? ["type", "value"] t with
      | [("type", kind), ("value", value)] => tokenOf? nameOf? (← nameOf? kind) value
      | [("value", value), ("type", kind)] => tokenOf? heldNameOf? (← nameOf? kind) value
      | _ => none

instance : Wire Options where
  toValue o :=
    .object [("caseSensitive", toValue o.caseSensitive), ("exactMatch", toValue o.exactMatch)]
  ofTree? t := do
    let fields ← fieldsOf? ["caseSensitive", "exactMatch"] t
    return ⟨← optional? fields "caseSensitive" false, ← optional? fields "exactMatch" false⟩

/-- A style escapes unless it says otherwise. -/
instance : Wire Style where
  toValue s :=
    .object [("open", toValue s.opening), ("close", toValue s.closing),
      ("escapeHtml", toValue s.escapes)]
  ofTree? t := do
    let fields ← fieldsOf? ["open", "close", "escapeHtml"] t
    return ⟨← required? fields "open", ← required? fields "close",
      ← optional? fields "escapeHtml" true⟩

end CellQuery.Wire
