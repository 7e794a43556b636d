import CellQuery.Proofs.Json.Spelling
import CellQuery.Table.File
import Mathlib.Data.List.Basic

/-!
# The two forms of a table file

A file is read as one JSON value, and that value as a document (`Table.parse_eq_ok_iff`). In an
object the headers stand apart from the rows, in any order and among other fields, which count for
nothing (`Document.ofFields?_of_fieldsOf`). In an array they stand in the first row. It makes no
difference: the first record of a table without headers is where its headers come from
(`Document.table_promoted`).
-/

namespace CellQuery

open Json

/-! ### Reading a file -/

/-- The value of a text that holds nothing else. -/
def Json.Value.ofText? (text : String) : Option Value :=
  (Tree.parse? text).bind Tree.value?

/-- The document in a text that holds nothing else. -/
def Document.ofText? (text : String) : Option Document :=
  (Value.ofText? text).bind ofValue?

theorem Json.Tree.parse?_eq_some_iff {text : String} {tree : Tree} :
    Tree.parse? text = some tree ↔ Tree.read? text = some (tree, []) := by
  unfold Tree.parse?
  constructor
  · intro h
    split at h
    · next v hread =>
      obtain rfl := Option.some.inj h
      exact hread
    · cases h
  · intro h
    rw [h]

/-- A text is a table file exactly if its value is a document, and then the table is that of the
document. -/
theorem Table.parse_eq_ok_iff {text : String} {t : Table} :
    Table.parse text = .ok t ↔ ∃ d, Document.ofText? text = some d ∧ d.table = t := by
  simp only [Document.ofText?, Value.ofText?, Option.bind_eq_some_iff, Tree.parse?_eq_some_iff]
  constructor
  · intro h
    unfold Table.parse at h
    split at h
    · cases h
    · next tree rest hread =>
      split at h
      · cases h
      · next v hvalue =>
        split at h
        · cases h
        · next d hd =>
          split at h
          · next hrest =>
            obtain rfl := List.isEmpty_iff.mp hrest
            exact ⟨d, ⟨v, ⟨tree, hread, hvalue⟩, hd⟩, Except.ok.inj h⟩
          · cases h
  · rintro ⟨d, ⟨v, ⟨tree, hread, hvalue⟩, hd⟩, rfl⟩
    simp only [Table.parse, hread, hvalue, hd, List.isEmpty_nil, if_true]

/-! ### The document of each form -/

theorem mapM_elements?_array (rows : List (List Value)) :
    (rows.map Value.array).mapM Value.elements? = some rows := by
  induction rows with
  | nil => rfl
  | cons row rows ih =>
    rw [List.map_cons, List.mapM_cons, ih]
    rfl

section Fields

variable {headers : List Value} {rows : List (List Value)} {fields fields' : List (String × Value)}
  {key : String} {v : Value}

/-- The fields of an object that has the headers and the rows, each once, in any order and among any
other fields. -/
def FieldsOf (headers : List Value) (rows : List (List Value)) (fields : List (String × Value)) :
    Prop :=
  ∃ others, (∀ f ∈ others, f.1 ≠ "headers" ∧ f.1 ≠ "rows") ∧
    fields.Perm (("headers", .array headers) :: ("rows", .array (rows.map .array)) :: others)

theorem fieldValues_eq_nil (h : ∀ f ∈ fields, f.1 ≠ key) : fieldValues key fields = [] := by
  have hnone : fields.filter (·.1 == key) = [] := by
    rw [List.filter_eq_nil_iff]
    intro f hf hkey
    exact h f hf (eq_of_beq hkey)
  rw [fieldValues, hnone, List.map_nil]

/-- The order of fields does not matter to one that is there once. -/
theorem fieldValues_of_perm (hperm : fields.Perm fields') (h : fieldValues key fields' = [v]) :
    fieldValues key fields = [v] := by
  have hvalues : (fieldValues key fields).Perm (fieldValues key fields') :=
    (hperm.filter _).map _
  rw [h] at hvalues
  exact List.perm_singleton.mp hvalues

theorem Document.ofFields?_of_fieldsOf (h : FieldsOf headers rows fields) :
    Document.ofFields? fields = some ⟨headers, rows⟩ := by
  obtain ⟨others, hothers, hperm⟩ := h
  have hnoHeaders := fieldValues_eq_nil fun f hf => (hothers f hf).1
  have hnoRows := fieldValues_eq_nil fun f hf => (hothers f hf).2
  have hheaders : fieldValues "headers" fields = [.array headers] :=
    fieldValues_of_perm hperm (congrArg (Value.array headers :: ·) hnoHeaders)
  have hrows : fieldValues "rows" fields = [.array (rows.map .array)] :=
    fieldValues_of_perm hperm (congrArg (Value.array (rows.map .array) :: ·) hnoRows)
  have hread : (Value.array (rows.map .array)).rows? = some rows := mapM_elements?_array rows
  rw [Document.ofFields?, hheaders, hrows]
  simp only [Value.elements?, hread]
  rfl

end Fields

/-- Headers are the same whether they stand apart or in the first row, as long as there are any. -/
theorem Document.table_promoted {headers : List Value} (h : headers ≠ [])
    (rows : List (List Value)) :
    Document.table ⟨[], headers :: rows⟩ = Document.table ⟨headers, rows⟩ := by
  obtain ⟨v, vs, rfl⟩ := List.exists_cons_of_ne_nil h
  have htexts : ((v :: vs).map Value.cell?).map cellText =
      (v :: vs).map fun v => cellText v.cell? := List.map_map
  show Table.ofHeaders (((v :: vs).map Value.cell?).map cellText) _ = _
  rw [htexts]
  rfl

/-- **The two forms mean the same.** A text whose value is an object with headers and rows and a
text whose value is the array of the headers and the rows are both files of one table. -/
theorem file_forms_agree {headers : List Value} {rows : List (List Value)}
    {fields : List (String × Value)} {objectText arrayText : String} (hheaders : headers ≠ [])
    (hfields : FieldsOf headers rows fields)
    (hobject : Value.ofText? objectText = some (.object fields))
    (harray : Value.ofText? arrayText = some (.array (.array headers :: rows.map .array))) :
    ∃ t, Table.parse objectText = .ok t ∧ Table.parse arrayText = .ok t := by
  have hapart : Document.ofText? objectText = some ⟨headers, rows⟩ := by
    rw [Document.ofText?, hobject, Option.bind_some, Document.ofValue?,
      Document.ofFields?_of_fieldsOf hfields]
  have hfirst : Document.ofText? arrayText = some ⟨[], headers :: rows⟩ := by
    have hread := mapM_elements?_array (headers :: rows)
    rw [List.map_cons] at hread
    rw [Document.ofText?, harray, Option.bind_some, Document.ofValue?, hread, Option.map_some]
  refine ⟨Document.table ⟨headers, rows⟩, ?_, ?_⟩
  · exact Table.parse_eq_ok_iff.mpr ⟨_, hapart, rfl⟩
  · exact Table.parse_eq_ok_iff.mpr ⟨_, hfirst, Document.table_promoted hheaders rows⟩

/-- Other fields stand before and behind, with one key. The headers are missing, padded, no text and
repeated, the rows too short and too long. -/
theorem file_forms_agree_mixed :
    let objectText := "\x7b\"note\":true,\"rows\":[[\"x\",null,true,\"y\"],[\x7b\"b\":[],\"a\":\"\"\x7d]," ++
      "[\"1\",\"2\",\"3\",\"4\",\"5\"]],\"headers\":[null,\" A \",false,\"A\"],\"note\":[]\x7d"
    let arrayText := "[[null,\" A \",false,\"A\"],[\"x\",null,true,\"y\"],[\x7b\"b\":[],\"a\":\"\"\x7d]," ++
      "[\"1\",\"2\",\"3\",\"4\",\"5\"]]"
    let headers : List Value := [.null, .text " A ", .bool false, .text "A"]
    let rows : List (List Value) := [[.text "x", .null, .bool true, .text "y"],
      [.object [("b", .array []), ("a", .text "")]],
      [.text "1", .text "2", .text "3", .text "4", .text "5"]]
    let fields := [("note", .bool true), ("rows", .array (rows.map .array)),
      ("headers", .array headers), ("note", .array [])]
    let t := Table.ofRows [.single "Column 1", .single "A", .single "false", .single "A (2)"]
      [["x", "", "true", "y"], ["\x7b\"a\":\"\",\"b\":[]\x7d"], ["1", "2", "3", "4"]]
    headers ≠ [] ∧ FieldsOf headers rows fields ∧
      Value.ofText? objectText = some (.object fields) ∧
      Value.ofText? arrayText = some (.array (.array headers :: rows.map .array)) ∧
      Table.parse objectText = .ok t ∧ Table.parse arrayText = .ok t := by
  intro objectText arrayText headers rows fields t
  have hfields : FieldsOf headers rows fields := by
    refine ⟨[("note", .bool true), ("note", .array [])], by simp, ?_⟩
    exact (List.Perm.cons _ (.swap _ _ _)).trans ((List.Perm.swap _ _ _).trans (.cons _ (.swap _ _ _)))
  have hobject : Value.ofText? objectText = some (.object fields) := by
    have hspelt : objectText = .ofList (Value.object fields).spell := by decide +kernel
    rw [hspelt, Value.ofText?, parse?_spell rfl]
    rfl
  have harray : Value.ofText? arrayText = some (.array (.array headers :: rows.map .array)) := by
    have hspelt : arrayText = .ofList (Value.array (.array headers :: rows.map .array)).spell := by
      decide +kernel
    rw [hspelt, Value.ofText?, parse?_spell rfl]
    rfl
  have ht : Table.parse objectText = .ok t := by decide +kernel
  obtain ⟨t', hobject', harray'⟩ := file_forms_agree (by simp [headers]) hfields hobject harray
  obtain rfl := Except.ok.inj (hobject'.symm.trans ht)
  exact ⟨by simp [headers], hfields, hobject, harray, ht, harray'⟩

end CellQuery
