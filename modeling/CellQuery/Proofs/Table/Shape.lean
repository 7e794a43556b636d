import CellQuery.Proofs.Table.Form
import CellQuery.Proofs.Table.Label
import CellQuery.Table.Grid
import CellQuery.Wire.Table

/-!
# The shape of tables

Rows may come ragged, but a table is a sheet: a text for every place in so many rows and columns
(`Table.Shows`). A short row is filled with empty cells and a long one is cut, so no cell leaves its
column. Two tables next to each other show their sheets next to each other
(`Table.Shows.sideBySide`), and therefore so does whatever is made from such tables in turn
(`Making.shows`). The grid of a table has the shape of the table twice (`Grid.mirrors_ofTable`).
-/

namespace CellQuery

/-! ### Sheets -/

/-- The text in row `i` and column `j` of rows, if there is such a cell. -/
def cellAt? (rows : List (List String)) (i j : Nat) : Option String :=
  rows[i]?.bind (·[j]?)

/-- What a table looks like: how wide and high it is, and the text of each place. -/
structure Sheet where
  width : Nat
  height : Nat
  text : Nat → Nat → String

namespace Sheet

/-- Ragged rows under `width` columns. A place without a cell is empty, a cell without a column is
left out. -/
def ofRows (width : Nat) (rows : List (List String)) : Sheet where
  width := width
  height := rows.length
  text i j := (cellAt? rows i j).getD ""

/-- Records under their headers, the first record apart if it holds the headers. -/
def ofRecords (headers : List String) (records : List (List (Option String))) : Sheet :=
  let width := (headerTexts headers records).length
  let body := if headers.isEmpty then records.tail else records
  if width = 0 then ofRows 0 [] else ofRows width (body.map (·.map cellText))

/-- The text of a place, empty below the last row. -/
def textOrBlank (s : Sheet) (i j : Nat) : String :=
  if i < s.height then s.text i j else ""

/-- Two sheets next to each other, as long as the longer one. -/
def beside (left right : Sheet) : Sheet where
  width := left.width + right.width
  height := max left.height right.height
  text i j := if j < left.width then left.textOrBlank i j else right.textOrBlank i (j - left.width)

@[simp] theorem width_beside (left right : Sheet) :
    (left.beside right).width = left.width + right.width := rfl

theorem text_beside (left right : Sheet) (i j : Nat) : (left.beside right).text i j =
    if j < left.width then left.textOrBlank i j else right.textOrBlank i (j - left.width) := rfl

end Sheet

namespace Table

/-- The table has the columns, the rows and the cells of a sheet, and no other cells. -/
structure Shows (t : Table) (s : Sheet) : Prop where
  columnCount : t.columnCount = s.width
  size : t.size = s.height
  cell : ∀ i < s.height, ∀ j, cellAt? t.rows i j = if j < s.width then some (s.text i j) else none

/-- Where a row has a cell for every place of the sheet, it is as long as the sheet is wide. -/
theorem Shows.length_row {t : Table} {s : Sheet} (h : t.Shows s) :
    ∀ row ∈ t.rows, row.length = t.columnCount := by
  intro row hrow
  obtain ⟨i, hi⟩ := List.mem_iff_getElem?.mp hrow
  have hlt : i < s.height := h.size ▸ (List.getElem?_eq_some_iff.mp hi).1
  have hcell : ∀ j, row[j]? = if j < s.width then some (s.text i j) else none := by
    intro j
    rw [← h.cell i hlt j, cellAt?, hi, Option.bind_some]
  have hend := hcell s.width
  rw [if_neg (Nat.lt_irrefl _), List.getElem?_eq_none_iff] at hend
  rw [h.columnCount]
  refine Nat.le_antisymm hend (Nat.le_of_not_lt fun hshort => ?_)
  have hlast := hcell row.length
  rw [if_pos hshort, List.getElem?_eq_none (Nat.le_refl _)] at hlast
  cases hlast

/-! ### Ragged rows -/

theorem getElem?_fitRow (width : Nat) (row : List String) (j : Nat) :
    (fitRow width row)[j]? = if j < width then some (row[j]?.getD "") else none := by
  by_cases hj : j < width
  · rw [if_pos hj, fitRow]
    by_cases hrow : j < row.length
    · rw [List.getElem?_append_left (by simp; omega), List.getElem?_take_of_lt hj,
        List.getElem?_eq_getElem hrow, Option.getD_some]
    · have hfill : j - (row.take width).length < width - row.length := by
        rw [List.length_take]
        omega
      rw [List.getElem?_append_right (by simp; omega), List.getElem?_replicate_of_lt hfill,
        List.getElem?_eq_none (Nat.le_of_not_lt hrow), Option.getD_none]
  · rw [if_neg hj, List.getElem?_eq_none]
    rw [length_fitRow]
    exact Nat.le_of_not_lt hj

theorem shows_ofRows (columns : List Column) (rows : List (List String)) :
    (ofRows columns rows).Shows (.ofRows columns.length rows) where
  columnCount := rfl
  size := List.length_map _
  cell i hi j := by
    have hrow : rows[i]? = some rows[i] := List.getElem?_eq_getElem hi
    simp only [cellAt?, ofRows, Sheet.ofRows, List.getElem?_map, hrow, Option.map_some,
      Option.bind_some, getElem?_fitRow]

theorem shows_ofRecords (headers : List String) (records : List (List (Option String))) :
    (ofRecords headers records).Shows (.ofRecords headers records) := by
  have hlabels : ∀ texts : List String,
      ((headerLabels texts).map Column.single).length = texts.length := by
    intro texts
    rw [List.length_map, headerLabels, length_numberFrom, List.length_mapIdx]
  match headers, records with
  | h :: hs, records =>
    have hshows := shows_ofRows ((headerLabels (h :: hs)).map .single) (records.map (·.map cellText))
    rw [hlabels] at hshows
    exact hshows
  | [], (cell :: cells) :: records =>
    have hshows := shows_ofRows ((headerLabels ((cell :: cells).map cellText)).map .single)
      (records.map (·.map cellText))
    rw [hlabels] at hshows
    exact hshows
  | [], [] => exact shows_ofRows [] []
  | [], [] :: _ => exact shows_ofRows [] []

/-! ### Two tables -/

theorem columnCount_sideBySide (r c : Table) :
    (sideBySide r c).columnCount = r.columnCount + c.columnCount := by
  simp [sideBySide, ofRows, columnCount]

theorem size_sideBySide (r c : Table) : (sideBySide r c).size = max r.size c.size := by
  simp [sideBySide, ofRows, size]

/-- The rows of a comparison fit as they are. -/
theorem getElem?_sideBySide {r c : Table} {i : Nat} (h : i < max r.size c.size) :
    (sideBySide r c).rows[i]? = some (r.rowOrBlank i ++ c.rowOrBlank i) := by
  have hlen : (r.rowOrBlank i ++ c.rowOrBlank i).length = (sideBySide r c).columns.length := by
    rw [List.length_append, length_rowOrBlank, length_rowOrBlank]
    exact (columnCount_sideBySide r c).symm
  simp only [sideBySide, ofRows, List.getElem?_map, List.getElem?_range h, Option.map_some]
  exact congrArg some (fitRow_of_length hlen)

theorem row_sideBySide {r c : Table} {row : Nat} {cells : List String}
    (h : (sideBySide r c).rows[row]? = some cells) :
    cells = r.rowOrBlank row ++ c.rowOrBlank row := by
  have hlt : row < max r.size c.size := by
    rw [← size_sideBySide]
    exact (List.getElem?_eq_some_iff.mp h).1
  exact Option.some.inj (h.symm.trans (getElem?_sideBySide hlt))

/-- Where a table ends, it goes on with blank rows. -/
theorem getElem?_rowOrBlank (t : Table) (i j : Nat) : (t.rowOrBlank i)[j]? =
    if i < t.size then cellAt? t.rows i j else if j < t.columnCount then some "" else none := by
  unfold rowOrBlank cellAt?
  by_cases hi : i < t.size
  · have hrow : t.rows[i]? = some _ := List.getElem?_eq_getElem hi
    rw [hrow, Option.getD_some, Option.bind_some, if_pos hi]
  · have hrow : t.rows[i]? = none := List.getElem?_eq_none (Nat.le_of_not_lt hi)
    rw [hrow, Option.getD_none, if_neg hi, List.getElem?_replicate]

theorem Shows.getElem?_rowOrBlank {t : Table} {s : Sheet} (h : t.Shows s) (i j : Nat) :
    (t.rowOrBlank i)[j]? = if j < s.width then some (s.textOrBlank i j) else none := by
  rw [Table.getElem?_rowOrBlank, h.size, h.columnCount, Sheet.textOrBlank]
  by_cases hi : i < s.height
  · rw [if_pos hi, if_pos hi, h.cell i hi j]
  · rw [if_neg hi, if_neg hi]

theorem Shows.sideBySide {r c : Table} {left right : Sheet} (hr : r.Shows left)
    (hc : c.Shows right) : (Table.sideBySide r c).Shows (left.beside right) where
  columnCount := by
    rw [columnCount_sideBySide, hr.columnCount, hc.columnCount]
    rfl
  size := by
    rw [size_sideBySide, hr.size, hc.size]
    rfl
  cell i hi j := by
    have hlen : (r.rowOrBlank i).length = left.width := (r.length_rowOrBlank i).trans hr.columnCount
    have hrow := getElem?_sideBySide (r := r) (c := c) (i := i)
      (by rw [hr.size, hc.size]; exact hi)
    rw [cellAt?, hrow, Option.bind_some, Sheet.text_beside, Sheet.width_beside]
    by_cases hj : j < left.width
    · rw [List.getElem?_append_left (Nat.lt_of_lt_of_eq hj hlen.symm),
        hr.getElem?_rowOrBlank i j, if_pos hj, if_pos (Nat.lt_add_right _ hj), if_pos hj]
    · have hright : j - left.width < right.width ↔ j < left.width + right.width := by omega
      rw [List.getElem?_append_right (hlen ▸ Nat.le_of_not_lt hj), hlen,
        hc.getElem?_rowOrBlank i, if_neg hj]
      simp only [hright]

end Table

/-! ### Ways to make a table -/

/-- The columns and rows that a tree of a table gives, before they are fitted to each other. -/
def raggedRows? (t : Json.Tree) : Option (List Column × List (List String)) := do
  let fields ← Wire.fieldsOf? ["columns", "rows"] t
  return (← Wire.optional? fields "columns" [], ← Wire.optional? fields "rows" [])

theorem ofTree?_eq_raggedRows? (t : Json.Tree) :
    Wire.ofTree? t = (raggedRows? t).map fun (columns, rows) => Table.ofRows columns rows := by
  show (Wire.fieldsOf? ["columns", "rows"] t).bind _ = _
  unfold raggedRows?
  cases Wire.fieldsOf? ["columns", "rows"] t with
  | none => rfl
  | some fields =>
    simp only [Option.bind_eq_bind, Option.bind_some, Option.pure_def]
    cases (Wire.optional? fields "columns" [] : Option (List Column)) with
    | none => rfl
    | some columns =>
      cases (Wire.optional? fields "rows" [] : Option (List (List String))) <;> rfl

/-- A way to make a table: from rows, from records, from a text on the wire, from a file, or of two
tables made before. -/
inductive Making where
  | ofRows (columns : List Column) (rows : List (List String))
  | ofRecords (headers : List String) (records : List (List (Option String)))
  | decoded (text : String)
  | parsed (text : String)
  | sideBySide (reference comparison : Making)

namespace Making

/-- The table that is made, if every text is one. -/
def table? : Making → Option Table
  | .ofRows columns rows => some (.ofRows columns rows)
  | .ofRecords headers records => some (.ofRecords headers records)
  | .decoded text => Wire.decode? text
  | .parsed text => (Table.parse text).toOption
  | .sideBySide reference comparison => do
    return .sideBySide (← reference.table?) (← comparison.table?)

/-- The sheet that a table is made for. -/
def sheet? : Making → Option Sheet
  | .ofRows columns rows => some (.ofRows columns.length rows)
  | .ofRecords headers records => some (.ofRecords headers records)
  | .decoded text =>
    ((Json.Tree.parse? text).bind raggedRows?).map fun (columns, rows) => .ofRows columns.length rows
  | .parsed text => (Document.ofText? text).map fun d =>
    .ofRecords (d.headers.map fun v => cellText v.cell?) (d.rows.map (·.map Json.Value.cell?))
  | .sideBySide reference comparison => do
    return .beside (← reference.sheet?) (← comparison.sheet?)

/-- Whatever is made shows the sheet that it is made for. -/
theorem shows {m : Making} {t : Table} (h : m.table? = some t) : ∃ s, m.sheet? = some s ∧ t.Shows s := by
  induction m generalizing t with
  | ofRows columns rows =>
    obtain rfl := Option.some.inj h
    exact ⟨_, rfl, Table.shows_ofRows columns rows⟩
  | ofRecords headers records =>
    obtain rfl := Option.some.inj h
    exact ⟨_, rfl, Table.shows_ofRecords headers records⟩
  | decoded text =>
    -- decoding and `sheet?` read the same columns and rows from the tree
    obtain ⟨tree, htree, h⟩ := Option.bind_eq_some_iff.mp h
    rw [ofTree?_eq_raggedRows?] at h
    obtain ⟨⟨columns, rows⟩, hrows, rfl⟩ := Option.map_eq_some_iff.mp h
    refine ⟨.ofRows columns.length rows, ?_, Table.shows_ofRows columns rows⟩
    rw [sheet?, htree, Option.bind_some, hrows, Option.map_some]
  | parsed text =>
    obtain ⟨d, hd, rfl⟩ : ∃ d, Document.ofText? text = some d ∧ d.table = t := by
      refine Table.parse_eq_ok_iff.mp ?_
      unfold table? at h
      cases hparse : Table.parse text with
      | error e =>
        rw [hparse] at h
        cases h
      | ok t' =>
        rw [hparse] at h
        exact congrArg Except.ok (Option.some.inj h)
    refine ⟨_, ?_, Table.shows_ofRecords _ _⟩
    rw [sheet?, hd, Option.map_some]
  | sideBySide reference comparison ihr ihc =>
    simp only [table?, Option.bind_eq_bind, Option.bind_eq_some_iff, Option.pure_def,
      Option.some.injEq] at h
    obtain ⟨r, hr, c, hc, rfl⟩ := h
    obtain ⟨left, hleft, hr⟩ := ihr hr
    obtain ⟨right, hright, hc⟩ := ihc hc
    refine ⟨left.beside right, ?_, hr.sideBySide hc⟩
    rw [sheet?, hleft, hright]
    rfl

end Making

/-! ### Grids -/

/-- The grid has the shape of the table twice, once with its cells and once with these in lower
case. -/
structure Grid.Mirrors (g : Grid) (t : Table) : Prop where
  columnCount : g.columnCount = t.columnCount
  verbatim : g.verbatim = t.rows
  size : g.folded.length = t.size
  length_row : ∀ row ∈ g.folded, row.length = t.columnCount
  folded : ∀ i j, cellAt? g.folded i j = (cellAt? g.verbatim i j).map Text.lowercase

theorem Grid.mirrors_ofTable {t : Table} (h : ∀ row ∈ t.rows, row.length = t.columnCount) :
    (Grid.ofTable t).Mirrors t where
  columnCount := rfl
  verbatim := rfl
  size := List.length_map _
  length_row row hrow := by
    obtain ⟨cells, hcells, rfl⟩ := List.mem_map.mp hrow
    rw [List.length_map]
    exact h cells hcells
  folded i j := by
    simp only [cellAt?, ofTable, List.getElem?_map]
    cases t.rows[i]? with
    | none => rfl
    | some row => exact List.getElem?_map

/-! ### Alignment -/

/-- The cell that belongs in row `i` and column `j` of two tables next to each other: that of the
table whose column it is, empty if this table has no such row. -/
def Table.cellBeside (r c : Table) (i j : Nat) : Option String :=
  if j < r.columnCount then if i < r.size then cellAt? r.rows i j else some ""
  else if i < c.size then cellAt? c.rows i (j - r.columnCount) else some ""

theorem Table.cellAt?_sideBySide (r c : Table) {i j : Nat} (hi : i < max r.size c.size)
    (hj : j < r.columnCount + c.columnCount) :
    cellAt? (sideBySide r c).rows i j = r.cellBeside c i j := by
  rw [cellAt?, getElem?_sideBySide hi, Option.bind_some, cellBeside]
  by_cases hleft : j < r.columnCount
  · have hside : (r.rowOrBlank i ++ c.rowOrBlank i)[j]? = (r.rowOrBlank i)[j]? :=
      List.getElem?_append_left (Nat.lt_of_lt_of_eq hleft (r.length_rowOrBlank i).symm)
    rw [hside, getElem?_rowOrBlank, if_pos hleft, if_pos hleft]
  · have hside : (r.rowOrBlank i ++ c.rowOrBlank i)[j]? =
        (c.rowOrBlank i)[j - r.columnCount]? := by
      rw [← r.length_rowOrBlank i]
      exact List.getElem?_append_right (r.length_rowOrBlank i ▸ Nat.le_of_not_lt hleft)
    have hright : j - r.columnCount < c.columnCount := by omega
    rw [hside, getElem?_rowOrBlank, if_neg hleft, if_pos hright]

/-- **Tables stay aligned.** Whatever a table is made from, it shows the sheet of that, each of its
rows has a cell for every column, and its grid mirrors it. Two such tables are put side by side
column by column, as long as the longer one, and each cell of the comparison is the one that belongs
there. -/
theorem tables_stay_aligned :
    (∀ (m : Making) (t : Table), m.table? = some t →
      (∃ s, m.sheet? = some s ∧ t.Shows s) ∧ (∀ row ∈ t.rows, row.length = t.columnCount) ∧
        (Grid.ofTable t).Mirrors t) ∧
    ∀ (left right : Making) (r c : Table), left.table? = some r → right.table? = some c →
      ∃ both, (left.sideBySide right).table? = some both ∧ both = .sideBySide r c ∧
        both.size = max r.size c.size ∧ both.columnCount = r.columnCount + c.columnCount ∧
        ∀ i < both.size, ∀ j < both.columnCount, cellAt? both.rows i j = r.cellBeside c i j := by
  refine ⟨fun m t h => ?_, fun left right r c hr hc => ⟨.sideBySide r c, ?_, rfl, ?_, ?_, ?_⟩⟩
  · obtain ⟨s, hs, hshows⟩ := Making.shows h
    exact ⟨⟨s, hs, hshows⟩, hshows.length_row, Grid.mirrors_ofTable hshows.length_row⟩
  · rw [Making.table?, hr, hc]
    rfl
  · exact Table.size_sideBySide r c
  · exact Table.columnCount_sideBySide r c
  · intro i hi j hj
    rw [Table.size_sideBySide] at hi
    rw [Table.columnCount_sideBySide] at hj
    exact Table.cellAt?_sideBySide r c hi hj

/-- Short rows, a row that is too long and a table that ends early, in a comparison of a
comparison. -/
theorem tables_stay_aligned_nested :
    let ragged := Making.ofRows [.single "A", .single "B"] [["a"], ["1", "2", "3"], []]
    let file := Making.parsed "[[\"C\", null], [null, true, 1], [7]]"
    let wire := Making.decoded ("\x7b\"rows\": [[\"x\", \"y\"]], \"columns\": " ++
      "[\x7b\"key\": \"k\", \"label\": \"D\", \"origin\": \"single\"\x7d]\x7d")
    let inner := Table.ofRows
      [⟨"ref.A", "ref.A", .reference⟩, ⟨"ref.B", "ref.B", .reference⟩,
        ⟨"cmp.C", "cmp.C", .comparison⟩, ⟨"cmp.Column 2", "cmp.Column 2", .comparison⟩]
      [["a", "", "", "true"], ["1", "2", "7", ""], ["", "", "", ""]]
    let d := Table.ofRows [⟨"k", "D", .single⟩] [["x"]]
    (ragged.sideBySide file).table? = some inner ∧ wire.table? = some d ∧
      (∀ row ∈ inner.rows, row.length = 4) ∧ (Grid.ofTable inner).Mirrors inner ∧
      ∃ both, ((ragged.sideBySide file).sideBySide wire).table? = some both ∧ both.size = 3 ∧
        both.columnCount = 5 ∧ cellAt? both.rows 0 4 = some "x" ∧ cellAt? both.rows 0 3 = some "true" ∧
        cellAt? both.rows 2 4 = some "" := by
  intro ragged file wire inner d
  have hinner : (ragged.sideBySide file).table? = some inner := by decide +kernel
  have hd : wire.table? = some d := by decide +kernel
  obtain ⟨halone, hbeside⟩ := tables_stay_aligned
  obtain ⟨-, hrect, hmirrors⟩ := halone _ _ hinner
  obtain ⟨both, hboth, -, hsize, hcount, hcells⟩ := hbeside _ _ _ _ hinner hd
  have hsize : both.size = 3 := hsize
  have hcount : both.columnCount = 5 := hcount
  refine ⟨hinner, hd, hrect, hmirrors, both, hboth, hsize, hcount, ?_, ?_, ?_⟩
  · rw [hcells 0 (by omega) 4 (by omega)]
    decide
  · rw [hcells 0 (by omega) 3 (by omega)]
    decide
  · rw [hcells 2 (by omega) 4 (by omega)]
    decide

end CellQuery
