import CellQuery.Highlight.Row
import CellQuery.Proofs.Lexer.Spelling
import CellQuery.Proofs.Lexer.Splitting
import CellQuery.Proofs.Search.Match
import CellQuery.Table.Selection
import Mathlib.Data.List.TakeWhile

/-!
# Credit for a hit

Evaluating a query and highlighting a row look for the operands separately. Both find the same
columns for the same keyword (`hits_rowHighlights`), but highlighting trims an operand first and
evaluating does not. For an operand without blanks at its ends there is no difference. For one with
such blanks, matching in part loses nothing by trimming (`matchRow_trim`), though more may be found.
-/

namespace CellQuery

open Text

/-! ### Trimming -/

namespace Text

theorem trimChars_infix (cs : List Char) : trimChars cs <:+: cs := by
  have hfront : cs.dropWhile isBlank <:+ cs := List.dropWhile_suffix _
  have hback : trimEnd (cs.dropWhile isBlank) <+: cs.dropWhile isBlank := by
    rw [trimEnd, ← List.reverse_suffix, List.reverse_reverse]
    exact List.dropWhile_suffix _
  exact hback.isInfix.trans hfront.isInfix

theorem trimChars_eq_nil {cs : List Char} : trimChars cs = [] ↔ ∀ c ∈ cs, isBlank c = true := by
  rw [trimChars, trimEnd, List.reverse_eq_nil_iff, List.dropWhile_eq_nil_iff]
  constructor
  · intro h c hc
    rw [← List.takeWhile_append_dropWhile (p := isBlank) (l := cs), List.mem_append] at hc
    rcases hc with hc | hc
    · exact List.mem_takeWhile_imp hc
    · exact h c (List.mem_reverse.mpr hc)
  · intro h c hc
    exact h c ((List.dropWhile_sublist _).subset (List.mem_reverse.mp hc))

theorem isEmpty_trim (s : String) : (trim s).isEmpty = blank s := by
  rw [Bool.eq_iff_iff, String.isEmpty_iff, ← String.toList_eq_nil_iff, toList_trim,
    trimChars_eq_nil, blank, List.all_eq_true]

end Text

/-! ### One column -/

/-- The columns in which a row matches each of the keywords, for those it matches at all. -/
def found (g : Grid) (row : Nat) (o : Options) (columns : List Nat) (keywords : List String) :
    List Hit :=
  (keywords.map fun keyword =>
    ⟨keyword, columns.filter fun c => matchRow g row keyword o [c]⟩).filter (!·.columns.isEmpty)

theorem matchRow_of_row?_eq_none {g : Grid} {row : Nat} {o : Options}
    (h : g.row? row o.caseSensitive = none) (keyword : String) (columns : List Nat) :
    matchRow g row keyword o columns = false := by
  rw [matchRow, h]

theorem matchRow_singleton {g : Grid} {row : Nat} {o : Options} {cells : List String}
    (h : g.row? row o.caseSensitive = some cells) {keyword : String} (hk : keyword.isEmpty = false)
    (c : Nat) :
    matchRow g row keyword o [c] = cells[c]?.any (o.accepts · (o.normalize keyword)) := by
  have hn : (o.normalize keyword).isEmpty = false := by rw [o.isEmpty_normalize, hk]
  rw [matchRow, h]
  simp only [cellsMatch, cellsAt, hn, List.isEmpty_cons, Bool.not_false, Bool.true_and]
  cases hc : cells[c]? with
  | none => simp [hc]
  | some cell =>
    cases ha : o.accepts cell (o.normalize keyword) with
    | false => simp [hc, ha]
    | true => simp [hc, ha, Options.isEmpty_cell_of_accepts ha hn]

theorem matchRow_of_isEmpty {keyword : String} (h : keyword.isEmpty = true) (g : Grid) (row : Nat)
    (o : Options) (columns : List Nat) : matchRow g row keyword o columns = false := by
  unfold matchRow
  split
  · simp [cellsMatch, o.isEmpty_normalize, h]
  · rfl

theorem exists_mem_found {g : Grid} {row : Nat} {o : Options} {columns : List Nat}
    {keywords : List String} {keyword : String} {c : Nat} (hk : keyword ∈ keywords)
    (hc : c ∈ columns) (h : matchRow g row keyword o [c] = true) :
    ∃ hit ∈ found g row o columns keywords, hit.operand = keyword ∧ c ∈ hit.columns := by
  have hcol : c ∈ columns.filter fun c => matchRow g row keyword o [c] :=
    List.mem_filter.mpr ⟨hc, h⟩
  have hne : (columns.filter fun c => matchRow g row keyword o [c]).isEmpty = false := by
    simpa using List.ne_nil_of_mem hcol
  refine ⟨⟨keyword, _⟩, List.mem_filter.mpr ⟨List.mem_map.mpr ⟨keyword, hk, rfl⟩, ?_⟩, rfl, hcol⟩
  rw [hne, Bool.not_false]

/-- Looking for a part of each cell, a row loses no match when the keyword is trimmed. -/
theorem matchRow_trim {t : Table} {row : Nat} {keyword : String} {o : Options} {columns : List Nat}
    (ho : o.exactMatch = false) (hk : blank keyword = false)
    (h : matchRow (.ofTable t) row keyword o columns = true) :
    matchRow (.ofTable t) row (trim keyword) o columns = true := by
  obtain ⟨-, cells, hcells, cell, hcell, hacc⟩ := matchRow_iff.mp h
  have hinfix : (trim keyword).toList <:+: keyword.toList := by
    rw [toList_trim]
    exact trimChars_infix _
  refine matchRow_iff.mpr ⟨?_, cells, hcells, cell, hcell, o.accepts_of_infix ho hinfix hacc⟩
  rw [isEmpty_trim, hk]

/-! ### The hits of a row -/

theorem rowHits_eq_found {g : Grid} {row : Nat} {o : Options} {cells : List String}
    (h : g.row? row o.caseSensitive = some cells) (columns : List Nat) (operands : List String) :
    rowHits o cells columns operands = found g row o columns (operands.map trim) := by
  unfold rowHits found
  induction operands.map trim with
  | nil => rfl
  | cons keyword keywords ih =>
    cases hk : keyword.isEmpty with
    | true =>
      -- a blank keyword is left out of the hits, and in `found` it matches no column
      have hnone : columns.filter (fun c => matchRow g row keyword o [c]) = [] := by
        simp [matchRow_of_isEmpty hk]
      simp [hk, hnone, ih]
    | false =>
      have hcols : hitColumns o cells columns keyword =
          columns.filter fun c => matchRow g row keyword o [c] :=
        List.filter_congr fun c _ => (matchRow_singleton h hk c).symm
      simp [hk, hcols, List.filter_cons, ih]

/-- Credit goes to columns that were asked for. -/
theorem columns_subset_of_mem_found {g : Grid} {row : Nat} {o : Options} {columns : List Nat}
    {keywords : List String} {hit : Hit} (hhit : hit ∈ found g row o columns keywords) :
    hit.columns ⊆ columns := by
  obtain ⟨k, -, rfl⟩ := List.mem_map.mp (List.mem_filter.mp hhit).1
  exact List.filter_subset_self columns

theorem found_of_row?_eq_none {g : Grid} {row : Nat} {o : Options}
    (h : g.row? row o.caseSensitive = none) (columns : List Nat) (keywords : List String) :
    found g row o columns keywords = [] := by
  simp [found, matchRow_of_row?_eq_none h]

section Row

variable {t : Table} {labels : List Column} {style : Style} {row : Nat} {ops : List String}
  {o : Options} {columns : List Nat}

/-- The highlights of a row that the table has. -/
theorem rowHighlights_of_row {cells : List String} (hrow : t.rows[row]? = some cells) :
    let hits := rowHits o (cells.map o.normalize)
      (if columns.isEmpty then (Grid.ofTable t).allColumns else columns) ops
    rowHighlights (.ofTable t) labels style row ops o columns =
      { summary := summarize labels hits
        highlights := (Grid.ofTable t).allColumns.map fun i =>
          match operandsAt hits i with
          | [] => none
          | found => some (highlightCell (cells[i]?.getD "") found o style)
        hits := hits } := by
  intro hits
  have hverbatim : (Grid.ofTable t).verbatim[row]? = some cells := hrow
  have hcompared := row?_ofTable t row o.caseSensitive
  rw [hrow, Option.map_some, compared_cells] at hcompared
  simp only [rowHighlights, hverbatim, hcompared]
  rfl

theorem rowHighlights_of_no_row (hrow : t.rows[row]? = none) :
    rowHighlights (.ofTable t) labels style row ops o columns =
      ⟨"", List.replicate t.columnCount none, []⟩ := by
  have hverbatim : (Grid.ofTable t).verbatim[row]? = none := hrow
  simp only [rowHighlights, hverbatim]
  rfl

/-- A cell is marked with the operands credited to its column, if there are any. -/
theorem getElem?_highlights {cells : List String} (hrow : t.rows[row]? = some cells) {i : Nat}
    {cell : String} (hcell : cells[i]? = some cell) :
    let r := rowHighlights (.ofTable t) labels style row ops o columns
    r.highlights[i]? = some (if operandsAt r.hits i = [] then none
      else some (highlightCell cell (operandsAt r.hits i) o style)) := by
  intro r
  have hlt : i < t.columnCount := by
    rw [← Table.length_row hrow]
    exact (List.getElem?_eq_some_iff.mp hcell).1
  have hcolumn : (Grid.ofTable t).allColumns[i]? = some i := List.getElem?_range hlt
  have hr : r = _ := rowHighlights_of_row hrow
  rw [hr]
  simp only [List.getElem?_map, hcolumn, Option.map_some, hcell, Option.getD_some]
  cases operandsAt _ i <;> rfl

/-- Credit is given for cells that are accepted, to operands of the query. -/
theorem accepts_of_mem_hits {cells : List String} (hrow : t.rows[row]? = some cells) {hit : Hit}
    (hhit : hit ∈ (rowHighlights (.ofTable t) labels style row ops o columns).hits) {c : Nat}
    (hc : c ∈ hit.columns) :
    hit.operand.isEmpty = false ∧ hit.operand ∈ ops.map trim ∧ ∃ cell, cells[c]? = some cell ∧
      o.accepts (o.normalize cell) (o.normalize hit.operand) = true := by
  rw [rowHighlights_of_row hrow] at hhit
  obtain ⟨k, hk, rfl⟩ := List.mem_map.mp (List.mem_filter.mp hhit).1
  obtain ⟨hk, hne⟩ := List.mem_filter.mp hk
  obtain ⟨cell, hget, hacc⟩ := (Option.any_eq_true _ _).mp (List.mem_filter.mp hc).2
  rw [List.getElem?_map, Option.map_eq_some_iff] at hget
  obtain ⟨cell, hget, rfl⟩ := hget
  exact ⟨by simpa using hne, hk, cell, hget, hacc⟩

variable (t labels style row ops o)

/-- Naming no restriction asks for the same columns as naming them all. -/
theorem rowHighlights_restriction (g : Grid) (s : Selection) :
    rowHighlights g labels style row ops o s.restriction =
      rowHighlights g labels style row ops o (s.indexes g.columnCount) := by
  cases s with
  | only indexes => rfl
  | all =>
    have hcolumns : (if (Selection.all.indexes g.columnCount).isEmpty then g.allColumns
        else Selection.all.indexes g.columnCount) = g.allColumns := ite_self _
    unfold rowHighlights
    rw [hcolumns]
    rfl

/-- A hit is what the row matches in each column by itself, for the trimmed operands. -/
theorem hits_rowHighlights (h : columns ≠ []) :
    (rowHighlights (.ofTable t) labels style row ops o columns).hits =
      found (.ofTable t) row o columns (ops.map trim) := by
  have hempty : columns.isEmpty = false := by simpa using h
  have hrow := row?_ofTable t row o.caseSensitive
  cases hr : t.rows[row]? with
  | none =>
    rw [hr, Option.map_none] at hrow
    rw [rowHighlights_of_no_row hr, found_of_row?_eq_none hrow]
  | some cells =>
    rw [hr, Option.map_some, compared_cells] at hrow
    rw [rowHighlights_of_row hr, ← rowHits_eq_found hrow, hempty]
    rfl

theorem summary_rowHighlights :
    (rowHighlights (.ofTable t) labels style row ops o columns).summary =
      summarize labels (rowHighlights (.ofTable t) labels style row ops o columns).hits := by
  unfold rowHighlights
  split
  · rfl
  · simp [summarize]

theorem summarize_ne_empty {columns : List Column} {hits : List Hit} (h : hits ≠ []) :
    summarize columns hits ≠ "" := by
  obtain ⟨hit, rest, rfl⟩ := List.exists_cons_of_ne_nil h
  intro hempty
  have hchars := congrArg String.toList hempty
  simp [summarize, Hit.describe] at hchars

theorem length_highlights :
    (rowHighlights (.ofTable t) labels style row ops o columns).highlights.length =
      t.columnCount := by
  unfold rowHighlights
  split
  · simp [Grid.allColumns, Grid.ofTable]
  · simp [Grid.ofTable]

theorem mem_operandsAt {hits : List Hit} {column : Nat} {s : String} :
    s ∈ operandsAt hits column ↔ ∃ h ∈ hits, column ∈ h.columns ∧ h.operand = s := by
  simp only [operandsAt, List.mem_eraseDups, List.mem_map, List.mem_filter, List.contains_iff_mem,
    and_assoc]

theorem operandsAt_ne_nil {hits : List Hit} {column : Nat} :
    operandsAt hits column ≠ [] ↔ ∃ h ∈ hits, column ∈ h.columns := by
  constructor
  · intro hne
    obtain ⟨s, hs⟩ := List.exists_mem_of_ne_nil _ hne
    obtain ⟨h, hh, hc, -⟩ := mem_operandsAt.mp hs
    exact ⟨h, hh, hc⟩
  · rintro ⟨h, hh, hc⟩
    exact List.ne_nil_of_mem (mem_operandsAt.mpr ⟨h, hh, hc, rfl⟩)

variable {t labels style row ops o} in
/-- Where the row has no cell there is no column. -/
theorem getElem?_highlights_of_no_cell {cells : List String} (hrow : t.rows[row]? = some cells)
    {i : Nat} (hcell : cells[i]? = none) :
    (rowHighlights (.ofTable t) labels style row ops o columns).highlights[i]? = none := by
  rw [List.getElem?_eq_none_iff, length_highlights, ← Table.length_row hrow]
  exact List.getElem?_eq_none_iff.mp hcell

/-- The marked cells are those of the columns with a hit. -/
theorem marked_rowHighlights (i : Nat) :
    (∃ cell, (rowHighlights (.ofTable t) labels style row ops o columns).highlights[i]? =
        some (some cell)) ↔
      ∃ h ∈ (rowHighlights (.ofTable t) labels style row ops o columns).hits, i ∈ h.columns := by
  cases hr : t.rows[row]? with
  | none => simp [rowHighlights_of_no_row hr, List.getElem?_replicate]
  | some cells =>
    rw [← operandsAt_ne_nil]
    cases hcell : cells[i]? with
    | some cell =>
      rw [getElem?_highlights hr hcell]
      split <;> simp [*]
    | none =>
      -- there is no such column, so it has no hit either
      rw [getElem?_highlights_of_no_cell hr hcell, operandsAt_ne_nil]
      refine iff_of_false (by simp) ?_
      rintro ⟨hit, hhit, hi⟩
      obtain ⟨-, -, cell, hcell', -⟩ := accepts_of_mem_hits hr hhit hi
      cases hcell.symm.trans hcell'

/-- Nothing is marked outside of the columns that were asked for. -/
theorem getElem?_highlights_of_notMem (hne : columns ≠ []) {i : Nat} (hi : i < t.columnCount)
    (hnot : i ∉ columns) :
    (rowHighlights (.ofTable t) labels style row ops o columns).highlights[i]? = some none := by
  have hlt := hi
  rw [← length_highlights t labels style row ops o] at hlt
  rw [List.getElem?_eq_getElem hlt]
  cases hget : (rowHighlights (.ofTable t) labels style row ops o columns).highlights[i] with
  | none => rfl
  | some marked =>
    obtain ⟨hit, hhit, hmem⟩ := (marked_rowHighlights t labels style row ops o i).mp
      ⟨marked, List.getElem?_eq_some_iff.mpr ⟨hlt, hget⟩⟩
    rw [hits_rowHighlights t labels style row ops o hne] at hhit
    exact absurd (columns_subset_of_mem_found hhit hmem) hnot

end Row

/-! ### The operands of a query -/

/-- The credit that highlighting a row gives to the operands of a query. It goes to the trimmed
operand, for the columns in which the row matches that; the marks and the summary show nothing else.
Only an operand that trimming changes, matched as a whole cell, can lose a column by it. -/
theorem rowHighlights_credits (t : Table) (labels : List Column) (style : Style) (query : String)
    (row : Nat) (o : Options) (columns : List Nat) (hcolumns : columns ≠ []) :
    let g := Grid.ofTable t
    let ops := operands (tokenize query)
    let r := rowHighlights g labels style row ops o columns
    r.hits = found g row o columns (ops.map trim) ∧
      ((∀ k ∈ ops, trim k = k) → r.hits = found g row o columns ops) ∧
      (∀ k ∈ ops, trim k = k ∨ o.exactMatch = false →
        ∀ c ∈ columns, matchRow g row k o [c] = true →
          ∃ hit ∈ r.hits, hit.operand = trim k ∧ c ∈ hit.columns) ∧
      (∀ i, (∃ cell, r.highlights[i]? = some (some cell)) ↔ ∃ hit ∈ r.hits, i ∈ hit.columns) ∧
      r.summary = summarize labels r.hits := by
  intro g ops r
  have hhits : r.hits = found g row o columns (ops.map trim) :=
    hits_rowHighlights t labels style row ops o hcolumns
  refine ⟨hhits, ?_, ?_, marked_rowHighlights t labels style row ops o,
    summary_rowHighlights t labels style row ops o⟩
  · intro htrim
    rw [hhits, List.map_congr_left htrim, List.map_id']
  -- no column is lost, except where trimming changes what a whole cell is compared with
  · intro k hk hwhole c hc hmatch
    rw [hhits]
    refine exists_mem_found (List.mem_map_of_mem hk) hc ?_
    rcases hwhole with htrim | hpart
    · rwa [htrim]
    · exact matchRow_trim hpart (blank_of_mem_operands hk) hmatch

theorem rowHighlights_credits_padded :
    let t := Table.ofRows [.single "A", .single "B"] [["a bob", "bob"]]
    let r := rowHighlights (.ofTable t) t.columns .page 0 (operands (tokenize "\" bob\"")) {} [1, 0]
    [1, 0] ≠ [] ∧ r.hits = [⟨"bob", [1, 0]⟩] ∧ r.summary = "bob (B, A)" := by
  intro t r
  have hne : [1, 0] ≠ [] := by decide
  have hread : tokenize "\" bob\"" = [.operand " bob"] := tokenize_quoted (by decide) rfl
  obtain ⟨hcredit, -, -, -, hsummary⟩ :=
    rowHighlights_credits t t.columns .page "\" bob\"" 0 {} [1, 0] hne
  have hhits : r.hits = [⟨"bob", [1, 0]⟩] := by
    refine hcredit.trans ?_
    rw [hread]
    decide
  refine ⟨hne, hhits, hsummary.trans ?_⟩
  rw [show RowHighlights.hits _ = _ from hhits]
  decide

/-- A quoted operand that begins with a blank is found by highlighting in a cell without the blank,
where evaluating finds nothing. -/
theorem credited_where_absent :
    ¬ ∀ (t : Table) (labels : List Column) (style : Style) (query : String) (row : Nat)
        (o : Options) (columns : List Nat), columns ≠ [] → columns.Nodup → (∀ c ∈ columns, c < t.columnCount) →
      (rowHighlights (.ofTable t) labels style row (operands (tokenize query)) o columns).hits =
        found (.ofTable t) row o columns (operands (tokenize query)) := by
  intro h
  have heq := h (.ofRows [.single "A"] [["bob"]]) [] .page "\" bob\"" 0 {} [0] (by decide)
    (by decide) (by decide)
  rw [tokenize_quoted (s := " bob") (by decide) rfl] at heq
  exact absurd heq (by decide)

end CellQuery
