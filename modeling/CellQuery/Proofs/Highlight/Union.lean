import CellQuery.Proofs.Highlight.Credit
import CellQuery.Proofs.Highlight.Runs

/-!
# What several operands mark

Several operands cover in a cell what each of them covers by itself (`covers_findSpans`), and
merging keeps nothing of their spans but the positions covered. So a marked cell is a matter of the
set of its operands (`highlightCell_congr`).

For a row this gives two results. Its summary, its marked cells and its hits tell of the same
operands in the same columns (`rowHighlights_agree`): what is compared is the normalized cell and
what is marked is the cell itself, but a hit always has something to mark. And it does not show in
the marked cells in which order operands and columns were gone through, or how often
(`highlights_of_sets`).
-/

namespace CellQuery

open Text

/-! ### Operands one by one -/

section Cell

variable {text : String} {tokens tokens' : List String} {o : Options} {style : Style} {p : Nat}

theorem covers_findSpans : Span.Covers (findSpans text tokens o) p ↔
    ∃ k ∈ tokens, Span.Covers (findSpans text [k] o) p := by
  simp only [Span.Covers, findSpans, List.flatMap_singleton, List.mem_flatMap]
  constructor
  · rintro ⟨s, ⟨k, hk, hs⟩, hp⟩
    exact ⟨k, hk, s, hs, hp⟩
  · rintro ⟨k, hk, s, hs, hp⟩
    exact ⟨s, ⟨k, hk, hs⟩, hp⟩

theorem findSpans_empty (text : String) (o : Options) : findSpans text [""] o = [] := by
  simp [findSpans, findNeedle, Options.normalizeChars]

/-- Two lists of the same texts, whatever their order and repetitions. Empty texts do not count. -/
def SameTexts (ks ks' : List String) : Prop :=
  ∀ k, k ≠ "" → (k ∈ ks ↔ k ∈ ks')

theorem SameTexts.symm (h : SameTexts tokens tokens') : SameTexts tokens' tokens :=
  fun k hk => (h k hk).symm

theorem SameTexts.covers (h : SameTexts tokens tokens')
    (hp : Span.Covers (findSpans text tokens o) p) :
    Span.Covers (findSpans text tokens' o) p := by
  obtain ⟨k, hk, hcovers⟩ := covers_findSpans.mp hp
  -- nothing is found for the empty text, so leaving it out does not matter
  have hne : k ≠ "" := by
    rintro rfl
    rw [findSpans_empty] at hcovers
    exact Span.not_covers_nil hcovers
  exact covers_findSpans.mpr ⟨k, (h k hne).mp hk, hcovers⟩

theorem highlightCell_congr (h : SameTexts tokens tokens') (text : String) (o : Options)
    (style : Style) : highlightCell text tokens o style = highlightCell text tokens' o style := by
  rw [highlightCell_eq_renderMarked, highlightCell_eq_renderMarked,
    Span.merge_congr fun p => ⟨h.covers, h.symm.covers⟩]

end Cell

/-! ### Marks as positions -/

/-- `marked` is `cell` with a mark around each run of positions inside, and there is such a run. -/
def MarkedAt (style : Style) (inside : Nat → Prop) (cell marked : String) : Prop :=
  ∃ runs, MaximalRuns inside cell.toList runs ∧
    marked = .ofList (runs.flatMap (Run.render style)) ∧ ∃ r ∈ runs, r.marked = true

section Marked

variable {cell : String} {tokens : List String} {o : Options}

theorem markedAt_highlightCell (style : Style) {inside : Nat → Prop}
    (hfound : findSpans cell tokens o ≠ [])
    (hinside : ∀ p, Span.Covers (findSpans cell tokens o) p ↔ inside p) :
    MarkedAt style inside cell (highlightCell cell tokens o style) := by
  have hfits := fits_merge_findSpans cell tokens o
  refine ⟨(divide cell.toList (Span.merge (findSpans cell tokens o))).runs, ⟨?_, ?_⟩, ?_, ?_⟩
  · exact (chars_runs _).trans (text_divide _ _)
  · exact (runs_divideFrom hfits).congr fun p _ => (Span.covers_merge _ p).trans (hinside p)
  · rw [highlightCell_eq_renderMarked, render_runs]
    rfl
  · obtain ⟨mark, hmark⟩ := List.exists_mem_of_ne_nil _
      ((marks_divide_merge cell tokens o).1.mpr hfound)
    have hchars := List.mem_map_of_mem (f := (·.2)) hmark
    rw [← map_chars_filter_runs] at hchars
    obtain ⟨r, hr, -⟩ := List.mem_map.mp hchars
    exact ⟨r, (List.mem_filter.mp hr).1, (List.mem_filter.mp hr).2⟩

end Marked

/-! ### The outputs of a row -/

section Row

variable {t : Table} {labels : List Column} {style : Style} {row : Nat} {ops : List String}
  {o : Options} {requested : List Nat}

theorem of_mem_rowHits {cells : List String} {columns : List Nat} {hit : Hit}
    (h : hit ∈ rowHits o cells columns ops) : hit.columns ≠ [] ∧ hit.columns ⊆ columns := by
  obtain ⟨hmem, hne⟩ := List.mem_filter.mp h
  obtain ⟨k, -, rfl⟩ := List.mem_map.mp hmem
  exact ⟨by simpa using hne, List.filter_subset_self columns⟩

/-- A hit says that a row is there. -/
theorem exists_row_of_mem_hits {hit : Hit}
    (h : hit ∈ (rowHighlights (.ofTable t) labels style row ops o requested).hits) :
    ∃ cells, t.rows[row]? = some cells := by
  cases hrow : t.rows[row]? with
  | some cells => exact ⟨cells, rfl⟩
  | none =>
    rw [rowHighlights_of_no_row hrow] at h
    cases h

theorem columns_of_mem_hits {hit : Hit}
    (h : hit ∈ (rowHighlights (.ofTable t) labels style row ops o requested).hits) :
    hit.columns ≠ [] ∧ ∀ c ∈ hit.columns, c < t.columnCount ∧ (requested = [] ∨ c ∈ requested) := by
  obtain ⟨cells, hrow⟩ := exists_row_of_mem_hits h
  have hmem := h
  rw [rowHighlights_of_row hrow] at hmem
  obtain ⟨hne, hsub⟩ := of_mem_rowHits hmem
  refine ⟨hne, fun c hc => ⟨?_, ?_⟩⟩
  · obtain ⟨-, -, cell, hcell, -⟩ := accepts_of_mem_hits hrow h hc
    rw [← Table.length_row hrow]
    exact (List.getElem?_eq_some_iff.mp hcell).1
  · cases requested with
    | nil => exact .inl rfl
    | cons i rest => exact .inr (hsub hc)

/-- A hit is for a cell that is marked, and in which something is found. -/
theorem exists_marked_of_mem_hits {cells : List String} (hrow : t.rows[row]? = some cells) :
    let r := rowHighlights (.ofTable t) labels style row ops o requested
    ∀ hit ∈ r.hits, ∀ c ∈ hit.columns, ∃ cell, cells[c]? = some cell ∧
      r.highlights[c]? = some (some (highlightCell cell (operandsAt r.hits c) o style)) ∧
      findSpans cell (operandsAt r.hits c) o ≠ [] := by
  intro r hit hhit c hc
  obtain ⟨hne, -, cell, hcell, hacc⟩ := accepts_of_mem_hits hrow hhit hc
  have hmem : hit.operand ∈ operandsAt r.hits c := mem_operandsAt.mpr ⟨hit, hhit, hc, rfl⟩
  have hget : r.highlights[c]? = _ := getElem?_highlights hrow hcell
  rw [if_neg (List.ne_nil_of_mem hmem)] at hget
  exact ⟨cell, hcell, hget, findSpans_ne_nil.mpr ⟨hit.operand, hmem, hne, hacc⟩⟩

/-- A marked cell shows what its hits find in it, and that is something. -/
theorem markedAt_of_rowHighlights {i : Nat} {marked : String} :
    let r := rowHighlights (.ofTable t) labels style row ops o requested
    r.highlights[i]? = some (some marked) →
      ∃ cells cell, t.rows[row]? = some cells ∧ cells[i]? = some cell ∧
        MarkedAt style (fun p => ∃ hit ∈ r.hits, i ∈ hit.columns ∧
          Span.Covers (findSpans cell [hit.operand] o) p) cell marked := by
  intro r hmarked
  obtain ⟨hit, hhit, hi⟩ := (marked_rowHighlights t labels style row ops o i).mp ⟨marked, hmarked⟩
  obtain ⟨cells, hrow⟩ := exists_row_of_mem_hits hhit
  obtain ⟨cell, hcell, hget, hfound⟩ := exists_marked_of_mem_hits hrow hit hhit i hi
  obtain rfl := Option.some.inj (Option.some.inj (hget.symm.trans hmarked))
  refine ⟨cells, cell, hrow, hcell, markedAt_highlightCell style hfound fun p => ?_⟩
  rw [covers_findSpans]
  constructor
  · rintro ⟨k, hk, hcovers⟩
    obtain ⟨hit', hhit', hi', rfl⟩ := mem_operandsAt.mp hk
    exact ⟨hit', hhit', hi', hcovers⟩
  · rintro ⟨hit', hhit', hi', hcovers⟩
    exact ⟨hit'.operand, mem_operandsAt.mpr ⟨hit', hhit', hi', rfl⟩, hcovers⟩

end Row

/-- **The outputs of a row agree.** There is an entry for each column, with a marked cell exactly
where a hit lists the column. It has at least one mark, and its marks are around the positions at
which an operand of the hits that list the column is found, and around no others. The hits list
columns that exist and were asked for, at least one each, and the summary has a part for each hit,
in order, with the labels of its columns. -/
theorem rowHighlights_agree (t : Table) (labels : List Column) (style : Style) (row : Nat)
    (ops : List String) (o : Options) (requested : List Nat) :
    let g := Grid.ofTable t
    let r := rowHighlights g labels style row ops o requested
    r.highlights.length = g.columnCount ∧
    (∀ i, (∃ marked, r.highlights[i]? = some (some marked)) ↔ ∃ hit ∈ r.hits, i ∈ hit.columns) ∧
    (∀ i marked, r.highlights[i]? = some (some marked) →
      ∃ cells cell, g.verbatim[row]? = some cells ∧ cells[i]? = some cell ∧
        MarkedAt style (fun p => ∃ hit ∈ r.hits, i ∈ hit.columns ∧
          Span.Covers (findSpans cell [hit.operand] o) p) cell marked) ∧
    (∀ hit ∈ r.hits, hit.columns ≠ [] ∧
      ∀ c ∈ hit.columns, c < g.columnCount ∧ (requested = [] ∨ c ∈ requested)) ∧
    r.summary = String.intercalate "; " (r.hits.map fun hit => hit.operand ++ " (" ++
      String.intercalate ", " (hit.columns.map (labelAt labels)) ++ ")") := by
  intro g r
  refine ⟨length_highlights t labels style row ops o, marked_rowHighlights t labels style row ops o,
    fun i marked => markedAt_of_rowHighlights, fun hit => columns_of_mem_hits, ?_⟩
  exact summary_rowHighlights t labels style row ops o

/-! ### Order and repetition -/

section Order

variable {o : Options} {cells : List String} {columns columns' : List Nat} {ops ops' : List String}

theorem mem_operandsAt_rowHits {i : Nat} {k : String} :
    k ∈ operandsAt (rowHits o cells columns ops) i ↔ k ≠ "" ∧ k ∈ ops.map trim ∧ i ∈ columns ∧
      cells[i]?.any (o.accepts · (o.normalize k)) = true := by
  rw [mem_operandsAt]
  constructor
  · rintro ⟨hit, hhit, hi, rfl⟩
    obtain ⟨k, hk, rfl⟩ := List.mem_map.mp (List.mem_filter.mp hhit).1
    obtain ⟨hk, hne⟩ := List.mem_filter.mp hk
    obtain ⟨hi, hacc⟩ := List.mem_filter.mp hi
    exact ⟨by simpa using hne, hk, hi, hacc⟩
  · rintro ⟨hne, hk, hi, hacc⟩
    have hfound : i ∈ hitColumns o cells columns k := List.mem_filter.mpr ⟨hi, hacc⟩
    have hsought : k ∈ (ops.map trim).filter (!·.isEmpty) :=
      List.mem_filter.mpr ⟨hk, by simpa using hne⟩
    refine ⟨⟨k, _⟩, List.mem_filter.mpr ⟨List.mem_map.mpr ⟨k, hsought, rfl⟩, ?_⟩, hfound, rfl⟩
    simpa using List.ne_nil_of_mem hfound

/-- Where the operands and the columns are the same, so is what is looked up in a column. -/
theorem mem_operandsAt_congr (hops : SameTexts (ops.map trim) (ops'.map trim))
    (hcolumns : ∀ c, c ∈ columns ↔ c ∈ columns') (i : Nat) (k : String) :
    k ∈ operandsAt (rowHits o cells columns ops) i ↔
      k ∈ operandsAt (rowHits o cells columns' ops') i := by
  rw [mem_operandsAt_rowHits, mem_operandsAt_rowHits, hcolumns]
  exact and_congr_right fun hk => by rw [hops k hk]

theorem marked_congr {found found' : List String} (h : ∀ k, k ∈ found ↔ k ∈ found') (cell : String)
    (o : Options) (style : Style) :
    (if found = [] then none else some (highlightCell cell found o style)) =
      if found' = [] then none else some (highlightCell cell found' o style) := by
  have hnil : found = [] ↔ found' = [] := by
    simp only [List.eq_nil_iff_forall_not_mem, h]
  exact if_congr hnil rfl (congrArg some (highlightCell_congr (fun k _ => h k) cell o style))

theorem highlights_congr {t : Table} {row : Nat} (labels labels' : List Column) (style : Style)
    (hops : SameTexts (ops.map trim) (ops'.map trim)) (hne : columns ≠ []) (hne' : columns' ≠ [])
    (hcolumns : ∀ c, c ∈ columns ↔ c ∈ columns') :
    (rowHighlights (.ofTable t) labels style row ops o columns).highlights =
      (rowHighlights (.ofTable t) labels' style row ops' o columns').highlights := by
  -- cell by cell, since hits may stand in another order
  cases hrow : t.rows[row]? with
  | none => rw [rowHighlights_of_no_row hrow, rowHighlights_of_no_row hrow]
  | some cells =>
    refine List.ext_getElem? fun i => ?_
    cases hcell : cells[i]? with
    | none =>
      rw [getElem?_highlights_of_no_cell hrow hcell, getElem?_highlights_of_no_cell hrow hcell]
    | some cell =>
      have hempty : columns.isEmpty = false := by simpa using hne
      have hempty' : columns'.isEmpty = false := by simpa using hne'
      rw [getElem?_highlights hrow hcell, getElem?_highlights hrow hcell, rowHighlights_of_row hrow,
        rowHighlights_of_row hrow, hempty, hempty']
      exact congrArg some (marked_congr (mem_operandsAt_congr hops hcolumns i) cell o style)

end Order

/-- **Marks are a matter of sets.** The marked cells of a row depend on which operands there are,
once trimmed and blank ones apart, and on which columns are asked for, if any are. A marked cell
depends on which operands there are, empty ones apart. Order and repetition do not show. -/
theorem highlights_of_sets (t : Table) (row : Nat) (o : Options) (style : Style) :
    (∀ labels labels' ops ops' columns columns', SameTexts (ops.map trim) (ops'.map trim) →
      columns ≠ [] → columns' ≠ [] → (∀ c, c ∈ columns ↔ c ∈ columns') →
      (rowHighlights (.ofTable t) labels style row ops o columns).highlights =
        (rowHighlights (.ofTable t) labels' style row ops' o columns').highlights) ∧
    ∀ text tokens tokens', SameTexts tokens tokens' →
      highlightCell text tokens o style = highlightCell text tokens' o style := by
  constructor
  · intro labels labels' ops ops' columns columns' hops hne hne' hcolumns
    exact highlights_congr labels labels' style hops hne hne' hcolumns
  · intro text tokens tokens' h
    exact highlightCell_congr h text o style

/-- They show in the summary. -/
example :
    let g := Grid.ofTable (.ofRows [.single "A"] [["Banana"]])
    let r := rowHighlights g [] .page 0 ["an", "NA"] {} [0]
    let r' := rowHighlights g [] .page 0 [" NA", "", "an"] {} [0, 0]
    r.highlights = [some "B<mark>anana</mark>"] ∧ r'.highlights = r.highlights ∧
      r.summary = "an (Column 1); NA (Column 1)" ∧
      r'.summary = "NA (Column 1, Column 1); an (Column 1, Column 1)" := by
  cbv

end CellQuery
