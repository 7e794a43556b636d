import CellQuery.Proofs.Highlight.Credit
import CellQuery.Proofs.Highlight.Runs
import CellQuery.Proofs.Search.Meaning
import CellQuery.Proofs.Session.Afresh
import CellQuery.Session.Report

/-!
# The rows of an outcome

The cells of a result come from the table, its marks from the grid, the headers from the columns,
and the last cell of all three from a switch of the session. They line up (`ResultRow.LinesUp`) in
every session, as the grid is that of the table and a row of the table has a cell for each column.

An outcome has a row for each index that the query finds, and no other (`Session.Lists`).
-/

namespace CellQuery

open Text

/-! ### The marks of a row -/

/-- `marked` is `cell`, divided at what is found in it of some of the operands. Without delimiters
the same division is the cell as the style writes it. -/
def MarkedFor (o : Options) (style : Style) (ops : List String) (cell marked : String) : Prop :=
  ∃ found : List String, found ≠ [] ∧ (∀ k ∈ found, k ∈ ops.map trim) ∧
    let d := divide cell.toList (Span.merge (findSpans cell found o))
    marked = String.ofList (d.render style) ∧
      String.ofList (d.render { style with opening := "", closing := "" }) = style.write cell

theorem markedFor_highlightCell {o : Options} {style : Style} {ops found : List String}
    (hne : found ≠ []) (hfound : ∀ k ∈ found, k ∈ ops.map trim) (cell : String) :
    MarkedFor o style ops cell (highlightCell cell found o style) := by
  refine ⟨found, hne, hfound, highlightCell_eq_renderMarked cell found o style, ?_⟩
  rw [render_undelimited, text_divide]
  rfl

section Marks

variable {t : Table} {labels : List Column} {style : Style} {row : Nat} {ops : List String}
  {o : Options} {columns : List Nat}

/-- What is marked is the cell of the row in the same place. -/
theorem markedFor_of_rowHighlights {cells : List String} (hrow : t.rows[row]? = some cells) {i : Nat}
    {cell marked : String} (hcell : cells[i]? = some cell)
    (h : (rowHighlights (.ofTable t) labels style row ops o columns).highlights[i]? =
      some (some marked)) : MarkedFor o style ops cell marked := by
  rw [getElem?_highlights hrow hcell, Option.some.injEq] at h
  split at h
  · cases h
  · next hne =>
    obtain rfl := Option.some.inj h
    refine markedFor_highlightCell hne (fun k hk => ?_) cell
    obtain ⟨hit, hhit, hi, rfl⟩ := mem_operandsAt.mp hk
    exact (accepts_of_mem_hits hrow hhit hi).2.1

end Marks

/-- The highlights of a row, as the session asks for them. -/
def Session.highlightsAt (s : Session) (ops : List String) (index : Nat) : RowHighlights :=
  rowHighlights (.ofTable s.table) s.table.columns s.style index ops s.options
    (s.selection.indexes s.table.columnCount)

/-! ### One row -/

/-- A result is in line with the headers of the session. Its first cells are those of its row, and a
last cell for the summary has no marks. Every marked cell is the cell in the same place with marks,
and writing the cells with their marks leaves none out. -/
structure ResultRow.LinesUp (s : Session) (ops : List String) (r : ResultRow) : Prop where
  index : r.index < s.table.size
  cells : r.cells.length = s.headers.length
  highlights : r.highlights.length = s.headers.length
  row : s.table.rows[r.index]? = some (r.cells.take s.table.columnCount)
  summary : s.matchesColumn = true →
    r.cells.getLast? = some r.summary ∧ r.highlights.getLast? = some none
  marks : ∀ (i : Nat) cell marked, r.cells[i]? = some cell → r.highlights[i]? = some (some marked) →
    MarkedFor s.options s.style ops cell marked
  written : ∀ style, (List.zipWith (writeCell style) r.cells r.highlights).length = s.headers.length

namespace Session

variable {s : Session} {ops : List String} {index : Nat} {r : ResultRow}

theorem length_headers (s : Session) :
    s.headers.length = s.table.columnCount + if s.matchesColumn then 1 else 0 := by
  unfold headers
  split <;> simp [Table.labels, Table.columnCount]

/-- The result for a row of the table, if there is anything to look for in it. -/
theorem Sound.result?_eq (hs : s.Sound) (hops : ops ≠ []) {cells : List String}
    (hrow : s.table.rows[index]? = some cells) :
    s.result? ops index = some (s.resultRow index cells (s.highlightsAt ops index).highlights
      (s.highlightsAt ops index).summary) := by
  have hempty : ops.isEmpty = false := by simpa using hops
  rw [result?, hrow, Option.map_some, hempty, if_neg Bool.false_ne_true,
    rowHighlights_restriction, hs.grid]
  rfl

theorem result?_of_no_operands {cells : List String}
    (hrow : s.table.rows[index]? = some cells) :
    s.result? [] index = some (s.resultRow index cells (List.replicate cells.length none) "") := by
  rw [result?, hrow]
  rfl

/-- A cell for the summary leaves the cells of the table where they are. -/
theorem getElem?_resultRow {cells : List String} {highlights : List (Option String)} {c : Nat}
    (hc : c < cells.length) (hc' : c < highlights.length) (index : Nat) (summary : String) :
    (s.resultRow index cells highlights summary).cells[c]? = cells[c]? ∧
      (s.resultRow index cells highlights summary).highlights[c]? = highlights[c]? ∧
      (s.resultRow index cells highlights summary).summary = summary := by
  unfold resultRow
  split
  · exact ⟨List.getElem?_append_left hc, List.getElem?_append_left hc', rfl⟩
  · exact ⟨rfl, rfl, rfl⟩

/-- A row with its marks is in line, with a cell for the summary or without. -/
theorem linesUp_resultRow {cells : List String} {highlights : List (Option String)}
    (hrow : s.table.rows[index]? = some cells) (hlen : highlights.length = s.table.columnCount)
    (hmarks : ∀ (i : Nat) cell marked, cells[i]? = some cell → highlights[i]? = some (some marked) →
      MarkedFor s.options s.style ops cell marked)
    (summary : String) : (s.resultRow index cells highlights summary).LinesUp s ops := by
  have hindex : index < s.table.size := (List.getElem?_eq_some_iff.mp hrow).1
  have hcells : cells.length = s.table.columnCount := Table.length_row hrow
  have hheaders := s.length_headers
  cases hm : s.matchesColumn with
  | false =>
    rw [hm, if_neg Bool.false_ne_true, Nat.add_zero] at hheaders
    have hresult : s.resultRow index cells highlights summary =
        ⟨index, cells, highlights, summary⟩ := by rw [resultRow, hm, if_neg Bool.false_ne_true]
    rw [hresult]
    refine ⟨hindex, hcells.trans hheaders.symm, hlen.trans hheaders.symm, ?_, ?_, hmarks, ?_⟩
    · rw [← hcells, List.take_length]
      exact hrow
    · rw [hm]
      nofun
    · intro style
      rw [List.length_zipWith, hcells, hlen, hheaders, Nat.min_self]
  | true =>
    rw [hm, if_pos rfl] at hheaders
    have hresult : s.resultRow index cells highlights summary =
        ⟨index, cells ++ [summary], highlights ++ [none], summary⟩ := by
      rw [resultRow, hm, if_pos rfl]
    have hlong : (cells ++ [summary]).length = s.headers.length := by
      rw [List.length_append, hcells, hheaders, List.length_singleton]
    have hlong' : (highlights ++ [none]).length = s.headers.length := by
      rw [List.length_append, hlen, hheaders, List.length_singleton]
    rw [hresult]
    -- the summary stands behind the cells of the row, so these keep their places
    refine ⟨hindex, hlong, hlong', ?_, fun _ => ?_, fun i cell marked hcell hmark => ?_, ?_⟩
    · rw [← hcells, List.take_left]
      exact hrow
    · exact ⟨List.getLast?_concat, List.getLast?_concat⟩
    · rcases Nat.lt_or_ge i highlights.length with hi | hi
      · rw [List.getElem?_append_left hi] at hmark
        rw [List.getElem?_append_left (by omega)] at hcell
        exact hmarks i cell marked hcell hmark
      · -- the cell for the summary has no marks
        rw [List.getElem?_append_right hi] at hmark
        have hnone := List.mem_singleton.mp (List.mem_of_getElem? hmark)
        cases hnone
    · intro style
      rw [List.length_zipWith, hlong, hlong', Nat.min_self]

/-- The result for a row is in line, whether the query has operands or not. -/
theorem Sound.result?_linesUp (hs : s.Sound) (h : s.result? ops index = some r) :
    r.index = index ∧ r.LinesUp s ops := by
  obtain ⟨cells, hrow, hresult⟩ := Option.map_eq_some_iff.mp h
  have hindex : ∀ highlights summary,
      (s.resultRow index cells highlights summary).index = index := by
    intro highlights summary
    unfold resultRow
    split <;> rfl
  split at hresult
  · rw [← hresult]
    refine ⟨hindex _ _, linesUp_resultRow hrow ?_ (fun i cell marked hcell hmark => ?_) ""⟩
    · rw [List.length_replicate, Table.length_row hrow]
    · cases (List.mem_replicate.mp (List.mem_of_getElem? hmark)).2
  · rw [← hresult]
    refine ⟨hindex _ _, linesUp_resultRow hrow ?_ (fun i cell marked hcell hmark => ?_) _⟩
    · rw [hs.grid]
      exact length_highlights _ _ _ _ _ _
    · rw [hs.grid] at hmark
      exact markedFor_of_rowHighlights hrow hcell hmark

/-! ### All rows -/

/-- The results for these indexes, one for each of them and in the same order, all in line with the
headers. -/
structure Lists (s : Session) (ops : List String) (indexes : List Nat) (rows : List ResultRow) :
    Prop where
  inOrder : rows.map ResultRow.index = indexes
  complete : rows.map some = indexes.map (s.result? ops)
  linesUp : ∀ r ∈ rows, r.LinesUp s ops

/-- Every row that is looked for has a result. -/
theorem Sound.lists_filterMap (hs : s.Sound) {indexes : List Nat}
    (hlt : ∀ i ∈ indexes, i < s.table.size) (ops : List String) :
    s.Lists ops indexes (indexes.filterMap (s.result? ops)) := by
  induction indexes with
  | nil => exact ⟨rfl, rfl, nofun⟩
  | cons i rest ih =>
    obtain ⟨hindexes, hresults, hlines⟩ := ih fun j hj => hlt j (List.mem_cons_of_mem i hj)
    have hi : i < s.table.rows.length := hlt i List.mem_cons_self
    -- the row exists, so no result is left out and the lists run in step
    obtain ⟨r, hr⟩ : ∃ r, s.result? ops i = some r := by
      rw [result?, List.getElem?_eq_getElem hi, Option.map_some]
      exact ⟨_, rfl⟩
    obtain ⟨hindex, hline⟩ := hs.result?_linesUp hr
    rw [List.filterMap_cons_some hr]
    refine ⟨?_, ?_, List.forall_mem_cons.mpr ⟨hline, hlines⟩⟩
    · rw [List.map_cons, hindexes, hindex]
    · rw [List.map_cons, List.map_cons, hresults, hr]

/-- The rows that a query finds are rows of the table, in its order. -/
theorem Sound.indexes_spec (hs : s.Sound) {tokens : List Token} {indexes : List Nat}
    (h : evaluate s.grid tokens s.options s.selection = .ok indexes) :
    indexes.Pairwise (· < ·) ∧ ∀ i ∈ indexes, i < s.table.size := by
  rw [hs.grid, evaluate_eq] at h
  split at h
  · obtain rfl := Except.ok.inj h
    exact ⟨List.pairwise_lt_range, fun i hi => List.mem_range.mp hi⟩
  · cases htree : treeOf tokens with
    | error e =>
      rw [htree] at h
      cases h
    | ok e =>
      rw [htree] at h
      obtain rfl := Except.ok.inj h
      exact ⟨pairwise_trueRows _ _ _ e, fun i hi => (mem_trueRows.mp hi).1⟩

variable {query : String}

theorem answer_of_ok {indexes : List Nat}
    (h : evaluate s.grid (tokenize (trim query)) s.options s.selection = .ok indexes) :
    s.answer query =
      .ok ⟨some (indexes.filterMap (s.result? (operands (tokenize (trim query))))),
        operands (tokenize (trim query))⟩ := by
  simp only [answer, h]
  rfl

theorem answer_of_error {e : QueryError}
    (h : evaluate s.grid (tokenize (trim query)) s.options s.selection = .error e) :
    s.answer query = .error e := by
  simp only [answer, h]
  rfl

/-- An answer has the rows that the query finds, and its operands. -/
theorem exists_indexes_of_answer {outcome : Outcome} (h : s.answer query = .ok outcome) :
    ∃ indexes, evaluate s.grid (tokenize (trim query)) s.options s.selection = .ok indexes ∧
      outcome = ⟨some (indexes.filterMap (s.result? (operands (tokenize (trim query))))),
        operands (tokenize (trim query))⟩ := by
  cases heval : evaluate s.grid (tokenize (trim query)) s.options s.selection with
  | error e =>
    rw [answer_of_error heval] at h
    cases h
  | ok indexes =>
    rw [answer_of_ok heval] at h
    exact ⟨indexes, rfl, (Except.ok.inj h).symm⟩

/-- The rows of an answer are in line and in the order of the table. -/
theorem Sound.linesUp_of_answer (hs : s.Sound) {outcome : Outcome} {rows : List ResultRow}
    (h : s.answer query = .ok outcome) (hrows : outcome.rows = some rows) :
    (rows.map ResultRow.index).Pairwise (· < ·) ∧
      ∀ r ∈ rows, r.LinesUp s (operands (tokenize (trim query))) := by
  obtain ⟨indexes, heval, rfl⟩ := exists_indexes_of_answer h
  obtain rfl := Option.some.inj hrows
  obtain ⟨hpairwise, hlt⟩ := hs.indexes_spec heval
  have hlists := hs.lists_filterMap hlt (operands (tokenize (trim query)))
  refine ⟨?_, hlists.linesUp⟩
  rwa [hlists.inOrder]

/-- An outcome with rows is the answer of the session. -/
theorem answer_of_searchWith {ticket : Ticket} {outcome : Outcome} {rows : List ResultRow}
    (h : s.searchWith query ticket = .ok outcome) (hrows : outcome.rows = some rows) :
    s.answer query = .ok outcome := by
  cases hstale : ticket.isStale s.generation with
  | false => rwa [← searchWith_of_live hstale]
  | true =>
    rw [searchWith_of_stale hstale] at h
    cases hanswer : s.answer query with
    | error e =>
      rw [hanswer] at h
      cases h
    | ok o =>
      rw [hanswer] at h
      obtain rfl := Except.ok.inj h
      cases hrows

/-- So it is, whether the search has a ticket or a generation of its own. -/
theorem answer_of_searched {ticket : Ticket} {outcome : Outcome} {rows : List ResultRow}
    (h : s.searchWith query ticket = .ok outcome ∨ (s.search query).1 = .ok outcome)
    (hrows : outcome.rows = some rows) : s.answer query = .ok outcome := by
  rcases h with h | h
  · exact answer_of_searchWith h hrows
  · rwa [← search_eq_answer]

end Session

/-- **Rows in line with the headers.** If in any session a search, with a ticket or in a generation
of its own, has an outcome with rows, then these are rows of the table in its order, each at most
once, and every one of them is in line with the headers. -/
theorem results_lineUp {start : Session} (hstart : start.Begins) (actions : List Sitting.Action)
    (query : String) (ticket : Ticket) :
    let s := ((Sitting.ofSession start).run actions).session
    ∀ outcome rows, s.searchWith query ticket = .ok outcome ∨ (s.search query).1 = .ok outcome →
      outcome.rows = some rows →
        (rows.map ResultRow.index).Pairwise (· < ·) ∧
          ∀ r ∈ rows, r.LinesUp s (operands (tokenize (trim query))) := by
  intro s outcome rows hsearch hrows
  have hs : s.Sound := Session.Sound.run hstart actions
  exact hs.linesUp_of_answer (Session.answer_of_searched hsearch hrows) hrows

/-- A comparison replaced by a table of its own that keeps the cell for the summary. -/
theorem results_lineUp_replaced :
    let t := Table.ofRows [.single "A", .single "B"] [["ab", "x"], ["c", "d"], ["B", "b"]]
    let start := Session.ofComparison t t
    let actions := [Sitting.Action.replace t true, .setStyle .terminal, .begin]
    let s := ((Sitting.ofSession start).run actions).session
    let rows := [
      ResultRow.mk 0 ["ab", "x", "b (A)"] [some "a\x1b[1;33mb\x1b[0m", none, none] "b (A)",
      ⟨2, ["B", "b", "b (A, B)"], [some "\x1b[1;33mB\x1b[0m", some "\x1b[1;33mb\x1b[0m", none],
        "b (A, B)"⟩]
    start.Begins ∧ s.searchWith "b" ⟨1, true⟩ = .ok ⟨some rows, ["b"]⟩ ∧
      ∀ r ∈ rows, r.LinesUp s ["b"] := by
  intro t start actions s rows
  have hbegins : start.Begins := .comparison t t
  have hsearch : s.searchWith "b" ⟨1, true⟩ = .ok ⟨some rows, ["b"]⟩ := by decide +kernel
  have hoperands : operands (tokenize (trim "b")) = ["b"] := by decide +kernel
  obtain ⟨-, hrows⟩ :=
    results_lineUp hbegins actions "b" ⟨1, true⟩ ⟨some rows, ["b"]⟩ rows (.inl hsearch) rfl
  rw [hoperands] at hrows
  exact ⟨hbegins, hsearch, hrows⟩

end CellQuery
