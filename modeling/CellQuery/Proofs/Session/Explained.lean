import CellQuery.Proofs.Highlight.Union
import CellQuery.Proofs.Search.Relaxation
import CellQuery.Proofs.Session.Result

/-!
# Why a row was found

A query without `NOT` is true of a row only if one of its operands matches the row. Highlighting
looks for the trimmed operands by itself, in the same columns, and finds that one again
(`exists_mem_found`), in a cell in which it then has something to mark
(`visiblyMarked_of_mem_hits`). So the result for the row shows why the row was found
(`ResultRow.Explained`). The blanks around an operand can get in the way only where whole cells are
compared.
-/

namespace CellQuery

open Text

/-! ### Marks that can be seen -/

/-- `marked` is `cell`, divided at what is found in it of some of the operands, with at least one
mark and none of them empty. -/
def VisiblyMarked (o : Options) (style : Style) (ops : List String) (cell marked : String) : Prop :=
  ∃ found : List String, (∀ k ∈ found, k ∈ ops.map trim) ∧
    let d := divide cell.toList (Span.merge (findSpans cell found o))
    marked = .ofList (d.render style) ∧ d.text = cell.toList ∧ d.marks ≠ [] ∧
      ∀ mark ∈ d.marks, mark.2 ≠ []

/-- A credit can be seen: the cell has a mark for it. -/
theorem visiblyMarked_of_mem_hits {t : Table} {labels : List Column} {style : Style} {row : Nat}
    {ops : List String} {o : Options} {columns : List Nat} {cells : List String}
    (hrow : t.rows[row]? = some cells) :
    let r := rowHighlights (.ofTable t) labels style row ops o columns
    ∀ hit ∈ r.hits, ∀ c ∈ hit.columns, ∃ cell marked, cells[c]? = some cell ∧
      r.highlights[c]? = some (some marked) ∧ VisiblyMarked o style ops cell marked := by
  intro r hit hhit c hc
  obtain ⟨cell, hcell, hget, hfound⟩ := exists_marked_of_mem_hits hrow hit hhit c hc
  obtain ⟨hmarks, hnonempty⟩ := marks_divide_merge cell (operandsAt r.hits c) o
  refine ⟨cell, _, hcell, hget, operandsAt r.hits c, fun k hk => ?_,
    highlightCell_eq_renderMarked _ _ _ _, text_divide _ _, hmarks.mpr hfound, hnonempty⟩
  obtain ⟨hit', hhit', hc', rfl⟩ := mem_operandsAt.mp hk
  exact (accepts_of_mem_hits hrow hhit' hc').2.1

/-! ### Rows that are explained -/

/-- What a search shows for a row says why it was found: the summary is not empty, and a cell of the
table has a mark. -/
structure ResultRow.Explained (s : Session) (ops : List String) (r : ResultRow) : Prop where
  summary : r.summary ≠ ""
  marked : ∃ (i : Nat) (cell marked : String), i < s.table.columnCount ∧ r.cells[i]? = some cell ∧
    r.highlights[i]? = some (some marked) ∧ VisiblyMarked s.options s.style ops cell marked

namespace Session

variable {s : Session} {ops : List String} {index : Nat} {r : ResultRow}

/-- A row that matches a trimmed operand in one of the selected columns is explained. -/
theorem Sound.explained_of_result? (hs : s.Sound) {k : String} (hk : k ∈ ops) {c : Nat}
    (hc : c ∈ s.selection.indexes s.table.columnCount)
    (hmatch : matchRow (.ofTable s.table) index (trim k) s.options [c] = true)
    (h : s.result? ops index = some r) : r.Explained s ops := by
  obtain ⟨cells, hrow, -⟩ := Option.map_eq_some_iff.mp h
  rw [hs.result?_eq (List.ne_nil_of_mem hk) hrow, Option.some.injEq] at h
  obtain ⟨hit, hhit, -, hcol⟩ := exists_mem_found (List.mem_map_of_mem hk) hc hmatch
  rw [← hits_rowHighlights s.table s.table.columns s.style index ops s.options
    (List.ne_nil_of_mem hc)] at hhit
  obtain ⟨cell, marked, hcell, hmarked, hvisible⟩ :=
    visiblyMarked_of_mem_hits hrow hit hhit c hcol
  have hsummary : (s.highlightsAt ops index).summary = _ :=
    summary_rowHighlights s.table s.table.columns s.style index ops s.options
  obtain ⟨hlt, -⟩ := List.getElem?_eq_some_iff.mp hcell
  obtain ⟨hlt', -⟩ := List.getElem?_eq_some_iff.mp hmarked
  obtain ⟨hcells, hhighlights, hshown⟩ := getElem?_resultRow (s := s) hlt hlt' index
    (s.highlightsAt ops index).summary
  rw [← h]
  refine ⟨?_, c, cell, marked, ?_, hcells.trans hcell, hhighlights.trans hmarked, hvisible⟩
  · exact ne_of_eq_of_ne (hshown.trans hsummary) (summarize_ne_empty (List.ne_nil_of_mem hhit))
  · rw [← Table.length_row hrow]
    exact hlt

theorem Sound.explained_of_answer (hs : s.Sound) {query : String} {outcome : Outcome}
    {rows : List ResultRow} (hops : operands (tokenize (trim query)) ≠ [])
    (hnot : .operator .not ∉ tokenize (trim query))
    (hblanks : s.options.exactMatch = false ∨
      ∀ k ∈ operands (tokenize (trim query)), trim k = k)
    (h : s.answer query = .ok outcome) (hrows : outcome.rows = some rows) :
    ∀ r ∈ rows, r.Explained s (operands (tokenize (trim query))) := by
  intro r hr
  obtain ⟨indexes, heval, rfl⟩ := exists_indexes_of_answer h
  obtain rfl := Option.some.inj hrows
  obtain ⟨i, hi, hresult⟩ := List.mem_filterMap.mp hr
  rw [hs.grid] at heval
  have hts : tokenize (trim query) ≠ [] := by
    intro hnil
    rw [hnil] at hops
    exact hops rfl
  obtain ⟨e, hcompile, rfl⟩ := exists_tree_of_evaluate hts heval
  -- a true tree without `NOT` has a true operand, and this one is of the query
  have hnot' : .operator .not ∉ e.postorder := mt (mem_compile_iff hcompile rfl).mp hnot
  obtain ⟨k, hk, hmatch⟩ := e.exists_operand_of_eval hnot' (mem_trueRows.mp hi).2
  have hk' : k ∈ operands (tokenize (trim query)) :=
    mem_operands.mpr ((mem_compile_iff hcompile rfl).mp hk)
  obtain ⟨c, hc, hcolumn⟩ := hs.normal.matchRow_iff_exists.mp hmatch
  refine hs.explained_of_result? hk' hc ?_ hresult
  -- highlighting trims it first, which costs it no match
  rcases hblanks with hpart | htrim
  · exact matchRow_trim hpart (blank_of_mem_operands hk') hcolumn
  · rwa [htrim k hk']

end Session

/-- **Every row that is found is explained.** In any session, for a query with operands and without
`NOT`: if matching is in part, or no operand has blanks at its ends, then every row of the outcome
has a summary and a cell with a mark around a part that is not empty. -/
theorem results_explained {start : Session} (hstart : start.Begins) (actions : List Sitting.Action)
    (query : String) (ticket : Ticket) :
    let s := ((Sitting.ofSession start).run actions).session
    let ops := operands (tokenize (trim query))
    ops ≠ [] → .operator .not ∉ tokenize (trim query) →
      s.options.exactMatch = false ∨ (∀ k ∈ ops, trim k = k) →
        ∀ outcome rows, s.searchWith query ticket = .ok outcome ∨ (s.search query).1 = .ok outcome →
          outcome.rows = some rows → ∀ r ∈ rows, r.Explained s ops := by
  intro s ops hops hnot hblanks outcome rows hsearch hrows
  have hs : s.Sound := Session.Sound.run hstart actions
  exact hs.explained_of_answer hops hnot hblanks (Session.answer_of_searched hsearch hrows) hrows

/-- A phrase with a blank in front, looked for in part and in one column only. -/
theorem results_explained_padded :
    let t := Table.ofRows [.single "A", .single "B"] [["a bob", "x"], ["bob", "BOB"], ["x", "bob"]]
    let actions := [Sitting.Action.toggle "col.B" false, .setStyle .terminal]
    let s := ((Sitting.ofSession (.ofTable t)).run actions).session
    let query := "z OR \" bob\" "
    let ops := ["z", " bob"]
    let row : ResultRow := ⟨0, ["a bob", "x"], [some "a \x1b[1;33mbob\x1b[0m", none], "bob (A)"⟩
    operands (tokenize (trim query)) = ops ∧ ops ≠ [] ∧
      .operator .not ∉ tokenize (trim query) ∧ s.options.exactMatch = false ∧
      (s.search query).1 = .ok ⟨some [row], ops⟩ ∧ row.Explained s ops := by
  intro t actions s query ops row
  have hops : operands (tokenize (trim query)) = ops := by decide +kernel
  have hnot : .operator .not ∉ tokenize (trim query) := by decide +kernel
  have hne : operands (tokenize (trim query)) ≠ [] := by
    rw [hops]
    decide
  have hpart : s.options.exactMatch = false := by decide
  have hsearch : (s.search query).1 = .ok ⟨some [row], ops⟩ := by decide +kernel
  have hrow := results_explained (.single t) actions query .free hne hnot (.inl hpart) _ [row]
    (.inr hsearch) rfl row List.mem_cons_self
  rw [hops] at hrow
  exact ⟨hops, by decide, hnot, hpart, hsearch, hrow⟩

end CellQuery
