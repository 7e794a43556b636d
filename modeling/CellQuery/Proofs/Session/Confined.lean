import CellQuery.Proofs.Search.Agreement
import CellQuery.Proofs.Session.Result

/-!
# What a restricted search shows

A session that is restricted to some columns compares two tables that agree there as equal.
Evaluating reads these columns only, and so does highlighting (`Table.AgreeOn.rowHighlights_eq`),
which is told of the restriction apart. So the answers of two such sessions are the same but for the
cells of the other columns, which are shown as they are and never marked (`ResultRow.SameWithin`).
-/

namespace CellQuery

open Text

/-! ### Highlights -/

attribute [ext] RowHighlights

namespace Table.AgreeOn

variable {js : List Nat} {t t' : Table} (h : AgreeOn js t t')
include h

theorem found_eq (row : Nat) (o : Options) (keywords : List String) :
    found (.ofTable t) row o js keywords = found (.ofTable t') row o js keywords := by
  unfold found
  congr 2
  funext keyword
  congr 1
  refine List.filter_congr fun c hc => ?_
  have hsub : [c] ⊆ js := List.cons_subset.mpr ⟨hc, List.nil_subset js⟩
  exact h.matchRow_eq hsub (List.cons_ne_nil c []) row keyword o

theorem hits_eq (hjs : js ≠ []) (labels : List Column) (style : Style) (row : Nat)
    (ops : List String) (o : Options) :
    (rowHighlights (.ofTable t) labels style row ops o js).hits =
      (rowHighlights (.ofTable t') labels style row ops o js).hits := by
  rw [hits_rowHighlights _ _ _ _ _ _ hjs, hits_rowHighlights _ _ _ _ _ _ hjs, h.found_eq]

theorem highlights_eq (hjs : js ≠ []) (labels : List Column) (style : Style) (row : Nat)
    (ops : List String) (o : Options) :
    (rowHighlights (.ofTable t) labels style row ops o js).highlights =
      (rowHighlights (.ofTable t') labels style row ops o js).highlights := by
  refine List.ext_getElem? fun i => ?_
  -- a selected column has the same cell in both, any other column is not marked in either
  by_cases hi : i < t.columnCount
  · have hi' := Nat.lt_of_lt_of_eq hi h.columnCount
    by_cases hmem : i ∈ js
    · cases hrow : t.rows[row]? with
      | none =>
        rw [rowHighlights_of_no_row hrow, rowHighlights_of_no_row (h.no_row hrow), h.columnCount]
      | some cells =>
        obtain ⟨cells', hrow', hagree⟩ := h.exists_row hrow
        have hcell : cells[i]? = some _ :=
          List.getElem?_eq_getElem (by rwa [Table.length_row hrow])
        have hcell' := (hagree i hmem).symm.trans hcell
        rw [getElem?_highlights hrow hcell, getElem?_highlights hrow' hcell',
          h.hits_eq hjs labels style row ops o]
    · rw [getElem?_highlights_of_notMem _ _ _ _ _ _ hjs hi hmem,
        getElem?_highlights_of_notMem _ _ _ _ _ _ hjs hi' hmem]
  · rw [List.getElem?_eq_none, List.getElem?_eq_none]
    · rw [length_highlights, ← h.columnCount]
      exact Nat.le_of_not_lt hi
    · rw [length_highlights]
      exact Nat.le_of_not_lt hi

/-- Highlighting a row does not look at other columns. -/
theorem rowHighlights_eq (hjs : js ≠ []) (labels : List Column) (style : Style) (row : Nat)
    (ops : List String) (o : Options) :
    rowHighlights (.ofTable t) labels style row ops o js =
      rowHighlights (.ofTable t') labels style row ops o js := by
  have hhits := h.hits_eq hjs labels style row ops o
  refine RowHighlights.ext ?_ (h.highlights_eq hjs labels style row ops o) hhits
  rw [summary_rowHighlights, summary_rowHighlights, hhits]

end Table.AgreeOn

/-! ### Results that agree -/

/-- The same result, but for the cells outside of the columns `js` out of `count`, where nothing is
marked. -/
structure ResultRow.SameWithin (count : Nat) (js : List Nat) (r r' : ResultRow) : Prop where
  index : r.index = r'.index
  highlights : r.highlights = r'.highlights
  summary : r.summary = r'.summary
  length : r.cells.length = r'.cells.length
  cells : ∀ i, (i < count → i ∈ js) → r.cells[i]? = r'.cells[i]?
  unmarked : ∀ i, i < count → i ∉ js → r.highlights[i]? = some none

/-- The same error, or the same operands and results that are the same within `js`, row by row. -/
inductive SameAnswer (count : Nat) (js : List Nat) :
    Except QueryError Outcome → Except QueryError Outcome → Prop
  | error (e : QueryError) : SameAnswer count js (.error e) (.error e)
  | rows (ops : List String) {rows rows' : List ResultRow} :
      List.Forall₂ (ResultRow.SameWithin count js) rows rows' →
      SameAnswer count js (.ok ⟨some rows, ops⟩) (.ok ⟨some rows', ops⟩)

namespace Session

/-- Two sessions that search the columns `js` of tables that agree there, set up alike. -/
structure Alike (js : List Nat) (s s' : Session) : Prop where
  table : s.table.AgreeOn js s'.table
  options : s.options = s'.options
  style : s.style = s'.style
  matchesColumn : s.matchesColumn = s'.matchesColumn
  selection : s.selection = .only js
  selection' : s'.selection = .only js

variable {js : List Nat} {s s' : Session}

theorem Alike.ne_nil (h : s.Alike js s') (hs : s.Sound) : js ≠ [] := by
  have hnormal := hs.normal
  rw [h.selection] at hnormal
  exact hnormal.2.2.1

/-- With or without a cell for the summary, results are the same if their cells and marks are. -/
theorem sameWithin_resultRow (hm : s.matchesColumn = s'.matchesColumn) {count : Nat}
    {cells cells' : List String} {highlights : List (Option String)}
    (hlen : cells.length = count) (hlen' : cells'.length = count)
    (hhigh : highlights.length = count) (hcells : ∀ c ∈ js, cells[c]? = cells'[c]?)
    (hmarks : ∀ i, i < count → i ∉ js → highlights[i]? = some none) (index : Nat)
    (summary : String) :
    ResultRow.SameWithin count js (s.resultRow index cells highlights summary)
      (s'.resultRow index cells' highlights summary) := by
  have hout : ∀ i, (i < count → i ∈ js) → cells[i]? = cells'[i]? := by
    intro i hi
    by_cases hlt : i < count
    · exact hcells i (hi hlt)
    · rw [List.getElem?_eq_none (by omega), List.getElem?_eq_none (by omega)]
  unfold resultRow
  rw [← hm]
  split
  · refine ⟨rfl, rfl, rfl, ?_, fun i hi => ?_, fun i hi hnot => ?_⟩
    · rw [List.length_append, List.length_append, hlen, hlen']
    · rw [List.getElem?_append, List.getElem?_append, hlen, hlen', hout i hi]
    · rw [List.getElem?_append_left (by omega)]
      exact hmarks i hi hnot
  · exact ⟨rfl, rfl, rfl, hlen.trans hlen'.symm, hout, hmarks⟩

/-- The results for one row are the same within the columns. -/
theorem Alike.sameWithin_result? (h : s.Alike js s') (hs : s.Sound) (hs' : s'.Sound)
    (ops : List String) {i : Nat} (hi : i < s.table.size) :
    ∃ r r', s.result? ops i = some r ∧ s'.result? ops i = some r' ∧
      r.SameWithin s.table.columnCount js r' := by
  have hne := h.ne_nil hs
  have hrow : s.table.rows[i]? = some _ := List.getElem?_eq_getElem hi
  obtain ⟨cells', hrow', hagree⟩ := h.table.exists_row hrow
  have hlen := Table.length_row hrow
  have hlen' := (Table.length_row hrow').trans h.table.columnCount.symm
  by_cases hops : ops = []
  · subst hops
    have hsame : cells'.length = s.table.columnCount := hlen'
    refine ⟨_, _, result?_of_no_operands hrow, result?_of_no_operands hrow', ?_⟩
    rw [hlen, hsame]
    refine sameWithin_resultRow h.matchesColumn hlen hlen' ?_ hagree (fun c hc _ => ?_) i ""
    · exact List.length_replicate
    · rw [List.getElem?_replicate, if_pos hc]
  · have hmarks : s'.highlightsAt ops i = s.highlightsAt ops i := by
      unfold highlightsAt
      rw [h.selection, h.selection', ← h.options, ← h.style, ← h.table.columns]
      exact (h.table.rowHighlights_eq hne _ _ _ _ _).symm
    refine ⟨_, _, hs.result?_eq hops hrow, hs'.result?_eq hops hrow', ?_⟩
    rw [hmarks]
    refine sameWithin_resultRow h.matchesColumn hlen hlen' ?_ hagree (fun c hc hnot => ?_) i _
    · exact length_highlights _ _ _ _ _ _
    · unfold highlightsAt
      rw [h.selection]
      exact getElem?_highlights_of_notMem _ _ _ _ _ _ hne hc hnot

theorem Alike.forall₂_filterMap (h : s.Alike js s') (hs : s.Sound) (hs' : s'.Sound)
    {indexes : List Nat} (hlt : ∀ i ∈ indexes, i < s.table.size) (ops : List String) :
    List.Forall₂ (ResultRow.SameWithin s.table.columnCount js) (indexes.filterMap (s.result? ops))
      (indexes.filterMap (s'.result? ops)) := by
  induction indexes with
  | nil => exact .nil
  | cons i rest ih =>
    obtain ⟨r, r', hr, hr', hsame⟩ := h.sameWithin_result? hs hs' ops (hlt i List.mem_cons_self)
    rw [List.filterMap_cons_some hr, List.filterMap_cons_some hr']
    exact .cons hsame (ih fun j hj => hlt j (List.mem_cons_of_mem i hj))

theorem Alike.sameAnswer (h : s.Alike js s') (hs : s.Sound) (hs' : s'.Sound) (query : String) :
    SameAnswer s.table.columnCount js (s.answer query) (s'.answer query) := by
  have hne := h.ne_nil hs
  have heval : evaluate s'.grid (tokenize (trim query)) s'.options s'.selection =
      evaluate s.grid (tokenize (trim query)) s.options s.selection := by
    rw [hs.grid, hs'.grid, h.selection, h.selection', ← h.options]
    exact (h.table.evaluate_eq hne _ _).symm
  cases hindexes : evaluate s.grid (tokenize (trim query)) s.options s.selection with
  | error e =>
    rw [answer_of_error hindexes, answer_of_error (heval.trans hindexes)]
    exact .error e
  | ok indexes =>
    rw [answer_of_ok hindexes, answer_of_ok (heval.trans hindexes)]
    exact .rows _ (h.forall₂_filterMap hs hs' (hs.indexes_spec hindexes).2 _)

end Session

/-- **Unselected columns have no influence.** If two sessions are set up alike and restricted to
some columns, in which their tables agree, then a search that nothing supersedes has the same answer
in both, and shows nothing of the other columns but their cells as they are. A search that is
superseded has the very same outcome. -/
theorem results_confined {start start' : Session} (hstart : start.Begins) (hstart' : start'.Begins)
    (actions actions' : List Sitting.Action) (js : List Nat) (query : String) :
    let s := ((Sitting.ofSession start).run actions).session
    let s' := ((Sitting.ofSession start').run actions').session
    s.Alike js s' →
      (∀ ticket ticket' : Ticket, ticket.isStale s.generation = false →
        ticket'.isStale s'.generation = false → SameAnswer s.table.columnCount js
          (s.searchWith query ticket) (s'.searchWith query ticket')) ∧
      SameAnswer s.table.columnCount js (s.search query).1 (s'.search query).1 ∧
      ∀ ticket ticket' : Ticket, ticket.isStale s.generation = true →
        ticket'.isStale s'.generation = true →
          s.searchWith query ticket = s'.searchWith query ticket' := by
  intro s s' halike
  have hs : s.Sound := Session.Sound.run hstart actions
  have hs' : s'.Sound := Session.Sound.run hstart' actions'
  have hanswer := halike.sameAnswer hs hs' query
  refine ⟨fun ticket ticket' hlive hlive' => ?_, ?_, fun ticket ticket' hstale hstale' => ?_⟩
  · rwa [Session.searchWith_of_live hlive, Session.searchWith_of_live hlive']
  · rwa [Session.search_eq_answer, Session.search_eq_answer]
  -- without the rows, answers that are the same within the columns are equal
  · rw [Session.searchWith_of_stale hstale, Session.searchWith_of_stale hstale']
    generalize s.answer query = answer at hanswer ⊢
    generalize s'.answer query = answer' at hanswer ⊢
    cases hanswer <;> rfl

/-- The second columns differ, and only one of them holds the word that is looked for. -/
theorem results_confined_hidden :
    let t := Table.ofRows [.single "A", .single "B"] [["ab", "b"], ["c", "b"]]
    let t' := Table.ofRows [.single "A", .single "B"] [["ab", "x"], ["c", "b & c"]]
    let start := Session.ofComparison t t'
    let actions := [Sitting.Action.replace t false, .select ["col.A", "col.C"]]
    let actions' := [Sitting.Action.begin, .toggle "col.B" false]
    let s := ((Sitting.ofSession start).run actions).session
    let s' := ((Sitting.ofSession (.ofTable t')).run actions').session
    s.Alike [0] s' ∧ SameAnswer 2 [0] (s.search "b OR NOT a").1 (s'.search "b OR NOT a").1 ∧
      (s.search "b").1 =
        .ok ⟨some [⟨0, ["ab", "b"], [some "a<mark>b</mark>", none], "b (A)"⟩], ["b"]⟩ ∧
      (s'.search "b").1 =
        .ok ⟨some [⟨0, ["ab", "x"], [some "a<mark>b</mark>", none], "b (A)"⟩], ["b"]⟩ := by
  intro t t' start actions actions' s s'
  have htable : s.table.AgreeOn [0] s'.table := by
    refine ⟨rfl, rfl, fun row c hc => ?_⟩
    obtain rfl := List.mem_singleton.mp hc
    match row with
    | 0 => rfl
    | 1 => rfl
    | _ + 2 => rfl
  have halike : s.Alike [0] s' := ⟨htable, rfl, rfl, rfl, by decide, by decide⟩
  obtain ⟨-, hsearch, -⟩ := results_confined (.comparison t t') (.single t') actions actions' [0]
    "b OR NOT a" halike
  exact ⟨halike, hsearch, by decide +kernel, by decide +kernel⟩

end CellQuery
