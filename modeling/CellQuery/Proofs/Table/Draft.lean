import CellQuery.Proofs.Json.Occurrence
import CellQuery.Proofs.Table.Shape

/-!
# Table files as they are written

A file is read as a tree, which keeps the spelling of its literals, before it is read as a value,
which does not. The trees of the cells stand where their values do (`Draft.exists_of_document`), so
what a cell of a table was in the file can be said.
-/

namespace CellQuery

open Json

/-! ### Drafts -/

/-- The headers and rows of a file as they are written. -/
structure Draft where
  headers : List Tree
  rows : List (List Tree)

/-- The elements of an array, as they are written. -/
def Json.Tree.elements? : Tree → Option (List Tree)
  | .array vs => some vs
  | _ => none

/-- The rows of an array of arrays, as they are written. -/
def Json.Tree.rows? (v : Tree) : Option (List (List Tree)) :=
  v.elements?.bind (·.mapM elements?)

/-- The trees of the fields with key `key`. -/
def fieldTreesAt (key : String) (fields : List (List Code × Tree)) : List Tree :=
  (fields.filter fun f => textOf? f.1 == some key).map (·.2)

namespace Draft

/-- The draft in a tree, in either of the two forms. -/
def ofTree? : Tree → Option Draft
  | .array vs => (vs.mapM Tree.elements?).map (⟨[], ·⟩)
  | .object fields =>
    match fieldTreesAt "headers" fields, fieldTreesAt "rows" fields with
    | [], [rows] => rows.rows?.map (⟨[], ·⟩)
    | [headers], [rows] => do
      let headers ← headers.elements?
      let rows ← rows.rows?
      return ⟨headers, rows⟩
    | _, _ => none
  | _ => none

/-- The draft in a text that holds nothing else. -/
def ofText? (text : String) : Option Draft :=
  (Tree.parse? text).bind ofTree?

/-- The rows below the headers, which are the first row if they do not stand apart. -/
def body (d : Draft) : List (List Tree) :=
  if d.headers.isEmpty then d.rows.tail else d.rows

/-- What is written in row `i` of the body and column `j`. -/
def cellAt? (d : Draft) (i j : Nat) : Option Tree :=
  d.body[i]?.bind (·[j]?)

/-- The literal that is written in row `i` of the body and column `j`. -/
def literalAt? (d : Draft) (i j : Nat) : Option Literal :=
  (d.cellAt? i j).bind Tree.literal?

theorem literalAt?_eq_some_iff {d : Draft} {i j : Nat} {l : Literal} :
    d.literalAt? i j = some l ↔ d.cellAt? i j = some l.tree := by
  simp only [literalAt?, Option.bind_eq_some_iff, Tree.literal?_eq_some_iff, exists_eq_right]

end Draft

/-! ### Trees that stand for values -/

/-- The tree has the value, however deep it is nested. -/
def Stands (t : Tree) (v : Value) : Prop :=
  ∃ depth, t.valueWithin? depth = some v

section Stands

variable {t : Tree} {v : Value} {depth : Nat} {ts : List Tree} {vs : List Value}

theorem forall₂_of_elementsWithin? (h : elementsWithin? depth ts = some vs) :
    List.Forall₂ Stands ts vs := by
  induction ts generalizing vs with
  | nil =>
    obtain rfl := Option.some.inj h
    exact .nil
  | cons t ts ih =>
    simp only [elementsWithin?, Option.bind_eq_bind, Option.bind_eq_some_iff, Option.pure_def,
      Option.some.injEq] at h
    obtain ⟨v, hv, vs, hvs, rfl⟩ := h
    exact .cons ⟨depth, hv⟩ (ih hvs)

theorem forall₂_of_fieldsWithin? {fs : List (List Code × Tree)} {gs : List (String × Value)}
    (h : fieldsWithin? depth fs = some gs) :
    List.Forall₂ (fun f g => textOf? f.1 = some g.1 ∧ Stands f.2 g.2) fs gs := by
  induction fs generalizing gs with
  | nil =>
    obtain rfl := Option.some.inj h
    exact .nil
  | cons f fs ih =>
    simp only [fieldsWithin?, Option.bind_eq_bind, Option.bind_eq_some_iff, Option.pure_def,
      Option.some.injEq] at h
    obtain ⟨k, hk, v, hv, gs, hgs, rfl⟩ := h
    exact .cons ⟨hk, depth, hv⟩ (ih hgs)

theorem Stands.exists_array (h : Stands t (.array vs)) :
    ∃ ts, t = .array ts ∧ List.Forall₂ Stands ts vs := by
  obtain ⟨depth, h⟩ := h
  unfold Tree.valueWithin? at h
  split at h
  case h_1 => cases h
  case h_2 => cases h
  case h_5 ts =>
    split at h
    · cases h
    · obtain ⟨vs', hvs, heq⟩ := Option.map_eq_some_iff.mp h
      cases heq
      exact ⟨ts, rfl, forall₂_of_elementsWithin? hvs⟩
  case h_6 =>
    split at h
    · cases h
    · obtain ⟨_, _, heq⟩ := Option.map_eq_some_iff.mp h
      cases heq
  all_goals
    obtain ⟨_, _, heq⟩ := Option.map_eq_some_iff.mp h
    cases heq

theorem Stands.exists_object {gs : List (String × Value)} (h : Stands t (.object gs)) :
    ∃ fs, t = .object fs ∧
      List.Forall₂ (fun f g => textOf? f.1 = some g.1 ∧ Stands f.2 g.2) fs gs := by
  obtain ⟨depth, h⟩ := h
  unfold Tree.valueWithin? at h
  split at h
  case h_1 => cases h
  case h_2 => cases h
  case h_5 =>
    split at h
    · cases h
    · obtain ⟨_, _, heq⟩ := Option.map_eq_some_iff.mp h
      cases heq
  case h_6 fs =>
    split at h
    · cases h
    · obtain ⟨gs', hgs, heq⟩ := Option.map_eq_some_iff.mp h
      cases heq
      exact ⟨fs, rfl, forall₂_of_fieldsWithin? hgs⟩
  all_goals
    obtain ⟨_, _, heq⟩ := Option.map_eq_some_iff.mp h
    cases heq

theorem Stands.exists_elements (h : Stands t v) (hv : v.elements? = some vs) :
    ∃ ts, t.elements? = some ts ∧ List.Forall₂ Stands ts vs := by
  cases v with
  | array vs' =>
    obtain rfl := Option.some.inj hv
    obtain ⟨ts, rfl, hall⟩ := h.exists_array
    exact ⟨ts, rfl, hall⟩
  | _ => cases hv

theorem exists_mapM_elements {rows : List (List Value)} (h : List.Forall₂ Stands ts vs)
    (hvs : vs.mapM Value.elements? = some rows) :
    ∃ trees, ts.mapM Tree.elements? = some trees ∧
      List.Forall₂ (List.Forall₂ Stands) trees rows := by
  induction h generalizing rows with
  | nil =>
    obtain rfl := Option.some.inj hvs
    exact ⟨[], rfl, .nil⟩
  | cons hstands _ ih =>
    simp only [List.mapM_cons, Option.bind_eq_bind, Option.bind_eq_some_iff, Option.pure_def,
      Option.some.injEq] at hvs
    obtain ⟨row, hrow, rows, hrows, rfl⟩ := hvs
    obtain ⟨ts, hts, hall⟩ := hstands.exists_elements hrow
    obtain ⟨trees, htrees, halls⟩ := ih hrows
    refine ⟨ts :: trees, ?_, .cons hall halls⟩
    rw [List.mapM_cons, hts, htrees]
    rfl

theorem Stands.exists_rows {rows : List (List Value)} (h : Stands t v) (hv : v.rows? = some rows) :
    ∃ trees, t.rows? = some trees ∧ List.Forall₂ (List.Forall₂ Stands) trees rows := by
  obtain ⟨vs, hvs, hrows⟩ := Option.bind_eq_some_iff.mp hv
  obtain ⟨ts, hts, hall⟩ := h.exists_elements hvs
  obtain ⟨trees, htrees, halls⟩ := exists_mapM_elements hall hrows
  exact ⟨trees, by rw [Tree.rows?, hts, Option.bind_some, htrees], halls⟩

theorem forall₂_fieldTreesAt (key : String) {fs : List (List Code × Tree)} {gs : List (String × Value)}
    (h : List.Forall₂ (fun f g => textOf? f.1 = some g.1 ∧ Stands f.2 g.2) fs gs) :
    List.Forall₂ Stands (fieldTreesAt key fs) (fieldValues key gs) := by
  induction h with
  | nil => exact .nil
  | @cons f g fs gs hfield _ ih =>
    unfold fieldTreesAt fieldValues at ih ⊢
    rw [List.filter_cons, List.filter_cons, hfield.1]
    by_cases hkey : g.1 = key
    · rw [if_pos (by simp [hkey]), if_pos (by simp [hkey])]
      exact .cons hfield.2 ih
    · rw [if_neg (by simp [hkey]), if_neg (by simp [hkey])]
      exact ih

/-- The draft of a tree stands for the document of its value. -/
theorem Draft.exists_of_document {d : Document} (h : Stands t v) (hd : Document.ofValue? v = some d) :
    ∃ draft, Draft.ofTree? t = some draft ∧ List.Forall₂ Stands draft.headers d.headers ∧
      List.Forall₂ (List.Forall₂ Stands) draft.rows d.rows := by
  cases v with
  | array vs =>
    obtain ⟨rows, hrows, rfl⟩ := Option.map_eq_some_iff.mp hd
    obtain ⟨ts, rfl, hall⟩ := h.exists_array
    obtain ⟨trees, htrees, halls⟩ := exists_mapM_elements hall hrows
    exact ⟨⟨[], trees⟩, by rw [ofTree?, htrees, Option.map_some], .nil, halls⟩
  | object gs =>
    obtain ⟨fs, rfl, hfields⟩ := h.exists_object
    have hheaders := forall₂_fieldTreesAt "headers" hfields
    have hrows := forall₂_fieldTreesAt "rows" hfields
    -- the trees under a name stand for the values under it, so there are as many of both
    rw [Document.ofValue?, Document.ofFields?] at hd
    rw [ofTree?]
    generalize fieldTreesAt "headers" fs = headerTrees at hheaders ⊢
    generalize fieldTreesAt "rows" fs = rowTrees at hrows ⊢
    generalize fieldValues "headers" gs = headerValues at hheaders hd
    generalize fieldValues "rows" gs = rowValues at hrows hd
    split at hd
    · cases hheaders
      obtain _ | ⟨hrow, ⟨⟩⟩ := hrows
      obtain ⟨rows, hrows, rfl⟩ := Option.map_eq_some_iff.mp hd
      obtain ⟨trees, htrees, halls⟩ := hrow.exists_rows hrows
      exact ⟨⟨[], trees⟩, by dsimp only; rw [htrees, Option.map_some], .nil, halls⟩
    · obtain _ | ⟨hheader, ⟨⟩⟩ := hheaders
      obtain _ | ⟨hrow, ⟨⟩⟩ := hrows
      simp only [Option.bind_eq_bind, Option.bind_eq_some_iff, Option.pure_def,
        Option.some.injEq] at hd
      obtain ⟨headers, hheaders, rows, hrows, rfl⟩ := hd
      obtain ⟨ts, hts, hall⟩ := hheader.exists_elements hheaders
      obtain ⟨trees, htrees, halls⟩ := hrow.exists_rows hrows
      exact ⟨⟨ts, trees⟩, by dsimp only; rw [hts, htrees]; rfl, hall, halls⟩
    · cases hd
  | _ => cases hd

end Stands

/-! ### Literals of a draft -/

section Literals

variable {t c : Tree} {w : Literal}

theorem mem_literals_of_elements {ts : List Tree} (h : t.elements? = some ts) (hc : c ∈ ts)
    (hw : w ∈ c.literals) : w ∈ t.literals := by
  cases t with
  | array vs =>
    obtain rfl := Option.some.inj h
    rw [Tree.literals, elementLiterals_eq]
    exact List.mem_flatMap.mpr ⟨c, hc, hw⟩
  | _ => cases h

theorem exists_elements_of_mapM {ts : List Tree} {rows : List (List Tree)} {row : List Tree}
    (h : ts.mapM Tree.elements? = some rows) (hrow : row ∈ rows) :
    ∃ t ∈ ts, t.elements? = some row := by
  induction ts generalizing rows with
  | nil =>
    obtain rfl := Option.some.inj h
    cases hrow
  | cons t ts ih =>
    simp only [List.mapM_cons, Option.bind_eq_bind, Option.bind_eq_some_iff, Option.pure_def,
      Option.some.injEq] at h
    obtain ⟨first, hfirst, rest, hrest, rfl⟩ := h
    rcases List.mem_cons.mp hrow with rfl | hrow
    · exact ⟨t, List.mem_cons_self, hfirst⟩
    · obtain ⟨t', ht', helements⟩ := ih hrest hrow
      exact ⟨t', List.mem_cons_of_mem _ ht', helements⟩

theorem mem_literals_of_rows {rows : List (List Tree)} {row : List Tree} (h : t.rows? = some rows)
    (hrow : row ∈ rows) (hc : c ∈ row) (hw : w ∈ c.literals) : w ∈ t.literals := by
  obtain ⟨ts, hts, hrows⟩ := Option.bind_eq_some_iff.mp h
  obtain ⟨v, hv, helements⟩ := exists_elements_of_mapM hrows hrow
  exact mem_literals_of_elements hts hv (mem_literals_of_elements helements hc hw)

theorem mem_literals_of_fieldTreesAt {fs : List (List Code × Tree)} {key : String}
    (hc : c ∈ fieldTreesAt key fs) (hw : w ∈ c.literals) : w ∈ (Tree.object fs).literals := by
  obtain ⟨f, hf, rfl⟩ := List.mem_map.mp hc
  rw [Tree.literals, fieldLiterals_eq]
  exact List.mem_flatMap.mpr ⟨f, List.mem_of_mem_filter hf, hw⟩

theorem Draft.exists_row_of_cellAt? {d : Draft} {i j : Nat} (h : d.cellAt? i j = some c) :
    ∃ row ∈ d.rows, c ∈ row := by
  obtain ⟨row, hrow, hc⟩ := Option.bind_eq_some_iff.mp h
  refine ⟨row, ?_, List.mem_of_getElem? hc⟩
  have hmem := List.mem_of_getElem? hrow
  unfold body at hmem
  split at hmem
  · exact List.mem_of_mem_tail hmem
  · exact hmem

/-- The literals of a cell are literals of the file. -/
theorem Draft.mem_literals {d : Draft} {i j : Nat} (hd : ofTree? t = some d)
    (h : d.cellAt? i j = some c) (hw : w ∈ c.literals) : w ∈ t.literals := by
  obtain ⟨row, hrow, hc⟩ := exists_row_of_cellAt? h
  unfold ofTree? at hd
  split at hd
  · next vs =>
    obtain ⟨rows, hrows, rfl⟩ := Option.map_eq_some_iff.mp hd
    obtain ⟨v, hv, helements⟩ := exists_elements_of_mapM hrows hrow
    exact mem_literals_of_elements rfl hv (mem_literals_of_elements helements hc hw)
  · next fs =>
    split at hd
    · next v _ hrowsAt =>
      obtain ⟨rows, hrows, rfl⟩ := Option.map_eq_some_iff.mp hd
      exact mem_literals_of_fieldTreesAt (hrowsAt ▸ List.mem_singleton_self _)
        (mem_literals_of_rows hrows hrow hc hw)
    · next v v' _ hrowsAt =>
      simp only [Option.bind_eq_bind, Option.bind_eq_some_iff, Option.pure_def,
        Option.some.injEq] at hd
      obtain ⟨_, _, rows, hrows, rfl⟩ := hd
      exact mem_literals_of_fieldTreesAt (hrowsAt ▸ List.mem_singleton_self _)
        (mem_literals_of_rows hrows hrow hc hw)
    · cases hd
  · cases hd

/-- The literals of a cell are well formed, and spelled in the text of the file. -/
theorem Draft.spelled {text : String} {d : Draft} {i j : Nat} (hd : ofText? text = some d)
    (h : d.cellAt? i j = some c) (hw : w ∈ c.literals) : w.WellFormed ∧ w.spelling <:+: text.toList := by
  obtain ⟨tree, htree, hd⟩ := Option.bind_eq_some_iff.mp hd
  obtain ⟨rest, hread⟩ : ∃ rest, Tree.read? text = some (tree, rest) := by
    unfold Tree.parse? at htree
    split at htree
    · next hread =>
      cases htree
      exact ⟨[], hread⟩
    · cases htree
  exact Tree.spelling_infix hread (mem_literals hd h hw)

end Literals

/-! ### The cells of a table -/

theorem exists_of_forall₂ {α β : Type} {r : α → β → Prop} {as : List α} {bs : List β} {i : Nat} {a : α}
    (h : List.Forall₂ r as bs) (ha : as[i]? = some a) : ∃ b, bs[i]? = some b ∧ r a b := by
  induction h generalizing i with
  | nil => cases ha
  | cons hr _ ih =>
    cases i with
    | zero =>
      obtain rfl := Option.some.inj ha
      exact ⟨_, rfl, hr⟩
    | succ i => exact ih ha

theorem isEmpty_eq_of_forall₂ {α β : Type} {r : α → β → Prop} {as : List α} {bs : List β}
    (h : List.Forall₂ r as bs) : as.isEmpty = bs.isEmpty := by
  cases h <;> rfl

theorem forall₂_tail {α β : Type} {r : α → β → Prop} {as : List α} {bs : List β}
    (h : List.Forall₂ r as bs) : List.Forall₂ r as.tail bs.tail := by
  cases h with
  | nil => exact .nil
  | cons _ hrest => exact hrest

/-- The values of the rows below the headers. -/
def Document.body (d : Document) : List (List Value) :=
  if d.headers.isEmpty then d.rows.tail else d.rows

theorem Draft.forall₂_body {draft : Draft} {d : Document}
    (hheaders : List.Forall₂ Stands draft.headers d.headers)
    (hrows : List.Forall₂ (List.Forall₂ Stands) draft.rows d.rows) :
    List.Forall₂ (List.Forall₂ Stands) draft.body d.body := by
  unfold Draft.body Document.body
  rw [isEmpty_eq_of_forall₂ hheaders]
  split
  · exact forall₂_tail hrows
  · exact hrows

theorem Document.records_body (d : Document) :
    (if d.headers.isEmpty then (d.rows.map (·.map Value.cell?)).tail else d.rows.map (·.map Value.cell?)) =
      d.body.map (·.map Value.cell?) := by
  unfold body
  split
  · exact List.map_tail.symm
  · rfl

/-- A table with columns has the rows of the body, and they show its values. -/
theorem Document.shows_table {d : Document} (h : 0 < d.table.columnCount) :
    d.table.Shows (.ofRows d.table.columnCount (d.body.map (·.map fun v => cellText v.cell?))) := by
  have hshows : d.table.Shows (.ofRecords _ _) := Table.shows_ofRecords _ _
  unfold Sheet.ofRecords at hshows
  dsimp only at hshows
  -- the records are those of the body, whether the first row was taken for headers or not
  rw [List.isEmpty_map, records_body] at hshows
  split at hshows
  · exact (h.ne' hshows.columnCount).elim
  · have hwidth : d.table.columnCount = (headerTexts _ _).length := hshows.columnCount
    rw [← hwidth, List.map_map] at hshows
    simpa only [Function.comp_def, List.map_map] using hshows

/-- A cell of a table shows the value that its tree in the draft stands for. -/
theorem Table.exists_draft {text : String} {t : Table} (h : Table.parse text = .ok t) :
    ∃ draft, Draft.ofText? text = some draft ∧
      (0 < t.columnCount → t.size = draft.body.length) ∧
      ∀ i j c, draft.cellAt? i j = some c → j < t.columnCount →
        ∃ v, Stands c v ∧ cellAt? t.rows i j = some (cellText v.cell?) := by
  obtain ⟨d, hd, rfl⟩ := Table.parse_eq_ok_iff.mp h
  obtain ⟨v, hv, hd⟩ := Option.bind_eq_some_iff.mp hd
  obtain ⟨tree, htree, hv⟩ := Option.bind_eq_some_iff.mp hv
  obtain ⟨draft, hdraft, hheaders, hrows⟩ := Draft.exists_of_document ⟨_, hv⟩ hd
  have hbody := Draft.forall₂_body hheaders hrows
  refine ⟨draft, by rw [Draft.ofText?, htree, Option.bind_some, hdraft], fun hpos => ?_,
    fun i j c hc hj => ?_⟩
  · rw [(Document.shows_table hpos).size, hbody.length_eq]
    exact List.length_map _
  · obtain ⟨row, hrow, hc⟩ := Option.bind_eq_some_iff.mp hc
    obtain ⟨values, hvalues, hstands⟩ := exists_of_forall₂ hbody hrow
    obtain ⟨v, hv, hstands⟩ := exists_of_forall₂ hstands hc
    have hi : i < d.body.length := (List.getElem?_eq_some_iff.mp hvalues).1
    refine ⟨v, hstands, ?_⟩
    have hlen : i < (d.body.map (·.map fun v => cellText v.cell?)).length := by
      rwa [List.length_map]
    have hcell : cellAt? (d.body.map (·.map fun v => cellText v.cell?)) i j =
        some (cellText v.cell?) := by
      rw [CellQuery.cellAt?, List.getElem?_map, hvalues, Option.map_some, Option.bind_some,
        List.getElem?_map, hv, Option.map_some]
    rw [(Document.shows_table (Nat.zero_lt_of_lt hj)).cell i hlen j]
    exact (if_pos hj).trans (congrArg (fun cell => some (cell.getD "")) hcell)

end CellQuery
