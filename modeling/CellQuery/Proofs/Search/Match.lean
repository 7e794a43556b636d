import CellQuery.Search.Match

/-!
# What a match is

Rows are compared in the form that the options ask for, and nothing is lost by that: normalizing a
text leaves it empty only if it was. So a row of a table matches a keyword if one of its cells, as
it stands in the table, is accepted for the keyword (`matchRow_iff`).
-/

namespace CellQuery

open Text

/-! ### Needles -/

namespace Options

theorem image_ne_nil (o : Options) (c : Char) : o.image c ≠ [] := by
  unfold image
  split
  · simp
  · exact lowerChar_ne_nil c

theorem normalizeChars_eq_nil {o : Options} {cs : List Char} :
    o.normalizeChars cs = [] ↔ cs = [] := by
  rw [normalizeChars, List.flatMap_eq_nil_iff]
  constructor
  · intro h
    cases cs with
    | nil => rfl
    | cons c cs => exact absurd (h c (by simp)) (o.image_ne_nil c)
  · rintro rfl
    simp

theorem isEmpty_normalize (o : Options) (s : String) : (o.normalize s).isEmpty = s.isEmpty := by
  rw [Bool.eq_iff_iff, String.isEmpty_iff, String.isEmpty_iff, ← String.toList_eq_nil_iff,
    ← String.toList_eq_nil_iff, toList_normalize, normalizeChars_eq_nil]

/-- Nothing but an empty needle is a hit in an empty cell. -/
theorem isEmpty_cell_of_accepts {o : Options} {cell needle : String}
    (h : o.accepts cell needle = true) (hn : needle.isEmpty = false) : cell.isEmpty = false := by
  refine Bool.eq_false_iff.mpr fun hc => ?_
  rw [String.isEmpty_iff] at hc
  subst hc
  unfold accepts at h
  split at h
  · rw [← eq_of_beq h] at hn
    cases hn
  · have hnil : needle.toList = [] := by simpa [occursIn] using h
    rw [String.toList_eq_nil_iff] at hnil
    subst hnil
    cases hn

/-- Where a cell contains a text, it contains every part of it. -/
theorem accepts_of_infix {o : Options} (ho : o.exactMatch = false) {cell s t : String}
    (hst : s.toList <:+: t.toList) (h : o.accepts cell (o.normalize t) = true) :
    o.accepts cell (o.normalize s) = true := by
  obtain ⟨before, after, hst⟩ := hst
  have hpart : o.normalizeChars s.toList <:+: o.normalizeChars t.toList :=
    ⟨o.normalizeChars before, o.normalizeChars after, by simp [← hst]⟩
  simp only [accepts, ho, Bool.false_eq_true, if_false, toList_normalize, occursIn_iff_infix] at h ⊢
  exact hpart.trans h

end Options

/-! ### Rows -/

theorem row?_ofTable (t : Table) (row : Nat) (caseSensitive : Bool) :
    (Grid.ofTable t).row? row caseSensitive =
      t.rows[row]?.map fun cells => if caseSensitive then cells else cells.map lowercase := by
  cases caseSensitive <;> simp [Grid.row?, Grid.compared, Grid.ofTable]

theorem compared_cells (o : Options) (cells : List String) :
    (if o.caseSensitive then cells else cells.map lowercase) = cells.map o.normalize := by
  split
  · next h => simp [funext (Options.normalize_of_caseSensitive h)]
  · next h => rw [funext (Options.normalize_of_not_caseSensitive (Bool.eq_false_iff.mpr h))]

theorem cellsAt_map (f : String → String) (cells : List String) (columns : List Nat) :
    cellsAt (cells.map f) columns = (cellsAt cells columns).map f := by
  unfold cellsAt
  split
  · rfl
  · rw [List.map_filterMap]
    simp

/-- A row of a table matches a keyword that is not empty, if one of the cells to look at is accepted
for it. -/
theorem matchRow_iff {t : Table} {row : Nat} {keyword : String} {o : Options}
    {columns : List Nat} : matchRow (.ofTable t) row keyword o columns = true ↔
      keyword.isEmpty = false ∧ ∃ cells, t.rows[row]? = some cells ∧
        ∃ cell ∈ cellsAt cells columns, o.accepts (o.normalize cell) (o.normalize keyword) = true := by
  rw [matchRow, row?_ofTable]
  cases hr : t.rows[row]? with
  | none => simp
  | some cells =>
    simp only [Option.map_some, compared_cells, cellsMatch, cellsAt_map, Bool.and_eq_true,
      Bool.not_eq_true', o.isEmpty_normalize, List.any_map, List.any_eq_true,
      Function.comp_apply, Option.some.injEq, exists_eq_left']
    constructor
    · rintro ⟨hk, cell, hcell, -, hacc⟩
      exact ⟨hk, cell, hcell, hacc⟩
    · rintro ⟨hk, cell, hcell, hacc⟩
      have hn : (o.normalize keyword).isEmpty = false := by rw [o.isEmpty_normalize, hk]
      have hne := Options.isEmpty_cell_of_accepts hacc hn
      rw [o.isEmpty_normalize] at hne
      exact ⟨hk, cell, hcell, hne, hacc⟩

end CellQuery
