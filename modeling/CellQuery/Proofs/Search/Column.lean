import CellQuery.Proofs.Search.Match
import CellQuery.Proofs.Table.Selection

/-!
# Matching in some of the columns

A selection that was made from a table names columns of it, at least one unless there are none. So a
search reads the cells at these columns and no others (`Selection.Normal.mem_cellsAt`), and a row
matches a keyword if it does in one of the columns by itself
(`Selection.Normal.matchRow_iff_exists`).
-/

namespace CellQuery

/-- A search reads the cells at the indexes of the selection, also where these are none. -/
theorem Selection.Normal.mem_cellsAt {s : Selection} {cells : List String} {cell : String}
    (hs : s.Normal cells.length) : cell ∈ cellsAt cells (s.indexes cells.length) ↔
      ∃ c ∈ s.indexes cells.length, cells[c]? = some cell := by
  unfold cellsAt
  split
  · next hempty =>
    rw [List.isEmpty_iff] at hempty
    have hcells : cells = [] := by
      cases s with
      | all => simpa [indexes] using hempty
      | only indexes => exact absurd hempty hs.2.2.1
    simp [hcells]
  · exact List.mem_filterMap

theorem mem_cellsAt_all {cells : List String} {cell : String} :
    cell ∈ cellsAt cells (Selection.all.indexes cells.length) ↔ cell ∈ cells := by
  rw [Selection.normal_all.mem_cellsAt, List.mem_iff_getElem?]
  constructor
  · rintro ⟨c, -, hcell⟩
    exact ⟨c, hcell⟩
  · rintro ⟨c, hcell⟩
    exact ⟨c, List.mem_range.mpr (List.getElem?_eq_some_iff.mp hcell).1, hcell⟩

theorem mem_cellsAt_singleton {cells : List String} {c : Nat} {cell : String} :
    cell ∈ cellsAt cells [c] ↔ cells[c]? = some cell := by
  simp [cellsAt]

/-- A row matches in the columns of a selection if it matches in one of them. -/
theorem Selection.Normal.matchRow_iff_exists {s : Selection} {t : Table} {row : Nat}
    {keyword : String} {o : Options} (hs : s.Normal t.columnCount) :
    matchRow (.ofTable t) row keyword o (s.indexes t.columnCount) = true ↔
      ∃ c ∈ s.indexes t.columnCount, matchRow (.ofTable t) row keyword o [c] = true := by
  simp only [matchRow_iff, mem_cellsAt_singleton]
  constructor
  · rintro ⟨hk, cells, hcells, cell, hcell, hacc⟩
    rw [← Table.length_row hcells] at hs hcell ⊢
    obtain ⟨c, hc, hget⟩ := hs.mem_cellsAt.mp hcell
    exact ⟨c, hc, hk, cells, hcells, cell, hget, hacc⟩
  · rintro ⟨c, hc, hk, cells, hcells, cell, hget, hacc⟩
    rw [← Table.length_row hcells] at hs hc ⊢
    exact ⟨hk, cells, hcells, cell, hs.mem_cellsAt.mpr ⟨c, hc, hget⟩, hacc⟩

end CellQuery
