import CellQuery.Proofs.Search.Acceptance
import CellQuery.Proofs.Search.Column
import CellQuery.Proofs.Table.Shape

/-!
# Searching one side of a comparison

Each of two tables next to each other keeps its cells: they stand in a block of columns of the
comparison, with blank cells below them where the other table is longer (`Table.Within`). A blank
cell is no hit. So a search of one block finds of the rows of its table what a search of that table
alone finds, and the rows below are all answers or none is, as the query is true or not where it
finds nothing (`evaluate_side`).
-/

namespace CellQuery

/-! ### Blocks of columns -/

/-- The cells of `t` stand in `wide` from the column `offset` on, above blank cells. -/
structure Table.Within (t wide : Table) (offset : Nat) : Prop where
  columnCount_le : offset + t.columnCount ≤ wide.columnCount
  size_le : t.size ≤ wide.size
  cells : ∀ {row : Nat} {cells : List String}, wide.rows[row]? = some cells →
    ∀ c < t.columnCount, cells[offset + c]? = (t.rowOrBlank row)[c]?

namespace Table

theorem within_sideBySide_left (r c : Table) : r.Within (sideBySide r c) 0 where
  columnCount_le := by
    rw [columnCount_sideBySide]
    omega
  size_le := by
    rw [size_sideBySide]
    exact Nat.le_max_left _ _
  cells hrow i hi := by
    rw [row_sideBySide hrow, Nat.zero_add]
    exact List.getElem?_append_left (Nat.lt_of_lt_of_eq hi (r.length_rowOrBlank _).symm)

theorem within_sideBySide_right (r c : Table) : c.Within (sideBySide r c) r.columnCount where
  columnCount_le := Nat.le_of_eq (columnCount_sideBySide r c).symm
  size_le := by
    rw [size_sideBySide]
    exact Nat.le_max_right _ _
  cells hrow i hi := by
    rw [row_sideBySide hrow, List.getElem?_append_right, length_rowOrBlank, Nat.add_sub_cancel_left]
    rw [length_rowOrBlank]
    exact Nat.le_add_right _ _

end Table

/-! ### Selecting a block -/

/-- The selection of the columns of a table from the column `offset` on, out of `count`. -/
def Table.block (t : Table) (offset count : Nat) : Selection :=
  .ofIndexes (List.range' offset t.columnCount) count

namespace Table.Within

variable {t wide : Table} {offset : Nat} (h : t.Within wide offset)
include h

/-- A block that is all of the table is no restriction, and has the same columns. -/
theorem mem_block (hpos : 0 < t.columnCount) {c : Nat} :
    c ∈ (t.block offset wide.columnCount).indexes wide.columnCount ↔
      ∃ i < t.columnCount, c = offset + i := by
  have hle := h.columnCount_le
  have hlt : ∀ i ∈ List.range' offset t.columnCount, i < wide.columnCount := by
    intro i hi
    have hi := (List.mem_range'_1.mp hi).2
    omega
  have hblock : c ∈ List.range' offset t.columnCount ↔ ∃ i < t.columnCount, c = offset + i := by
    rw [List.mem_range'_1]
    constructor
    · rintro ⟨hge, hbelow⟩
      exact ⟨c - offset, by omega, by omega⟩
    · rintro ⟨i, hi, rfl⟩
      omega
  rw [← hblock, block, Selection.ofIndexes_eq_normalized List.nodup_range' hlt,
    Selection.normalized]
  split
  · next hall =>
    -- a block of all columns: the selection is no restriction
    have hempty : (List.range' offset t.columnCount).isEmpty = false := by
      rw [List.isEmpty_eq_false_iff, ← List.length_pos_iff, List.length_range']
      exact hpos
    simp only [hempty, Bool.false_or, decide_eq_true_eq, List.length_range'] at hall
    rw [Selection.indexes, List.mem_range, List.mem_range'_1]
    omega
  · rfl

/-- A search of the block reads the cells that the table has in this row, or blanks. -/
theorem mem_cellsAt_block (hpos : 0 < t.columnCount) {row : Nat} {cells : List String}
    (hrow : wide.rows[row]? = some cells) {cell : String} :
    cell ∈ cellsAt cells ((t.block offset wide.columnCount).indexes wide.columnCount) ↔
      cell ∈ t.rowOrBlank row := by
  have hlen := Table.length_row hrow
  have hnormal : (t.block offset wide.columnCount).Normal cells.length := by
    rw [hlen]
    exact Selection.normal_ofIndexes _ _
  have hread : cell ∈ cellsAt cells _ ↔ _ := hnormal.mem_cellsAt
  rw [hlen] at hread
  rw [hread, List.mem_iff_getElem?]
  constructor
  · rintro ⟨c, hc, hcell⟩
    obtain ⟨i, hi, rfl⟩ := (h.mem_block hpos).mp hc
    exact ⟨i, (h.cells hrow i hi).symm.trans hcell⟩
  · rintro ⟨i, hcell⟩
    have hi : i < t.columnCount :=
      Nat.lt_of_lt_of_eq (List.getElem?_eq_some_iff.mp hcell).1 (t.length_rowOrBlank row)
    exact ⟨offset + i, (h.mem_block hpos).mpr ⟨i, hi, rfl⟩, (h.cells hrow i hi).trans hcell⟩

/-- A keyword matches a row of the block if it matches this row of the table, which has to have
it. -/
theorem matchRow_block (hpos : 0 < t.columnCount) {row : Nat} (hrow : row < wide.size)
    (keyword : String) (o : Options) :
    matchRow (.ofTable wide) row keyword o
        ((t.block offset wide.columnCount).indexes wide.columnCount) =
      matchRow (.ofTable t) row keyword o (Selection.all.indexes t.columnCount) := by
  have hwide : wide.rows[row]? = some _ := List.getElem?_eq_getElem hrow
  rw [Bool.eq_iff_iff, matchRow_iff, matchRow_iff, hwide]
  simp only [Option.some.injEq, exists_eq_left', h.mem_cellsAt_block hpos hwide]
  refine and_congr_right fun hk => ?_
  cases ht : t.rows[row]? with
  | none =>
    -- the cells of the block are blank here, and no blank cell is a hit
    refine ⟨fun ⟨cell, hcell, hacc⟩ => ?_, nofun⟩
    rw [rowOrBlank, ht, Option.getD_none] at hcell
    have hneedle : (o.normalize keyword).isEmpty = false := by rw [o.isEmpty_normalize, hk]
    have hne := Options.isEmpty_cell_of_accepts hacc hneedle
    rw [List.eq_of_mem_replicate hcell, o.isEmpty_normalize] at hne
    cases hne
  | some cells =>
    simp only [rowOrBlank, ht, Option.getD_some, Option.some.injEq, exists_eq_left',
      ← Table.length_row ht, mem_cellsAt_all]

end Table.Within

/-! ### Searching a block -/

/-- What a search of the block of `t` from the column `offset` of `wide` on finds. Of the rows that
`t` has, these are those that a search of `t` alone finds. A row below them is found if the program
of the query is true of nothing at all. -/
def Table.SearchedAlone (t wide : Table) (offset : Nat) (ts : List Token) (o : Options) : Prop :=
  ∃ program rows alone, compile ts = .ok program ∧
    evaluate (.ofTable wide) ts o (t.block offset wide.columnCount) = .ok rows ∧
    evaluate (.ofTable t) ts o .all = .ok alone ∧
    (∀ i, i < t.size → (i ∈ rows ↔ i ∈ alone)) ∧
    ∀ i, t.size ≤ i → i < wide.size → (i ∈ rows ↔ run (fun _ => false) program = .ok true)

theorem Table.Within.searchedAlone {t wide : Table} {offset : Nat} (h : t.Within wide offset)
    (hpos : 0 < t.columnCount) {ts : List Token} (hts : Accepted ts) (o : Options) :
    t.SearchedAlone wide offset ts o := by
  obtain ⟨e, hcompile⟩ := accepted_iff_listing.mp hts
  refine ⟨e.postorder, _, _, hcompile, evaluate_of_compile hcompile wide o _,
    evaluate_of_compile hcompile t o .all, fun i hi => ?_, fun i hge hi => ?_⟩
  · have hwide := Nat.lt_of_lt_of_le hi h.size_le
    have hvalue := funext fun keyword => h.matchRow_block hpos hwide keyword o
    rw [mem_trueRows, mem_trueRows]
    exact and_congr (iff_of_true hwide hi) (iff_of_eq (congrArg (e.eval · = true) hvalue))
  · have hnone : t.rows[i]? = none := List.getElem?_eq_none hge
    have hvalue : (fun keyword => matchRow (.ofTable wide) i keyword o
        ((t.block offset wide.columnCount).indexes wide.columnCount)) = fun _ => false := by
      funext keyword
      rw [h.matchRow_block hpos hi, Bool.eq_false_iff]
      intro hmatch
      obtain ⟨-, cells, hcells, -⟩ := matchRow_iff.mp hmatch
      rw [hnone] at hcells
      cases hcells
    rw [mem_trueRows, run_postorder, Except.ok.injEq]
    exact (and_iff_right hi).trans (iff_of_eq (congrArg (e.eval · = true) hvalue))

/-- **Searching one side of a comparison.** A search of the columns that come from one table finds
of the rows of this table what a search of the table alone does. -/
theorem evaluate_side (r c : Table) {ts : List Token} (hts : Accepted ts) (o : Options) :
    (0 < c.columnCount → c.SearchedAlone (.sideBySide r c) r.columnCount ts o) ∧
      (0 < r.columnCount → r.SearchedAlone (.sideBySide r c) 0 ts o) :=
  ⟨fun hc => (Table.within_sideBySide_right r c).searchedAlone hc hts o,
    fun hr => (Table.within_sideBySide_left r c).searchedAlone hr hts o⟩

/-- `NOT b` is true of the row that only the other table has. -/
theorem evaluate_side_longer :
    let r := Table.ofRows [.single "A", .single "B"] [["b", "a"]]
    let c := Table.ofRows [.single "A"] [["a"], ["b"], ["ab"]]
    let both := Table.sideBySide r c
    let ts : List Token := [.operator .not, .operand "b"]
    Accepted ts ∧ 0 < c.columnCount ∧ 0 < r.columnCount ∧
      c.SearchedAlone both r.columnCount ts {} ∧ r.SearchedAlone both 0 ts {} ∧
      evaluate (.ofTable both) ts {} (c.block r.columnCount both.columnCount) = .ok [0] ∧
      evaluate (.ofTable c) ts {} .all = .ok [0] ∧
      evaluate (.ofTable both) ts {} (r.block 0 both.columnCount) = .ok [1, 2] ∧
      evaluate (.ofTable r) ts {} .all = .ok [] := by
  intro r c both ts
  have hts : Accepted ts := ⟨[.operand "b", .operator .not], rfl, rfl⟩
  have hc : 0 < c.columnCount := by decide
  have hr : 0 < r.columnCount := by decide
  obtain ⟨hcomparison, hreference⟩ := evaluate_side r c hts {}
  exact ⟨hts, hc, hr, hcomparison hc, hreference hr, by decide +kernel, by decide +kernel,
    by decide +kernel, by decide +kernel⟩

end CellQuery
