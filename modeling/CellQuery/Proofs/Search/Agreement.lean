import CellQuery.Proofs.Search.Column
import CellQuery.Proofs.Search.Meaning

/-!
# Tables that agree in some columns

A search that is restricted to some columns reads nothing else. So two tables with the same cells in
these columns (`Table.AgreeOn`) match a keyword in the same rows (`matchRow_eq`), and a query finds
the same rows in both (`evaluate_eq`). The columns have to be some: naming none means all.
-/

namespace CellQuery

/-- The cell of a row in a column, if there is one. -/
def Table.cell? (t : Table) (row column : Nat) : Option String :=
  t.rows[row]?.bind (·[column]?)

/-- The same columns, as many rows, and the same cells in the columns `js`. -/
structure Table.AgreeOn (js : List Nat) (t t' : Table) : Prop where
  columns : t.columns = t'.columns
  size : t.size = t'.size
  cells : ∀ row, ∀ c ∈ js, t.cell? row c = t'.cell? row c

namespace Table.AgreeOn

variable {js : List Nat} {t t' : Table} (h : AgreeOn js t t')
include h

theorem symm : AgreeOn js t' t :=
  ⟨h.columns.symm, h.size.symm, fun row c hc => (h.cells row c hc).symm⟩

theorem columnCount : t.columnCount = t'.columnCount := congrArg List.length h.columns

theorem no_row {row : Nat} (hrow : t.rows[row]? = none) : t'.rows[row]? = none := by
  rw [List.getElem?_eq_none_iff] at hrow ⊢
  exact Nat.le_trans (Nat.le_of_eq h.size.symm) hrow

theorem exists_row {row : Nat} {cells : List String} (hrow : t.rows[row]? = some cells) :
    ∃ cells', t'.rows[row]? = some cells' ∧ ∀ c ∈ js, cells[c]? = cells'[c]? := by
  have hlt : row < t'.rows.length :=
    Nat.lt_of_lt_of_eq (List.getElem?_eq_some_iff.mp hrow).1 h.size
  have hrow' : t'.rows[row]? = some t'.rows[row] := List.getElem?_eq_getElem hlt
  refine ⟨_, hrow', fun c hc => ?_⟩
  have hcell := h.cells row c hc
  rwa [cell?, cell?, hrow, hrow', Option.bind_some, Option.bind_some] at hcell

theorem matchRow_imp {columns : List Nat} (hsub : columns ⊆ js) (hne : columns ≠ []) {row : Nat}
    {keyword : String} {o : Options} (hmatch : matchRow (.ofTable t) row keyword o columns = true) :
    matchRow (.ofTable t') row keyword o columns = true := by
  obtain ⟨hk, cells, hcells, cell, hcell, hacc⟩ := matchRow_iff.mp hmatch
  obtain ⟨cells', hcells', hagree⟩ := h.exists_row hcells
  have hempty : columns.isEmpty = false := by simpa using hne
  refine matchRow_iff.mpr ⟨hk, cells', hcells', cell, ?_, hacc⟩
  rw [cellsAt, hempty, if_neg Bool.false_ne_true, List.mem_filterMap] at hcell ⊢
  obtain ⟨c, hc, hget⟩ := hcell
  exact ⟨c, hc, hagree c (hsub hc) ▸ hget⟩

/-- A keyword matches both tables in the same rows, as far as these columns go. -/
theorem matchRow_eq {columns : List Nat} (hsub : columns ⊆ js) (hne : columns ≠ []) (row : Nat)
    (keyword : String) (o : Options) :
    matchRow (.ofTable t) row keyword o columns = matchRow (.ofTable t') row keyword o columns :=
  Bool.eq_iff_iff.mpr ⟨h.matchRow_imp hsub hne, h.symm.matchRow_imp hsub hne⟩

theorem evaluate_eq (hjs : js ≠ []) (tokens : List Token) (o : Options) :
    evaluate (.ofTable t) tokens o (.only js) = evaluate (.ofTable t') tokens o (.only js) := by
  have hrows : trueRows (.ofTable t) o (.only js) = trueRows (.ofTable t') o (.only js) := by
    funext e
    rw [trueRows, trueRows, size_ofTable, size_ofTable, h.size]
    refine List.filter_congr fun i _ => ?_
    congr 1
    funext keyword
    exact h.matchRow_eq (List.Subset.refl js) hjs i keyword o
  rw [CellQuery.evaluate_eq, CellQuery.evaluate_eq, h.size, hrows]

end Table.AgreeOn

end CellQuery
