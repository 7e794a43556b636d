import CellQuery.Proofs.Postfix.Rearrangement
import CellQuery.Proofs.Search.Column
import CellQuery.Proofs.Search.Meaning

/-!
# Relaxing a search

Giving up the case or the whole cell, or searching more columns, turns no match into a miss
(`matchRow_relaxed`). A tree without `NOT` stays true when more of its operands become true
(`Expr.eval_mono`), so a query without `NOT` only gains rows (`evaluate_relaxed`).

What laxer options compare is made from what stricter ones compare, character by character
(`Options.RelaxesTo.exists_image`). A lower case that looked at the neighbours of a character would
not do: the part of a cell that the stricter options find could then be spelled differently in the
cell and in the needle.
-/

namespace CellQuery

open Text

/-! ### Options -/

/-- `o'` is `o` with the case, or whole cells, possibly given up. -/
structure Options.RelaxesTo (o o' : Options) : Prop where
  caseSensitive : o'.caseSensitive = true → o.caseSensitive = true
  exactMatch : o'.exactMatch = true → o.exactMatch = true

namespace Options.RelaxesTo

variable {o o' : Options} (h : o.RelaxesTo o')
include h

theorem exists_image :
    ∃ f : Char → List Char, ∀ cs, o'.normalizeChars cs = (o.normalizeChars cs).flatMap f := by
  -- with the case regarded, nothing is folded yet; without it, laxer options fold alike
  by_cases hc : o.caseSensitive = true
  · refine ⟨o'.image, fun cs => ?_⟩
    have himage : o.image = fun c => [c] := funext fun c => if_pos hc
    simp [normalizeChars, himage]
  · refine ⟨fun c => [c], fun cs => ?_⟩
    have himage : o'.image = o.image := by
      funext c
      rw [image, image, if_neg hc, if_neg (mt h.caseSensitive hc)]
    simp [normalizeChars, himage]

theorem accepts {cell needle : String}
    (hacc : o.accepts (o.normalize cell) (o.normalize needle) = true) :
    o'.accepts (o'.normalize cell) (o'.normalize needle) = true := by
  obtain ⟨f, hf⟩ := h.exists_image
  by_cases hexact : o.exactMatch = true
  · have hsame : o.normalizeChars cell.toList = o.normalizeChars needle.toList := by
      rw [Options.accepts, if_pos hexact] at hacc
      rw [← o.toList_normalize, eq_of_beq hacc, o.toList_normalize]
    have hsame' : o'.normalize cell = o'.normalize needle := by
      rw [normalize, normalize, hf, hf, hsame]
    unfold Options.accepts
    split
    · rw [hsame', beq_self_eq_true]
    · rw [hsame', occursIn_iff_infix]
  -- folding goes character by character, so it takes parts to parts
  · have hpart : o.normalizeChars needle.toList <:+: o.normalizeChars cell.toList := by
      rw [Options.accepts, if_neg hexact, occursIn_iff_infix] at hacc
      simpa using hacc
    obtain ⟨front, back, hcell⟩ := hpart
    rw [Options.accepts, if_neg (mt h.exactMatch hexact), occursIn_iff_infix, o'.toList_normalize,
      o'.toList_normalize, hf, hf, ← hcell]
    exact ⟨front.flatMap f, back.flatMap f, by simp⟩

end Options.RelaxesTo

/-! ### Columns -/

theorem matchRow_relaxed {t : Table} {row : Nat} {keyword : String} {o o' : Options}
    {s s' : Selection} (ho : o.RelaxesTo o') (hs : s.Normal t.columnCount)
    (hs' : s'.Normal t.columnCount) (hsub : s.indexes t.columnCount ⊆ s'.indexes t.columnCount)
    (h : matchRow (.ofTable t) row keyword o (s.indexes t.columnCount) = true) :
    matchRow (.ofTable t) row keyword o' (s'.indexes t.columnCount) = true := by
  obtain ⟨c, hc, hmatch⟩ := hs.matchRow_iff_exists.mp h
  refine hs'.matchRow_iff_exists.mpr ⟨c, hsub hc, ?_⟩
  obtain ⟨hk, cells, hcells, cell, hcell, hacc⟩ := matchRow_iff.mp hmatch
  exact matchRow_iff.mpr ⟨hk, cells, hcells, cell, hcell, ho.accepts hacc⟩

/-! ### Trees without NOT -/

theorem Expr.eval_mono {e : Expr} {value value' : String → Bool}
    (hnot : .operator .not ∉ e.postorder) (hv : ∀ k, value k = true → value' k = true)
    (h : e.eval value = true) : e.eval value' = true := by
  induction e with
  | operand s => exact hv s h
  | not e _ => simp [postorder] at hnot
  | and l r ihl ihr =>
    simp only [postorder, List.mem_append, not_or] at hnot
    simp only [eval, Bool.and_eq_true] at h ⊢
    exact ⟨ihl hnot.1.1 h.1, ihr hnot.1.2 h.2⟩
  | or l r ihl ihr =>
    simp only [postorder, List.mem_append, not_or] at hnot
    simp only [eval, Bool.or_eq_true] at h ⊢
    exact h.imp (ihl hnot.1.1) (ihr hnot.1.2)

/-- A true tree without `NOT` has a true operand. -/
theorem Expr.exists_operand_of_eval {e : Expr} {value : String → Bool}
    (hnot : .operator .not ∉ e.postorder) (h : e.eval value = true) :
    ∃ k, .operand k ∈ e.postorder ∧ value k = true := by
  induction e with
  | operand s => exact ⟨s, List.mem_singleton.mpr rfl, h⟩
  | not e _ => simp [postorder] at hnot
  | and l r ihl _ =>
    simp only [postorder, List.mem_append, not_or] at hnot
    simp only [eval, Bool.and_eq_true] at h
    obtain ⟨k, hk, hv⟩ := ihl hnot.1.1 h.1
    exact ⟨k, by simp [postorder, hk], hv⟩
  | or l r ihl ihr =>
    simp only [postorder, List.mem_append, not_or] at hnot
    simp only [eval, Bool.or_eq_true] at h
    rcases h with h | h
    · obtain ⟨k, hk, hv⟩ := ihl hnot.1.1 h
      exact ⟨k, by simp [postorder, hk], hv⟩
    · obtain ⟨k, hk, hv⟩ := ihr hnot.1.2 h
      exact ⟨k, by simp [postorder, hk], hv⟩

/-! ### Rows -/

/-- **Relaxing a search only adds rows.** For a query without `NOT`, the rows found by laxer options
in at least the same columns include the rows found before, in the same order. -/
theorem evaluate_relaxed {t : Table} {ts : List Token} {o o' : Options} {js js' rows : List Nat}
    (hnot : .operator .not ∉ ts) (ho : o.RelaxesTo o')
    (hs : (Selection.ofIndexes js t.columnCount).indexes t.columnCount ⊆
      (Selection.ofIndexes js' t.columnCount).indexes t.columnCount)
    (h : evaluate (.ofTable t) ts o (.ofIndexes js t.columnCount) = .ok rows) :
    ∃ rows', evaluate (.ofTable t) ts o' (.ofIndexes js' t.columnCount) = .ok rows' ∧
      rows.Sublist rows' := by
  by_cases hts : ts = []
  · subst hts
    exact ⟨rows, h, List.Sublist.refl rows⟩
  · obtain ⟨e, hc, rfl⟩ := exists_tree_of_evaluate hts h
    have hnot' : .operator .not ∉ e.postorder := mt (mem_compile_iff hc rfl).mp hnot
    refine ⟨_, evaluate_of_compile hc t o' _, List.monotone_filter_right _ fun i hi => ?_⟩
    have hnormal := Selection.normal_ofIndexes js t.columnCount
    have hnormal' := Selection.normal_ofIndexes js' t.columnCount
    exact e.eval_mono hnot' (fun k => matchRow_relaxed ho hnormal hnormal' hs) hi

/-- Both kinds of regard given up at once, and a column more. -/
theorem evaluate_relaxed_throughout :
    let t := Table.ofRows [.single "A", .single "B"] [["ab", "c"], ["AB c", "d"], ["d", "C"]]
    let ts : List Token := [.operand "ab", .operator .or, .operand "c"]
    let strict : Options := ⟨true, true⟩
    .operator .not ∉ ts ∧ strict.RelaxesTo {} ∧
      (Selection.ofIndexes [0] 2).indexes 2 ⊆ (Selection.ofIndexes [1, 0, 1] 2).indexes 2 ∧
      evaluate (.ofTable t) ts strict (.ofIndexes [0] 2) = .ok [0] ∧
      ∃ rows, evaluate (.ofTable t) ts {} (.ofIndexes [1, 0, 1] 2) = .ok rows ∧
        [0].Sublist rows ∧ rows = [0, 1, 2] := by
  intro t ts strict
  have hnot : .operator .not ∉ ts := by decide
  have ho : strict.RelaxesTo {} := ⟨fun _ => rfl, fun _ => rfl⟩
  have hs : (Selection.ofIndexes [0] 2).indexes 2 ⊆
      (Selection.ofIndexes [1, 0, 1] 2).indexes 2 := by decide
  have h : evaluate (.ofTable t) ts strict (.ofIndexes [0] 2) = .ok [0] := by rfl
  obtain ⟨rows, hrows, hsub⟩ := evaluate_relaxed (t := t) hnot ho hs h
  refine ⟨hnot, ho, hs, h, rows, hrows, hsub, ?_⟩
  have hall : evaluate (.ofTable t) ts {} (.ofIndexes [1, 0, 1] 2) = .ok [0, 1, 2] := by rfl
  exact Except.ok.inj (hrows.symm.trans hall)

end CellQuery
