import CellQuery.Proofs.Json.Kept
import CellQuery.Proofs.Lexer.Splitting
import CellQuery.Proofs.Search.Match
import CellQuery.Proofs.Search.Meaning
import CellQuery.Proofs.Table.Draft

/-!
# Literals in cells

A number or boolean of a file is read as a value, and its cell shows the literal that is written for
this value: always a literal that stands for the value, and the literal of the file exactly if that
one is kept (`Json.Literal.Kept`). A literal is one word of a query, and no keyword
(`Json.Literal.tokenize_spelling`), so an exact search for it finds the cells that show it.
-/

namespace CellQuery

open Json

/-! ### Literals as words -/

namespace Json

variable {c : Char}

theorem isWordChar_of_isDigit (h : c.isDigit = true) : isWordChar c = true := by
  refine isWordChar_of_continuesKeyword ?_
  rw [continuesKeyword, Char.isAlphanum, h, Bool.or_true, Bool.true_or]

theorem isWordChar_of_mem_fraction {fraction : Option (List Char)}
    (h : ∀ ds ∈ fraction, IsDigits ds) (hc : c ∈ fractionSpelling fraction) :
    isWordChar c = true := by
  cases fraction with
  | none => cases hc
  | some ds =>
    rcases List.mem_cons.mp hc with rfl | hc
    · decide
    · exact isWordChar_of_isDigit ((h ds rfl).2 c hc)

theorem isWordChar_of_mem_exponent {exponent : Option Exponent}
    (h : ∀ e ∈ exponent, e.WellFormed) (hc : c ∈ exponentSpelling exponent) :
    isWordChar c = true := by
  cases exponent with
  | none => cases hc
  | some e =>
    obtain ⟨hmark, hsign, hdigits⟩ := h e rfl
    rcases List.mem_cons.mp hc with rfl | hc
    · rcases hmark with h | h <;> rw [h] <;> decide
    · rcases List.mem_append.mp hc with hc | hc
      · rcases hsign c (Option.mem_toList.mp hc) with rfl | rfl <;> decide
      · exact isWordChar_of_isDigit (hdigits.2 c hc)

namespace Literal

variable {l : Literal}

theorem isWordChar_of_mem_spelling (h : l.WellFormed) (hc : c ∈ l.spelling) :
    isWordChar c = true := by
  cases l with
  | bool b =>
    have hall : (bool b).spelling.all isWordChar = true := by cases b <;> decide
    exact List.all_eq_true.mp hall c hc
  | numeral n =>
    have hc : c ∈ n.spelling := hc
    rw [n.spelling_eq, Numeral.unsigned] at hc
    rcases List.mem_append.mp hc with hc | hc
    · obtain rfl : c = '-' := by
        split at hc
        · exact List.mem_singleton.mp hc
        · cases hc
      decide
    · rcases List.mem_append.mp hc with hc | hc
      · exact isWordChar_of_isDigit (h.whole.1.2 c hc)
      · rcases List.mem_append.mp hc with hc | hc
        · exact isWordChar_of_mem_fraction h.fraction hc
        · exact isWordChar_of_mem_exponent h.exponent hc

/-- No keyword begins with a digit. -/
theorem head?_ne_of_isDigit (h : c.isDigit = true) :
    ∀ op ∈ Operator.keywords, op.text.toList.head? ≠ some c.toUpper := by
  have hupper : ∀ op ∈ Operator.keywords, op.text.toList.head?.all Char.isUpper = true := by decide
  intro op hop hhead
  have halpha := hupper op hop
  rw [hhead, Option.all_some, Char.isUpper_toUpper_eq_isAlpha] at halpha
  simp only [Char.isAlpha, Char.isUpper, Char.isLower, Char.isDigit, Bool.or_eq_true,
    Bool.and_eq_true, decide_eq_true_eq, ge_iff_le, UInt32.le_iff_toNat_le] at h halpha
  have hnine : c.val.toNat ≤ 0x39 := h.2
  have hletter : 0x41 ≤ c.val.toNat := halpha.elim And.left fun hlower => Nat.le_trans (by decide) hlower.1
  omega

/-- A literal begins with neither a quote nor the first letter of a keyword. -/
theorem exists_head (h : l.WellFormed) : ∃ c cs, l.spelling = c :: cs ∧ c ≠ '"' ∧
    ∀ op ∈ Operator.keywords, op.text.toList.head? ≠ some c.toUpper := by
  cases l with
  | bool b => cases b <;> exact ⟨_, _, rfl, by decide, by decide⟩
  | numeral n =>
    obtain ⟨c, hc, hhead⟩ := head?_numeral h
    obtain ⟨cs, hcs⟩ := List.head?_eq_some_iff.mp hc
    refine ⟨c, cs, hcs, ?_⟩
    rcases hhead with rfl | hdigit
    · exact ⟨by decide, by decide⟩
    · refine ⟨fun hquote => ?_, head?_ne_of_isDigit hdigit⟩
      rw [hquote] at hdigit
      cases hdigit

/-- A literal is a word of a query. -/
theorem tokenize_spelling (h : l.WellFormed) :
    tokenize (.ofList l.spelling) = [.operand (.ofList l.spelling)] := by
  obtain ⟨c, cs, hspelling, hquote, hkeyword⟩ := exists_head h
  have hrun : ∀ d ∈ l.spelling, isWordChar d = true := fun d => isWordChar_of_mem_spelling h
  rw [hspelling] at hrun ⊢
  exact tokenize_word hrun hquote hkeyword

/-- Literals that are spelled alike as texts are one literal. -/
theorem eq_of_ofList_spelling {m : Literal} (hl : l.WellFormed) (hm : m.WellFormed)
    (h : String.ofList m.spelling = .ofList l.spelling) : m = l := by
  have hchars := congrArg String.toList h
  rw [String.toList_ofList, String.toList_ofList] at hchars
  exact spelling_injective hm hl hchars

/-- The cell that shows the value of a literal. -/
theorem cellText_of_value {v : Value} (h : l.value? = some v) : cellText v.cell? = v.toString := by
  cases l with
  | bool b =>
    obtain rfl := Option.some.inj h
    rfl
  | numeral n =>
    obtain ⟨x, -, rfl⟩ := Option.map_eq_some_iff.mp h
    rfl

end Literal

end Json

/-! ### Searching for a word -/

section Word

variable {t : Table} {word : String} {o : Options} {s : Selection} {i j : Nat}

theorem evaluateQuery_of_word (h : tokenize word = [.operand word]) (t : Table) (o : Options)
    (s : Selection) :
    evaluateQuery (.ofTable t) word o s = .ok (trueRows (.ofTable t) o s (.operand word)) := by
  have hderives : Derives .disjunction (.operand word) [.operand word] :=
    .ofConjunction (.ofFactor (.operand word))
  rw [evaluateQuery, h]
  exact evaluate_of_compile (compile_of_derives hderives) t o s

/-- The whole-cell search with regard to case. -/
def verbatim : Options where
  caseSensitive := true
  exactMatch := true

theorem accepts_verbatim {cell needle : String} :
    verbatim.accepts (verbatim.normalize cell) (verbatim.normalize needle) = true ↔ cell = needle := by
  rw [Options.normalize_of_caseSensitive rfl, Options.normalize_of_caseSensitive rfl,
    Options.accepts]
  exact beq_iff_eq

/-- A row is found by a word if one of the cells to look at is the word. -/
theorem mem_trueRows_verbatim (hword : word.isEmpty = false) :
    i ∈ trueRows (.ofTable t) verbatim s (.operand word) ↔
      ∃ cells, t.rows[i]? = some cells ∧ word ∈ cellsAt cells (s.indexes t.columnCount) := by
  rw [mem_trueRows, Expr.eval, matchRow_iff]
  simp only [accepts_verbatim, exists_eq_right]
  constructor
  · rintro ⟨-, -, cells, hcells, hmem⟩
    exact ⟨cells, hcells, hmem⟩
  · rintro ⟨cells, hcells, hmem⟩
    exact ⟨(List.getElem?_eq_some_iff.mp hcells).1, hword, cells, hcells, hmem⟩

theorem mem_cellsAt {cells : List String} {columns : List Nat} (hne : columns ≠ []) :
    word ∈ cellsAt cells columns ↔ ∃ j ∈ columns, cells[j]? = some word := by
  rw [cellsAt, if_neg (by simpa using hne), List.mem_filterMap]

/-- Which rows a word finds in the columns of a selection that has some. -/
theorem mem_trueRows_verbatim_iff (hword : word.isEmpty = false)
    (hne : s.indexes t.columnCount ≠ []) :
    i ∈ trueRows (.ofTable t) verbatim s (.operand word) ↔
      ∃ j ∈ s.indexes t.columnCount, cellAt? t.rows i j = some word := by
  rw [mem_trueRows_verbatim hword]
  simp only [mem_cellsAt hne, cellAt?, Option.bind_eq_some_iff]
  constructor
  · rintro ⟨cells, hcells, j, hj, hcell⟩
    exact ⟨j, hj, cells, hcells, hcell⟩
  · rintro ⟨j, hj, cells, hcells, hcell⟩
    exact ⟨cells, hcells, j, hj, hcell⟩

end Word

/-! ### Literals in cells -/

theorem Json.Literal.isEmpty_spelling {l : Literal} (h : l.WellFormed) :
    (String.ofList l.spelling).isEmpty = false := by
  obtain ⟨c, cs, hspelling, -⟩ := exists_head h
  rw [hspelling, Bool.eq_false_iff, ne_eq, String.isEmpty_iff, ← String.toList_eq_nil_iff,
    String.toList_ofList]
  exact List.cons_ne_nil c cs

/-- **Literals in cells.** A cell that is written as a literal shows a literal that stands for the
value read, and the characters of the file exactly if their literal is kept. Then an exact search
for these characters finds the row in whatever columns are searched with this one, and in this one
alone it finds the row only then. Ordinary literals are kept. -/
theorem literals_kept {text : String} {t : Table} (h : Table.parse text = .ok t) :
    ∃ draft, Draft.ofText? text = some draft ∧ (0 < t.columnCount → t.size = draft.body.length) ∧
      ∀ (i j : Nat) (l : Literal), draft.literalAt? i j = some l → j < t.columnCount →
        l.WellFormed ∧ l.spelling <:+: text.toList ∧
        (∃ (m : Literal) (v : Value), m.WellFormed ∧ l.value? = some v ∧ m.Denotes v ∧
          cellAt? t.rows i j = some (.ofList m.spelling)) ∧
        (cellAt? t.rows i j = some (.ofList l.spelling) ↔ l.Kept) ∧ (l.Ordinary → l.Kept) ∧
        ∀ s : Selection, j ∈ s.indexes t.columnCount →
          ∃ rows, evaluateQuery (.ofTable t) (.ofList l.spelling) verbatim s = .ok rows ∧
            (l.Kept → i ∈ rows) ∧ (s = .only [j] → i ∈ rows → l.Kept) := by
  obtain ⟨draft, hdraft, hsize, hcells⟩ := Table.exists_draft h
  refine ⟨draft, hdraft, hsize, fun i j l hl hj => ?_⟩
  rw [Draft.literalAt?_eq_some_iff] at hl
  obtain ⟨hwell, hinfix⟩ := Draft.spelled hdraft hl l.mem_literals_tree
  obtain ⟨v, ⟨depth, hstands⟩, hcell⟩ := hcells i j _ hl hj
  rw [Literal.valueWithin?_tree] at hstands
  rw [Literal.cellText_of_value hstands] at hcell
  obtain ⟨m, hm, hdenotes, hwritten, hkept⟩ := Literal.exists_written hwell hstands
  rw [hwritten] at hcell
  have hshown : cellAt? t.rows i j = some (.ofList l.spelling) ↔ l.Kept := by
    rw [hcell, Option.some.injEq, ← hkept]
    exact ⟨Literal.eq_of_ofList_spelling hwell hm, fun heq => heq ▸ rfl⟩
  refine ⟨hwell, hinfix, ⟨m, v, hm, hstands, hdenotes, hcell⟩, hshown,
    fun hordinary => hordinary.kept hwell hstands, fun s hs => ?_⟩
  have hfound := mem_trueRows_verbatim_iff (t := t) (s := s) (i := i) (Literal.isEmpty_spelling hwell)
    (List.ne_nil_of_mem hs)
  refine ⟨_, evaluateQuery_of_word (Literal.tokenize_spelling hwell) t verbatim s, fun hk => ?_, ?_⟩
  · exact hfound.mpr ⟨j, hs, hshown.mpr hk⟩
  · rintro rfl hi
    obtain ⟨k, hk, hword⟩ := hfound.mp hi
    obtain rfl := List.mem_singleton.mp hk
    exact hshown.mp hword

/-- Amounts that are kept, one that is written with a digit more than its cell has, and one that is
read as a neighbour of the number nearest to it. -/
theorem literals_kept_amounts :
    let text :=
      "[[\"Amount\",\"Paid\"],[12.75,true],[1e+22,false],[2.50,true],[8000000000000100.0,false]]"
    let t := Table.ofRecords ["Amount", "Paid"]
      [[some "12.75", some "true"], [some "1e+22", some "false"], [some "2.5", some "true"],
        [some "8000000000000099.0", some "false"]]
    let plain := Literal.numeral ⟨false, ['1', '2'], some ['7', '5'], none⟩
    let large := Literal.numeral ⟨false, ['1'], none, some ⟨'e', some '+', ['2', '2']⟩⟩
    let padded := Literal.numeral ⟨false, ['2'], some ['5', '0'], none⟩
    let long := Literal.numeral ⟨false, "8000000000000100".toList, some ['0'], none⟩
    Table.parse text = .ok t ∧ 0 < t.columnCount ∧
      ∃ draft, Draft.ofText? text = some draft ∧ draft.body.length = 4 ∧
        draft.literalAt? 0 0 = some plain ∧ plain.Ordinary ∧ plain.Kept ∧
        draft.literalAt? 1 0 = some large ∧ large.Ordinary ∧ large.Kept ∧
        (∃ rows, evaluateQuery (.ofTable t) "1e+22" verbatim .all = .ok rows ∧ 1 ∈ rows) ∧
        draft.literalAt? 2 0 = some padded ∧ ¬padded.Kept ∧
        (∃ rows, evaluateQuery (.ofTable t) "2.50" verbatim (.only [0]) = .ok rows ∧ 2 ∉ rows) ∧
        draft.literalAt? 3 0 = some long ∧ ¬long.Kept := by
  intro text t plain large padded long
  have hparse : Table.parse text = .ok t := by decide +kernel
  have hwritten : (Draft.ofText? text).map
      (fun d => [d.literalAt? 0 0, d.literalAt? 1 0, d.literalAt? 2 0, d.literalAt? 3 0]) =
        some [some plain, some large, some padded, some long] := by decide +kernel
  obtain ⟨draft, hdraft, hsize, hall⟩ := literals_kept hparse
  rw [hdraft, Option.map_some, Option.some.injEq] at hwritten
  simp only [List.cons.injEq, and_true] at hwritten
  obtain ⟨hplain, hlarge, hpadded, hlong⟩ := hwritten
  obtain ⟨-, -, -, -, hkept, -⟩ := hall 0 0 plain hplain (by decide)
  obtain ⟨-, -, -, -, hkept', hfind⟩ := hall 1 0 large hlarge (by decide)
  obtain ⟨-, -, -, hshown, -, hfind'⟩ := hall 2 0 padded hpadded (by decide)
  obtain ⟨-, -, -, hshown', -, -⟩ := hall 3 0 long hlong (by decide)
  have hordinary : plain.Ordinary :=
    .small (.plain (by decide) nofun (.inr (by decide))) (by decide) (by decide) (by decide +kernel)
  have hordinary' : large.Ordinary :=
    .small (.scientific (by decide) nofun ⟨rfl, rfl, by decide, by decide⟩) (by decide) (by decide)
      (by decide +kernel)
  have hnot : ¬padded.Kept := fun h => absurd (hshown.mpr h) (by decide +kernel)
  have hnot' : ¬long.Kept := fun h => absurd (hshown'.mpr h) (by decide +kernel)
  obtain ⟨rows, hrows, hmem, -⟩ := hfind .all (by decide)
  obtain ⟨rows', hrows', -, hmem'⟩ := hfind' (.only [0]) (by decide)
  exact ⟨hparse, by decide, draft, hdraft, (hsize (by decide)).symm, hplain, hordinary,
    hkept hordinary, hlarge, hordinary', hkept' hordinary', ⟨rows, hrows, hmem (hkept' hordinary')⟩,
    hpadded, hnot, ⟨rows', hrows', fun hi => hnot (hmem' rfl hi)⟩, hlong, hnot'⟩

/-- An amount with a zero at the end. The cell has lost the zero, and a search for the amount as it
is written finds nothing. -/
theorem amount_not_kept :
    let text := "[[\"Amount\"], [2.50]]"
    let t := Table.ofRecords ["Amount"] [[some "2.5"]]
    Table.parse text = .ok t ∧
      (Draft.ofText? text).bind (·.literalAt? 0 0) =
        some (.numeral ⟨false, ['2'], some ['5', '0'], none⟩) ∧
      0 < t.columnCount ∧ cellAt? t.rows 0 0 = some "2.5" ∧
      evaluateQuery (.ofTable t) "2.50" verbatim .all = .ok [] := by
  decide +kernel

end CellQuery
