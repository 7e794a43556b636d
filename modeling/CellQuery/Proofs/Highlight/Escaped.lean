import CellQuery.Proofs.Highlight.Runs
import CellQuery.Proofs.Text.Entity

/-!
# Marked text without its marks

A marked text is made of pieces, some taken from the text and some put in around the marks
(`Division.pieces`). Without those that were put in it is what the style writes for the whole text,
since writing the parts of a text one by one is writing the text (`kept_pieces`). So text that was
escaped and marked at any spans is read back like text that was only escaped. Where the delimiters
are tags, it is even seen in the marked text what was put in (`outsideTags_render`).
-/

namespace CellQuery

open Text

/-! ### Pieces -/

/-- A piece of a marked text: written for a part of the text, or put in. -/
inductive MarkedPiece where
  | written (cs : List Char)
  | inserted (cs : List Char)
  deriving DecidableEq, Repr

namespace MarkedPiece

/-- The text of a piece. -/
def chars : MarkedPiece → List Char
  | written cs => cs
  | inserted cs => cs

/-- What stays of a piece when nothing is put in. -/
def kept : MarkedPiece → List Char
  | written cs => cs
  | inserted _ => []

/-- What is put in. -/
def inserted? : MarkedPiece → Option (List Char)
  | written _ => none
  | inserted cs => some cs

end MarkedPiece

namespace Division

variable {style : Style} (d : Division)

/-- The pieces of a marked text, in order. -/
def pieces (style : Style) (d : Division) : List MarkedPiece :=
  (d.marks.flatMap fun (before, marked) =>
    [.written (style.writeChars before), .inserted style.opening.toList,
      .written (style.writeChars marked), .inserted style.closing.toList]) ++
  [.written (style.writeChars d.rest)]

theorem chars_pieces : (d.pieces style).flatMap MarkedPiece.chars = d.render style := by
  simp [pieces, render, MarkedPiece.chars, List.flatMap_assoc]

/-- The pieces that were put in are an opening and a closing delimiter for each mark. -/
theorem inserted_pieces : (d.pieces style).filterMap MarkedPiece.inserted? =
    d.marks.flatMap fun _ => [style.opening.toList, style.closing.toList] := by
  simp [pieces, List.filterMap_flatMap, List.filterMap_cons, MarkedPiece.inserted?]

theorem kept_pieces : (d.pieces style).flatMap MarkedPiece.kept = style.writeChars d.text := by
  obtain ⟨marks, rest⟩ := d
  induction marks with
  | nil => simp [pieces, text, MarkedPiece.kept]
  | cons mark marks ih =>
    simp only [pieces, text, List.flatMap_cons, List.flatMap_append, Style.writeChars_append,
      List.append_assoc] at ih ⊢
    rw [ih]
    simp [MarkedPiece.kept]

/-- Escaped text has no tags, so they are all delimiters. -/
theorem outsideTags_render (hescapes : style.escapes = true) (hopening : IsTag style.opening)
    (hclosing : IsTag style.closing) : outsideTags false (d.render style) = style.writeChars d.text := by
  have hwritten : ∀ cs rest, outsideTags false (style.writeChars cs ++ rest) =
      style.writeChars cs ++ outsideTags false rest := by
    intro cs rest
    refine outsideTags_append ?_ rest
    rw [Style.writeChars, if_pos hescapes]
    exact notMem_escapeChars (by decide) (by decide) cs
  obtain ⟨marks, rest⟩ := d
  induction marks with
  | nil =>
    have hrest := hwritten rest []
    rw [List.append_nil, outsideTags, List.append_nil] at hrest
    exact hrest
  | cons mark marks ih =>
    simp only [render, text, List.flatMap_cons, Style.writeChars_append, List.append_assoc] at ih ⊢
    rw [hwritten, outsideTags_tag hopening, hwritten, outsideTags_tag hclosing, ih]

end Division

/-! ### Escaping and marking -/

/-- **Escaping is safe and reversible.** Escaped text has no special character in it, except for
ampersands that begin entities. Its entities are read back as the text, so no other text is escaped
alike, and parts are escaped one by one. Marked at any spans, it is pieces, and those that are put
in are delimiters, two for each mark. Without them it is the escaped text, and is read back as the
text; where they are tags, this is so for whatever has no tags in it. -/
theorem escaping_reversible (text : String) :
    (∀ c ∈ ['<', '>', '"', '\''], c ∉ (escape text).toList) ∧
    (∀ front back, (escape text).toList = front ++ '&' :: back →
      ∃ e ∈ entities, e.toList <+: '&' :: back) ∧
    unescape (escape text) = text ∧
    (∀ other, escape other = escape text → other = text) ∧
    (∀ more, escape (text ++ more) = escape text ++ escape more) ∧
    ∀ (spans : List Span) (style : Style), style.escapes = true →
      let d := divide text.toList spans
      let marked := renderMarked text spans style
      let plain := String.ofList ((d.pieces style).flatMap MarkedPiece.kept)
      marked = .ofList ((d.pieces style).flatMap MarkedPiece.chars) ∧
      (d.pieces style).filterMap MarkedPiece.inserted? =
        d.marks.flatMap (fun _ => [style.opening.toList, style.closing.toList]) ∧
      plain = escape text ∧ unescape plain = text ∧
      (IsTag style.opening → IsTag style.closing → outsideTags false marked.toList = plain.toList) := by
  refine ⟨fun c hc => ?_, fun front back h => ?_, unescape_escape text, fun other h => ?_,
    fun more => ?_, fun spans style hescapes => ?_⟩
  · rw [toList_escape]
    have hspecial : ∀ c ∈ ['<', '>', '"', '\''], c ∈ specials ∧ c ≠ '&' := by simp [specials]
    exact notMem_escapeChars (hspecial c hc).1 (hspecial c hc).2 _
  · rw [toList_escape] at h
    exact exists_entity_of_ampersand h
  -- of two texts that are escaped alike, reading back gives the same
  · rw [← unescape_escape other, h, unescape_escape]
  · rw [escape, String.toList_append, escapeChars_append, String.ofList_append]
    rfl
  · intro d marked plain
    -- the parts of a division are the text, so what is written of them is the escaped text
    have hwritten : style.writeChars d.text = escapeChars text.toList := by
      rw [text_divide, Style.writeChars, if_pos hescapes]
    have hplain : plain = escape text := by
      rw [escape, ← hwritten, ← d.kept_pieces]
    refine ⟨?_, d.inserted_pieces, hplain, ?_, fun hopening hclosing => ?_⟩
    · rw [d.chars_pieces]
      rfl
    · rw [hplain, unescape_escape]
    · rw [hplain, toList_escape, ← hwritten, ← d.outsideTags_render hescapes hopening hclosing]
      exact congrArg _ String.toList_ofList

/-- The text has an entity, a delimiter and a quote in it, and is marked across the entity, inside
of it and at a span that does not count. -/
theorem escaping_reversible_marked :
    let text := "&lt;<mark>\""
    let spans : List Span := [⟨1, 3⟩, ⟨2, 6⟩, ⟨4, 10⟩]
    let marked := renderMarked text spans .page
    marked = "&amp;<mark>lt</mark>;<mark>&lt;mark&gt;</mark>&quot;" ∧
      escape text = "&amp;lt;&lt;mark&gt;&quot;" ∧
      (escape text).toList = "&amp;lt;".toList ++ '&' :: "lt;mark&gt;&quot;".toList ∧
      (∃ e ∈ entities, e.toList <+: '&' :: "lt;mark&gt;&quot;".toList) ∧
      Style.page.escapes = true ∧ IsTag Style.page.opening ∧ IsTag Style.page.closing ∧
      outsideTags false marked.toList = (escape text).toList ∧
      unescape (.ofList (outsideTags false marked.toList)) = text := by
  intro text spans marked
  have hmarked : marked = "&amp;<mark>lt</mark>;<mark>&lt;mark&gt;</mark>&quot;" := by decide +kernel
  have hescape : escape text = "&amp;lt;&lt;mark&gt;&quot;" := by decide +kernel
  have hfront : (escape text).toList = "&amp;lt;".toList ++ '&' :: "lt;mark&gt;&quot;".toList := by
    rw [hescape]
    decide +kernel
  have hopening : IsTag Style.page.opening := ⟨"mark".toList, by decide, by decide⟩
  have hclosing : IsTag Style.page.closing := ⟨"/mark".toList, by decide, by decide⟩
  obtain ⟨-, hentity, -, -, -, hrender⟩ := escaping_reversible text
  obtain ⟨-, -, hplain, hread, htags⟩ := hrender spans .page rfl
  have houtside := htags hopening hclosing
  rw [hplain] at hread houtside
  refine ⟨hmarked, hescape, hfront, hentity _ _ hfront, rfl, hopening, hclosing, houtside, ?_⟩
  rw [houtside, String.ofList_toList, hread]

end CellQuery
