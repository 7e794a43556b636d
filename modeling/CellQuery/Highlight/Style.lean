import CellQuery.Highlight.Find
import CellQuery.Text.Escape

/-!
# Marking up a cell

A cell is divided into the parts to mark and the text between them (`divide`), and a style says
how both are written. Dividing loses nothing: the parts in order are the cell again
(`text_divide`), whatever spans it is given.
-/

namespace CellQuery

open Text

/-! ### Styles -/

/-- What stands around a mark, and whether text is escaped for markup. -/
structure Style where
  opening : String
  closing : String
  escapes : Bool := true
  deriving DecidableEq, Repr

namespace Style

/-- The style of a page. -/
def page : Style :=
  ⟨"<mark>", "</mark>", true⟩

/-- The style of a terminal: bold yellow. -/
def terminal : Style :=
  ⟨"\x1b[1;33m", "\x1b[0m", false⟩

/-- A text as it stands in the output. -/
def writeChars (style : Style) (cs : List Char) : List Char :=
  if style.escapes then escapeChars cs else cs

/-- A text without marks. -/
def write (style : Style) (s : String) : String :=
  .ofList (style.writeChars s.toList)

@[simp] theorem writeChars_append (style : Style) (a b : List Char) :
    style.writeChars (a ++ b) = style.writeChars a ++ style.writeChars b := by
  unfold writeChars
  split <;> simp

end Style

/-! ### Divisions -/

/-- A text divided for marking: each marked part after the text before it, and what follows the
last one. -/
structure Division where
  marks : List (List Char × List Char)
  rest : List Char
  deriving DecidableEq, Repr

namespace Division

/-- The text that has been divided. -/
def text (d : Division) : List Char :=
  (d.marks.flatMap fun (before, marked) => before ++ marked) ++ d.rest

/-- The parts in order, each written by the style and the marked ones between its delimiters. -/
def render (style : Style) (d : Division) : List Char :=
  (d.marks.flatMap fun (before, marked) =>
    style.writeChars before ++ style.opening.toList ++ style.writeChars marked ++
      style.closing.toList) ++
  style.writeChars d.rest

end Division

/-- Cuts `rest`, which begins at `offset`, before and after the span `s`, if `s` begins no earlier
and has whole characters at both ends. -/
def cutOut? (offset : Nat) (rest : List Char) (s : Span) :
    Option (List Char × List Char × List Char) :=
  if offset ≤ s.start ∧ s.start ≤ s.stop then do
    let (before, tail) ← cutAt? rest (s.start - offset)
    let (marked, after) ← cutAt? tail (s.stop - s.start)
    return (before, marked, after)
  else none

/-- Divides `rest`, which begins at `offset`, at the spans that can be cut out, from left to right.
A span that cannot is passed over. -/
def divideFrom (offset : Nat) (rest : List Char) : List Span → Division
  | [] => ⟨[], rest⟩
  | s :: spans =>
    match cutOut? offset rest s with
    | some (before, marked, after) =>
      let d := divideFrom s.stop after spans
      ⟨(before, marked) :: d.marks, d.rest⟩
    | none => divideFrom offset rest spans

/-- Divides a text at spans, from left to right. -/
def divide (text : List Char) (spans : List Span) : Division :=
  divideFrom 0 text spans

theorem cutOut?_append {offset : Nat} {rest before marked after : List Char} {s : Span}
    (h : cutOut? offset rest s = some (before, marked, after)) :
    before ++ marked ++ after = rest := by
  unfold cutOut? at h
  split at h
  · simp only [Option.bind_eq_bind, Option.bind_eq_some_iff, Prod.exists, Option.pure_def,
      Option.some.injEq, Prod.mk.injEq] at h
    obtain ⟨b, t, hb, m, a, hm, rfl, rfl, rfl⟩ := h
    rw [cutAt?_eq_some] at hb hm
    rw [← hb.1, ← hm.1, List.append_assoc]
  · simp at h

theorem text_divideFrom (offset : Nat) (rest : List Char) (spans : List Span) :
    (divideFrom offset rest spans).text = rest := by
  induction spans generalizing offset rest with
  | nil => rfl
  | cons s spans ih =>
    unfold divideFrom
    split
    · next before marked after h =>
      rw [← cutOut?_append h]
      simpa [Division.text] using ih s.stop after
    · exact ih offset rest

theorem text_divide (text : List Char) (spans : List Span) : (divide text spans).text = text :=
  text_divideFrom 0 text spans

/-! ### Rendering -/

/-- A text with the spans marked that can be cut out of it. -/
def renderMarked (text : String) (spans : List Span) (style : Style) : String :=
  .ofList ((divide text.toList spans).render style)

/-- A cell with every occurrence of the tokens marked. -/
def highlightCell (text : String) (tokens : List String) (o : Options) (style : Style) : String :=
  if text.isEmpty then "" else renderMarked text (Span.merge (findSpans text tokens o)) style

end CellQuery
