import CellQuery.Highlight.Style
import CellQuery.Proofs.Highlight.Found
import CellQuery.Proofs.Highlight.Merge

/-!
# The marks of a cell

A set of byte positions splits a text into runs, by turns inside and outside of the set. There is at
most one way to do so (`MaximalRuns.unique`), and none if a character lies partly inside.

A marked cell is its runs with a mark around each one inside the positions of what was found. To see
this, spans in canonical form whose ends are boundaries of the text (`Fits`) are cut out of it one
after the other, and none is passed over (`runs_divideFrom`, `marks_divideFrom`).
-/

namespace CellQuery

open Text

/-! ### Runs -/

/-- A part of a text, to be marked or not. -/
structure Run where
  marked : Bool
  chars : List Char
  deriving DecidableEq, Repr

/-- A run as a style writes it, a marked one between the delimiters. -/
def Run.render (style : Style) (r : Run) : List Char :=
  if r.marked then style.opening.toList ++ style.writeChars r.chars ++ style.closing.toList
  else style.writeChars r.chars

/-- Runs from the position `offset` on: none is empty, the positions of each are all inside or all
outside, as it is marked, and no two neighbours are marked alike. -/
inductive RunsFrom (inside : Nat → Prop) : Nat → List Run → Prop
  | nil (offset : Nat) : RunsFrom inside offset []
  | cons {offset : Nat} {r : Run} {rest : List Run} :
      r.chars ≠ [] →
      (∀ p, offset ≤ p → p < offset + byteLength r.chars → (inside p ↔ r.marked = true)) →
      (∀ next ∈ rest.head?, next.marked ≠ r.marked) →
      RunsFrom inside (offset + byteLength r.chars) rest →
      RunsFrom inside offset (r :: rest)

/-- The runs of a text inside and outside of a set of positions. -/
structure MaximalRuns (inside : Nat → Prop) (text : List Char) (runs : List Run) : Prop where
  text : runs.flatMap Run.chars = text
  runs : RunsFrom inside 0 runs

section Runs

variable {inside inside' : Nat → Prop} {offset : Nat} {r : Run} {rest : List Run}

theorem byteLength_pos {cs : List Char} (h : cs ≠ []) : 0 < byteLength cs :=
  Nat.pos_of_ne_zero fun hzero => h (byteLength_eq_zero.mp hzero)

theorem RunsFrom.inside_iff (h : RunsFrom inside offset (r :: rest)) :
    inside offset ↔ r.marked = true := by
  cases h with
  | cons hne huniform _ _ =>
    exact huniform offset (Nat.le_refl _) (Nat.lt_add_of_pos_right (byteLength_pos hne))

theorem RunsFrom.nonempty {runs : List Run} (h : RunsFrom inside offset runs) :
    ∀ r ∈ runs, r.chars ≠ [] := by
  induction h with
  | nil => nofun
  | cons hne _ _ _ ih =>
    intro r hr
    rcases List.mem_cons.mp hr with rfl | hr
    · exact hne
    · exact ih r hr

theorem RunsFrom.congr {runs : List Run} (h : RunsFrom inside offset runs)
    (heq : ∀ p, offset ≤ p → (inside p ↔ inside' p)) : RunsFrom inside' offset runs := by
  induction h with
  | nil offset => exact .nil offset
  | cons hne huniform halternate _ ih =>
    refine .cons hne (fun p hp hlt => ?_) halternate (ih fun p hp => heq p (by omega))
    rw [← heq p hp]
    exact huniform p hp hlt

/-- A run does not go on behind its end. -/
theorem RunsFrom.eq_nil_of_extends (h : RunsFrom inside offset (r :: rest)) {more others : List Char}
    (htext : rest.flatMap Run.chars = more ++ others)
    (huniform : ∀ p, offset ≤ p → p < offset + byteLength (r.chars ++ more) →
      (inside p ↔ r.marked = true)) : more = [] := by
  by_contra hmore
  cases h with
  | cons hne _ halternate hrest =>
    cases rest with
    | nil =>
      rw [List.flatMap_nil] at htext
      exact hmore (List.append_eq_nil_iff.mp htext.symm).1
    | cons next rest =>
      refine halternate next rfl ?_
      have hpos := byteLength_pos hmore
      rw [byteLength_append] at huniform
      rw [Bool.eq_iff_iff, ← hrest.inside_iff]
      exact huniform _ (by omega) (by omega)

theorem RunsFrom.unique {runs runs' : List Run} (h : RunsFrom inside offset runs)
    (h' : RunsFrom inside offset runs')
    (htext : runs.flatMap Run.chars = runs'.flatMap Run.chars) : runs = runs' := by
  -- equal in their first position two runs are marked alike, and then neither is longer
  induction runs generalizing offset runs' with
  | nil =>
    cases h' with
    | nil => rfl
    | cons hne _ _ _ => exact absurd (List.append_eq_nil_iff.mp htext.symm).1 hne
  | cons r rest ih =>
    cases runs' with
    | nil =>
      cases h with
      | cons hne _ _ _ => exact absurd (List.append_eq_nil_iff.mp htext).1 hne
    | cons r' rest' =>
      have hmarked : r.marked = r'.marked := by
        rw [Bool.eq_iff_iff, ← h.inside_iff, ← h'.inside_iff]
      rw [List.flatMap_cons, List.flatMap_cons] at htext
      have hchars : r.chars = r'.chars := by
        -- the longer of the two would go on inside where the shorter one ends
        rcases List.append_eq_append_iff.mp htext with ⟨more, heq, hmore⟩ | ⟨more, heq, hmore⟩
        · have hnil := h.eq_nil_of_extends hmore fun p hp hlt => by
            cases h' with
            | cons _ huniform _ _ =>
              rw [hmarked]
              exact huniform p hp (by rwa [heq])
          rw [heq, hnil, List.append_nil]
        · have hnil := h'.eq_nil_of_extends hmore fun p hp hlt => by
            cases h with
            | cons _ huniform _ _ =>
              rw [← hmarked]
              exact huniform p hp (by rwa [heq])
          rw [heq, hnil, List.append_nil]
      have hr : r = r' := by
        cases r
        cases r'
        simp_all
      subst hr
      cases h with
      | cons _ _ _ hrest =>
        cases h' with
        | cons _ _ _ hrest' =>
          rw [ih hrest hrest' (List.append_cancel_left htext)]

/-- The runs of a text are determined by the positions. -/
theorem MaximalRuns.unique {text : List Char} {runs runs' : List Run}
    (h : MaximalRuns inside text runs) (h' : MaximalRuns inside text runs') : runs' = runs :=
  h'.runs.unique h.runs (h'.text.trans h.text.symm)

end Runs

/-! ### Divisions as runs -/

/-- The text before a mark as a run, unless there is none. -/
def plainRun (cs : List Char) : List Run :=
  if cs.isEmpty then [] else [⟨false, cs⟩]

/-- The parts of a division as runs. What stands between marks makes none where it is empty. -/
def Division.runs (d : Division) : List Run :=
  (d.marks.flatMap fun (before, marked) => plainRun before ++ [⟨true, marked⟩]) ++ plainRun d.rest

section Division

@[simp] theorem Style.writeChars_nil (style : Style) : style.writeChars [] = [] := by
  unfold writeChars
  split <;> rfl

@[simp] theorem chars_plainRun (cs : List Char) : (plainRun cs).flatMap Run.chars = cs := by
  cases cs <;> simp [plainRun]

@[simp] theorem render_plainRun (style : Style) (cs : List Char) :
    (plainRun cs).flatMap (Run.render style) = style.writeChars cs := by
  cases cs <;> simp [plainRun, Run.render]

@[simp] theorem filter_marked_plainRun (cs : List Char) : (plainRun cs).filter Run.marked = [] := by
  cases cs <;> simp [plainRun]

theorem chars_runs (d : Division) : d.runs.flatMap Run.chars = d.text := by
  simp [Division.runs, Division.text, List.flatMap_assoc]

theorem render_runs (style : Style) (d : Division) :
    d.runs.flatMap (Run.render style) = d.render style := by
  simp [Division.runs, Division.render, List.flatMap_assoc, Run.render]

/-- Without delimiters a division is its text. -/
theorem render_undelimited (escapes : Bool) (d : Division) :
    d.render ⟨"", "", escapes⟩ = Style.writeChars ⟨"", "", escapes⟩ d.text := by
  obtain ⟨marks, rest⟩ := d
  induction marks with
  | nil => rfl
  | cons mark marks ih =>
    simp only [Division.render, Division.text, List.flatMap_cons, Style.writeChars_append,
      String.toList_empty, List.append_nil, List.append_assoc] at ih ⊢
    rw [ih]

theorem map_chars_filter_runs (d : Division) :
    (d.runs.filter Run.marked).map Run.chars = d.marks.map (·.2) := by
  rw [Division.runs, List.filter_append, filter_marked_plainRun, List.append_nil,
    List.filter_flatMap, List.map_flatMap, List.map_eq_flatMap]
  simp

end Division

/-! ### Cutting spans out -/

theorem slice?_eq_some {cs part : List Char} {start stop : Nat} :
    slice? cs start stop = some part ↔ start ≤ stop ∧
      ∃ front back, front ++ (part ++ back) = cs ∧ byteLength front = start ∧
        byteLength part = stop - start := by
  unfold slice?
  split
  · next hle =>
    simp only [Option.bind_eq_some_iff, Option.map_eq_some_iff, Prod.exists, cutAt?_eq_some]
    constructor
    · rintro ⟨front, tail, ⟨rfl, hfront⟩, part, back, ⟨rfl, hpart⟩, rfl⟩
      exact ⟨hle, front, back, rfl, hfront, hpart⟩
    · rintro ⟨-, front, back, rfl, hfront, hpart⟩
      exact ⟨front, part ++ back, ⟨rfl, hfront⟩, part, back, ⟨rfl, hpart⟩, rfl⟩
  · next hle => exact iff_of_false nofun fun h => hle h.1

theorem slice?_append {front middle : List Char} {start stop : Nat} (hle : start ≤ stop)
    (hfront : byteLength front = start) (hmiddle : byteLength middle = stop - start)
    (back : List Char) :
    slice? (front ++ (middle ++ back)) start stop = some middle :=
  slice?_eq_some.mpr ⟨hle, front, back, rfl, hfront, hmiddle⟩

theorem cutOut?_eq_some {offset : Nat} {rest before marked after : List Char} {s : Span} :
    cutOut? offset rest s = some (before, marked, after) ↔
      offset ≤ s.start ∧ s.start ≤ s.stop ∧ before ++ (marked ++ after) = rest ∧
        byteLength before = s.start - offset ∧ byteLength marked = s.stop - s.start := by
  unfold cutOut?
  split
  · next h =>
    simp only [Option.bind_eq_bind, Option.bind_eq_some_iff, Prod.exists, Option.pure_def,
      Option.some.injEq, Prod.mk.injEq, cutAt?_eq_some]
    constructor
    · rintro ⟨b, t, ⟨rfl, hb⟩, m, a, ⟨rfl, hm⟩, rfl, rfl, rfl⟩
      exact ⟨h.1, h.2, rfl, hb, hm⟩
    · rintro ⟨-, -, rfl, hb, hm⟩
      exact ⟨before, marked ++ after, ⟨rfl, hb⟩, marked, after, ⟨rfl, hm⟩, rfl, rfl, rfl⟩
  · next h =>
    constructor
    · nofun
    · rintro ⟨hoffset, hle, -⟩
      exact absurd ⟨hoffset, hle⟩ h

theorem exists_cutOut? {offset : Nat} {rest : List Char} {s : Span} (hoffset : offset ≤ s.start)
    (hle : s.start ≤ s.stop) (hstart : Boundary rest (s.start - offset))
    (hstop : Boundary rest (s.stop - offset)) :
    ∃ before marked after, cutOut? offset rest s = some (before, marked, after) := by
  obtain ⟨before, tail, rfl, hbefore⟩ := hstart
  have hcut := hstop.drop (by omega)
  rw [hbefore] at hcut
  obtain ⟨marked, after, rfl, hmarked⟩ := hcut
  have hlen : byteLength marked = s.stop - s.start := by omega
  exact ⟨before, marked, after, cutOut?_eq_some.mpr ⟨hoffset, hle, rfl, hbefore, hlen⟩⟩

/-- What is cut out of the rest of a text is a slice of the whole, and so is what lies before it. -/
theorem slices_of_cutOut? {offset : Nat} {front rest before marked after : List Char} {s : Span}
    (hfront : byteLength front = offset)
    (h : cutOut? offset rest s = some (before, marked, after)) :
    slice? (front ++ rest) offset s.start = some before ∧
      slice? (front ++ rest) s.start s.stop = some marked ∧
      byteLength (front ++ before ++ marked) = s.stop ∧
      front ++ before ++ marked ++ after = front ++ rest := by
  obtain ⟨hoffset, hle, rfl, hbefore, hmarked⟩ := cutOut?_eq_some.mp h
  have hstart : byteLength (front ++ before) = s.start := by
    rw [byteLength_append]
    omega
  have hstop : byteLength (front ++ before ++ marked) = s.stop := by
    rw [byteLength_append]
    omega
  have hslice := slice?_append hle hstart hmarked after
  rw [List.append_assoc] at hslice
  exact ⟨slice?_append hoffset hfront hbefore (marked ++ after), hslice, hstop, by
    simp only [List.append_assoc]⟩

/-- Canonical spans that can all be cut out of `rest`, which begins at `offset`. -/
structure Fits (offset : Nat) (rest : List Char) (spans : List Span) : Prop where
  canonical : Span.Canonical spans
  after : ∀ s ∈ spans, offset ≤ s.start
  boundary : ∀ s ∈ spans, Boundary rest (s.start - offset) ∧ Boundary rest (s.stop - offset)

section Fits

variable {offset : Nat} {rest : List Char} {s : Span} {spans : List Span}

/-- The first span is cut out, and the others fit what is left. -/
theorem Fits.cut (h : Fits offset rest (s :: spans)) :
    ∃ before marked after, cutOut? offset rest s = some (before, marked, after) ∧
      Fits s.stop after spans := by
  obtain ⟨hs, hgap, hcanonical⟩ := Span.canonical_cons.mp h.canonical
  have hoffset := h.after s List.mem_cons_self
  obtain ⟨hstart, hstop⟩ := h.boundary s List.mem_cons_self
  obtain ⟨before, marked, after, hcut⟩ := exists_cutOut? hoffset (Nat.le_of_lt hs) hstart hstop
  obtain ⟨-, -, rfl, hbefore, hmarked⟩ := cutOut?_eq_some.mp hcut
  refine ⟨before, marked, after, hcut, hcanonical, fun t ht => ?_, fun t ht => ?_⟩
  · exact Nat.le_of_lt (hgap t ht)
  · -- the front that is gone reaches to the end of `s`
    have hfront : byteLength (before ++ marked) = s.stop - offset := by
      rw [byteLength_append]
      omega
    have hlater : s.stop < t.start := hgap t ht
    have htlt : t.start < t.stop := hcanonical.nonempty t ht
    obtain ⟨htstart, htstop⟩ := h.boundary t (List.mem_cons_of_mem s ht)
    rw [← List.append_assoc] at htstart htstop
    have hbstart := htstart.drop (by omega)
    have hbstop := htstop.drop (by omega)
    rw [hfront] at hbstart hbstop
    rw [show t.start - s.stop = t.start - offset - (s.stop - offset) by omega,
      show t.stop - s.stop = t.stop - offset - (s.stop - offset) by omega]
    exact ⟨hbstart, hbstop⟩

/-- A mark goes in front of the runs that begin where it ends. -/
theorem runsFrom_mark (hs : s.start < s.stop) (hgap : ∀ t ∈ spans, s.stop < t.start)
    {marked : List Char} (hmarked : byteLength marked = s.stop - s.start) {runs : List Run}
    (h : RunsFrom (Span.Covers spans) s.stop runs) :
    RunsFrom (Span.Covers (s :: spans)) s.start (⟨true, marked⟩ :: runs) := by
  have hend : s.start + byteLength marked = s.stop := by omega
  have hmarkedne : marked ≠ [] := by
    rintro rfl
    rw [byteLength_nil] at hmarked
    omega
  refine .cons hmarkedne (fun p hp hlt => ?_) (fun next hnext hnextmarked => ?_) ?_
  · rw [hend] at hlt
    exact iff_of_true (Span.covers_cons.mpr (.inl ⟨hp, hlt⟩)) rfl
  · -- the span behind would have to begin at the end of `s`
    obtain ⟨runs, rfl⟩ := List.head?_eq_some_iff.mp hnext
    obtain ⟨t, ht, hstart, -⟩ := h.inside_iff.mpr hnextmarked
    exact absurd (hgap t ht) (Nat.not_lt.mpr hstart)
  · rw [hend]
    refine h.congr fun p hp => ?_
    rw [Span.covers_cons, or_iff_right fun hin => Nat.not_lt.mpr hp hin.2]

/-- Text in front of a mark is a run, if it is not empty. -/
theorem runsFrom_plain {inside : Nat → Prop} {cs : List Char} {runs : List Run}
    (hout : ∀ p, offset ≤ p → p < offset + byteLength cs → ¬ inside p)
    (hruns : RunsFrom inside (offset + byteLength cs) runs)
    (hhead : ∀ r ∈ runs.head?, r.marked = true) : RunsFrom inside offset (plainRun cs ++ runs) := by
  cases cs with
  | nil => exact hruns
  | cons c cs =>
    refine .cons (List.cons_ne_nil c cs) (fun p hp hlt => ?_) (fun next hnext => ?_) hruns
    · exact iff_of_false (hout p hp hlt) Bool.false_ne_true
    · rw [hhead next hnext]
      nofun

theorem runs_divideFrom (h : Fits offset rest spans) :
    RunsFrom (Span.Covers spans) offset (divideFrom offset rest spans).runs := by
  induction spans generalizing offset rest with
  | nil =>
    have hplain : RunsFrom (Span.Covers []) offset (plainRun rest ++ []) :=
      runsFrom_plain (fun _ _ _ => Span.not_covers_nil) (.nil _) nofun
    rwa [List.append_nil] at hplain
  | cons s spans ih =>
    obtain ⟨before, marked, after, hcut, hnext⟩ := h.cut
    obtain ⟨hs, hgap, -⟩ := Span.canonical_cons.mp h.canonical
    obtain ⟨hoffset, -, -, hbefore, hmarked⟩ := cutOut?_eq_some.mp hcut
    have hmark := runsFrom_mark hs hgap hmarked (ih hnext)
    have hstart : offset + byteLength before = s.start := by omega
    have hruns : (divideFrom offset rest (s :: spans)).runs =
        plainRun before ++ ⟨true, marked⟩ :: (divideFrom s.stop after spans).runs := by
      simp [divideFrom, hcut, Division.runs]
    rw [hruns]
    refine runsFrom_plain (fun p hp hlt => ?_) (hstart ▸ hmark) (by simp)
    rw [hstart] at hlt
    -- a span that covers the text before the mark would begin there
    rintro ⟨t, ht, htstart, -⟩
    rcases List.mem_cons.mp ht with rfl | ht
    · omega
    · have hlater := hgap t ht
      omega

/-- The marks are the spans, one by one: none is passed over. -/
theorem marks_divideFrom (h : Fits offset rest spans) {front : List Char}
    (hfront : byteLength front = offset) :
    (divideFrom offset rest spans).marks.map (fun mark => some mark.2) =
      spans.map fun s => slice? (front ++ rest) s.start s.stop := by
  induction spans generalizing offset rest front with
  | nil => rfl
  | cons s spans ih =>
    obtain ⟨before, marked, after, hcut, hnext⟩ := h.cut
    obtain ⟨-, hslice, hstop, htext⟩ := slices_of_cutOut? hfront hcut
    have hrest := ih hnext hstop
    rw [htext] at hrest
    rw [divideFrom, hcut, List.map_cons, List.map_cons, hslice, hrest]

end Fits

/-! ### Cells -/

section Cell

variable (text : String) (tokens : List String) (o : Options)

/-- Merged, the spans found in a text are cut out of it. -/
theorem fits_merge_findSpans : Fits 0 text.toList (Span.merge (findSpans text tokens o)) where
  canonical := Span.canonical_merge _
  after := fun _ _ => Nat.zero_le _
  boundary := by
    intro m hm
    obtain ⟨⟨a, ha, hstart⟩, ⟨b, hb, hstop⟩⟩ := Span.ends_merge _ hm
    rw [← hstart, ← hstop]
    exact ⟨(mem_findSpans ha).2.1, (mem_findSpans hb).2.2⟩

/-- Nothing is found in an empty text, so it is no special case. -/
theorem highlightCell_eq_renderMarked (style : Style) :
    highlightCell text tokens o style =
      renderMarked text (Span.merge (findSpans text tokens o)) style := by
  unfold highlightCell
  split
  · next h =>
    rw [String.isEmpty_iff] at h
    subst h
    have hnone : findSpans "" tokens o = [] := by
      refine List.eq_nil_iff_forall_not_mem.mpr fun s hs => ?_
      obtain ⟨hlt, -, ⟨before, after, hsplit, hbefore⟩⟩ := mem_findSpans hs
      rw [(List.append_eq_nil_iff.mp hsplit).1, byteLength_nil] at hbefore
      omega
    simp [hnone, Span.merge, Span.joinSorted, renderMarked, divide, divideFrom, Division.render]
  · rfl

/-- A mark is not empty, and there is one wherever something is found. -/
theorem marks_divide_merge :
    let marks := (divide text.toList (Span.merge (findSpans text tokens o))).marks
    (marks ≠ [] ↔ findSpans text tokens o ≠ []) ∧ ∀ mark ∈ marks, mark.2 ≠ [] := by
  intro marks
  have hfits := fits_merge_findSpans text tokens o
  constructor
  · have hlength := congrArg List.length (marks_divideFrom hfits byteLength_nil)
    simp only [List.length_map] at hlength
    -- there are as many marks as merged spans
    have hmarks : marks ≠ [] ↔ Span.merge (findSpans text tokens o) ≠ [] := by
      rw [← List.length_pos_iff, ← List.length_pos_iff]
      show 0 < List.length (divideFrom 0 _ _).marks ↔ _
      rw [hlength]
    rw [hmarks]
    constructor
    · intro h
      obtain ⟨m, hm⟩ := List.exists_mem_of_ne_nil _ h
      obtain ⟨⟨a, ha, -⟩, -⟩ := Span.ends_merge _ hm
      exact List.ne_nil_of_mem ha
    · intro h
      obtain ⟨s, hs⟩ := List.exists_mem_of_ne_nil _ h
      obtain ⟨m, hm, -⟩ := (Span.covers_merge (findSpans text tokens o) s.start).mpr
        ⟨s, hs, Nat.le_refl _, (mem_findSpans hs).1⟩
      exact List.ne_nil_of_mem hm
  · intro mark hmark
    have hrun : mark.2 ∈ ((divide text.toList (Span.merge (findSpans text tokens o))).runs.filter
        Run.marked).map Run.chars := by
      rw [map_chars_filter_runs]
      exact List.mem_map_of_mem hmark
    obtain ⟨r, hr, heq⟩ := List.mem_map.mp hrun
    rw [← heq]
    exact (runs_divideFrom hfits).nonempty r (List.mem_filter.mp hr).1

/-- **A marked cell.** The positions of what is found split the text into runs in one way, and the
cell is these runs as the style writes them, the ones inside between its delimiters. No mark is
empty. Each merged span is the text of a mark, whatever is found lies within one of them, and
without delimiters the cell is what the style writes without marks. -/
theorem highlightCell_marks_found (style : Style) :
    let found := findSpans text tokens o
    let marks := (divide text.toList (Span.merge found)).marks
    (∃ runs, MaximalRuns (Span.Covers found) text.toList runs ∧
      (∀ others, MaximalRuns (Span.Covers found) text.toList others → others = runs) ∧
      highlightCell text tokens o style = .ofList (runs.flatMap (Run.render style)) ∧
      (runs.filter Run.marked).map Run.chars = marks.map (·.2) ∧ ∀ r ∈ runs, r.chars ≠ []) ∧
    marks.map (fun mark => some mark.2) =
      (Span.merge found).map (fun s => slice? text.toList s.start s.stop) ∧
    (∀ s ∈ found, s.start < s.stop ∧
      ∃ m ∈ Span.merge found, m.start ≤ s.start ∧ s.stop ≤ m.stop) ∧
    highlightCell text tokens o ⟨"", "", style.escapes⟩ = style.write text := by
  intro found marks
  have hfits : Fits 0 text.toList (Span.merge found) := fits_merge_findSpans text tokens o
  have hruns : MaximalRuns (Span.Covers found) text.toList
      (divide text.toList (Span.merge found)).runs := by
    refine ⟨(chars_runs _).trans (text_divide _ _), (runs_divideFrom hfits).congr fun p _ => ?_⟩
    exact Span.covers_merge found p
  refine ⟨⟨_, hruns, fun others => hruns.unique, ?_, map_chars_filter_runs _, hruns.runs.nonempty⟩,
    marks_divideFrom hfits byteLength_nil, fun s hs => ?_, ?_⟩
  · rw [highlightCell_eq_renderMarked, render_runs]
    rfl
  -- what is found lies in the merged spans without a gap, so in one of them
  · have hlt := (mem_findSpans hs).1
    refine ⟨hlt, (Span.canonical_merge found).exists_within hlt fun p hstart hstop => ?_⟩
    exact (Span.covers_merge found p).mpr ⟨s, hs, hstart, hstop⟩
  · rw [highlightCell_eq_renderMarked, renderMarked, render_undelimited, text_divide]
    rfl

end Cell

end CellQuery
