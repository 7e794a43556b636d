import CellQuery.Proofs.Highlight.Occurrence

/-!
# Marking at any spans

Marking takes its spans as they come, also spans that overlap, run backwards, lie outside of the
text or inside of a character. From the left, a span is accepted if it begins no earlier than the
last accepted one ends and is one of whole characters; all others are passed over (`Span.accepted`).

A division is cut off the text piece by piece. With a cursor into the whole text the same pieces are
slices of it (`Division.walk?`), and the last one, behind the cursor, is taken without a check. It
is there because the cursor never leaves the boundaries of the text: what is passed over does not
move it, and what is accepted moves it to a boundary.

What is written are the runs of the text, one after the other, where the runs that are marked lie at
the accepted spans (`Division.spansFrom_runs`).
-/

namespace CellQuery

open Text

/-! ### Slices -/

namespace Text

variable {cs : List Char} {n start stop : Nat}

theorem exists_cutAt?_iff : (∃ parts, cutAt? cs n = some parts) ↔ Boundary cs n := by
  constructor
  · rintro ⟨⟨before, after⟩, h⟩
    exact ⟨before, after, cutAt?_eq_some.mp h⟩
  · rintro ⟨before, after, h⟩
    exact ⟨(before, after), cutAt?_eq_some.mpr h⟩

instance : Decidable (Boundary cs n) :=
  decidable_of_iff ((cutAt? cs n).isSome = true)
    (Option.isSome_iff_exists.trans exists_cutAt?_iff)

theorem exists_slice?_iff :
    (∃ part, slice? cs start stop = some part) ↔
      start ≤ stop ∧ Boundary cs start ∧ Boundary cs stop := by
  constructor
  · rintro ⟨part, h⟩
    obtain ⟨hle, front, back, rfl, hfront, hpart⟩ := slice?_eq_some.mp h
    refine ⟨hle, ⟨front, part ++ back, rfl, hfront⟩, ⟨front ++ part, back, ?_, ?_⟩⟩
    · rw [List.append_assoc]
    · rw [byteLength_append]
      omega
  · rintro ⟨hle, ⟨front, tail, rfl, hfront⟩, hstop⟩
    obtain ⟨part, back, rfl, hpart⟩ := hstop.drop (by omega)
    exact ⟨part, slice?_eq_some.mpr ⟨hle, front, back, rfl, hfront, by omega⟩⟩

end Text

/-! ### The spans that are accepted -/

namespace Span

/-- A span of whole characters of a text, or of none. -/
structure Whole (text : List Char) (s : Span) : Prop where
  ordered : s.start ≤ s.stop
  inside : s.stop ≤ byteLength text
  start : Boundary text s.start
  stop : Boundary text s.stop

instance (text : List Char) (s : Span) : Decidable (s.Whole text) :=
  decidable_of_iff (s.start ≤ s.stop ∧ s.stop ≤ byteLength text ∧ Boundary text s.start ∧
      Boundary text s.stop)
    ⟨fun ⟨hordered, hinside, hstart, hstop⟩ => ⟨hordered, hinside, hstart, hstop⟩,
      fun h => ⟨h.ordered, h.inside, h.start, h.stop⟩⟩

theorem whole_iff_exists_slice? {text : List Char} {s : Span} :
    s.Whole text ↔ ∃ part, slice? text s.start s.stop = some part := by
  rw [exists_slice?_iff]
  exact ⟨fun h => ⟨h.ordered, h.start, h.stop⟩,
    fun ⟨hordered, hstart, hstop⟩ => ⟨hordered, hstop.le_byteLength, hstart, hstop⟩⟩

/-- Where the last of some spans ends, `cursor` if there is none. -/
def lastStop (cursor : Nat) (spans : List Span) : Nat :=
  spans.getLast?.elim cursor stop

/-- The spans that are accepted from the left when the last one so far ended at `cursor`. -/
def accepted (text : List Char) (cursor : Nat) : List Span → List Span
  | [] => []
  | s :: spans =>
    if cursor ≤ s.start ∧ s.Whole text then s :: accepted text s.stop spans
    else accepted text cursor spans

section Accepted

variable {text : List Char} {cursor : Nat} {s : Span} {spans : List Span}

theorem lastStop_cons : lastStop cursor (s :: spans) = lastStop s.stop spans := by
  rw [lastStop, List.getLast?_cons, lastStop]
  cases spans.getLast? <;> rfl

theorem accepted_cons_of_accept (h : cursor ≤ s.start ∧ s.Whole text) :
    accepted text cursor (s :: spans) = s :: accepted text s.stop spans :=
  if_pos h

theorem accepted_cons_of_reject (h : ¬ (cursor ≤ s.start ∧ s.Whole text)) :
    accepted text cursor (s :: spans) = accepted text cursor spans :=
  if_neg h

/-- What is accepted of a list goes on from the last one accepted of its front. -/
theorem accepted_append (front back : List Span) :
    accepted text cursor (front ++ back) =
      accepted text cursor front ++
        accepted text (lastStop cursor (accepted text cursor front)) back := by
  induction front generalizing cursor with
  | nil => rfl
  | cons s front ih =>
    by_cases h : cursor ≤ s.start ∧ s.Whole text
    · rw [List.cons_append, accepted_cons_of_accept h, accepted_cons_of_accept h, lastStop_cons, ih,
        List.cons_append]
    · rw [List.cons_append, accepted_cons_of_reject h, accepted_cons_of_reject h, ih]

theorem accepted_without {front : List Span} (back : List Span)
    (h : ¬ (lastStop cursor (accepted text cursor front) ≤ s.start ∧ s.Whole text)) :
    accepted text cursor (front ++ back) = accepted text cursor (front ++ s :: back) := by
  rw [accepted_append, accepted_append, accepted_cons_of_reject h]

/-- What is accepted is in order, without overlaps, and made of whole characters. -/
theorem accepted_ordered (text : List Char) (cursor : Nat) (spans : List Span) :
    (∀ s ∈ accepted text cursor spans, cursor ≤ s.start ∧ s.Whole text) ∧
      (accepted text cursor spans).Pairwise fun a b => a.stop ≤ b.start := by
  induction spans generalizing cursor with
  | nil => exact ⟨nofun, .nil⟩
  | cons s spans ih =>
    by_cases h : cursor ≤ s.start ∧ s.Whole text
    · obtain ⟨hafter, hpairwise⟩ := ih s.stop
      rw [accepted_cons_of_accept h]
      refine ⟨fun t ht => ?_, hpairwise.cons fun t ht => (hafter t ht).1⟩
      rcases List.mem_cons.mp ht with rfl | ht
      · exact h
      · have hle : s.start ≤ s.stop := h.2.ordered
        have hlater := hafter t ht
        exact ⟨by omega, hlater.2⟩
    · rw [accepted_cons_of_reject h]
      exact ih cursor

theorem accepted_eq_self (hcursor : ∀ s ∈ spans, cursor ≤ s.start)
    (hpairwise : spans.Pairwise fun a b => a.stop ≤ b.start) (hwhole : ∀ s ∈ spans, s.Whole text) :
    accepted text cursor spans = spans := by
  induction hpairwise generalizing cursor with
  | nil => rfl
  | @cons s spans hgap _ ih =>
    obtain ⟨hs, hwhole⟩ := List.forall_mem_cons.mp hwhole
    rw [accepted_cons_of_accept ⟨hcursor s List.mem_cons_self, hs⟩, ih hgap hwhole]

end Accepted

end Span

/-! ### Slices of the whole text -/

namespace Division

/-- The slices of a text at spans and between them, from `cursor` on. -/
def slices? (text : List Char) (cursor : Nat) : List Span → Option Division
  | [] => (slice? text cursor (byteLength text)).map fun rest => ⟨[], rest⟩
  | s :: spans => do
    let before ← slice? text cursor s.start
    let marked ← slice? text s.start s.stop
    let d ← slices? text s.stop spans
    return ⟨(before, marked) :: d.marks, d.rest⟩

/-- Marking with a cursor into the whole text. A span at which a slice is missing is passed over; if
the last slice is missing, that is a failure. -/
def walk? (text : List Char) (cursor : Nat) : List Span → Option Division
  | [] => (slice? text cursor (byteLength text)).map fun rest => ⟨[], rest⟩
  | s :: spans =>
    if s.start < cursor then walk? text cursor spans
    else
      match slice? text cursor s.start, slice? text s.start s.stop with
      | some before, some marked =>
        (walk? text s.stop spans).map fun d => ⟨(before, marked) :: d.marks, d.rest⟩
      | _, _ => walk? text cursor spans

section Slices

open CellQuery.Span

variable {text : List Char} {cursor : Nat}

/-- With the cursor on a boundary, a span is accepted just if none of its slices is missing. -/
theorem walk?_eq_slices? (hcursor : Boundary text cursor) (spans : List Span) :
    walk? text cursor spans = slices? text cursor (accepted text cursor spans) := by
  induction spans generalizing cursor with
  | nil => rfl
  | cons s spans ih =>
    -- a span is passed over because it begins too early, or because one of its slices is missing
    by_cases h : cursor ≤ s.start ∧ s.Whole text
    · obtain ⟨before, hbefore⟩ := exists_slice?_iff.mpr ⟨h.1, hcursor, h.2.start⟩
      obtain ⟨marked, hmarked⟩ := whole_iff_exists_slice?.mp h.2
      rw [accepted_cons_of_accept h, walk?, if_neg (Nat.not_lt.mpr h.1), slices?, hbefore, hmarked,
        ih h.2.stop]
      exact Option.map_eq_bind
    · rw [accepted_cons_of_reject h, walk?, ih hcursor]
      split
      · rfl
      · next hlt =>
        split
        · next hbefore hmarked =>
          exact absurd ⟨Nat.not_lt.mp hlt, whole_iff_exists_slice?.mpr ⟨_, hmarked⟩⟩ h
        · rfl

variable {front rest before marked after : List Char} {offset : Nat} {s : Span}

/-- A division is made of slices of the whole text at the spans that are accepted. -/
theorem slices?_accepted (hfront : byteLength front = offset) (spans : List Span) :
    slices? (front ++ rest) offset (accepted (front ++ rest) offset spans) =
      some (divideFrom offset rest spans) := by
  induction spans generalizing offset front rest with
  | nil =>
    have hlen : byteLength (front ++ rest) = offset + byteLength rest := by
      rw [byteLength_append, hfront]
    have hlast : slice? (front ++ (rest ++ [])) offset (byteLength (front ++ rest)) = some rest :=
      slice?_append (by omega) hfront (by omega) []
    rw [List.append_nil] at hlast
    rw [accepted, slices?, hlast]
    rfl
  | cons s spans ih =>
    -- both look at the same boundaries, one from the beginning of the text and one from the cursor
    by_cases h : offset ≤ s.start ∧ s.Whole (front ++ rest)
    · have hle : s.start ≤ s.stop := h.2.ordered
      have hstart := h.2.start.drop (by omega)
      have hstop := h.2.stop.drop (by omega)
      rw [hfront] at hstart hstop
      obtain ⟨before, marked, after, hcut⟩ := exists_cutOut? h.1 hle hstart hstop
      obtain ⟨hbefore, hmarked, hstop, htext⟩ := slices_of_cutOut? hfront hcut
      have hrest : slices? (front ++ before ++ marked ++ after) s.stop
          (accepted (front ++ before ++ marked ++ after) s.stop spans) =
            some (divideFrom s.stop after spans) := ih hstop
      rw [htext] at hrest
      rw [accepted_cons_of_accept h, slices?, hbefore, hmarked, hrest, divideFrom, hcut]
      rfl
    · have hnone : cutOut? offset rest s = none := by
        refine Option.eq_none_iff_forall_ne_some.mpr fun parts hcut => h ?_
        obtain ⟨before, marked, after⟩ := parts
        exact ⟨(cutOut?_eq_some.mp hcut).1,
          whole_iff_exists_slice?.mpr ⟨marked, (slices_of_cutOut? hfront hcut).2.1⟩⟩
      rw [accepted_cons_of_reject h, ih hfront, divideFrom, hnone]

end Slices

end Division

/-! ### Where the marks are -/

namespace Run

/-- Where the marked runs of a text lie, if the first run begins at `offset`. -/
def spansFrom (offset : Nat) : List Run → List Span
  | [] => []
  | r :: rest =>
    let stop := offset + byteLength r.chars
    if r.marked then ⟨offset, stop⟩ :: spansFrom stop rest else spansFrom stop rest

theorem spansFrom_plainRun (offset : Nat) (cs : List Char) (rest : List Run) :
    spansFrom offset (plainRun cs ++ rest) = spansFrom (offset + byteLength cs) rest := by
  cases cs <;> rfl

end Run

/-- The marked runs of slices at spans lie at these spans. -/
theorem Division.spansFrom_runs {text : List Char} {cursor : Nat} {spans : List Span} {d : Division}
    (h : Division.slices? text cursor spans = some d) : Run.spansFrom cursor d.runs = spans := by
  induction spans generalizing cursor d with
  | nil =>
    obtain ⟨rest, -, rfl⟩ := Option.map_eq_some_iff.mp h
    exact (congrArg _ (List.append_nil _).symm).trans (Run.spansFrom_plainRun cursor rest [])
  | cons s spans ih =>
    rw [Division.slices?, Option.bind_eq_bind, Option.bind_eq_some_iff] at h
    obtain ⟨before, hbefore, h⟩ := h
    obtain ⟨marked, hmarked, h⟩ := Option.bind_eq_some_iff.mp h
    obtain ⟨later, hlater, h⟩ := Option.bind_eq_some_iff.mp h
    obtain rfl := Option.some.inj h
    obtain ⟨hle, -, -, -, -, hlen⟩ := slice?_eq_some.mp hbefore
    obtain ⟨hle', -, -, -, -, hlen'⟩ := slice?_eq_some.mp hmarked
    -- lengths of slices are differences of their ends, so the runs end where the spans do
    have hstart : cursor + byteLength before = s.start := by omega
    have hstop : s.start + byteLength marked = s.stop := by omega
    have hruns : Division.runs ⟨(before, marked) :: later.marks, later.rest⟩ =
        plainRun before ++ (⟨true, marked⟩ :: later.runs) := by
      simp [Division.runs]
    rw [hruns, Run.spansFrom_plainRun, hstart, Run.spansFrom, if_pos rfl, hstop, ih hlater]

/-! ### Marking -/

section Marking

variable {text : String} {spans spans' : List Span}

theorem Division.slices?_accepted_divide (text : List Char) (spans : List Span) :
    Division.slices? text 0 (Span.accepted text 0 spans) = some (divide text spans) :=
  Division.slices?_accepted byteLength_nil spans

/-- Nothing but the accepted spans has an effect. -/
theorem renderMarked_congr
    (h : Span.accepted text.toList 0 spans = Span.accepted text.toList 0 spans') (style : Style) :
    renderMarked text spans style = renderMarked text spans' style := by
  have hdivide : some (divide text.toList spans) = some (divide text.toList spans') := by
    rw [← Division.slices?_accepted_divide, ← Division.slices?_accepted_divide, h]
  rw [renderMarked, renderMarked, Option.some.inj hdivide]

/-- **Any spans.** Marking never fails, whatever spans it is given: the walk over the text ends with
a division, which is the text cut at the accepted spans, and is written with a mark around each of
them. So what is written are runs of the text, with delimiters around those that are marked, and
these lie at the accepted spans. A span that is not accepted might as well not be there. All are
accepted just if they are of whole characters and each begins no earlier than those before it
end. -/
theorem renderMarked_slices_accepted (text : String) (spans : List Span) :
    let cs := text.toList
    let taken := Span.accepted cs 0 spans
    (∃ d, Division.walk? cs 0 spans = some d ∧ Division.slices? cs 0 taken = some d ∧ d.text = cs ∧
      ∀ style, renderMarked text spans style = .ofList (d.render style)) ∧
    (∃ runs : List Run, runs.flatMap Run.chars = cs ∧ Run.spansFrom 0 runs = taken ∧
      ∀ style, renderMarked text spans style = .ofList (runs.flatMap (Run.render style))) ∧
    (∀ front s back, spans = front ++ s :: back →
      ¬ (Span.lastStop 0 (Span.accepted cs 0 front) ≤ s.start ∧ s.Whole cs) →
      Span.accepted cs 0 (front ++ back) = taken ∧
      ∀ style, renderMarked text (front ++ back) style = renderMarked text spans style) ∧
    (taken = spans ↔ spans.Pairwise (fun a b => a.stop ≤ b.start) ∧ ∀ s ∈ spans, s.Whole cs) := by
  intro cs taken
  have hslices := Division.slices?_accepted_divide cs spans
  have hwalk := Division.walk?_eq_slices? (boundary_zero cs) spans
  have htext := text_divide cs spans
  refine ⟨⟨divide cs spans, hwalk.trans hslices, hslices, htext, fun _ => rfl⟩,
    ⟨(divide cs spans).runs, ?_, Division.spansFrom_runs hslices, fun style => ?_⟩, ?_, ?_, ?_⟩
  · rw [chars_runs, htext]
  · rw [render_runs]
    rfl
  · rintro front s back rfl hreject
    have hsame := Span.accepted_without back hreject
    exact ⟨hsame, renderMarked_congr hsame⟩
  · intro htaken
    obtain ⟨hwhole, hpairwise⟩ := Span.accepted_ordered cs 0 spans
    rw [show Span.accepted cs 0 spans = spans from htaken] at hwhole hpairwise
    exact ⟨hpairwise, fun s hs => (hwhole s hs).2⟩
  · rintro ⟨hpairwise, hwhole⟩
    exact Span.accepted_eq_self (fun _ _ => Nat.zero_le _) hpairwise hwhole

/-- Two spans are accepted, one of them empty. The others begin inside of a character, overlap, run
backwards or leave the text. -/
theorem renderMarked_slices_accepted_skewed :
    let text := "a<é>b"
    let spans : List Span := [⟨3, 4⟩, ⟨1, 4⟩, ⟨2, 5⟩, ⟨5, 4⟩, ⟨5, 5⟩, ⟨5, UInt64.size - 1⟩]
    let runs : List Run := [⟨false, ['a']⟩, ⟨true, ['<', 'é']⟩, ⟨false, ['>']⟩, ⟨true, []⟩, ⟨false, ['b']⟩]
    Span.accepted text.toList 0 spans = [⟨1, 4⟩, ⟨5, 5⟩] ∧
      runs.flatMap Run.chars = text.toList ∧
      Run.spansFrom 0 runs = Span.accepted text.toList 0 spans ∧
      renderMarked text spans .page = "a<mark>&lt;é</mark>&gt;<mark></mark>b" ∧
      renderMarked text spans ⟨"[", "]", false⟩ = "a[<é]>[]b" ∧
      renderMarked text [⟨1, 4⟩, ⟨2, 5⟩, ⟨5, 4⟩, ⟨5, 5⟩, ⟨5, UInt64.size - 1⟩] .page =
        renderMarked text spans .page := by
  intro text spans runs
  obtain ⟨-, -, hreject, -⟩ := renderMarked_slices_accepted text spans
  have hinside : ¬ (0 ≤ 3 ∧ Span.Whole text.toList ⟨3, 4⟩) := by decide +kernel
  obtain ⟨-, hsame⟩ := hreject [] ⟨3, 4⟩ _ rfl hinside
  refine ⟨?_, ?_, ?_, ?_, ?_, hsame .page⟩ <;> decide +kernel

end Marking

end CellQuery
