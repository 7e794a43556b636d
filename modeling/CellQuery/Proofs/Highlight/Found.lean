import CellQuery.Highlight.Find
import CellQuery.Proofs.Search.Match
import Mathlib.Order.Basic

/-!
# Where operands are found

Operands are looked for in a normalized text, whose characters need not have the lengths of those
they come from. Each of them is placed at a whole character of the text itself, in order, so what is
found begins and ends at a boundary between characters and is never empty (`mem_findSpans`).
Something is found exactly where searching accepts the text for one of the operands
(`findSpans_ne_nil`).
-/

namespace CellQuery

open Text

/-! ### Boundaries -/

namespace Text

theorem byteLength_eq_zero {cs : List Char} : byteLength cs = 0 ↔ cs = [] := by
  constructor
  · intro h
    cases cs with
    | nil => rfl
    | cons c cs =>
      have hpos := c.utf8Size_pos
      rw [byteLength_cons] at h
      omega
  · rintro rfl
    rfl

/-- A byte position of a text at which no character is cut. -/
def Boundary (cs : List Char) (n : Nat) : Prop :=
  ∃ before after, before ++ after = cs ∧ byteLength before = n

theorem boundary_zero (cs : List Char) : Boundary cs 0 :=
  ⟨[], cs, rfl, rfl⟩

theorem Boundary.cons {cs : List Char} {n : Nat} (h : Boundary cs n) (c : Char) :
    Boundary (c :: cs) (c.utf8Size + n) := by
  obtain ⟨before, after, rfl, rfl⟩ := h
  exact ⟨c :: before, after, rfl, rfl⟩

/-- A boundary of a text behind its front `as` is one of the text that goes on there. -/
theorem Boundary.drop {as bs : List Char} {n : Nat} (h : Boundary (as ++ bs) n)
    (hle : byteLength as ≤ n) : Boundary bs (n - byteLength as) := by
  obtain ⟨before, after, heq, rfl⟩ := h
  rcases List.append_eq_append_iff.mp heq with ⟨ds, rfl, rfl⟩ | ⟨ds, rfl, rfl⟩
  · rw [byteLength_append] at hle
    have hds : ds = [] := byteLength_eq_zero.mp (by omega)
    subst hds
    simpa using boundary_zero _
  · exact ⟨ds, after, rfl, by simp⟩

end Text

/-! ### Placed characters -/

section Placed

variable {o : Options} {offset : Nat} {cs : List Char}

theorem mem_placeFrom {p : Placed} (h : p ∈ placeFrom o offset cs) :
    ∃ m n, p.source = ⟨offset + m, offset + n⟩ ∧ m < n ∧ Boundary cs m ∧ Boundary cs n := by
  induction cs generalizing offset with
  | nil => cases h
  | cons c cs ih =>
    rw [placeFrom, List.mem_append] at h
    rcases h with h | h
    · obtain ⟨x, -, rfl⟩ := List.mem_map.mp h
      have hstop : Boundary (c :: cs) c.utf8Size := (boundary_zero cs).cons c
      exact ⟨0, c.utf8Size, rfl, c.utf8Size_pos, boundary_zero _, hstop⟩
    · obtain ⟨m, n, hsource, hlt, hm, hn⟩ := ih h
      refine ⟨c.utf8Size + m, c.utf8Size + n, ?_, by omega, hm.cons c, hn.cons c⟩
      rw [hsource, Nat.add_assoc, Nat.add_assoc]

/-- The characters are placed from left to right. -/
theorem pairwise_placeFrom (o : Options) (offset : Nat) (cs : List Char) :
    (placeFrom o offset cs).Pairwise fun p q => p.source.start ≤ q.source.start := by
  induction cs generalizing offset with
  | nil => exact .nil
  | cons c cs ih =>
    refine List.pairwise_append.mpr ⟨?_, ih _, fun p hp q hq => ?_⟩
    · exact List.pairwise_map.mpr (List.pairwise_of_forall fun _ _ => Nat.le_refl _)
    · obtain ⟨x, -, rfl⟩ := List.mem_map.mp hp
      obtain ⟨m, n, hsource, -⟩ := mem_placeFrom hq
      rw [hsource]
      show offset ≤ offset + c.utf8Size + m
      omega

theorem sourceSpan?_eq_some {ps : List Placed} {s : Span} (h : sourceSpan? ps = some s)
    (hps : ps.Pairwise fun p q => p.source.start ≤ q.source.start) :
    ∃ first ∈ ps, ∃ last ∈ ps, s = ⟨first.source.start, last.source.stop⟩ ∧
      first.source.start ≤ last.source.start := by
  cases ps with
  | nil => cases h
  | cons p ps =>
    have hlast : (p :: ps).getLast? = some ((p :: ps).getLast (List.cons_ne_nil p ps)) :=
      List.getLast?_eq_some_getLast _
    have hmem := List.getLast_mem (List.cons_ne_nil p ps)
    rw [sourceSpan?, List.head?_cons, hlast] at h
    cases h
    refine ⟨p, List.mem_cons_self, _, hmem, rfl, ?_⟩
    rcases List.mem_cons.mp hmem with heq | hrest
    · exact Nat.le_of_eq (congrArg (·.source.start) heq.symm)
    · exact (List.pairwise_cons.mp hps).1 _ hrest

end Placed

/-! ### Occurrences -/

theorem sublist_of_mem_occurrences {needle : List Char} {ps found : List Placed}
    (h : found ∈ occurrences needle ps) : found.Sublist ps := by
  fun_induction occurrences needle ps with
  | case1 => cases h
  | case2 p rest _ ih =>
    rcases List.mem_cons.mp h with rfl | h
    · exact List.take_sublist _ _
    · exact (ih h).trans ((List.drop_sublist _ _).trans (List.sublist_cons_self p rest))
  | case3 p rest _ ih => exact (ih h).trans (List.sublist_cons_self p rest)

/-- What a needle covers is some of the placed characters, from the first of them to the last. -/
theorem mem_findNeedle {o : Options} {ps : List Placed} {needle : List Char} {s : Span}
    (h : s ∈ findNeedle o ps needle) : ∃ found, found.Sublist ps ∧ sourceSpan? found = some s := by
  unfold findNeedle at h
  split at h
  · cases h
  · split at h
    · split at h
      · exact ⟨ps, List.Sublist.refl ps, Option.mem_toList.mp h⟩
      · cases h
    · obtain ⟨found, hfound, hs⟩ := List.mem_filterMap.mp h
      exact ⟨found, sublist_of_mem_occurrences hfound, hs⟩

/-- **Whole characters are found**, at least one of them. -/
theorem mem_findSpans {text : String} {tokens : List String} {o : Options} {s : Span}
    (h : s ∈ findSpans text tokens o) :
    s.start < s.stop ∧ Boundary text.toList s.start ∧ Boundary text.toList s.stop := by
  obtain ⟨t, -, ht⟩ := List.mem_flatMap.mp h
  obtain ⟨found, hsub, hs⟩ := mem_findNeedle ht
  have hordered := (pairwise_placeFrom o 0 text.toList).sublist hsub
  obtain ⟨first, hfirst, last, hlast, rfl, hle⟩ := sourceSpan?_eq_some hs hordered
  obtain ⟨m, n, hsource, hlt, hm, -⟩ := mem_placeFrom (hsub.subset hfirst)
  obtain ⟨m', n', hsource', hlt', -, hn'⟩ := mem_placeFrom (hsub.subset hlast)
  rw [hsource, hsource'] at hle ⊢
  simp only [Nat.zero_add] at hle ⊢
  exact ⟨by omega, hm, hn'⟩

/-! ### What is found -/

section Occurrences

variable {needle : List Char} {ps : List Placed}

theorem startsWith_iff : startsWith needle ps = true ↔ needle <+: ps.map Placed.char := by
  induction needle generalizing ps with
  | nil => simp [startsWith]
  | cons c cs ih =>
    cases ps with
    | nil => simp [startsWith]
    | cons p ps => simp [startsWith, ih, List.cons_prefix_cons]

/-- A needle has an occurrence exactly where the text contains it. -/
theorem occurrences_ne_nil (hneedle : needle ≠ []) :
    occurrences needle ps ≠ [] ↔ needle <:+: ps.map Placed.char := by
  fun_induction occurrences needle ps with
  | case1 => simpa using hneedle
  | case2 p rest h ih =>
    have hfront : needle <+: (p :: rest).map Placed.char := startsWith_iff.mp h
    exact iff_of_true (List.cons_ne_nil _ _) hfront.isInfix
  | case3 p rest h ih =>
    have hfront : ¬needle <+: (p :: rest).map Placed.char := mt startsWith_iff.mpr h
    rw [ih, List.map_cons, List.infix_cons_iff]
    exact (or_iff_right hfront).symm

theorem ne_nil_of_mem_occurrences (hneedle : needle ≠ []) {found : List Placed}
    (h : found ∈ occurrences needle ps) : found ≠ [] := by
  fun_induction occurrences needle ps with
  | case1 => cases h
  | case2 p rest _ ih =>
    rcases List.mem_cons.mp h with rfl | h
    · obtain ⟨c, cs, rfl⟩ := List.exists_cons_of_ne_nil hneedle
      exact List.cons_ne_nil _ _
    · exact ih h
  | case3 p rest _ ih => exact ih h

theorem exists_sourceSpan? (h : ps ≠ []) : ∃ s, sourceSpan? ps = some s := by
  obtain ⟨p, rest, rfl⟩ := List.exists_cons_of_ne_nil h
  rw [sourceSpan?, List.head?_cons, List.getLast?_eq_some_getLast (List.cons_ne_nil p rest)]
  exact ⟨_, rfl⟩

end Occurrences

/-- A text has something to mark for a needle exactly if it is accepted for the needle. -/
theorem findNeedle_ne_nil {o : Options} {text : String} {needle : String}
    (hneedle : needle.isEmpty = false) :
    findNeedle o (placeFrom o 0 text.toList) needle.toList ≠ [] ↔
      o.accepts (o.normalize text) needle = true := by
  have hchars : needle.toList ≠ [] := by
    rw [ne_eq, String.toList_eq_nil_iff, ← String.isEmpty_iff, hneedle]
    exact Bool.false_ne_true
  have hempty : needle.toList.isEmpty = false := by simpa using hchars
  rw [findNeedle, hempty, if_neg Bool.false_ne_true, map_char_placeFrom, Options.accepts]
  split
  -- the whole text is compared: there is one candidate, and it has a span because the needle has
  -- characters
  · rw [beq_iff_eq, ← String.toList_inj, o.toList_normalize]
    split
    · next heq =>
      have hplaced : placeFrom o 0 text.toList ≠ [] := by
        intro hnil
        rw [← map_char_placeFrom o 0, hnil] at heq
        exact hchars heq.symm
      obtain ⟨s, hs⟩ := exists_sourceSpan? hplaced
      rw [hs]
      exact iff_of_true (List.cons_ne_nil _ _) heq
    · next hne => exact iff_of_false (fun h => h rfl) hne
  · rw [ occursIn_iff_infix, o.toList_normalize, ← map_char_placeFrom o 0,
      ← occurrences_ne_nil hchars]
    constructor
    · intro h hnil
      rw [hnil] at h
      exact h rfl
    · intro h
      obtain ⟨found, hfound⟩ := List.exists_mem_of_ne_nil _ h
      obtain ⟨s, hs⟩ := exists_sourceSpan? (ne_nil_of_mem_occurrences hchars hfound)
      exact List.ne_nil_of_mem (List.mem_filterMap.mpr ⟨found, hfound, hs⟩)

theorem findSpans_ne_nil {text : String} {tokens : List String} {o : Options} :
    findSpans text tokens o ≠ [] ↔
      ∃ t ∈ tokens, t.isEmpty = false ∧ o.accepts (o.normalize text) (o.normalize t) = true := by
  simp only [findSpans, ne_eq, List.flatMap_eq_nil_iff, not_forall, exists_prop]
  refine exists_congr fun t => and_congr_right fun _ => ?_
  rw [← o.toList_normalize]
  cases ht : t.isEmpty with
  | true =>
    rw [String.isEmpty_iff] at ht
    subst ht
    simp [findNeedle, Options.normalize, Options.normalizeChars]
  | false =>
    have hneedle : (o.normalize t).isEmpty = false := by rw [o.isEmpty_normalize, ht]
    have hfound : findNeedle o _ (o.normalize t).toList ≠ [] ↔
        o.accepts (o.normalize text) (o.normalize t) = true := findNeedle_ne_nil hneedle
    simpa using hfound

end CellQuery
