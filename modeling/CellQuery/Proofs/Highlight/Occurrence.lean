import CellQuery.Proofs.Highlight.Runs
import CellQuery.Proofs.Text.Utf8
import Mathlib.Data.List.Forall2

/-!
# Occurrences and the spans they are found at

A cell is searched in its normalized form, byte by byte. What is found there stands between
characters of the normalized text, but these may be only some of those that one character of the
cell becomes. The span that is reported holds whole characters of the cell, all that have a part in
the occurrence and no others (`Narrowest`).

The occurrences are those of a search from left to right (`leftmost_occurrences`), and each of them
is led back to the cell by the sources of its first and its last byte (`foundAt_of_placed`).
-/

namespace CellQuery

open Text

/-! ### Fronts of a text -/

section Front

variable {α : Type} {x : α} {before after a b : List α}

/-- An element of two lists joined is in the first or in the second. -/
theorem append_cons_eq_append (h : before ++ x :: after = a ++ b) :
    (∃ mid, before ++ x :: mid = a) ∨ ∃ mid, a ++ mid = before ∧ mid ++ x :: after = b := by
  rcases List.append_eq_append_iff.mp h with ⟨mid, ha, hb⟩ | ⟨mid, hbefore, hb⟩
  · cases mid with
    | nil =>
      rw [List.append_nil] at ha
      exact .inr ⟨[], by rw [List.append_nil, ha], hb⟩
    | cons y mid =>
      obtain ⟨rfl, -⟩ := List.cons_eq_cons.mp hb
      exact .inl ⟨mid, ha.symm⟩
  · exact .inr ⟨mid, hbefore.symm, hb.symm⟩

/-- A front ends before an element, or it goes on to the end of that element. -/
theorem prefix_or_append_singleton_prefix (h : a <+: before ++ x :: after) :
    a <+: before ∨ before ++ [x] <+: a := by
  rcases List.prefix_or_prefix_of_prefix h (List.prefix_append before _) with hle | ⟨t, rfl⟩
  · exact .inl hle
  · cases t with
    | nil =>
      rw [List.append_nil]
      exact .inl List.prefix_rfl
    | cons y t =>
      obtain ⟨rfl, -⟩ := List.cons_prefix_cons.mp ((List.prefix_append_right_inj before).mp h)
      exact .inr ⟨t, by simp⟩

end Front

theorem byteLength_le_of_prefix {a b : List Char} (h : a <+: b) : byteLength a ≤ byteLength b := by
  obtain ⟨t, rfl⟩ := h
  rw [byteLength_append]
  exact Nat.le_add_right _ _

theorem Options.byteLength_normalizeChars_le (o : Options) {a b : List Char} (h : a <+: b) :
    byteLength (o.normalizeChars a) ≤ byteLength (o.normalizeChars b) := by
  obtain ⟨t, rfl⟩ := h
  rw [normalizeChars_append]
  exact byteLength_le_of_prefix (List.prefix_append _ _)

theorem Options.normalizeChars_of_caseSensitive {o : Options} (h : o.caseSensitive = true)
    (cs : List Char) : o.normalizeChars cs = cs := by
  have himage : o.image = fun c => [c] := funext fun c => if_pos h
  simp [normalizeChars, himage]

/-- Of two fronts of a text, the one with fewer bytes is a front of the other. -/
theorem prefix_of_byteLength_le {a b cs : List Char} (ha : a <+: cs) (hb : b <+: cs)
    (hle : byteLength a ≤ byteLength b) : a <+: b := by
  rcases List.prefix_or_prefix_of_prefix ha hb with h | ⟨t, rfl⟩
  · exact h
  · rw [byteLength_append] at hle
    -- every character has a byte, so nothing is left of the longer front
    obtain rfl := byteLength_eq_zero.mp (show byteLength t = 0 by omega)
    exact ⟨[], by simp⟩

/-! ### Sources -/

/-- For each byte of the normalized text, where the character is that it comes from. -/
def origins (o : Options) (cs : List Char) : List Span :=
  (placeFrom o 0 cs).flatMap fun p => List.replicate p.char.utf8Size p.source

section Sources

variable {o : Options} {cs : List Char} {before after : List Placed} {x : Placed}

theorem length_flatMap_sources (ps : List Placed) :
    (ps.flatMap fun p => List.replicate p.char.utf8Size p.source).length =
      byteLength (ps.map Placed.char) := by
  induction ps with
  | nil => rfl
  | cons p ps ih =>
    rw [List.flatMap_cons, List.length_append, List.length_replicate, ih]
    rfl

theorem length_origins (o : Options) (cs : List Char) :
    (origins o cs).length = byteLength (o.normalizeChars cs) := by
  rw [origins, length_flatMap_sources, map_char_placeFrom]

/-- Every byte of a placed character has the source of the character. -/
theorem getElem?_origins (h : before ++ x :: after = placeFrom o 0 cs) {k : Nat}
    (hk : k < x.char.utf8Size) :
    (origins o cs)[byteLength (before.map Placed.char) + k]? = some x.source := by
  rw [origins, ← h, List.flatMap_append, List.flatMap_cons, ← length_flatMap_sources,
    List.getElem?_append_right (Nat.le_add_right _ _), Nat.add_sub_cancel_left,
    List.getElem?_append_left (by rwa [List.length_replicate]), List.getElem?_replicate, if_pos hk]

/-- A placed character comes from one character of the text, and stands among its images. -/
theorem exists_source_of_placed {offset : Nat} (h : before ++ x :: after = placeFrom o offset cs) :
    ∃ front c back, front ++ c :: back = cs ∧
      x.source = ⟨offset + byteLength front, offset + byteLength (front ++ [c])⟩ ∧
      byteLength (o.normalizeChars front) ≤ byteLength (before.map Placed.char) ∧
      byteLength (before.map Placed.char) + x.char.utf8Size ≤
        byteLength (o.normalizeChars (front ++ [c])) := by
  -- the image of the first character holds `x`, or all of it stands before `x`
  induction cs generalizing offset before with
  | nil => exact absurd h (by simp [placeFrom])
  | cons c cs ih =>
    rw [placeFrom] at h
    have himage : ((o.image c).map (Placed.mk · ⟨offset, offset + c.utf8Size⟩)).map Placed.char =
        o.normalizeChars [c] := by
      simp [Options.normalizeChars, Function.comp_def]
    rcases append_cons_eq_append h with ⟨mid, hmid⟩ | ⟨mid, rfl, hrest⟩
    · refine ⟨[], c, cs, rfl, ?_, Nat.zero_le _, ?_⟩
      · have hx : x ∈ (o.image c).map (Placed.mk · ⟨offset, offset + c.utf8Size⟩) := by
          rw [← hmid]
          exact List.mem_append_right _ List.mem_cons_self
        obtain ⟨d, -, rfl⟩ := List.mem_map.mp hx
        rfl
      · rw [List.nil_append, ← himage, ← hmid, List.map_append, List.map_cons, byteLength_append,
          byteLength_cons]
        omega
    · obtain ⟨front, d, back, rfl, hsource, hfront, hend⟩ := ih hrest
      have hcons : ∀ t, o.normalizeChars (c :: t) = o.normalizeChars [c] ++ o.normalizeChars t :=
        fun t => o.normalizeChars_append [c] t
      refine ⟨c :: front, d, back, rfl, ?_, ?_, ?_⟩
      · rw [hsource]
        simp only [List.cons_append, byteLength_cons, Nat.add_assoc]
      · rw [List.map_append, himage, hcons front, byteLength_append, byteLength_append]
        omega
      · rw [List.map_append, himage, List.cons_append, hcons (front ++ [d]), byteLength_append,
          byteLength_append]
        omega

end Sources

/-! ### The narrowest range -/

/-- `s` is a range of whole characters of `cs`, and their images hold what stands from byte `first`
to byte `stop` of the normalized text. -/
def Holds (o : Options) (cs : List Char) (first stop : Nat) (s : Span) : Prop :=
  ∃ before held after, before ++ (held ++ after) = cs ∧
    byteLength before = s.start ∧ byteLength (before ++ held) = s.stop ∧
    byteLength (o.normalizeChars before) ≤ first ∧
    stop ≤ byteLength (o.normalizeChars (before ++ held))

/-- No range of whole characters within `s` is enough. -/
structure Narrowest (o : Options) (cs : List Char) (first stop : Nat) (s : Span) : Prop where
  holds : Holds o cs first stop s
  least : ∀ t, Holds o cs first stop t → t.start ≤ s.start ∧ s.stop ≤ t.stop

section Narrowest

variable {o : Options} {cs needle : List Char} {first stop : Nat} {s : Span}

/-- Only the whole text has all of the normalized text among its images. -/
theorem Holds.eq_whole (h : Holds o cs 0 (byteLength (o.normalizeChars cs)) s) :
    s = ⟨0, byteLength cs⟩ := by
  obtain ⟨before, held, after, rfl, hstart, hstop, hle, hge⟩ := h
  simp only [o.normalizeChars_append, byteLength_append] at hle hge
  -- an image of no bytes is empty, and only the empty text has it
  have hbefore : o.normalizeChars before = [] := byteLength_eq_zero.mp (by omega)
  have hafter : o.normalizeChars after = [] := byteLength_eq_zero.mp (by omega)
  obtain rfl := o.normalizeChars_eq_nil.mp hbefore
  obtain rfl := o.normalizeChars_eq_nil.mp hafter
  cases s
  simp_all

/-- The characters of the range hold, normalized, the text that stands there. -/
theorem Holds.slice_contains (h : Holds o cs first stop s) {front back : List Char}
    (hneedle : front ++ (needle ++ back) = o.normalizeChars cs) (hfirst : byteLength front = first)
    (hstop : byteLength (front ++ needle) = stop) :
    ∃ held, slice? cs s.start s.stop = some held ∧ needle <:+: o.normalizeChars held := by
  obtain ⟨before, held, after, rfl, hstart, hend, hle, hge⟩ := h
  rw [byteLength_append] at hend
  refine ⟨held, slice?_append (by omega) hstart (by omega) after, ?_⟩
  rw [o.normalizeChars_append, o.normalizeChars_append] at hneedle
  rw [o.normalizeChars_append] at hge
  -- the images in front of the range end before the needle, and those of the range behind it
  have hfront : o.normalizeChars before <+: front := by
    refine prefix_of_byteLength_le ⟨_, rfl⟩ ⟨_, hneedle⟩ (by omega)
  obtain ⟨gap, rfl⟩ := hfront
  have hrange : gap ++ needle <+: o.normalizeChars held := by
    rw [List.append_assoc, List.append_cancel_left_eq] at hneedle
    have hfound : gap ++ needle <+: gap ++ (needle ++ back) := ⟨back, List.append_assoc _ _ _⟩
    refine prefix_of_byteLength_le hfound ⟨_, hneedle.symm⟩ ?_
    · rw [List.append_assoc, byteLength_append] at hstop
      rw [byteLength_append] at hge
      omega
  obtain ⟨rest, hrest⟩ := hrange
  exact ⟨gap, rest, hrest⟩

/-- Where characters are compared as they are, the range is what is found itself. -/
theorem Narrowest.eq_of_caseSensitive (h : Narrowest o cs first stop s)
    (ho : o.caseSensitive = true) {front back : List Char}
    (hneedle : front ++ (needle ++ back) = cs) (hfirst : byteLength front = first)
    (hstop : byteLength (front ++ needle) = stop) : s = ⟨first, stop⟩ := by
  have hsame := Options.normalizeChars_of_caseSensitive ho
  obtain ⟨before, held, after, -, hstart, hend, hle, hge⟩ := h.holds
  have hself : Holds o cs first stop ⟨first, stop⟩ := by
    refine ⟨front, needle, back, hneedle, hfirst, hstop, ?_, ?_⟩
    · rw [hsame]
      exact Nat.le_of_eq hfirst
    · rw [hsame]
      exact Nat.le_of_eq hstop.symm
  -- no range is narrower than the needle itself
  obtain ⟨hstart', hend'⟩ := h.least _ hself
  rw [hsame] at hle hge
  cases s
  simp only [Span.mk.injEq] at *
  omega

end Narrowest

/-! ### Leading back -/

/-- What is reported for an occurrence of `needle` at byte `p` of the normalized text: the range
from the source of its first byte to that of its last one, which both have one. It is the narrowest
range, and its characters hold the needle. -/
structure FoundAt (o : Options) (cs needle : List Char) (p : Nat) (s : Span) : Prop where
  narrowest : Narrowest o cs p (p + byteLength needle) s
  origins : ∃ first last, (origins o cs)[p]? = some first ∧
    (origins o cs)[p + byteLength needle - 1]? = some last ∧ s = ⟨first.start, last.stop⟩
  contains : ∃ held, slice? cs s.start s.stop = some held ∧ needle <:+: o.normalizeChars held
  caseSensitive : o.caseSensitive = true → s = ⟨p, p + byteLength needle⟩

section FoundAt

variable {o : Options} {cs needle : List Char} {before after : List Placed}

/-- A front whose images go on behind those of `front` holds the next character as well. -/
theorem append_singleton_prefix_of_reaches {front back part : List Char} {c : Char}
    (hcs : front ++ c :: back = cs) (hpart : part <+: cs)
    (hlong : byteLength (o.normalizeChars front) < byteLength (o.normalizeChars part)) :
    front ++ [c] <+: part := by
  rw [← hcs] at hpart
  rcases prefix_or_append_singleton_prefix hpart with hshort | hlonger
  · exact absurd hlong (Nat.not_lt_of_le (o.byteLength_normalizeChars_le hshort))
  · exact hlonger

/-- From the source of the first placed character to that of the last is the narrowest range. -/
theorem narrowest_of_placed {x y : Placed} {before' after' : List Placed}
    (hx : before ++ x :: after = placeFrom o 0 cs) (hy : before' ++ y :: after' = placeFrom o 0 cs)
    (hle : byteLength (before.map Placed.char) ≤ byteLength (before'.map Placed.char)) :
    Narrowest o cs (byteLength (before.map Placed.char))
      (byteLength (before'.map Placed.char) + y.char.utf8Size)
      ⟨x.source.start, y.source.stop⟩ := by
  have hpos := x.char.utf8Size_pos
  have hpos' := y.char.utf8Size_pos
  obtain ⟨front, c, back, hcs, hsource, hfront, hend⟩ := exists_source_of_placed hx
  obtain ⟨front', c', back', hcs', hsource', hfront', hend'⟩ := exists_source_of_placed hy
  have hcs'' : (front' ++ [c']) ++ back' = cs := by simpa using hcs'
  have hfirst : front ++ [c] <+: front' ++ [c'] :=
    append_singleton_prefix_of_reaches (o := o) hcs ⟨back', hcs''⟩ (by omega)
  obtain ⟨held, hheld⟩ := hfirst
  have hstart : x.source.start = byteLength front := by
    rw [hsource]
    exact Nat.zero_add _
  have hstop : y.source.stop = byteLength (front' ++ [c']) := by
    rw [hsource']
    exact Nat.zero_add _
  -- the range goes from the first character to the second one
  have hspan : front ++ (c :: held) = front' ++ [c'] := by simpa using hheld
  refine ⟨⟨front, c :: held, back', ?_, hstart.symm, ?_, hfront, ?_⟩, fun t ht => ?_⟩
  · rw [← List.append_assoc, hspan, hcs'']
  · rw [hspan, hstop]
  · rwa [hspan]
  · obtain ⟨tbefore, theld, tafter, htcs, htstart, htstop, htle, htge⟩ := ht
    constructor
    -- a range that begins behind the first character would miss its image
    · have htfront : tbefore <+: front ++ c :: back := by
        rw [hcs]
        exact ⟨_, htcs⟩
      show t.start ≤ x.source.start
      rw [hstart, ← htstart]
      rcases prefix_or_append_singleton_prefix htfront with h | h
      · exact byteLength_le_of_prefix h
      · have hlong := o.byteLength_normalizeChars_le h
        omega
    · show y.source.stop ≤ t.stop
      rw [hstop, ← htstop]
      have hwhole : tbefore ++ theld <+: cs := ⟨tafter, by rw [List.append_assoc, htcs]⟩
      -- a range that reaches the last byte holds the character that it comes from
      have hlast : front' ++ [c'] <+: tbefore ++ theld :=
        append_singleton_prefix_of_reaches (o := o) hcs' hwhole (by omega)
      exact byteLength_le_of_prefix hlast

/-- Placed characters that spell a needle are found where they stand. -/
theorem foundAt_of_placed {found : List Placed} (hneedle : needle ≠ [])
    (h : before ++ (found ++ after) = placeFrom o 0 cs) (hfound : found.map Placed.char = needle) :
    ∃ s, sourceSpan? found = some s ∧
      FoundAt o cs needle (byteLength (before.map Placed.char)) s := by
  have hne : found ≠ [] := by
    rintro rfl
    exact hneedle hfound.symm
  obtain ⟨x, xs, hx⟩ := List.exists_cons_of_ne_nil hne
  obtain ⟨ys, y, hy⟩ := (List.eq_nil_or_concat found).resolve_left hne
  rw [List.concat_eq_append] at hy
  have hfirst : before ++ x :: (xs ++ after) = placeFrom o 0 cs := by
    rw [← h, hx, List.cons_append]
  have hlast : (before ++ ys) ++ y :: after = placeFrom o 0 cs := by
    rw [← h, hy]
    simp
  have hlen : byteLength ((before ++ ys).map Placed.char) + y.char.utf8Size =
      byteLength (before.map Placed.char) + byteLength needle := by
    rw [← hfound, hy]
    simp only [List.map_append, List.map_cons, List.map_nil, byteLength_append, byteLength_cons,
      byteLength_nil]
    omega
  have hle : byteLength (before.map Placed.char) ≤ byteLength ((before ++ ys).map Placed.char) := by
    rw [List.map_append]
    exact byteLength_le_of_prefix (List.prefix_append _ _)
  have hnarrowest := narrowest_of_placed hfirst hlast hle
  rw [hlen] at hnarrowest
  have hspan : sourceSpan? found = some ⟨x.source.start, y.source.stop⟩ := by
    have hhead : found.head? = some x := by rw [hx, List.head?_cons]
    have hback : found.getLast? = some y := by rw [hy, List.getLast?_concat]
    rw [sourceSpan?, hhead, hback]
    rfl
  have hspells : before.map Placed.char ++ (needle ++ after.map Placed.char) =
      o.normalizeChars cs := by
    rw [← map_char_placeFrom o 0, ← h, List.map_append, List.map_append, hfound]
  have hend : byteLength (before.map Placed.char ++ needle) =
      byteLength (before.map Placed.char) + byteLength needle := byteLength_append _ _
  refine ⟨_, hspan, hnarrowest, ⟨x.source, y.source, ?_, ?_, rfl⟩,
    hnarrowest.holds.slice_contains hspells rfl hend, fun ho => ?_⟩
  · exact getElem?_origins hfirst x.char.utf8Size_pos
  · have hypos := y.char.utf8Size_pos
    rw [← hlen, Nat.add_sub_assoc hypos]
    exact getElem?_origins hlast (by omega)
  · rw [Options.normalizeChars_of_caseSensitive ho] at hspells
    exact hnarrowest.eq_of_caseSensitive ho hspells rfl hend

end FoundAt

/-! ### Searching from left to right -/

/-- `found` are the characters of `ps` that spell the needle at byte `p`, where `ps` begins at byte
`offset`. -/
def SpellsAt (needle : List Char) (offset : Nat) (ps : List Placed) (p : Nat)
    (found : List Placed) : Prop :=
  ∃ before after, before ++ (found ++ after) = ps ∧ found.map Placed.char = needle ∧
    p = offset + byteLength (before.map Placed.char)

section Leftmost

variable {needle : List Char}

theorem SpellsAt.behind {offset p : Nat} {xs ps found : List Placed}
    (h : SpellsAt needle (offset + byteLength (xs.map Placed.char)) ps p found) :
    SpellsAt needle offset (xs ++ ps) p found := by
  obtain ⟨before, after, rfl, hfound, rfl⟩ := h
  refine ⟨xs ++ before, after, List.append_assoc _ _ _, hfound, ?_⟩
  rw [List.map_append, byteLength_append]
  omega

/-- What does not begin with the needle has no occurrence before its second character. -/
theorem not_occursAt_of_not_prefix {front cs : List Char} {c : Char} (hneedle : needle ≠ [])
    (h : ¬ needle <+: c :: cs) {q : Nat} (hq : byteLength front ≤ q)
    (hlt : q < byteLength (front ++ [c])) : ¬ OccursAt (utf8 needle) (utf8 (front ++ c :: cs)) q := by
  intro hoccurs
  obtain ⟨before, back, heq, rfl⟩ := (occursAt_utf8_iff hneedle).mp hoccurs
  have hbefore : before <+: front ++ c :: cs := ⟨_, heq⟩
  rcases prefix_or_append_singleton_prefix hbefore with hle | hge
  · -- not before `front` ends, so just where it ends
    have hfront : front <+: front ++ c :: cs := List.prefix_append _ _
    obtain ⟨t, rfl⟩ := prefix_of_byteLength_le hfront hbefore hq
    obtain ⟨t', ht'⟩ := hle
    rw [List.append_assoc] at ht'
    have hnil := List.append_right_eq_self.mp ht'
    rw [(List.append_eq_nil_iff.mp hnil).1, List.append_nil] at heq
    exact h ⟨back, List.append_cancel_left heq⟩
  · have hlong := byteLength_le_of_prefix hge
    omega

/-- **The occurrences are those of a search from left to right**, of bytes as of characters. -/
theorem leftmost_occurrences (hneedle : needle ≠ []) (front : List Char) (ps : List Placed) :
    ∃ places,
      Leftmost (utf8 needle) (utf8 (front ++ ps.map Placed.char)) (byteLength front) places ∧
      List.Forall₂ (SpellsAt needle (byteLength front) ps) places (occurrences needle ps) := by
  -- the front is what the search has behind it, which no occurrence reaches into
  fun_induction occurrences needle ps generalizing front with
  | case1 =>
    refine ⟨[], .none fun p hp hoccurs => ?_, .nil⟩
    obtain ⟨before, back, heq, rfl⟩ := (occursAt_utf8_iff hneedle).mp hoccurs
    have hlen := congrArg byteLength heq
    simp only [List.map_nil, List.append_nil, byteLength_append] at hlen
    exact hneedle (byteLength_eq_zero.mp (by omega))
  | case2 p rest h ih =>
    obtain ⟨back, hback⟩ := startsWith_iff.mp h
    have hpos : 0 < needle.length := List.length_pos_iff.mpr hneedle
    have htake : ((p :: rest).take needle.length).map Placed.char = needle := by
      rw [List.map_take, ← hback, List.take_left]
    have hrest : (p :: rest).take needle.length ++ rest.drop (needle.length - 1) = p :: rest := by
      have hdrop : rest.drop (needle.length - 1) = (p :: rest).drop needle.length := by
        obtain ⟨n, hn⟩ := Nat.exists_eq_succ_of_ne_zero (Nat.ne_of_gt hpos)
        rw [hn, Nat.succ_sub_one, List.drop_succ_cons]
      rw [hdrop, List.take_append_drop]
    obtain ⟨places, hplaces, hfound⟩ := ih (front ++ needle)
    have htext : front ++ needle ++ (rest.drop (needle.length - 1)).map Placed.char =
        front ++ (p :: rest).map Placed.char := by
      rw [← hrest, List.map_append, htake, List.append_assoc]
    rw [htext, byteLength_append, ← length_utf8 needle] at hplaces
    refine ⟨byteLength front :: places, .next (Nat.le_refl _) ?_ (fun q hq hlt => ?_) hplaces,
      .cons ⟨[], _, hrest, htake, rfl⟩ (hfound.imp fun q found hq => ?_)⟩
    · exact (occursAt_utf8_iff hneedle).mpr ⟨front, back, by rw [hback], rfl⟩
    · omega
    · rw [← hrest]
      refine SpellsAt.behind ?_
      rwa [htake, ← byteLength_append]
  | case3 p rest h ih =>
    obtain ⟨places, hplaces, hfound⟩ := ih (front ++ [p.char])
    have htext : front ++ [p.char] ++ rest.map Placed.char = front ++ (p :: rest).map Placed.char := by
      simp
    rw [htext] at hplaces
    refine ⟨places, hplaces.from_before ?_ fun q hq hlt => ?_, hfound.imp fun q found hq => ?_⟩
    · exact byteLength_le_of_prefix (List.prefix_append _ _)
    · have hfront : ¬ needle <+: (p :: rest).map Placed.char := mt startsWith_iff.mpr h
      exact not_occursAt_of_not_prefix hneedle hfront hq hlt
    · rw [byteLength_append] at hq
      have hbehind : SpellsAt needle (byteLength front) ([p] ++ rest) q found := hq.behind
      exact hbehind

end Leftmost

/-! ### The spans of a text -/

section FindSpans

variable {o : Options} {text : String} {needle : List Char}

theorem Text.Boundary.le_byteLength {cs : List Char} {n : Nat} (h : Boundary cs n) :
    n ≤ byteLength cs := by
  obtain ⟨before, after, rfl, rfl⟩ := h
  exact byteLength_le_of_prefix (List.prefix_append _ _)

/-- A needle that is compared with the whole text is found at the whole text or not at all. -/
theorem findNeedle_of_exactMatch (hneedle : needle ≠ []) (ho : o.exactMatch = true)
    (cs : List Char) :
    findNeedle o (placeFrom o 0 cs) needle =
      if o.normalizeChars cs = needle then [⟨0, byteLength cs⟩] else [] := by
  have hempty : needle.isEmpty = false := by simpa using hneedle
  rw [findNeedle, hempty, if_neg Bool.false_ne_true, if_pos ho, map_char_placeFrom]
  split
  · next heq =>
    have hwhole : [] ++ (placeFrom o 0 cs ++ []) = placeFrom o 0 cs := by simp
    obtain ⟨s, hs, hfound⟩ :=
      foundAt_of_placed hneedle hwhole ((map_char_placeFrom o 0 cs).trans heq)
    have hholds := hfound.narrowest.holds
    rw [← heq, List.map_nil, byteLength_nil, Nat.zero_add] at hholds
    rw [hs, hholds.eq_whole]
    rfl
  · rfl

/-- Each occurrence has its span. -/
theorem forall₂_filterMap_sourceSpan? (hneedle : needle ≠ []) {cs : List Char} {places : List Nat}
    {founds : List (List Placed)}
    (h : List.Forall₂ (SpellsAt needle 0 (placeFrom o 0 cs)) places founds) :
    List.Forall₂ (FoundAt o cs needle) places (founds.filterMap sourceSpan?) := by
  induction h with
  | nil => exact .nil
  | cons hspell _ ih =>
    obtain ⟨before, after, heq, hfound, rfl⟩ := hspell
    obtain ⟨s, hs, hat⟩ := foundAt_of_placed hneedle heq hfound
    rw [List.filterMap_cons_some hs, Nat.zero_add]
    exact .cons hat ih

theorem forall₂_findNeedle (hneedle : needle ≠ []) (ho : o.exactMatch = false) (cs : List Char) :
    ∃ places, Leftmost (utf8 needle) (utf8 (o.normalizeChars cs)) 0 places ∧
      List.Forall₂ (FoundAt o cs needle) places (findNeedle o (placeFrom o 0 cs) needle) := by
  have hempty : needle.isEmpty = false := by simpa using hneedle
  obtain ⟨places, hplaces, hspells⟩ := leftmost_occurrences hneedle [] (placeFrom o 0 cs)
  rw [List.nil_append, map_char_placeFrom] at hplaces
  refine ⟨places, hplaces, ?_⟩
  rw [findNeedle, hempty, if_neg Bool.false_ne_true, ho, if_neg Bool.false_ne_true]
  exact forall₂_filterMap_sourceSpan? hneedle hspells

end FindSpans

/-- **What is found leads back to the text exactly.** The tokens are looked for one after the other,
and each span is of whole characters, not empty and within the text. A token that is compared with
the whole text gives the whole text or nothing. Otherwise its spans belong, one by one, to the
places at which a search from left to right finds its bytes among those of the normalized text, and
to each place belongs the narrowest range of whole characters that holds the occurrence. Every byte
of the normalized text has a source to lead back to. -/
theorem findSpans_leftmost (text : String) (tokens : List String) (o : Options) :
    let cs := text.toList
    findSpans text tokens o = tokens.flatMap (fun token => findSpans text [token] o) ∧
    (∀ s ∈ findSpans text tokens o, s.start < s.stop ∧ s.stop ≤ byteLength cs ∧
      Boundary cs s.start ∧ Boundary cs s.stop) ∧
    (origins o cs).length = (utf8 (o.normalizeChars cs)).length ∧
    ∀ token,
      let needle := o.normalizeChars token.toList
      (needle = [] → findSpans text [token] o = []) ∧
      (needle ≠ [] → o.exactMatch = true → findSpans text [token] o =
        if o.normalizeChars cs = needle then [⟨0, byteLength cs⟩] else []) ∧
      (needle ≠ [] → o.exactMatch = false →
        ∃ places, Leftmost (utf8 needle) (utf8 (o.normalizeChars cs)) 0 places ∧
          (∀ others, Leftmost (utf8 needle) (utf8 (o.normalizeChars cs)) 0 others →
            others = places) ∧
          List.Forall₂ (FoundAt o cs needle) places (findSpans text [token] o)) := by
  intro cs
  have hone : ∀ token, findSpans text [token] o =
      findNeedle o (placeFrom o 0 cs) (o.normalizeChars token.toList) :=
    fun token => List.flatMap_singleton _ _
  refine ⟨?_, fun s hs => ?_, ?_, fun token => ⟨fun hneedle => ?_, fun hneedle ho => ?_,
    fun hneedle ho => ?_⟩⟩
  · simp only [hone]
    rfl
  · obtain ⟨hlt, hstart, hstop⟩ := mem_findSpans hs
    exact ⟨hlt, hstop.le_byteLength, hstart, hstop⟩
  · rw [length_origins, length_utf8]
  · rw [hone, hneedle]
    rfl
  · rw [hone]
    exact findNeedle_of_exactMatch hneedle ho cs
  · rw [hone]
    obtain ⟨places, hplaces, hfound⟩ := forall₂_findNeedle hneedle ho cs
    exact ⟨places, hplaces, fun others hothers => hplaces.unique hothers, hfound⟩

/-- The small `i` is only a part of what the capital one with a dot becomes. -/
example : findSpans "x\u0130i\u0130" ["i"] {} = [⟨1, 3⟩, ⟨3, 4⟩, ⟨4, 6⟩] := by
  decide +kernel

end CellQuery
