import CellQuery.Highlight.Span
import Mathlib.Order.Basic

/-!
# Merging spans

Merging keeps the positions that a list of spans covers (`covers_merge`) and lists them in the one
form in which no span is empty and none touches the next (`canonical_merge`). There is one such form
for a set of positions (`Canonical.unique`), so the merged list says what is covered and nothing
else. A merged span begins where some span begins and ends where some span ends (`ends_merge`).
-/

namespace CellQuery.Span

/-! ### Positions -/

section Covers

variable {p : Nat}

theorem not_covers_nil : ¬ Covers [] p := by
  rintro ⟨s, hs, -⟩
  cases hs

theorem covers_cons {s : Span} {spans : List Span} :
    Covers (s :: spans) p ↔ (s.start ≤ p ∧ p < s.stop) ∨ Covers spans p := by
  simp [Covers]

theorem isEmpty_eq_false_iff {s : Span} : s.isEmpty = false ↔ s.start < s.stop := by
  simp only [isEmpty, length, beq_eq_false_iff_ne, ne_eq]
  omega

theorem covers_filter_isEmpty (spans : List Span) :
    Covers (spans.filter (!·.isEmpty)) p ↔ Covers spans p := by
  constructor
  · rintro ⟨s, hs, hp⟩
    exact ⟨s, (List.mem_filter.mp hs).1, hp⟩
  · rintro ⟨s, hs, hstart, hstop⟩
    have hne : s.isEmpty = false := isEmpty_eq_false_iff.mpr (Nat.lt_of_le_of_lt hstart hstop)
    exact ⟨s, List.mem_filter.mpr ⟨hs, by rw [hne, Bool.not_false]⟩, hstart, hstop⟩

end Covers

/-! ### The canonical form -/

/-- No span is empty, and each ends before the next one begins. -/
structure Canonical (spans : List Span) : Prop where
  nonempty : ∀ s ∈ spans, s.start < s.stop
  separated : spans.Pairwise fun a b => a.stop < b.start

theorem canonical_nil : Canonical [] :=
  ⟨nofun, .nil⟩

theorem canonical_cons {s : Span} {spans : List Span} :
    Canonical (s :: spans) ↔
      s.start < s.stop ∧ (∀ t ∈ spans, s.stop < t.start) ∧ Canonical spans := by
  constructor
  · rintro ⟨hne, hsep⟩
    obtain ⟨hhead, htail⟩ := List.pairwise_cons.mp hsep
    exact ⟨hne s List.mem_cons_self, hhead, fun t ht => hne t (List.mem_cons_of_mem s ht), htail⟩
  · rintro ⟨hs, hhead, hne, hsep⟩
    refine ⟨fun t ht => ?_, List.pairwise_cons.mpr ⟨hhead, hsep⟩⟩
    rcases List.mem_cons.mp ht with rfl | ht
    · exact hs
    · exact hne t ht

theorem Canonical.apart {spans : List Span} (h : Canonical spans) {a b : Span} (ha : a ∈ spans)
    (hb : b ∈ spans) (hne : a ≠ b) : a.stop < b.start ∨ b.stop < a.start := by
  induction spans with
  | nil => cases ha
  | cons s spans ih =>
    obtain ⟨-, hhead, hrest⟩ := canonical_cons.mp h
    rcases List.mem_cons.mp ha with hafirst | harest
    · rcases List.mem_cons.mp hb with hbfirst | hbrest
      · exact absurd (hafirst.trans hbfirst.symm) hne
      · exact .inl (hafirst ▸ hhead b hbrest)
    · rcases List.mem_cons.mp hb with hbfirst | hbrest
      · exact .inr (hbfirst ▸ hhead a harest)
      · exact ih hrest harest hbrest

/-- What lies within canonical spans, without a gap, lies within one of them. -/
theorem Canonical.exists_within {spans : List Span} (h : Canonical spans) {s : Span}
    (hs : s.start < s.stop) (hcovers : ∀ p, s.start ≤ p → p < s.stop → Covers spans p) :
    ∃ m ∈ spans, m.start ≤ s.start ∧ s.stop ≤ m.stop := by
  obtain ⟨m, hm, hstart, hstop⟩ := hcovers s.start (Nat.le_refl _) hs
  refine ⟨m, hm, hstart, Nat.le_of_not_lt fun hlong => ?_⟩
  -- the end of `m` lies in `s`, so another of the spans covers it and touches `m`
  obtain ⟨n, hn, hnstart, hnstop⟩ := hcovers m.stop (Nat.le_of_lt hstop) hlong
  have hne : m ≠ n := by
    rintro rfl
    omega
  have hmne := h.nonempty m hm
  rcases h.apart hm hn hne with hapart | hapart <;> omega

section Unique

variable {s : Span} {spans : List Span} {p : Nat}

theorem Canonical.start_le (h : Canonical (s :: spans)) (hp : Covers (s :: spans) p) :
    s.start ≤ p := by
  obtain ⟨hs, hgap, -⟩ := canonical_cons.mp h
  obtain ⟨t, ht, hstart, -⟩ := hp
  rcases List.mem_cons.mp ht with rfl | ht
  · exact hstart
  · have hlater := hgap t ht
    omega

theorem Canonical.stop_lt (h : Canonical (s :: spans)) (hp : Covers spans p) : s.stop < p := by
  obtain ⟨-, hgap, -⟩ := canonical_cons.mp h
  obtain ⟨t, ht, hstart, -⟩ := hp
  exact Nat.lt_of_lt_of_le (hgap t ht) hstart

/-- The end of the first span is a position that no span covers. -/
theorem Canonical.not_covers_stop (h : Canonical (s :: spans)) : ¬ Covers (s :: spans) s.stop := by
  intro hp
  rcases covers_cons.mp hp with ⟨-, hlt⟩ | hrest
  · omega
  · have hlt := h.stop_lt hrest
    omega

theorem Canonical.covers_tail_iff (h : Canonical (s :: spans)) :
    Covers spans p ↔ Covers (s :: spans) p ∧ s.stop < p := by
  constructor
  · intro hp
    exact ⟨covers_cons.mpr (.inr hp), h.stop_lt hp⟩
  · rintro ⟨hp, hlt⟩
    rcases covers_cons.mp hp with ⟨-, hstop⟩ | hrest
    · omega
    · exact hrest

/-- A span that begins with the first one and has all its positions covered ends no later. -/
theorem Canonical.stop_le (h : Canonical (s :: spans)) {t : Span} (hstart : t.start = s.start)
    (hcovers : ∀ p, t.start ≤ p → p < t.stop → Covers (s :: spans) p) : t.stop ≤ s.stop := by
  by_contra hlong
  have hs : s.start < s.stop := h.nonempty s List.mem_cons_self
  -- the end of `s` lies in `t`, so the list would have to cover it
  exact h.not_covers_stop (hcovers s.stop (by omega) (by omega))

/-- The canonical form is determined by the positions. -/
theorem Canonical.unique {others : List Span} (h : Canonical spans) (h' : Canonical others)
    (hcovers : ∀ p, Covers spans p ↔ Covers others p) : spans = others := by
  induction spans generalizing others with
  | nil =>
    cases others with
    | nil => rfl
    | cons t others =>
      have ht := h'.nonempty t List.mem_cons_self
      exact absurd ((hcovers t.start).mpr (covers_cons.mpr (.inl ⟨Nat.le_refl _, ht⟩)))
        not_covers_nil
  | cons s spans ih =>
    have hs := h.nonempty s List.mem_cons_self
    -- each list covers the first position of the other
    have hfirst := (hcovers s.start).mp (covers_cons.mpr (.inl ⟨Nat.le_refl _, hs⟩))
    cases others with
    | nil => exact absurd hfirst not_covers_nil
    | cons t others =>
      have ht := h'.nonempty t List.mem_cons_self
      have hfirst' := (hcovers t.start).mpr (covers_cons.mpr (.inl ⟨Nat.le_refl _, ht⟩))
      have hstart : s.start = t.start := Nat.le_antisymm (h.start_le hfirst') (h'.start_le hfirst)
      have hstop : s.stop = t.stop := by
        refine Nat.le_antisymm (h'.stop_le hstart fun p hp hlt => ?_)
          (h.stop_le hstart.symm fun p hp hlt => ?_)
        · exact (hcovers p).mp (covers_cons.mpr (.inl ⟨hp, hlt⟩))
        · exact (hcovers p).mpr (covers_cons.mpr (.inl ⟨hp, hlt⟩))
      have hrest : spans = others := by
        refine ih (canonical_cons.mp h).2.2 (canonical_cons.mp h').2.2 fun p => ?_
        rw [h.covers_tail_iff, h'.covers_tail_iff, hcovers p, hstop]
      cases s
      cases t
      simp_all

end Unique

/-! ### Joining -/

section Join

/-- In order of their start. -/
def Ordered (spans : List Span) : Prop :=
  spans.Pairwise fun a b => a.start ≤ b.start

theorem Ordered.join {current s : Span} {spans : List Span} (h : Ordered (current :: s :: spans))
    (stop : Nat) : Ordered (⟨current.start, stop⟩ :: spans) := by
  obtain ⟨hcurrent, htail⟩ := List.pairwise_cons.mp h
  exact List.pairwise_cons.mpr
    ⟨fun t ht => hcurrent t (List.mem_cons_of_mem s ht), (List.pairwise_cons.mp htail).2⟩

theorem covers_joinFrom {current : Span} {spans : List Span} (h : Ordered (current :: spans))
    (p : Nat) : Covers (joinFrom current spans) p ↔ Covers (current :: spans) p := by
  induction spans generalizing current with
  | nil => rfl
  | cons s spans ih =>
    obtain ⟨hcurrent, htail⟩ := List.pairwise_cons.mp h
    have hs := hcurrent s List.mem_cons_self
    rw [joinFrom]
    split
    -- where they meet, the joined span covers what the two cover
    · next hmeet =>
      rw [ih (h.join _), covers_cons, covers_cons, covers_cons, ← or_assoc]
      refine or_congr_left ?_
      show current.start ≤ p ∧ p < max current.stop s.stop ↔ _
      omega
    · rw [covers_cons, ih htail, covers_cons, covers_cons, covers_cons]

theorem start_le_of_mem_joinFrom {current : Span} {spans : List Span}
    (h : Ordered (current :: spans)) : ∀ m ∈ joinFrom current spans, current.start ≤ m.start := by
  induction spans generalizing current with
  | nil =>
    intro m hm
    exact Nat.le_of_eq (congrArg start (List.mem_singleton.mp hm).symm)
  | cons s spans ih =>
    obtain ⟨hcurrent, htail⟩ := List.pairwise_cons.mp h
    rw [joinFrom]
    split
    · exact ih (h.join _)
    · intro m hm
      rcases List.mem_cons.mp hm with rfl | hm
      · exact Nat.le_refl _
      · exact Nat.le_trans (hcurrent s List.mem_cons_self) (ih htail m hm)

theorem canonical_joinFrom {current : Span} {spans : List Span} (h : Ordered (current :: spans))
    (hne : ∀ s ∈ current :: spans, s.start < s.stop) : Canonical (joinFrom current spans) := by
  induction spans generalizing current with
  | nil => exact canonical_cons.mpr ⟨hne current List.mem_cons_self, nofun, canonical_nil⟩
  | cons s spans ih =>
    have htail := (List.pairwise_cons.mp h).2
    have hcurrent : current.start < current.stop := hne current List.mem_cons_self
    rw [joinFrom]
    split
    · refine ih (h.join _) fun t ht => ?_
      rcases List.mem_cons.mp ht with rfl | ht
      · exact Nat.lt_of_lt_of_le hcurrent (Nat.le_max_left _ _)
      · exact hne t (List.mem_cons_of_mem _ (List.mem_cons_of_mem _ ht))
    -- the next span begins behind `current`, and all others no earlier than that one
    · next hgap =>
      have hrest := ih htail fun t ht => hne t (List.mem_cons_of_mem _ ht)
      refine canonical_cons.mpr ⟨hcurrent, fun m hm => ?_, hrest⟩
      exact Nat.lt_of_lt_of_le (Nat.lt_of_not_le hgap) (start_le_of_mem_joinFrom htail m hm)

theorem ends_joinFrom {current : Span} {spans : List Span} :
    ∀ m ∈ joinFrom current spans, (∃ a ∈ current :: spans, a.start = m.start) ∧
      ∃ b ∈ current :: spans, b.stop = m.stop := by
  induction spans generalizing current with
  | nil =>
    intro m hm
    rw [List.mem_singleton.mp hm]
    exact ⟨⟨current, List.mem_cons_self, rfl⟩, ⟨current, List.mem_cons_self, rfl⟩⟩
  | cons s spans ih =>
    intro m hm
    rw [joinFrom] at hm
    split at hm
    · obtain ⟨⟨a, ha, hstart⟩, ⟨b, hb, hstop⟩⟩ := ih m hm
      constructor
      · rcases List.mem_cons.mp ha with rfl | ha
        · exact ⟨current, List.mem_cons_self, hstart⟩
        · exact ⟨a, List.mem_cons_of_mem _ (List.mem_cons_of_mem _ ha), hstart⟩
      -- the end of a joined span is the end of the longer one
      · rcases List.mem_cons.mp hb with rfl | hb
        · rcases Nat.le_total s.stop current.stop with hle | hle
          · exact ⟨current, List.mem_cons_self, (Nat.max_eq_left hle).symm.trans hstop⟩
          · exact ⟨s, List.mem_cons_of_mem _ List.mem_cons_self,
              (Nat.max_eq_right hle).symm.trans hstop⟩
        · exact ⟨b, List.mem_cons_of_mem _ (List.mem_cons_of_mem _ hb), hstop⟩
    · rcases List.mem_cons.mp hm with rfl | hm
      · exact ⟨⟨m, List.mem_cons_self, rfl⟩, ⟨m, List.mem_cons_self, rfl⟩⟩
      · obtain ⟨⟨a, ha, hstart⟩, ⟨b, hb, hstop⟩⟩ := ih m hm
        exact ⟨⟨a, List.mem_cons_of_mem _ ha, hstart⟩, ⟨b, List.mem_cons_of_mem _ hb, hstop⟩⟩

end Join

/-! ### Merging -/

section Merge

variable (spans : List Span)

/-- The spans that are merged: those that are not empty, in order. -/
def sorted : List Span :=
  (spans.filter (!·.isEmpty)).mergeSort upTo

theorem merge_eq_joinSorted : merge spans = joinSorted (sorted spans) := rfl

theorem mem_sorted {s : Span} : s ∈ sorted spans ↔ s ∈ spans ∧ s.start < s.stop := by
  rw [sorted, List.mem_mergeSort, List.mem_filter, Bool.not_eq_true', isEmpty_eq_false_iff]

theorem ordered_sorted : Ordered (sorted spans) := by
  have htrans : ∀ a b c : Span, upTo a b = true → upTo b c = true → upTo a c = true := by
    simp only [upTo, Bool.or_eq_true, Bool.and_eq_true, decide_eq_true_eq, beq_iff_eq]
    omega
  have htotal : ∀ a b : Span, (upTo a b || upTo b a) = true := by
    simp only [upTo, Bool.or_eq_true, Bool.and_eq_true, decide_eq_true_eq, beq_iff_eq]
    omega
  refine (List.pairwise_mergeSort htrans htotal _).imp fun {a b} hab => ?_
  simp only [upTo, Bool.or_eq_true, Bool.and_eq_true, decide_eq_true_eq, beq_iff_eq] at hab
  omega

theorem covers_merge (p : Nat) : Covers (merge spans) p ↔ Covers spans p := by
  have hsorted : Covers (sorted spans) p ↔ Covers spans p := by
    rw [← covers_filter_isEmpty spans]
    simp only [Covers, sorted, List.mem_mergeSort]
  rw [merge_eq_joinSorted, ← hsorted]
  have hordered := ordered_sorted spans
  cases hs : sorted spans with
  | nil => rfl
  | cons s rest =>
    rw [hs] at hordered
    exact covers_joinFrom hordered p

theorem canonical_merge : Canonical (merge spans) := by
  rw [merge_eq_joinSorted]
  have hordered := ordered_sorted spans
  have hne : ∀ s ∈ sorted spans, s.start < s.stop := fun s hs => ((mem_sorted spans).mp hs).2
  cases hs : sorted spans with
  | nil => exact canonical_nil
  | cons s rest =>
    rw [hs] at hordered hne
    exact canonical_joinFrom hordered hne

/-- Nothing but the positions shows in the merged list. -/
theorem merge_congr {spans others : List Span} (h : ∀ p, Covers spans p ↔ Covers others p) :
    merge spans = merge others :=
  (canonical_merge spans).unique (canonical_merge others) fun p => by
    rw [covers_merge, covers_merge, h]

theorem ends_merge {m : Span} (hm : m ∈ merge spans) :
    (∃ a ∈ spans, a.start = m.start) ∧ ∃ b ∈ spans, b.stop = m.stop := by
  have hmem : ∀ s ∈ sorted spans, s ∈ spans := fun s hs => ((mem_sorted spans).mp hs).1
  rw [merge_eq_joinSorted] at hm
  cases hs : sorted spans with
  | nil =>
    rw [hs] at hm
    cases hm
  | cons s rest =>
    rw [hs] at hm hmem
    obtain ⟨⟨a, ha, hstart⟩, ⟨b, hb, hstop⟩⟩ := ends_joinFrom m hm
    exact ⟨⟨a, hmem a ha, hstart⟩, ⟨b, hmem b hb, hstop⟩⟩

/-- **Merging is a normal form.** What it gives is canonical and covers the positions that the spans
cover, and no other canonical list does. So two lists have the same merged form exactly if they
cover the same positions: neither order nor repetition shows, and merging again changes nothing. -/
theorem merge_normalForm :
    Canonical (merge spans) ∧
    (∀ p, Covers (merge spans) p ↔ Covers spans p) ∧
    (∀ others, Canonical others → (∀ p, Covers others p ↔ Covers spans p) → others = merge spans) ∧
    (∀ others, merge spans = merge others ↔ ∀ p, Covers spans p ↔ Covers others p) ∧
    (∀ others, (∀ s, s ∈ spans ↔ s ∈ others) → merge spans = merge others) ∧
    merge (merge spans) = merge spans := by
  have hcanonical : ∀ others, Canonical others → (∀ p, Covers others p ↔ Covers spans p) →
      others = merge spans := by
    intro others hothers hcovers
    exact hothers.unique (canonical_merge spans) fun p => (hcovers p).trans (covers_merge spans p).symm
  have hsame : ∀ others, merge spans = merge others ↔ ∀ p, Covers spans p ↔ Covers others p := by
    intro others
    constructor
    · intro h p
      rw [← covers_merge spans, h, covers_merge]
    · intro h
      refine (hcanonical _ (canonical_merge others) fun p => ?_).symm
      exact (covers_merge others p).trans (h p).symm
  refine ⟨canonical_merge spans, covers_merge spans, hcanonical, hsame, fun others h => ?_, ?_⟩
  · exact (hsame others).mpr fun p => by simp only [Covers, h]
  · exact ((hsame (merge spans)).mpr fun p => (covers_merge spans p).symm).symm

example : merge [⟨7, 9⟩, ⟨5, 3⟩, ⟨0, 2⟩, ⟨7, 8⟩, ⟨2, 4⟩, ⟨6, 6⟩] = [⟨0, 4⟩, ⟨7, 9⟩] := by
  cbv

end Merge

end CellQuery.Span
