import CellQuery.Proofs.Table.Selection
import CellQuery.Proofs.Text.Words
import CellQuery.Table.Keyword

/-!
# Keywords at their first occurrence

Keywords are collected from one value after the other: the text of a value is put behind those that
are there, unless it is one of them or empty (`keywords_eq_foldl`). What is there stays where it is,
so two keywords are in the order of their first occurrences (`pairwise_keywords`), and more values
add those of their own keywords that are not there (`foldl_note`).
-/

namespace CellQuery

open Text

/-! ### Collecting -/

/-- The keywords after one more value, with those that were there before it. -/
def note (seen : List String) (value : String) : List String :=
  if (trim value).isEmpty || seen.contains (trim value) then seen else seen ++ [trim value]

variable {seen values : List String} {value k : String}

theorem note_of_skip (h : trim value = "" ∨ trim value ∈ seen) : note seen value = seen := by
  refine if_pos ?_
  rcases h with h | h
  · rw [h]
    rfl
  · rw [List.contains_iff_mem.mpr h, Bool.or_true]

theorem note_of_new (hne : trim value ≠ "") (hnew : trim value ∉ seen) :
    note seen value = seen ++ [trim value] := by
  refine if_neg ?_
  simpa [String.isEmpty_iff] using ⟨hne, hnew⟩

theorem keywords_snoc (values : List String) (value : String) :
    keywords (values ++ [value]) = note (keywords values) value := by
  unfold keywords
  rw [List.map_append, List.filter_append, List.map_singleton, List.eraseDups_append]
  by_cases hblank : trim value = ""
  · rw [note_of_skip (.inl hblank), hblank]
    simp [List.removeAll]
  · by_cases hold : trim value ∈ (values.map trim).filter (!·.isEmpty)
    · rw [note_of_skip (.inr (List.mem_eraseDups.mpr hold))]
      simp_all [List.removeAll]
    · rw [note_of_new hblank fun h => hold (List.mem_eraseDups.mp h)]
      simp_all [List.removeAll, List.eraseDups_cons]

/-- Keywords are collected one value at a time. -/
theorem keywords_eq_foldl (values : List String) : keywords values = values.foldl note [] := by
  induction values using List.reverseRecOn with
  | nil => rfl
  | append_singleton values value ih => rw [keywords_snoc, ih, List.foldl_concat]

/-! ### What is collected -/

theorem mem_keywords : k ∈ keywords values ↔ k ∈ values.map trim ∧ k ≠ "" := by
  rw [keywords, List.mem_eraseDups, List.mem_filter]
  simp

/-- Each keyword stands behind those that occur before it. A new one occurs behind everything that
has been looked at, and what has been looked at does not change where it occurs. -/
theorem pairwise_keywords (values : List String) : (keywords values).Pairwise fun j k =>
    (values.map trim).idxOf j < (values.map trim).idxOf k := by
  induction values using List.reverseRecOn with
  | nil => exact .nil
  | append_singleton values value ih =>
    have hfirst : ∀ k ∈ keywords values,
        ((values ++ [value]).map trim).idxOf k = (values.map trim).idxOf k := by
      intro k hk
      rw [List.map_append, List.idxOf_append_of_mem (mem_keywords.mp hk).1]
    -- a further value behind the others moves no first occurrence
    have hpairs := ih.imp_of_mem fun hj hk (h : _ < _) => by
      rw [← hfirst _ hj, ← hfirst _ hk] at h
      exact h
    rw [keywords_snoc]
    by_cases hskip : trim value = "" ∨ trim value ∈ keywords values
    · rwa [note_of_skip hskip]
    · obtain ⟨hne, hnew⟩ := not_or.mp hskip
      rw [note_of_new hne hnew]
      refine List.pairwise_append.mpr ⟨hpairs, List.pairwise_singleton _ _, fun j hj k hk => ?_⟩
      obtain rfl := List.mem_singleton.mp hk
      have hlast : trim value ∉ values.map trim := fun h => hnew (mem_keywords.mpr ⟨h, hne⟩)
      rw [hfirst j hj, List.map_append, List.idxOf_append_of_notMem hlast]
      exact Nat.lt_add_right _ (List.idxOf_lt_length_of_mem (mem_keywords.mp hj).1)

/-- Whatever was collected before, values add their keywords to it, except for those that are
there. -/
theorem foldl_note (seen values : List String) :
    values.foldl note seen = seen ++ (keywords values).filter (· ∉ seen) := by
  induction values using List.reverseRecOn with
  | nil => exact (List.append_nil seen).symm
  | append_singleton values value ih =>
    rw [List.foldl_concat, ih, keywords_snoc]
    by_cases hskip : trim value = "" ∨ trim value ∈ keywords values
    · rw [note_of_skip hskip, note_of_skip]
      refine hskip.imp_right fun h => ?_
      by_cases hseen : trim value ∈ seen
      · exact List.mem_append_left _ hseen
      · exact List.mem_append_right _ (List.mem_filter.mpr ⟨h, decide_eq_true hseen⟩)
    · obtain ⟨hne, hnew⟩ := not_or.mp hskip
      rw [note_of_new hne hnew, List.filter_append]
      by_cases hseen : trim value ∈ seen
      · rw [note_of_skip (.inr (List.mem_append_left _ hseen))]
        simp [hseen]
      · rw [note_of_new hne (by simp [hseen, hnew])]
        simp [hseen]

/-- Nothing is left to trim, to drop or to find twice. -/
theorem keywords_keywords (values : List String) : keywords (keywords values) = keywords values := by
  have htrim : (keywords values).map trim = (keywords values).map id := by
    refine List.map_congr_left fun k hk => ?_
    obtain ⟨v, -, rfl⟩ := List.mem_map.mp (mem_keywords.mp hk).1
    exact trim_trim v
  have hkeep : (keywords values).filter (!·.isEmpty) = keywords values := by
    refine List.filter_eq_self.mpr fun k hk => ?_
    simpa [String.isEmpty_iff] using (mem_keywords.mp hk).2
  calc keywords (keywords values)
    _ = (((keywords values).map trim).filter (!·.isEmpty)).eraseDups := rfl
    _ = (keywords values).eraseDups := by rw [htrim, List.map_id, hkeep]
    _ = keywords values := eraseDups_of_nodup (nodup_eraseDups _)

/-- **Keywords at their first occurrence.** The keywords of some values are their trimmed texts,
without the empty one, each once and in the order in which they first occur. More values add their
own keywords, except for those that are there, and keywords are their own keywords. -/
theorem keywords_first_seen (values : List String) :
    let texts := values.map trim
    (keywords values).Nodup ∧ (∀ k, k ∈ keywords values ↔ k ∈ texts ∧ k ≠ "") ∧
    ((keywords values).Pairwise fun j k => texts.idxOf j < texts.idxOf k) ∧
    (∀ more, keywords (values ++ more) =
      keywords values ++ (keywords more).filter (· ∉ keywords values)) ∧
    keywords (keywords values) = keywords values := by
  refine ⟨nodup_eraseDups _, fun k => mem_keywords, pairwise_keywords values, fun more => ?_,
    keywords_keywords values⟩
  rw [keywords_eq_foldl (values ++ more), List.foldl_append, ← keywords_eq_foldl, foldl_note]

example : keywords ["beta", " alpha ", "beta", "", "\u3000", "Beta", "alpha\n"] =
    ["beta", "alpha", "Beta"] := by
  decide +kernel

end CellQuery
