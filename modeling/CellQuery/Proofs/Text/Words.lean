import CellQuery.Text.Blank
import Mathlib.Data.List.DropRight

/-!
# The words of a text

A text is split into words at its blanks. A blank parts the words before it from the words behind it
(`wordsOf_append_blank`), whichever they are, and blanks at the end make no difference. A word has
no blank in it (`isWord_of_mem_wordsOf`), so a text with a blank in it is never a word of any text.
-/

namespace CellQuery.Text

/-- A word: some characters, and none of them blank. -/
def IsWord (cs : List Char) : Prop :=
  cs ≠ [] ∧ ∀ c ∈ cs, isBlank c = false

instance (cs : List Char) : Decidable (IsWord cs) :=
  decidable_of_iff (cs ≠ [] ∧ cs.all (!isBlank ·) = true) (by simp [IsWord])

variable {as bs cs ds rest : List Char} {c : Char}

/-! ### Splitting -/

theorem wordsOf_of_blank (h : cs.dropWhile isBlank = []) : wordsOf cs = [] := by
  rw [wordsOf, h]

theorem wordsOf_of_dropWhile (h : cs.dropWhile isBlank = c :: rest) : wordsOf cs =
    (c :: rest.takeWhile (!isBlank ·)) :: wordsOf (rest.dropWhile (!isBlank ·)) := by
  rw [wordsOf, h]

/-- Blanks at the beginning make no difference. -/
theorem wordsOf_congr (h : cs.dropWhile isBlank = ds.dropWhile isBlank) :
    wordsOf cs = wordsOf ds := by
  cases hds : ds.dropWhile isBlank with
  | nil => rw [wordsOf_of_blank hds, wordsOf_of_blank (h.trans hds)]
  | cons c rest => rw [wordsOf_of_dropWhile hds, wordsOf_of_dropWhile (h.trans hds)]

theorem wordsOf_cons_blank (hc : isBlank c = true) (cs : List Char) :
    wordsOf (c :: cs) = wordsOf cs :=
  wordsOf_congr (List.dropWhile_cons_of_pos hc)

/-- A blank ends a run of other characters. -/
theorem takeWhile_append_blank (hc : isBlank c = true) (as bs : List Char) :
    (as ++ c :: bs).takeWhile (!isBlank ·) = as.takeWhile (!isBlank ·) ∧
      (as ++ c :: bs).dropWhile (!isBlank ·) = as.dropWhile (!isBlank ·) ++ c :: bs := by
  induction as with
  | nil => simp [hc]
  | cons a as ih =>
    by_cases ha : isBlank a = true
    · simp [ha]
    · simpa [ha] using ih

/-- A blank parts the words before it from those behind it. -/
theorem wordsOf_append_blank (hc : isBlank c = true) (as bs : List Char) :
    wordsOf (as ++ c :: bs) = wordsOf as ++ wordsOf bs := by
  induction as using wordsOf.induct with
  | case1 as hdrop =>
    have hall : ∀ a ∈ as, isBlank a = true := List.dropWhile_eq_nil_iff.mp hdrop
    have hskip : (as ++ c :: bs).dropWhile isBlank = (c :: bs).dropWhile isBlank :=
      List.dropWhile_append_of_pos hall
    rw [wordsOf_congr hskip, wordsOf_cons_blank hc, wordsOf_of_blank hdrop, List.nil_append]
  | case2 as a rest hdrop ih =>
    -- the first word is the same, since the blank ends it at the latest
    have hskip : (as ++ c :: bs).dropWhile isBlank = a :: (rest ++ c :: bs) := by
      rw [List.dropWhile_append, hdrop]
      rfl
    obtain ⟨htake, hleft⟩ := takeWhile_append_blank hc rest bs
    rw [wordsOf_of_dropWhile hskip, wordsOf_of_dropWhile hdrop, htake, hleft, ih, List.cons_append]

theorem wordsOf_append_blanks (hbs : ∀ b ∈ bs, isBlank b = true) (as : List Char) :
    wordsOf (as ++ bs) = wordsOf as := by
  cases bs with
  | nil => rw [List.append_nil]
  | cons b bs =>
    obtain ⟨hb, hbs⟩ := List.forall_mem_cons.mp hbs
    rw [wordsOf_append_blank hb, wordsOf_of_blank (List.dropWhile_eq_nil_iff.mpr hbs),
      List.append_nil]

theorem wordsOf_trimEnd (cs : List Char) : wordsOf (trimEnd cs) = wordsOf cs := by
  have hsplit : trimEnd cs ++ cs.rtakeWhile isBlank = cs := List.rdropWhile_append_rtakeWhile
  have hback : ∀ b ∈ cs.rtakeWhile isBlank, isBlank b = true := fun b hb => List.mem_rtakeWhile_imp hb
  calc wordsOf (trimEnd cs)
    _ = wordsOf (trimEnd cs ++ cs.rtakeWhile isBlank) := (wordsOf_append_blanks hback _).symm
    _ = wordsOf cs := by rw [hsplit]

/-- Texts with a blank before each of them are split one by one. -/
theorem wordsOf_flatMap_blank (hc : isBlank c = true) (texts : List (List Char)) :
    wordsOf (texts.flatMap (c :: ·)) = texts.flatMap wordsOf := by
  have hnil : wordsOf [] = [] := wordsOf_of_blank rfl
  induction texts with
  | nil => exact hnil
  | cons text texts ih =>
    rw [List.flatMap_cons, List.flatMap_cons, ← ih, List.cons_append, wordsOf_cons_blank hc]
    cases texts with
    | nil => rw [List.flatMap_nil, List.append_nil, hnil, List.append_nil]
    | cons next texts =>
      rw [List.flatMap_cons, List.cons_append, wordsOf_append_blank hc, wordsOf_cons_blank hc]

/-! ### Words -/

theorem wordsOf_of_isWord (h : IsWord cs) : wordsOf cs = [cs] := by
  obtain ⟨hne, hword⟩ := h
  obtain ⟨c, rest, rfl⟩ := List.exists_cons_of_ne_nil hne
  obtain ⟨hc, hrest⟩ := List.forall_mem_cons.mp hword
  have hdrop : (c :: rest).dropWhile isBlank = c :: rest :=
    List.dropWhile_cons_of_neg (Bool.eq_false_iff.mp hc)
  have hall : ∀ d ∈ rest, (!isBlank d) = true := fun d hd => by rw [hrest d hd, Bool.not_false]
  have hnil : rest.dropWhile (!isBlank ·) = [] := List.dropWhile_eq_nil_iff.mpr hall
  rw [wordsOf_of_dropWhile hdrop, hnil, wordsOf_of_blank List.dropWhile_nil,
    List.takeWhile_eq_self_iff.mpr hall]

theorem isWord_of_mem_wordsOf {word : List Char} (h : word ∈ wordsOf cs) : IsWord word := by
  induction cs using wordsOf.induct with
  | case1 cs hdrop =>
    rw [wordsOf_of_blank hdrop] at h
    cases h
  | case2 cs c rest hdrop ih =>
    rw [wordsOf_of_dropWhile hdrop] at h
    rcases List.mem_cons.mp h with rfl | h
    · refine ⟨List.cons_ne_nil _ _, List.forall_mem_cons.mpr ⟨?_, fun d hd => ?_⟩⟩
      · have hfirst := List.head?_dropWhile_not isBlank cs
        rw [hdrop] at hfirst
        exact hfirst
      · simpa using List.mem_takeWhile_imp hd
    · exact ih h

theorem words_of_isWord {s : String} (h : IsWord s.toList) : words s = [s] := by
  rw [words, wordsOf_of_isWord h, List.map_singleton, String.ofList_toList]

/-! ### Trimming -/

theorem trimChars_trimChars (cs : List Char) : trimChars (trimChars cs) = trimChars cs := by
  have hfront : (trimChars cs).dropWhile isBlank = trimChars cs := by
    have hpre : trimChars cs <+: cs.dropWhile isBlank := List.rdropWhile_prefix _ _
    rw [List.dropWhile_eq_self_iff]
    intro hpos
    rw [hpre.getElem hpos]
    exact List.dropWhile_get_zero_not _ _ _
  calc trimChars (trimChars cs)
    _ = trimEnd (trimChars cs) := by rw [trimChars, hfront]
    _ = trimChars cs := List.rdropWhile_idempotent isBlank (cs.dropWhile isBlank)

theorem trim_trim (s : String) : trim (trim s) = trim s := by
  rw [trim, toList_trim, trimChars_trimChars]
  rfl

theorem trimEnd_append (has : trimEnd as = as) (rest : List Char) :
    trimEnd (as ++ rest) = as ++ trimEnd rest := by
  unfold trimEnd at has ⊢
  rw [List.reverse_append, List.dropWhile_append]
  split
  · next hblank =>
    rw [has, List.isEmpty_iff.mp hblank, List.reverse_nil, List.append_nil]
  · rw [List.reverse_append, List.reverse_reverse]

end CellQuery.Text
