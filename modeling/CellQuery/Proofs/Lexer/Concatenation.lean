import CellQuery.Proofs.Lexer.Splitting

/-!
# Reading one text after another

A character that separates ends every lexeme but a phrase, and a phrase can reach over it only from
one quote to another (`Lexeme.Stands.quotes_of_straddles`). So what stands in front of such a
character is read as if nothing followed, unless there are quotes on both sides of it
(`Lexeme.Leads.append`), and two texts with it between them are read one after the other
(`tokenize_append_separator`). In particular nothing that separates matters at the ends of a text
(`tokenize_surrounded`, `tokenize_trim`).
-/

namespace CellQuery

open Text

/-! ### A lexeme and what comes behind -/

theorem head?_append_stops {p : Char → Bool} {rest tail : List Char} {s : Char} (hs : p s = false)
    (h : ∀ c ∈ rest.head?, p c = false) : ∀ c ∈ (rest ++ s :: tail).head?, p c = false := by
  cases rest with
  | nil =>
    rintro c ⟨⟩
    exact hs
  | cons d rest => exact h

theorem isWordChar_of_isSeparator {s : Char} (h : isSeparator s = true) : isWordChar s = false := by
  rw [isWordChar, h]
  rfl

theorem ne_quote_of_isSeparator {s : Char} (h : isSeparator s = true) : s ≠ '"' := by
  rintro rfl
  revert h
  decide

namespace Lexeme

variable {ℓ : Lexeme} {rest front back tail : List Char} {s : Char}

theorem Stands.append (h : ℓ.Stands rest) (hs : isSeparator s = true) (tail : List Char) :
    ℓ.Stands (rest ++ s :: tail) := by
  cases h with
  | phrase hne hq => exact .phrase hne hq
  | lparen => exact .lparen
  | rparen => exact .rparen
  | keyword hop hspells hend =>
    exact .keyword hop hspells (head?_append_stops (continuesKeyword_of_isSeparator hs) hend)
  | word hne hrun hstop =>
    exact .word hne hrun (head?_append_stops (isWordChar_of_isSeparator hs) hstop)

theorem Stands.of_append (h : ℓ.Stands (rest ++ tail)) : ℓ.Stands rest := by
  have hhead : ∀ c ∈ rest.head?, c ∈ (rest ++ tail).head? := fun c hc => by
    rw [List.head?_append, Option.mem_def.mp hc]
    rfl
  cases h with
  | phrase hne hq => exact .phrase hne hq
  | lparen => exact .lparen
  | rparen => exact .rparen
  | keyword hop hspells hend => exact .keyword hop hspells fun c hc => hend c (hhead c hc)
  | word hne hrun hstop => exact .word hne hrun fun c hc => hstop c (hhead c hc)

/-- Only a phrase has a character in it that separates, and it has quotes at both ends. -/
theorem Stands.quotes_of_straddles (h : ℓ.Stands rest) (hs : isSeparator s = true)
    (hspelling : ℓ.spelling = front ++ s :: back) : '"' ∈ front ∧ '"' ∈ back := by
  have hin : s ∈ ℓ.spelling := by
    rw [hspelling]
    exact List.mem_append_right _ List.mem_cons_self
  cases h with
  | @phrase body =>
    -- the first character of a phrase and its last are quotes, so the separator is between them
    have hquote := ne_quote_of_isSeparator hs
    cases front with
    | nil => exact absurd (List.cons.inj hspelling).1.symm hquote
    | cons d front =>
      obtain ⟨rfl, htail⟩ := List.cons.inj hspelling
      have hbody : body ++ ['"'] = front ++ s :: back := htail
      refine ⟨List.mem_cons_self, ?_⟩
      rcases List.eq_nil_or_concat back with rfl | ⟨back, d, rfl⟩
      · exact absurd (List.append_inj' hbody rfl).2 (by simpa using hquote.symm)
      · rw [List.concat_eq_append, ← List.cons_append, ← List.append_assoc] at hbody
        rw [List.concat_eq_append, ← (List.append_inj' hbody rfl).2]
        exact List.mem_append_right _ List.mem_cons_self
  | lparen =>
    obtain rfl := List.mem_singleton.mp hin
    cases hs
  | rparen =>
    obtain rfl := List.mem_singleton.mp hin
    cases hs
  | keyword hop hspells =>
    have hc := continuesKeyword_of_spells hop hspells hin
    rw [continuesKeyword_of_isSeparator hs] at hc
    cases hc
  | word hne hrun =>
    have hc := hrun s hin
    rw [isWordChar_of_isSeparator hs] at hc
    cases hc

/-- What leads goes on to lead when text comes behind, if no phrase comes of it. -/
theorem Leads.append (h : ℓ.Leads rest) (hs : isSeparator s = true)
    (hq : '"' ∉ ℓ.spelling ++ rest ∨ '"' ∉ tail) : ℓ.Leads (rest ++ s :: tail) := by
  refine ⟨h.stands.append hs tail, fun ℓ' rest' h' hcs => ?_⟩
  -- another lexeme of the longer text ends before the separator, right at it, or behind it
  rw [← List.append_assoc] at hcs
  rcases List.append_eq_append_iff.mp hcs with ⟨more, hfront, hback⟩ | ⟨more, hspelling, hrest'⟩
  · subst hback
    exact h.first ℓ' more h'.of_append hfront.symm
  · cases more with
    | nil =>
      rw [List.append_nil] at hspelling
      have hend : ℓ'.Stands ([] ++ rest') := h'
      refine h.first ℓ' [] hend.of_append ?_
      rw [hspelling, List.append_nil]
    | cons d more =>
      -- only a phrase reaches behind it, and its quotes are on both sides
      obtain ⟨rfl, rfl⟩ := List.cons.inj hrest'
      obtain ⟨hfront, hmore⟩ := h'.quotes_of_straddles hs hspelling
      rcases hq with hq | hq
      · exact absurd hfront hq
      · exact absurd (List.mem_append_left _ hmore) hq

end Lexeme

/-! ### Texts behind one another -/

section Texts

variable {cs ds gap : List Char} {s : Char}

theorem lexemes_gap (hgap : ∀ c ∈ gap, isSeparator c = true) : lexemes gap = [] :=
  lexemes_of_dropWhile_nil (List.dropWhile_eq_nil_iff.mpr hgap)

theorem lexemes_gap_append (hgap : ∀ c ∈ gap, isSeparator c = true) (cs : List Char) :
    lexemes (gap ++ cs) = lexemes cs := by
  have hdrop : (gap ++ cs).dropWhile isSeparator = cs.dropWhile isSeparator :=
    List.dropWhile_append_of_pos hgap
  cases hcs : cs.dropWhile isSeparator with
  | nil =>
    rw [lexemes_of_dropWhile_nil hcs, lexemes_of_dropWhile_nil (hdrop.trans hcs)]
  | cons c rest =>
    rw [lexemes_of_dropWhile_cons hcs, lexemes_of_dropWhile_cons (hdrop.trans hcs)]

theorem lexemes_append_separator (hs : isSeparator s = true) (hq : '"' ∉ cs ∨ '"' ∉ ds) :
    lexemes (cs ++ s :: ds) = lexemes cs ++ lexemes ds := by
  obtain ⟨pieces, last, hsplits⟩ := exists_splits cs
  induction hsplits with
  | @nil gap hgap =>
    have hsep : ∀ c ∈ gap ++ [s], isSeparator c = true := by
      simpa [or_imp, forall_and, hs] using hgap
    rw [lexemes_gap hgap, List.nil_append, ← List.singleton_append, ← List.append_assoc,
      lexemes_gap_append hsep]
  | @cons gap rest last ℓ pieces hgap hleads _ ih =>
    have hq' : '"' ∉ ℓ.spelling ++ rest ∨ '"' ∉ ds := hq.imp_left fun hq hin => hq (by
      rw [List.append_assoc]
      exact List.mem_append_right _ hin)
    have hrest := ih (hq'.imp_left fun hq hin => hq (List.mem_append_right _ hin))
    obtain ⟨-, c, cs, hdrop, hnext⟩ := hleads.next_after hgap
    obtain ⟨-, c', cs', hdrop', hnext'⟩ := (hleads.append hs hq').next_after hgap
    rw [List.append_assoc, lexemes_of_dropWhile_cons hdrop', hnext', hrest,
      lexemes_of_dropWhile_cons hdrop, hnext, List.cons_append]

theorem lexemes_append_gap (hgap : ∀ c ∈ gap, isSeparator c = true) (cs : List Char) :
    lexemes (cs ++ gap) = lexemes cs := by
  cases gap with
  | nil => rw [List.append_nil]
  | cons s gap =>
    obtain ⟨hs, hgap⟩ := List.forall_mem_cons.mp hgap
    have hq : '"' ∉ gap := fun hin => ne_quote_of_isSeparator (hgap _ hin) rfl
    rw [lexemes_append_separator hs (.inr hq), lexemes_gap hgap, List.append_nil]

end Texts

/-! ### Queries -/

theorem tokenize_append_separator {a b : String} {s : Char} (hs : isSeparator s = true)
    (hq : '"' ∉ a.toList ∨ '"' ∉ b.toList) :
    tokenize (a ++ String.singleton s ++ b) = tokenize a ++ tokenize b := by
  have htext : (a ++ String.singleton s ++ b).toList = a.toList ++ s :: b.toList := by simp
  rw [tokenize, htext, lexemes_append_separator hs hq, List.filterMap_append]
  rfl

theorem filterMap_lexemes_surrounded {front back : List Char}
    (h : ∀ c ∈ front ++ back, isSeparator c = true) (cs : List Char) :
    (lexemes (front ++ cs ++ back)).filterMap Lexeme.token? =
      (lexemes cs).filterMap Lexeme.token? := by
  rw [List.append_assoc, lexemes_gap_append fun c hc => h c (List.mem_append_left _ hc),
    lexemes_append_gap fun c hc => h c (List.mem_append_right _ hc)]

theorem tokenize_surrounded {front back : String}
    (h : ∀ c ∈ front.toList ++ back.toList, isSeparator c = true) (query : String) :
    tokenize (front ++ query ++ back) = tokenize query := by
  rw [tokenize, String.toList_append, String.toList_append, filterMap_lexemes_surrounded h]
  rfl

/-- What trimming cuts off is blank. -/
theorem Text.exists_trimChars (cs : List Char) :
    ∃ front back, front ++ trimChars cs ++ back = cs ∧ ∀ c ∈ front ++ back, isBlank c = true := by
  refine ⟨cs.takeWhile isBlank, ((cs.dropWhile isBlank).reverse.takeWhile isBlank).reverse, ?_, ?_⟩
  · rw [trimChars, trimEnd, List.append_assoc, ← List.reverse_append,
      List.takeWhile_append_dropWhile, List.reverse_reverse, List.takeWhile_append_dropWhile]
  · intro c hc
    rcases List.mem_append.mp hc with hc | hc
    · exact List.mem_takeWhile_imp hc
    · exact List.mem_takeWhile_imp (List.mem_reverse.mp hc)

theorem tokenize_trim (query : String) : tokenize (trim query) = tokenize query := by
  obtain ⟨front, back, hsplit, hblank⟩ := exists_trimChars query.toList
  have hsep : ∀ c ∈ front ++ back, isSeparator c = true := fun c hc => by
    rw [isSeparator, hblank c hc, Bool.true_or]
  rw [tokenize, tokenize, toList_trim, ← filterMap_lexemes_surrounded hsep, hsplit]

end CellQuery
