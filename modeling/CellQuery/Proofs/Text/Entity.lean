import CellQuery.Text.Escape

/-!
# Reading escaped text

Escaped text has none of the characters that begin or end markup, and every ampersand in it begins
an entity. So it can be read from the left without looking back (`unescapeChars_escapeChars`), also
where the text itself had an entity in it, and it has no tags: where tags are put into it, dropping
them gives it back (`outsideTags_append`, `outsideTags_tag`).
-/

namespace CellQuery.Text

/-! ### Entities -/

/-- The entities that escaping writes. -/
def entities : List String :=
  ["&amp;", "&lt;", "&gt;", "&quot;", "&#39;"]

/-- The characters that have one. -/
def specials : List Char :=
  ['&', '<', '>', '"', '\'']

/-- The text with every entity replaced by its character, from left to right. -/
def unescapeChars : List Char → List Char
  | '&' :: 'a' :: 'm' :: 'p' :: ';' :: rest => '&' :: unescapeChars rest
  | '&' :: 'l' :: 't' :: ';' :: rest => '<' :: unescapeChars rest
  | '&' :: 'g' :: 't' :: ';' :: rest => '>' :: unescapeChars rest
  | '&' :: 'q' :: 'u' :: 'o' :: 't' :: ';' :: rest => '"' :: unescapeChars rest
  | '&' :: '#' :: '3' :: '9' :: ';' :: rest => '\'' :: unescapeChars rest
  | c :: rest => c :: unescapeChars rest
  | [] => []

/-- A text read as markup. -/
def unescape (s : String) : String :=
  .ofList (unescapeChars s.toList)

section Entities

variable {c : Char} {cs front back : List Char}

/-- A character is written as itself, or it is special and written as an entity. -/
theorem escapeChar_cases (c : Char) :
    (escapeChar c = [c] ∧ c ∉ specials) ∨ ∃ name, escapeChar c = '&' :: name ∧
      '&' :: name ∈ entities.map String.toList ∧ ∀ s ∈ specials, s ∉ name := by
  unfold escapeChar
  split
  case h_6 => exact .inl ⟨rfl, by simp_all [specials]⟩
  all_goals exact .inr ⟨_, rfl, by decide, by simp [specials]⟩

theorem unescapeChars_cons (h : c ≠ '&') (rest : List Char) :
    unescapeChars (c :: rest) = c :: unescapeChars rest := by
  rw [unescapeChars.eq_def]
  split <;> simp_all

/-- What was written for a character is read as this character. -/
theorem unescapeChars_escapeChar (c : Char) (rest : List Char) :
    unescapeChars (escapeChar c ++ rest) = c :: unescapeChars rest := by
  unfold escapeChar
  split
  case h_6 hamp _ _ _ _ => exact unescapeChars_cons hamp rest
  all_goals rfl

theorem escapeChars_cons (c : Char) (cs : List Char) :
    escapeChars (c :: cs) = escapeChar c ++ escapeChars cs :=
  List.flatMap_cons

theorem unescapeChars_escapeChars (cs : List Char) : unescapeChars (escapeChars cs) = cs := by
  induction cs with
  | nil => rfl
  | cons c cs ih => rw [escapeChars_cons, unescapeChars_escapeChar, ih]

/-- Special characters other than the ampersand are nowhere, also not inside entities. -/
theorem notMem_escapeChars (hc : c ∈ specials) (hamp : c ≠ '&') (cs : List Char) :
    c ∉ escapeChars cs := by
  intro hmem
  obtain ⟨d, -, hd⟩ := List.mem_flatMap.mp hmem
  rcases escapeChar_cases d with ⟨hself, hplain⟩ | ⟨name, hentity, -, hname⟩
  · rw [hself] at hd
    obtain rfl := List.mem_singleton.mp hd
    exact hplain hc
  · rw [hentity] at hd
    exact hname c hc ((List.mem_cons.mp hd).resolve_left hamp)

/-- What a character is written as has no ampersand behind its first character. -/
theorem entity_of_escapeChar (h : escapeChar c = front ++ '&' :: back) :
    '&' :: back ∈ entities.map String.toList := by
  -- a plain character is no ampersand, and an entity begins with its only one
  have hamp : '&' ∈ escapeChar c := h ▸ List.mem_append_cons_self
  rcases escapeChar_cases c with ⟨hself, hplain⟩ | ⟨name, hentity, hmem, hname⟩
  · rw [hself, List.mem_singleton] at hamp
    exact absurd (hamp ▸ List.mem_cons_self) hplain
  · rw [h] at hentity
    cases front with
    | nil => rwa [← hentity] at hmem
    | cons d front =>
      have hin : '&' ∈ name := (List.cons_eq_cons.mp hentity).2 ▸ List.mem_append_cons_self
      exact absurd hin (hname '&' List.mem_cons_self)

theorem exists_entity_of_ampersand (h : escapeChars cs = front ++ '&' :: back) :
    ∃ e ∈ entities, e.toList <+: '&' :: back := by
  induction cs generalizing front with
  | nil => exact absurd h.symm (List.append_ne_nil_of_right_ne_nil _ (List.cons_ne_nil _ _))
  | cons c cs ih =>
    rw [escapeChars_cons] at h
    -- the ampersand is written for a later character, or for this one
    rcases List.append_eq_append_iff.mp h with ⟨front, -, hrest⟩ | ⟨tail, hc, hback⟩
    · exact ih hrest
    · cases tail with
      | nil =>
        have hrest : escapeChars cs = [] ++ '&' :: back := hback.symm
        exact ih hrest
      | cons d tail =>
        obtain ⟨rfl, rfl⟩ := List.cons_eq_cons.mp hback
        obtain ⟨e, he, hchars⟩ := List.mem_map.mp (entity_of_escapeChar hc)
        exact ⟨e, he, hchars ▸ List.prefix_append _ _⟩

theorem unescape_escape (s : String) : unescape (escape s) = s := by
  rw [unescape, toList_escape, unescapeChars_escapeChars, String.ofList_toList]

end Entities

/-! ### Tags -/

/-- A text in angle brackets, with no closing one inside. -/
def IsTag (s : String) : Prop :=
  ∃ name : List Char, s.toList = '<' :: name ++ ['>'] ∧ '>' ∉ name

/-- What is left of a text without its tags, as seen from inside of a tag or from outside. -/
def outsideTags (inside : Bool) : List Char → List Char
  | [] => []
  | c :: rest =>
    if inside then outsideTags (c ≠ '>') rest
    else if c = '<' then outsideTags true rest
    else c :: outsideTags false rest

section Tags

variable {cs : List Char}

theorem outsideTags_append (h : '<' ∉ cs) (rest : List Char) :
    outsideTags false (cs ++ rest) = cs ++ outsideTags false rest := by
  induction cs with
  | nil => rfl
  | cons c cs ih =>
    obtain ⟨hc, hcs⟩ := List.ne_and_not_mem_of_not_mem_cons h
    rw [List.cons_append, outsideTags, if_neg Bool.false_ne_true, if_neg (Ne.symm hc), ih hcs,
      List.cons_append]

theorem outsideTags_tag {s : String} (h : IsTag s) (rest : List Char) :
    outsideTags false (s.toList ++ rest) = outsideTags false rest := by
  obtain ⟨name, hs, hname⟩ := h
  have hinside : outsideTags true (name ++ '>' :: rest) = outsideTags false rest := by
    clear hs
    induction name with
    | nil => rfl
    | cons c name ih =>
      obtain ⟨hc, hname⟩ := List.ne_and_not_mem_of_not_mem_cons hname
      rw [List.cons_append, outsideTags, if_pos rfl, decide_eq_true (Ne.symm hc), ih hname]
  rw [hs, List.cons_append, List.cons_append, List.append_assoc, List.singleton_append, outsideTags,
    if_neg Bool.false_ne_true, if_pos rfl, hinside]

end Tags

end CellQuery.Text
