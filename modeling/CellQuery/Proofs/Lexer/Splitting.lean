import CellQuery.Proofs.Lexer.Grammar

/-!
# Splitting a query

A query splits into gaps and lexemes (`Splits`) in exactly one way (`exists_splits`,
`Splits.unique`). The token of a lexeme is a matter of its spelling (`Lexeme.Leaves`), and reading a
query gives the tokens of its lexemes (`tokenize_splits`).
-/

namespace CellQuery

open Text

/-! ### The token of a lexeme -/

namespace Lexeme

/-- The token of a lexeme, if it has one. -/
inductive Leaves : Lexeme → Option Token → Prop
  | blankPhrase {body : List Char} :
      (∀ c ∈ body, isBlank c = true) → Leaves (.phrase body) none
  | phrase {body : List Char} {c : Char} :
      c ∈ body → isBlank c = false → Leaves (.phrase body) (some (.operand (.ofList body)))
  | paren (op : Operator) : Leaves (.paren op) (some (.operator op))
  | keyword (op : Operator) (spelling : List Char) :
      Leaves (.keyword op spelling) (some (.operator op))
  | quotes : Leaves (.word ['"', '"']) none
  | quoted {body : List Char} :
      body ≠ [] → Leaves (.word ('"' :: (body ++ ['"']))) (some (.operand (.ofList body)))
  | bare {spelling : List Char} :
      (∀ body, spelling ≠ '"' :: (body ++ ['"'])) →
      Leaves (.word spelling) (some (.operand (.ofList spelling)))

/-- `core` is what a lexeme says. Nothing of its spelling is lost but the quotes around it; it is
the text of the operand, an operator in some case, or blank where there is no token. -/
structure Says (ℓ : Lexeme) (core : List Char) : Prop where
  spelling : ℓ.spelling = core ∨ ℓ.spelling = '"' :: (core ++ ['"'])
  operand : ∀ s, ℓ.token? = some (.operand s) → s.toList = core
  operator : ∀ op, ℓ.token? = some (.operator op) → spells op core = true
  dropped : ℓ.token? = none → ∀ c ∈ core, isSeparator c = true

/-- What reading makes of a lexeme is what its spelling says, and a keyword's spelling is no operand
unless it stands between quotes. -/
structure WellRead (ℓ : Lexeme) : Prop where
  head : ∃ c cs, ℓ.spelling = c :: cs ∧ isSeparator c = false
  leaves : ∀ o, ℓ.Leaves o ↔ ℓ.token? = o
  core : ∃ core, ℓ.Says core
  quoted : ∀ s, ℓ.token? = some (.operand s) → ∀ op ∈ Operator.keywords,
    spells op s.toList = true → ∃ body, ℓ = .phrase body

variable {ℓ : Lexeme} {rest : List Char}

theorem unquote_bare {s : List Char} (h : ∀ body, s ≠ '"' :: (body ++ ['"'])) :
    unquote s = s := by
  unfold unquote
  split
  · next rest =>
    refine if_neg fun hlast => h rest.dropLast ?_
    rw [List.dropLast_append_getLast? '"' hlast]
  · rfl

theorem all_isBlank_of_run {run : List Char} (hne : run ≠ [])
    (hrun : ∀ c ∈ run, isWordChar c = true) : run.all isBlank = false := by
  obtain ⟨c, run, rfl⟩ := List.exists_cons_of_ne_nil hne
  rw [List.all_cons, isBlank_of_isWordChar (hrun c List.mem_cons_self), Bool.false_and]

theorem Stands.token?_of_leaves {o : Option Token} (hstands : ℓ.Stands rest) (h : ℓ.Leaves o) :
    ℓ.token? = o := by
  cases h with
  | blankPhrase hblank => rw [token?, if_pos (List.all_eq_true.mpr hblank)]
  | @phrase body c hc hblank =>
    have hall : ¬body.all isBlank = true := fun h => by
      rw [List.all_eq_true.mp h c hc] at hblank
      cases hblank
    rw [token?, if_neg hall]
  | paren op => rfl
  | keyword op s => rfl
  | quotes => rfl
  | @quoted body hne =>
    cases hstands with
    | word _ hrun =>
      have hbody : ∀ c ∈ body, isWordChar c = true := fun c hc => hrun c (by simp [hc])
      rw [token?, unquote_quoted, all_isBlank_of_run hne hbody]
      rfl
  | bare hbare =>
    cases hstands with
    | word hne hrun =>
      rw [token?, unquote_bare hbare, all_isBlank_of_run hne hrun]
      rfl

theorem Stands.exists_leaves (h : ℓ.Stands rest) : ∃ o, ℓ.Leaves o := by
  cases h with
  | @phrase body =>
    by_cases hblank : ∀ c ∈ body, isBlank c = true
    · exact ⟨none, .blankPhrase hblank⟩
    · push Not at hblank
      obtain ⟨c, hc, hblank⟩ := hblank
      exact ⟨_, .phrase hc (Bool.eq_false_iff.mpr hblank)⟩
  | lparen => exact ⟨_, .paren .lparen⟩
  | rparen => exact ⟨_, .paren .rparen⟩
  | @keyword op s => exact ⟨_, .keyword op s⟩
  | @word s =>
    by_cases hquoted : ∃ body, s = '"' :: (body ++ ['"'])
    · obtain ⟨body, rfl⟩ := hquoted
      by_cases hbody : body = []
      · subst hbody
        exact ⟨none, .quotes⟩
      · exact ⟨_, .quoted hbody⟩
    · exact ⟨_, .bare fun body hs => hquoted ⟨body, hs⟩⟩

theorem Stands.leaves_iff {o : Option Token} (h : ℓ.Stands rest) :
    ℓ.Leaves o ↔ ℓ.token? = o := by
  refine ⟨h.token?_of_leaves, ?_⟩
  rintro rfl
  obtain ⟨o, ho⟩ := h.exists_leaves
  rwa [h.token?_of_leaves ho]

section Says

variable {core : List Char} (hs : ℓ.spelling = core ∨ ℓ.spelling = '"' :: (core ++ ['"']))
include hs

theorem Says.of_operand (h : ℓ.token? = some (.operand (.ofList core))) : ℓ.Says core := by
  refine ⟨hs, fun s hoperand => ?_, fun op hoperator => ?_, fun hnone => ?_⟩
  · cases h.symm.trans hoperand
    exact String.toList_ofList
  · cases h.symm.trans hoperator
  · cases h.symm.trans hnone

theorem Says.of_operator {op : Operator} (h : ℓ.token? = some (.operator op))
    (hop : spells op core = true) : ℓ.Says core := by
  refine ⟨hs, fun s hoperand => ?_, fun op' hoperator => ?_, fun hnone => ?_⟩
  · cases h.symm.trans hoperand
  · cases h.symm.trans hoperator
    exact hop
  · cases h.symm.trans hnone

theorem Says.of_none (h : ℓ.token? = none) (hblank : ∀ c ∈ core, isBlank c = true) :
    ℓ.Says core := by
  refine ⟨hs, fun s hoperand => ?_, fun op hoperator => ?_, fun _ c hc => ?_⟩
  · cases h.symm.trans hoperand
  · cases h.symm.trans hoperator
  · rw [isSeparator, hblank c hc, Bool.true_or]

end Says

theorem Stands.exists_core (h : ℓ.Stands rest) : ∃ core, ℓ.Says core := by
  have hleaves := h.leaves_iff.mpr rfl
  generalize htoken : ℓ.token? = o at hleaves
  cases hleaves with
  | @blankPhrase body hblank => exact ⟨body, .of_none (.inr rfl) htoken hblank⟩
  | @phrase body => exact ⟨body, .of_operand (.inr rfl) htoken⟩
  | paren op => exact ⟨op.text.toList, .of_operator (.inl rfl) htoken (spells_text op)⟩
  | keyword op s =>
    cases h with
    | keyword _ hop => exact ⟨s, .of_operator (.inl rfl) htoken hop⟩
  | quotes => exact ⟨[], .of_none (.inr rfl) htoken nofun⟩
  | @quoted body => exact ⟨body, .of_operand (.inr rfl) htoken⟩
  | @bare s => exact ⟨s, .of_operand (.inl rfl) htoken⟩

theorem quote_notMem_spelled {op : Operator} {s : List Char} (h : spells op s = true) :
    '"' ∉ s := by
  intro hin
  have hquote : '"'.toUpper ∈ op.text.toList := by
    rw [← eq_of_beq h]
    exact List.mem_map_of_mem hin
  revert hquote
  cases op <;> decide

/-- A keyword's spelling is an operand only where a phrase holds it. -/
theorem Leads.phrase_of_spells {s : String} {op : Operator} (h : ℓ.Leads rest)
    (htoken : ℓ.token? = some (.operand s)) (hop : op ∈ Operator.keywords)
    (hs : spells op s.toList = true) : ∃ body, ℓ = .phrase body := by
  have hleaves := h.stands.leaves_iff.mpr htoken
  cases hleaves with
  | @phrase body => exact ⟨body, rfl⟩
  | @quoted body hne =>
    -- the phrase would have come first
    rw [String.toList_ofList] at hs
    have hle := h.first (.phrase body) rest (.phrase hne (quote_notMem_spelled hs)) rfl
    simp [rule] at hle
  | @bare spelling =>
    rw [String.toList_ofList] at hs
    cases h.stands with
    | word _ _ hstop =>
      have hend : ∀ c ∈ rest.head?, continuesKeyword c = false := fun c hc =>
        continuesKeyword_of_not_isWordChar (hstop c hc)
      have hle := h.first (.keyword op spelling) rest (.keyword hop hs hend) rfl
      simp [rule] at hle

theorem Leads.wellRead (h : ℓ.Leads rest) : ℓ.WellRead where
  head := h.stands.head
  leaves _ := h.stands.leaves_iff
  core := h.stands.exists_core
  quoted _ htoken _ := h.phrase_of_spells htoken

/-- Reading a query drops what would leave a blank operand. -/
theorem blank_of_token? {s : String} (h : ℓ.token? = some (.operand s)) : blank s = false := by
  cases ℓ with
  | phrase body =>
    rw [token?] at h
    split at h
    · cases h
    · next hb =>
      cases h
      simpa [blank] using hb
  | word spelling =>
    rw [token?] at h
    split at h
    · cases h
    · next hb =>
      cases h
      simpa [blank] using hb
  | paren op => cases h
  | keyword op spelling => cases h

end Lexeme

theorem blank_of_mem_operands {query s : String} (h : s ∈ operands (tokenize query)) :
    blank s = false := by
  obtain ⟨ℓ, -, hℓ⟩ := List.mem_filterMap.mp (mem_operands.mp h)
  exact Lexeme.blank_of_token? hℓ

/-! ### The whole query -/

/-- A lexeme, and what separates it from the one before. -/
structure Piece where
  gap : List Char
  lexeme : Lexeme
  deriving DecidableEq, Repr

/-- A text is cut into pieces and a last gap. -/
inductive Splits : List Char → List Piece → List Char → Prop
  | nil {gap : List Char} : (∀ c ∈ gap, isSeparator c = true) → Splits gap [] gap
  | cons {gap rest last : List Char} {ℓ : Lexeme} {pieces : List Piece} :
      (∀ c ∈ gap, isSeparator c = true) → ℓ.Leads rest → Splits rest pieces last →
      Splits (gap ++ ℓ.spelling ++ rest) (⟨gap, ℓ⟩ :: pieces) last

variable {cs last : List Char} {pieces : List Piece}

theorem exists_splits (cs : List Char) : ∃ pieces last, Splits cs pieces last := by
  induction cs using lexemes.induct with
  | case1 cs hdrop =>
    rw [List.dropWhile_eq_nil_iff] at hdrop
    exact ⟨[], cs, .nil hdrop⟩
  | case2 cs c rest hdrop ih =>
    have hc : isSeparator c = false := head?_dropWhile_stops isSeparator cs c (by rw [hdrop]; rfl)
    obtain ⟨hleads, hsplit⟩ := Lexeme.leads_next hc rest
    obtain ⟨pieces, last, ih⟩ := ih
    have hcs : cs = cs.takeWhile isSeparator ++ (Lexeme.next c rest).1.spelling ++
        (Lexeme.next c rest).2 := by
      rw [List.append_assoc, hsplit, ← hdrop, List.takeWhile_append_dropWhile]
    rw [hcs]
    exact ⟨_, last, .cons (fun c hc => List.mem_takeWhile_imp hc) hleads ih⟩

theorem Splits.lexemes_eq (h : Splits cs pieces last) : lexemes cs = pieces.map Piece.lexeme := by
  induction h with
  | nil hgap => exact lexemes_of_dropWhile_nil (List.dropWhile_eq_nil_iff.mpr hgap)
  | cons hgap hleads _ ih =>
    obtain ⟨-, c, cs, hdrop, hnext⟩ := hleads.next_after hgap
    rw [lexemes_of_dropWhile_cons hdrop, hnext, ih, List.map_cons]

theorem Splits.unique (h : Splits cs pieces last) {pieces' : List Piece}
    {last' : List Char} (h' : Splits cs pieces' last') : pieces' = pieces ∧ last' = last := by
  -- a gap is as long as it can be, since a lexeme begins with no separator; what is behind it is
  -- read in one way
  induction h generalizing pieces' with
  | nil hgap =>
    cases h' with
    | nil => exact ⟨rfl, rfl⟩
    | cons hgap' hleads' =>
      obtain ⟨-, c, cs, hdrop, -⟩ := hleads'.next_after hgap'
      rw [List.dropWhile_eq_nil_iff.mpr hgap] at hdrop
      cases hdrop
  | @cons gap rest last ℓ pieces hgap hleads _ ih =>
    obtain ⟨htake, c, cs, hdrop, hnext⟩ := hleads.next_after hgap
    generalize gap ++ ℓ.spelling ++ rest = text at h' htake hdrop
    cases h' with
    | nil hgap' =>
      rw [List.dropWhile_eq_nil_iff.mpr hgap'] at hdrop
      cases hdrop
    | @cons gap' rest' _ ℓ' pieces' hgap' hleads' hrest' =>
      obtain ⟨htake', c', cs', hdrop', hnext'⟩ := hleads'.next_after hgap'
      have hgaps : gap' = gap := htake'.symm.trans htake
      cases hdrop'.symm.trans hdrop
      cases hnext'.symm.trans hnext
      obtain ⟨rfl, rfl⟩ := ih hrest'
      exact ⟨by rw [hgaps], rfl⟩

theorem Splits.exists_leads (h : Splits cs pieces last) :
    ∀ p ∈ pieces, ∃ rest, p.lexeme.Leads rest := by
  induction h with
  | nil => nofun
  | @cons _ rest _ _ _ _ hleads _ ih => exact List.forall_mem_cons.mpr ⟨⟨rest, hleads⟩, ih⟩

theorem Splits.wellRead (h : Splits cs pieces last) : ∀ p ∈ pieces, p.lexeme.WellRead := by
  intro p hp
  obtain ⟨rest, hleads⟩ := h.exists_leads p hp
  exact hleads.wellRead

theorem exists_leads_of_mem_lexemes {ℓ : Lexeme} (h : ℓ ∈ lexemes cs) :
    ∃ rest, ℓ.Leads rest := by
  obtain ⟨pieces, last, hsplits⟩ := exists_splits cs
  rw [hsplits.lexemes_eq] at h
  obtain ⟨p, hp, rfl⟩ := List.mem_map.mp h
  exact hsplits.exists_leads p hp

/-- A text that is one word is read as that word. -/
theorem tokenize_word {c : Char} (hrun : ∀ d ∈ c :: cs, isWordChar d = true) (hquote : c ≠ '"')
    (hkeyword : ∀ op ∈ Operator.keywords, op.text.toList.head? ≠ some c.toUpper) :
    tokenize (.ofList (c :: cs)) = [.operand (.ofList (c :: cs))] := by
  have hleads : (Lexeme.word (c :: cs)).Leads [] := .word hrun hquote hkeyword nofun
  have hbare : ∀ body, c :: cs ≠ '"' :: (body ++ ['"']) := fun _ heq => hquote (List.cons.inj heq).1
  have htoken : (Lexeme.word (c :: cs)).token? = some (.operand (.ofList (c :: cs))) :=
    hleads.stands.token?_of_leaves (.bare hbare)
  have hsplits : Splits ([] ++ (Lexeme.word (c :: cs)).spelling ++ []) [⟨[], .word (c :: cs)⟩] [] :=
    .cons nofun hleads (.nil nofun)
  rw [List.nil_append, List.append_nil] at hsplits
  have hlexemes : lexemes (c :: cs) = [.word (c :: cs)] := hsplits.lexemes_eq
  rw [tokenize, String.toList_ofList, hlexemes, List.filterMap_cons_some htoken, List.filterMap_nil]

/-- **Reading a query.** Every text splits into gaps and lexemes in exactly one way, and reading it
gives the tokens of the lexemes, in their order. No operand is blank. -/
theorem tokenize_splits (query : String) :
    ∃ pieces last, Splits query.toList pieces last ∧
      (∀ pieces' last', Splits query.toList pieces' last' → pieces' = pieces ∧ last' = last) ∧
      (∀ p ∈ pieces, p.lexeme.WellRead) ∧
      tokenize query = pieces.filterMap (·.lexeme.token?) ∧
      ∀ s ∈ operands (tokenize query), blank s = false := by
  obtain ⟨pieces, last, h⟩ := exists_splits query.toList
  refine ⟨pieces, last, h, fun _ _ => h.unique, h.wellRead, ?_, fun _ => blank_of_mem_operands⟩
  rw [tokenize, h.lexemes_eq, List.filterMap_map]
  rfl

example : tokenize "ANDY,\"a b\"AND(\"\" \"x" =
    [.operand "ANDY", .operand "a b", .operator .and, .operator .lparen, .operand "\"x"] := by
  decide +kernel

end CellQuery
