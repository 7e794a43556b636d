import CellQuery.Proofs.Lexer.Grammar

/-!
# Writing a query

`Written ts cs` says that the text `cs` writes the tokens `ts` in the plainest way: operands between
quotes, operators in any case, something that separates between one token and the next. The gaps
are free, so a list of tokens has many such texts; reading any of them gives the list back
(`filterMap_lexemes_of_written`), if the operands can be quoted at all.

Each token needs one fact: what begins with its text, and goes on with the end or a separator, has
the token as its first lexeme (`leads_of_writes`).
-/

namespace CellQuery

/-! ### The relation -/

/-- `cs` is the text of a token: an operand between quotes, an operator in any case. -/
def Writes : Token → List Char → Prop
  | .operand s, cs => cs = '"' :: s.toList ++ ['"']
  | .operator op, cs => Lexeme.spells op cs = true

/-- An operand that a phrase can hold: not blank, and without a quote. -/
def Quotable (s : String) : Prop :=
  Text.blank s = false ∧ '"' ∉ s.toList

instance (s : String) : Decidable (Quotable s) :=
  inferInstanceAs (Decidable (Text.blank s = false ∧ '"' ∉ s.toList))

/-- An operand that comes back from between quotes. One that a phrase cannot hold comes back only if
the whole is read as a word, which gives its outer quotes away. -/
inductive ReadsBack (s : String) : Prop
  | phrase : Quotable s → ReadsBack s
  | word {tail : List Char} :
      s.toList = '"' :: tail → (∀ c ∈ tail, isWordChar c = true) → ReadsBack s

/-- A text that writes tokens one after the other: separators may stand around each, and have to
stand between two. -/
inductive Written : List Token → List Char → Prop
  | nil {gap : List Char} : gap.all isSeparator = true → Written [] gap
  | cons {gap cs rest : List Char} {t : Token} {ts : List Token} :
      gap.all isSeparator = true → Writes t cs → Written ts rest →
      (ts ≠ [] → rest.head?.any isSeparator = true) → Written (t :: ts) (gap ++ cs ++ rest)

/-- What follows a token: nothing, or a character that separates. -/
def EndsHere (rest : List Char) : Prop :=
  ∀ c ∈ rest.head?, isSeparator c = true

theorem Written.endsHere {ts : List Token} {rest : List Char} (h : Written ts rest)
    (hsep : ts ≠ [] → rest.head?.any isSeparator = true) : EndsHere rest := by
  intro c hc
  by_cases hts : ts = []
  · subst hts
    cases h with
    | nil hgap => exact List.all_eq_true.mp hgap c (List.mem_of_mem_head? hc)
  · have hany := hsep hts
    rw [Option.mem_def] at hc
    simpa [hc] using hany

/-! ### Characters -/

/-- A character with no other case is written in one way only. -/
theorem eq_of_toUpper_eq {c d : Char} (h : c.toUpper = d) (hd : d.isUpper = false) : c = d := by
  have halpha : c.isAlpha = false := by rw [← Char.isUpper_toUpper_eq_isAlpha, h, hd]
  have hlower : ¬c.isLower = true := fun hl => by simp [Char.isAlpha, hl] at halpha
  rw [← h, Char.toUpper_eq_of_not_isLower hlower]

/-! ### Reading what was written -/

theorem spells_paren {op : Operator} {d : Char} (hop : op.text.toList = [d])
    (hd : d.isUpper = false) {cs : List Char} (h : Lexeme.spells op cs = true) : cs = [d] := by
  have heq := eq_of_beq h
  rw [hop] at heq
  obtain ⟨c, rfl, hc⟩ := List.map_eq_singleton_iff.mp heq
  rw [eq_of_toUpper_eq hc hd]

/-- Two quotes in a row begin no phrase, so what they begin is a word. -/
theorem leads_word_of_quotes {run rest : List Char} (hrun : ∀ c ∈ run, isWordChar c = true)
    (hstop : ∀ c ∈ rest.head?, isWordChar c = false) :
    (Lexeme.word ('"' :: '"' :: run)).Leads rest := by
  have hquote : isWordChar '"' = true := by decide
  refine ⟨.word (List.cons_ne_nil _ _) (by simpa [hquote] using hrun) hstop, ?_⟩
  intro ℓ' rest' h hcs
  cases h with
  | @phrase body _ hne hq =>
    obtain ⟨b, body, rfl⟩ := List.exists_cons_of_ne_nil hne
    simp only [Lexeme.spelling, List.cons_append, List.cons.injEq] at hcs
    exact absurd (hcs.2.1 ▸ List.mem_cons_self) hq
  | lparen => cases hcs
  | rparen => cases hcs
  | keyword hop hs =>
    obtain ⟨c, cs, rfl, -⟩ := Lexeme.head_spelled hs
    obtain ⟨rfl, -⟩ := List.cons.inj hcs
    cases Lexeme.continuesKeyword_of_spells hop hs List.mem_cons_self
  | word => exact le_rfl

/-- The text of a token, where nothing of another token follows, is its lexeme. -/
theorem leads_of_writes {t : Token} {cs rest : List Char} (hw : Writes t cs)
    (hq : ∀ s ∈ t.operand?, ReadsBack s) (hr : EndsHere rest) :
    ∃ ℓ : Lexeme, ℓ.spelling = cs ∧ ℓ.Leads rest ∧ ℓ.token? = some t := by
  cases t with
  | operand s =>
    cases hq s rfl with
    | phrase hs =>
      obtain ⟨hblank, hquote⟩ := hs
      have hne : s.toList ≠ [] := by
        intro hnil
        simp [Text.blank, hnil] at hblank
      have hall : s.toList.all Text.isBlank = false := hblank
      exact ⟨.phrase s.toList, hw.symm, .phrase hne hquote rest, by simp [Lexeme.token?, hall]⟩
    | @word tail hs hrun =>
      have hstop : ∀ c ∈ rest.head?, isWordChar c = false := fun c hc => by
        simp [isWordChar, hr c hc]
      have hquote : isWordChar '"' = true := by decide
      have hrun' : ∀ c ∈ tail ++ ['"'], isWordChar c = true := by
        simpa [hquote, or_imp, forall_and] using hrun
      refine ⟨.word ('"' :: (s.toList ++ ['"'])), hw.symm, ?_, ?_⟩
      · rw [hs]
        exact leads_word_of_quotes hrun' hstop
      · have hall : s.toList.all Text.isBlank = false := by
          rw [hs, List.all_cons, isBlank_of_isWordChar hquote, Bool.false_and]
        rw [Lexeme.token?, Lexeme.unquote_quoted, hall, String.ofList_toList]
        rfl
  | operator op =>
    have hend : ∀ c ∈ rest.head?, continuesKeyword c = false := fun c hc =>
      continuesKeyword_of_isSeparator (hr c hc)
    cases op with
    | and => exact ⟨.keyword .and cs, rfl, .keyword (by decide) hw hend, rfl⟩
    | or => exact ⟨.keyword .or cs, rfl, .keyword (by decide) hw hend, rfl⟩
    | not => exact ⟨.keyword .not cs, rfl, .keyword (by decide) hw hend, rfl⟩
    | lparen =>
      obtain rfl := spells_paren (d := '(') (by decide) (by decide) hw
      exact ⟨.paren .lparen, rfl, .lparen rest, rfl⟩
    | rparen =>
      obtain rfl := spells_paren (d := ')') (by decide) (by decide) hw
      exact ⟨.paren .rparen, rfl, .rparen rest, rfl⟩

/-- Reading a text that begins with the text of a token begins with the token. -/
theorem filterMap_lexemes_of_writes {t : Token} {gap cs rest : List Char}
    (hgap : gap.all isSeparator = true) (hw : Writes t cs)
    (hq : ∀ s ∈ t.operand?, ReadsBack s) (hr : EndsHere rest) :
    (lexemes (gap ++ cs ++ rest)).filterMap Lexeme.token? =
      t :: (lexemes rest).filterMap Lexeme.token? := by
  obtain ⟨ℓ, rfl, hleads, htoken⟩ := leads_of_writes hw hq hr
  obtain ⟨-, c, cs, hdrop, hnext⟩ := hleads.next_after (List.all_eq_true.mp hgap)
  rw [lexemes_of_dropWhile_cons hdrop, hnext, List.filterMap_cons_some htoken]

theorem filterMap_lexemes_of_gap {gap : List Char} (hgap : gap.all isSeparator = true) :
    (lexemes gap).filterMap Lexeme.token? = [] := by
  rw [lexemes_of_dropWhile_nil (List.dropWhile_eq_nil_iff.mpr (List.all_eq_true.mp hgap)),
    List.filterMap_nil]

/-- A text that writes tokens is read as those tokens. -/
theorem filterMap_lexemes_of_written {ts : List Token} {cs : List Char} (h : Written ts cs)
    (hq : ∀ s ∈ operands ts, ReadsBack s) : (lexemes cs).filterMap Lexeme.token? = ts := by
  induction h with
  | nil hgap => exact filterMap_lexemes_of_gap hgap
  | @cons gap cs rest t ts hgap hw hrest hsep ih =>
    have hqt : ∀ s ∈ t.operand?, ReadsBack s := by
      intro s hs
      exact hq s (List.mem_filterMap.mpr ⟨t, List.mem_cons_self, hs⟩)
    have hqts : ∀ s ∈ operands ts, ReadsBack s := by
      intro s hs
      exact hq s (mem_operands.mpr (List.mem_cons_of_mem t (mem_operands.mp hs)))
    rw [filterMap_lexemes_of_writes hgap hw hqt (hrest.endsHere hsep), ih hqts]

theorem tokenize_of_written {ts : List Token} {query : String} (h : Written ts query.toList)
    (hq : ∀ s ∈ operands ts, Quotable s) : tokenize query = ts :=
  filterMap_lexemes_of_written h fun s hs => .phrase (hq s hs)

/-- A text between quotes is read as that text alone. -/
theorem tokenize_quoted {s query : String} (h : Quotable s)
    (hquery : query.toList = '"' :: s.toList ++ ['"']) : tokenize query = [.operand s] := by
  have hw : Written [.operand s] query.toList := by
    simpa [hquery] using
      @Written.cons [] ('"' :: s.toList ++ ['"']) [] (.operand s) [] rfl rfl (.nil rfl) nofun
  refine tokenize_of_written hw fun k hk => ?_
  obtain rfl := List.mem_singleton.mp hk
  exact h

end CellQuery
