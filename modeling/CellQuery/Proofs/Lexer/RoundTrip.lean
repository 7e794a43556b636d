import CellQuery.Proofs.Lexer.Spelling
import CellQuery.Proofs.Lexer.Splitting

/-!
# Reading back what was written

Every list of tokens can be written, and reading what was written gives the list back if each of its
operands can be quoted. `tokenize_written` says more: it gives the list back exactly if each operand
by itself comes back (`ReadsBack`).

An operand that does not come back spoils the list, since nothing that is read anywhere can stand in
for it. A blank operand is never read. An operand with a quote in it is read from a word only
(`isWordChar_of_quote`), and where such an operand does not begin with the quote, the text in front
of its quote is read as a phrase (`filterMap_lexemes_of_broken`).
-/

namespace CellQuery

open Text

/-! ### Every list of tokens has a text -/

theorem exists_writes (t : Token) : ∃ cs, Writes t cs := by
  cases t with
  | operand s => exact ⟨_, rfl⟩
  | operator op => exact ⟨op.text.toList, Lexeme.spells_text op⟩

theorem exists_written (ts : List Token) : ∃ cs, Written ts (' ' :: cs) := by
  have hblank : [' '].all isSeparator = true := by decide
  induction ts with
  | nil => exact ⟨[], .nil hblank⟩
  | cons t ts ih =>
    obtain ⟨rest, hrest⟩ := ih
    obtain ⟨cs, hcs⟩ := exists_writes t
    exact ⟨cs ++ ' ' :: rest, .cons hblank hcs hrest fun _ => rfl⟩

/-! ### Operands with a quote -/

/-- An operand with a quote in it comes from a word. -/
theorem Lexeme.Stands.isWordChar_of_quote {ℓ : Lexeme} {rest : List Char} {s : String}
    (h : ℓ.Stands rest) (htoken : ℓ.token? = some (.operand s)) (hquote : '"' ∈ s.toList) :
    ∀ c ∈ s.toList, isWordChar c = true := by
  have hleaves := h.leaves_iff.mpr htoken
  cases hleaves with
  | @phrase body =>
    rw [String.toList_ofList] at hquote
    cases h with
    | phrase _ hq => exact absurd hquote hq
  | @quoted body =>
    rw [String.toList_ofList]
    cases h with
    | word _ hrun => exact fun c hc => hrun c (by simp [hc])
  | @bare spelling =>
    rw [String.toList_ofList]
    cases h with
    | word _ hrun => exact hrun

/-- An operand that does not begin with its first quote is read, from between quotes, as a phrase
that ends there. -/
theorem filterMap_lexemes_of_broken {gap front : List Char} {c : Char}
    (hgap : gap.all isSeparator = true) (hc : isWordChar c = true) (hfront : '"' ∉ c :: front)
    (back rest : List Char) :
    ∃ ts, (lexemes (gap ++ ('"' :: (c :: front ++ '"' :: back) ++ ['"']) ++ rest)).filterMap
      Lexeme.token? = .operand (.ofList (c :: front)) :: ts := by
  have hleads : (Lexeme.phrase (c :: front)).Leads (back ++ ['"'] ++ rest) :=
    .phrase (List.cons_ne_nil _ _) hfront _
  obtain ⟨-, d, ds, hdrop, hnext⟩ := hleads.next_after (List.all_eq_true.mp hgap)
  have htoken : (Lexeme.phrase (c :: front)).token? =
      some (.operand (.ofList (c :: front))) := by
    rw [Lexeme.token?, List.all_cons, isBlank_of_isWordChar hc, Bool.false_and]
    rfl
  have htext : gap ++ ('"' :: (c :: front ++ '"' :: back) ++ ['"']) ++ rest =
      gap ++ (Lexeme.phrase (c :: front)).spelling ++ (back ++ ['"'] ++ rest) := by
    simp [Lexeme.spelling]
  rw [htext, lexemes_of_dropWhile_cons hdrop, hnext, List.filterMap_cons_some htoken]
  exact ⟨_, rfl⟩

/-- Where the first token read is the operand that was written, the operand comes back. -/
theorem readsBack_of_filterMap_lexemes {gap rest : List Char} {s : String} {ts : List Token}
    (hgap : gap.all isSeparator = true)
    (h : (lexemes (gap ++ ('"' :: s.toList ++ ['"']) ++ rest)).filterMap Lexeme.token? =
      .operand s :: ts) : ReadsBack s := by
  obtain ⟨ℓ, hmem, htoken⟩ := List.mem_filterMap.mp (h ▸ List.mem_cons_self)
  -- without a quote the operand fits between quotes; with one it was read as a word
  by_cases hquote : '"' ∈ s.toList
  · obtain ⟨_, hleads⟩ := exists_leads_of_mem_lexemes hmem
    have hrun := hleads.stands.isWordChar_of_quote htoken hquote
    obtain ⟨front, back, hsplit, hfront⟩ := List.eq_append_cons_of_mem hquote
    rw [hsplit] at hrun
    cases front with
    | nil => exact .word hsplit fun c hc => hrun c (List.mem_cons_of_mem _ hc)
    | cons c front =>
      -- what is read is the front alone
      obtain ⟨us, hus⟩ := filterMap_lexemes_of_broken hgap (hrun c List.mem_cons_self) hfront
        back rest
      rw [hsplit, hus] at h
      obtain ⟨hs, -⟩ := List.cons.inj h
      rw [Token.operand.injEq] at hs
      rw [← hs, String.toList_ofList] at hquote
      exact absurd hquote hfront
  · exact .phrase ⟨Lexeme.blank_of_token? htoken, hquote⟩

/-! ### The round trip -/

theorem readsBack_of_filterMap_eq {ts : List Token} {cs : List Char} (h : Written ts cs)
    (hread : (lexemes cs).filterMap Lexeme.token? = ts) : ∀ s ∈ operands ts, ReadsBack s := by
  induction h with
  | nil => nofun
  | @cons gap cs rest t ts hgap hw hrest hsep ih =>
    have ht : ∀ s ∈ t.operand?, ReadsBack s := by
      rintro s hs
      cases t with
      | operand s' =>
        cases hs
        subst hw
        exact readsBack_of_filterMap_lexemes hgap hread
      | operator op => cases hs
    rw [filterMap_lexemes_of_writes hgap hw ht (hrest.endsHere hsep), List.cons.injEq] at hread
    intro s hs
    rcases List.mem_cons.mp (mem_operands.mp hs) with hst | hs
    · exact ht s (by rw [← hst]; rfl)
    · exact ih hread.2 s (mem_operands.mpr hs)

/-- **Reading back what was written.** Every list of tokens has texts. From any of them the list
comes back if no operand is blank or holds a quote; and it comes back exactly if each operand
does. -/
theorem tokenize_written (ts : List Token) :
    (∃ query : String, Written ts query.toList) ∧
    ∀ query : String, Written ts query.toList →
      ((∀ s ∈ operands ts, Quotable s) → tokenize query = ts) ∧
      (tokenize query = ts ↔ ∀ s ∈ operands ts, ReadsBack s) := by
  refine ⟨?_, fun query h => ⟨fun hq => ?_, fun hread => ?_, fun hback => ?_⟩⟩
  · obtain ⟨cs, hcs⟩ := exists_written ts
    exact ⟨.ofList (' ' :: cs), by rwa [String.toList_ofList]⟩
  · exact filterMap_lexemes_of_written h fun s hs => .phrase (hq s hs)
  · exact readsBack_of_filterMap_eq h hread
  · exact filterMap_lexemes_of_written h hback

example : tokenize "nOt,\"a AND (\" ) \"\"x\" \"y\"z\"" =
    [.operator .not, .operand "a AND (", .operator .rparen, .operand "\"x", .operand "y",
      .operand "z\""] := by
  decide +kernel

end CellQuery
