import CellQuery.Query.Lexer
import Mathlib

/-!
# The lexical grammar

What a lexeme has to look like, and what may follow it, is a rule for each of the four kinds
(`Lexeme.Stands`). The lexeme of a text is the one of the first rule that applies (`Lexeme.Leads`).

Each search of the reader finds what its own rule allows and nothing else (`phrase?_eq_some`,
`paren?_eq_some`, `keyword?_eq_some`). So `Lexeme.next` finds what leads, and only that
(`next_of_leads`, `leads_next`): the four rules are looked into nowhere else.
-/

namespace CellQuery

open Text

/-! ### Rules -/

namespace Lexeme

/-- The number of a lexeme's rule, in the order in which they are tried. -/
def rule : Lexeme → Nat
  | phrase _ => 1
  | paren _ => 2
  | keyword _ _ => 3
  | word _ => 4

/-- A lexeme and the text behind it, as its rule allows them. -/
inductive Stands : Lexeme → List Char → Prop
  | phrase {body rest : List Char} : body ≠ [] → '"' ∉ body → Stands (.phrase body) rest
  | lparen {rest : List Char} : Stands (.paren .lparen) rest
  | rparen {rest : List Char} : Stands (.paren .rparen) rest
  | keyword {op : Operator} {spelling rest : List Char} :
      op ∈ Operator.keywords → spells op spelling = true →
      (∀ c ∈ rest.head?, continuesKeyword c = false) → Stands (.keyword op spelling) rest
  | word {spelling rest : List Char} :
      spelling ≠ [] → (∀ c ∈ spelling, isWordChar c = true) →
      (∀ c ∈ rest.head?, isWordChar c = false) → Stands (.word spelling) rest

/-- No rule before its own applies to the text that begins with the lexeme and goes on with
`rest`. -/
structure Leads (ℓ : Lexeme) (rest : List Char) : Prop where
  stands : ℓ.Stands rest
  first : ∀ ℓ' rest', Stands ℓ' rest' → ℓ'.spelling ++ rest' = ℓ.spelling ++ rest →
    ℓ.rule ≤ ℓ'.rule

end Lexeme

/-! ### Characters -/

/-- No character that separates keeps a keyword from ending. -/
theorem continuesKeyword_of_isSeparator {c : Char} (h : isSeparator c = true) :
    continuesKeyword c = false := by
  refine Bool.eq_false_iff.mpr fun hc => ?_
  have hword : (0x30 ≤ c.toNat ∧ c.toNat ≤ 0x39) ∨ (0x41 ≤ c.toNat ∧ c.toNat ≤ 0x5A) ∨
      (0x61 ≤ c.toNat ∧ c.toNat ≤ 0x7A) ∨ c.toNat = 0x5F := by
    simp only [continuesKeyword, Char.isAlphanum, Char.isAlpha, Char.isUpper, Char.isLower,
      Char.isDigit, Bool.or_eq_true, Bool.and_eq_true, decide_eq_true_eq, ge_iff_le,
      UInt32.le_iff_toNat_le, beq_iff_eq] at hc
    rcases hc with ((hc | hc) | hc) | rfl
    · exact .inr (.inl hc)
    · exact .inr (.inr (.inl hc))
    · exact .inl hc
    · exact .inr (.inr (.inr rfl))
  simp only [isSeparator, Text.isBlank, Text.blankRanges, List.any_cons, List.any_nil,
    Bool.or_eq_true, Bool.and_eq_true, decide_eq_true_eq, beq_iff_eq, Bool.or_false] at h
  rcases h with h | rfl
  · omega
  · simp at hword

theorem isWordChar_iff {c : Char} :
    isWordChar c = true ↔ isSeparator c = false ∧ c ≠ '(' ∧ c ≠ ')' := by
  simp [isWordChar, and_assoc]

theorem isBlank_of_isWordChar {c : Char} (h : isWordChar c = true) : isBlank c = false := by
  have hsep := (isWordChar_iff.mp h).1
  rw [isSeparator, Bool.or_eq_false_iff] at hsep
  exact hsep.1

theorem isWordChar_of_continuesKeyword {c : Char} (h : continuesKeyword c = true) :
    isWordChar c = true := by
  refine isWordChar_iff.mpr ⟨Bool.eq_false_iff.mpr fun hsep => ?_, ?_, ?_⟩
  · rw [continuesKeyword_of_isSeparator hsep] at h
    cases h
  · rintro rfl
    revert h
    decide
  · rintro rfl
    revert h
    decide

/-- What ends a word ends a keyword. -/
theorem continuesKeyword_of_not_isWordChar {c : Char} (h : isWordChar c = false) :
    continuesKeyword c = false :=
  Bool.eq_false_iff.mpr fun hc => by
    rw [isWordChar_of_continuesKeyword hc] at h
    cases h

/-- A run of characters of one class, taken off the front where the class ends. -/
theorem takeWhile_append_of_stop {p : Char → Bool} {run rest : List Char}
    (hrun : ∀ c ∈ run, p c = true) (hstop : ∀ c ∈ rest.head?, p c = false) :
    (run ++ rest).takeWhile p = run ∧ (run ++ rest).dropWhile p = rest := by
  rw [List.takeWhile_append_of_pos hrun, List.dropWhile_append_of_pos hrun]
  cases rest with
  | nil => exact ⟨List.append_nil run, rfl⟩
  | cons c rest =>
    have hc : ¬p c = true := Bool.eq_false_iff.mp (hstop c rfl)
    rw [List.takeWhile_cons_of_neg hc, List.dropWhile_cons_of_neg hc, List.append_nil]
    exact ⟨rfl, rfl⟩

theorem head?_dropWhile_stops (p : Char → Bool) (cs : List Char) :
    ∀ c ∈ (cs.dropWhile p).head?, p c = false := by
  intro c hc
  have hstop := List.head?_dropWhile_not p cs
  rw [Option.mem_def.mp hc] at hstop
  exact hstop

/-! ### The first lexeme -/

namespace Lexeme

variable {ℓ : Lexeme} {c : Char} {cs rest : List Char}

theorem phrase?_eq_some : phrase? cs = some (ℓ, rest) ↔
    ℓ.rule = 1 ∧ ℓ.Stands rest ∧ ℓ.spelling ++ rest = cs := by
  constructor
  · intro h
    unfold phrase? at h
    split at h
    · next cs =>
      split at h
      · next b body d rest htake hdrop =>
        -- found: the body ends at the first quote, so it has none in it
        cases h
        have hd : d = '"' := by
          have hstop := head?_dropWhile_stops (· ≠ '"') cs d (by rw [hdrop]; rfl)
          simpa using hstop
        have hq : '"' ∉ b :: body := fun hin => by
          rw [← htake] at hin
          simpa using List.mem_takeWhile_imp hin
        refine ⟨rfl, .phrase (List.cons_ne_nil _ _) hq, ?_⟩
        rw [← List.takeWhile_append_dropWhile (p := (· ≠ '"')) (l := cs), htake, hdrop, hd]
        simp [spelling]
      · cases h
    · cases h
  · rintro ⟨hrule, hstands, rfl⟩
    cases hstands with
    | @phrase body _ hne hq =>
      have hrun : ∀ c ∈ body, decide (c ≠ '"') = true := by
        intro c hc
        have hne : c ≠ '"' := fun h => hq (h ▸ hc)
        simpa using hne
      have hstop : ∀ c ∈ ('"' :: rest).head?, decide (c ≠ '"') = false := by simp
      obtain ⟨htake, hdrop⟩ := takeWhile_append_of_stop hrun hstop
      obtain ⟨b, body, rfl⟩ := List.exists_cons_of_ne_nil hne
      simp only [spelling, List.cons_append, List.append_assoc, List.nil_append] at htake hdrop ⊢
      simp only [phrase?, htake, hdrop]
    | lparen => cases hrule
    | rparen => cases hrule
    | keyword => cases hrule
    | word => cases hrule

theorem paren?_eq_some : paren? cs = some (ℓ, rest) ↔
    ℓ.rule = 2 ∧ ℓ.Stands rest ∧ ℓ.spelling ++ rest = cs := by
  constructor
  · intro h
    unfold paren? at h
    split at h
    · cases h
      exact ⟨rfl, .lparen, rfl⟩
    · cases h
      exact ⟨rfl, .rparen, rfl⟩
    · cases h
  · rintro ⟨hrule, hstands, rfl⟩
    cases hstands with
    | phrase => cases hrule
    | lparen => rfl
    | rparen => rfl
    | keyword => cases hrule
    | word => cases hrule

theorem spells_text (op : Operator) : spells op op.text.toList = true := by
  cases op <;> decide

theorem head_spelled {op : Operator} (h : spells op cs = true) :
    ∃ c cs', cs = c :: cs' ∧ op.text.toList.head? = some c.toUpper := by
  have heq := eq_of_beq h
  cases cs with
  | nil => cases op <;> simp [Operator.text] at heq
  | cons c cs' => exact ⟨c, cs', rfl, by rw [← heq]; rfl⟩

theorem length_spelled {op : Operator} (h : spells op cs = true) :
    cs.length = op.text.length := by
  have heq := congrArg List.length (eq_of_beq h)
  rw [← String.length_toList, ← heq, List.length_map]

theorem continuesKeyword_of_spells {op : Operator} (hop : op ∈ Operator.keywords)
    (h : spells op cs = true) (hc : c ∈ cs) : continuesKeyword c = true := by
  have hupper : ∀ op ∈ Operator.keywords, op.text.toList.all Char.isUpper = true := by decide
  have hmem : c.toUpper ∈ op.text.toList := by
    rw [← eq_of_beq h]
    exact List.mem_map_of_mem hc
  have halpha := List.all_eq_true.mp (hupper op hop) _ hmem
  rw [Char.isUpper_toUpper_eq_isAlpha] at halpha
  simp [continuesKeyword, Char.isAlphanum, halpha]

theorem keywordOf?_eq_some {op : Operator} (hop : op ∈ Operator.keywords) :
    keywordOf? op cs = some (ℓ, rest) ↔
      ∃ s, ℓ = keyword op s ∧ ℓ.Stands rest ∧ ℓ.spelling ++ rest = cs := by
  constructor
  · intro h
    simp only [keywordOf?] at h
    split at h
    · next hs =>
      rw [Bool.and_eq_true, Bool.not_eq_true'] at hs
      cases h
      refine ⟨_, rfl, .keyword hop hs.1 ?_, List.take_append_drop _ _⟩
      simpa [Option.any_eq_false] using hs.2
    · cases h
  · rintro ⟨s, rfl, hstands, rfl⟩
    cases hstands with
    | keyword _ hs hend =>
      have hany : rest.head?.any continuesKeyword = false := by
        rw [Option.any_eq_false]
        simpa using hend
      simp [keywordOf?, spelling, ← length_spelled hs, hs, hany]

/-- No two keywords begin with the same letter. -/
theorem keywordOf?_unique {op op' : Operator} (hop : op ∈ Operator.keywords)
    (hop' : op' ∈ Operator.keywords) {r r' : Lexeme × List Char} (h : keywordOf? op cs = some r)
    (h' : keywordOf? op' cs = some r') : r = r' := by
  have hheads : ∀ op ∈ Operator.keywords, ∀ op' ∈ Operator.keywords,
      op.text.toList.head? = op'.text.toList.head? → op = op' := by decide
  have hhead : ∀ {op r}, op ∈ Operator.keywords → keywordOf? op cs = some r →
      op.text.toList.head? = cs.head?.map Char.toUpper := by
    intro op r hop h
    obtain ⟨s, hr, hstands, rfl⟩ := (keywordOf?_eq_some hop).mp h
    rw [hr] at hstands ⊢
    cases hstands with
    | keyword _ hs =>
      obtain ⟨c, cs', rfl, hc⟩ := head_spelled hs
      exact hc
  -- both keywords begin with the letter that the text begins with
  obtain rfl := hheads op hop op' hop' ((hhead hop h).trans (hhead hop' h').symm)
  exact Option.some.inj (h.symm.trans h')

theorem keyword?_eq_some : keyword? cs = some (ℓ, rest) ↔
    ℓ.rule = 3 ∧ ℓ.Stands rest ∧ ℓ.spelling ++ rest = cs := by
  constructor
  · intro h
    obtain ⟨op, hop, h⟩ := List.exists_of_findSome?_eq_some h
    obtain ⟨s, rfl, hstands, hcs⟩ := (keywordOf?_eq_some hop).mp h
    exact ⟨rfl, hstands, hcs⟩
  · rintro ⟨hrule, hstands, hcs⟩
    cases hstands with
    | phrase => cases hrule
    | lparen => cases hrule
    | rparen => cases hrule
    | @keyword op s _ hop hs hend =>
      have h := (keywordOf?_eq_some hop).mpr ⟨s, rfl, .keyword hop hs hend, hcs⟩
      -- keywords are tried in turn, and another one that is found first would be the same
      cases hfound : keyword? cs with
      | none =>
        rw [keyword?, List.findSome?_eq_none_iff] at hfound
        rw [hfound op hop] at h
        cases h
      | some r =>
        obtain ⟨op', hop', h'⟩ := List.exists_of_findSome?_eq_some hfound
        rw [keywordOf?_unique hop' hop h' h]
    | word => cases hrule

/-- Every lexeme begins with a character that does not separate. -/
theorem Stands.head (h : ℓ.Stands rest) : ∃ c cs, ℓ.spelling = c :: cs ∧ isSeparator c = false := by
  cases h with
  | @phrase body => exact ⟨'"', body ++ ['"'], rfl, by decide⟩
  | lparen => exact ⟨'(', [], rfl, by decide⟩
  | rparen => exact ⟨')', [], rfl, by decide⟩
  | keyword hop hs =>
    obtain ⟨c, cs, rfl, -⟩ := head_spelled hs
    have hc := isWordChar_of_continuesKeyword (continuesKeyword_of_spells hop hs List.mem_cons_self)
    exact ⟨c, cs, rfl, (isWordChar_iff.mp hc).1⟩
  | word hne hrun =>
    obtain ⟨c, cs, rfl⟩ := List.exists_cons_of_ne_nil hne
    exact ⟨c, cs, rfl, (isWordChar_iff.mp (hrun c List.mem_cons_self)).1⟩

/-- A search by a rule before that of the leading lexeme finds nothing. -/
theorem Leads.eq_none {n : Nat} {found : Option (Lexeme × List Char)} (h : ℓ.Leads rest)
    (hn : n < ℓ.rule) (hfound : ∀ ℓ' rest', found = some (ℓ', rest') →
      ℓ'.rule = n ∧ ℓ'.Stands rest' ∧ ℓ'.spelling ++ rest' = ℓ.spelling ++ rest) :
    found = none := by
  refine Option.eq_none_iff_forall_ne_some.mpr fun r hr => ?_
  obtain ⟨hrule, hstands, hcs⟩ := hfound r.1 r.2 hr
  have hle := h.first r.1 r.2 hstands hcs
  omega

/-- What leads is what reading finds. -/
theorem next_of_leads (h : ℓ.Leads rest) (hcs : ℓ.spelling ++ rest = c :: cs) :
    next c cs = (ℓ, rest) := by
  -- the rules before that of the lexeme find nothing
  have hphrase : 1 < ℓ.rule → phrase? (c :: cs) = none := fun hn =>
    h.eq_none hn fun _ _ => hcs ▸ phrase?_eq_some.mp
  have hparen : 2 < ℓ.rule → paren? (c :: cs) = none := fun hn =>
    h.eq_none hn fun _ _ => hcs ▸ paren?_eq_some.mp
  have hkeyword : 3 < ℓ.rule → keyword? (c :: cs) = none := fun hn =>
    h.eq_none hn fun _ _ => hcs ▸ keyword?_eq_some.mp
  have hstands := h.stands
  cases ℓ with
  | phrase body =>
    rw [next, phrase?_eq_some.mpr ⟨rfl, hstands, hcs⟩]
    rfl
  | paren op =>
    rw [next, hphrase (by simp [rule]), paren?_eq_some.mpr ⟨rfl, hstands, hcs⟩]
    rfl
  | keyword op s =>
    rw [next, hphrase (by simp [rule]), hparen (by simp [rule]),
      keyword?_eq_some.mpr ⟨rfl, hstands, hcs⟩]
    rfl
  | word s =>
    rw [next, hphrase (by simp [rule]), hparen (by simp [rule]), hkeyword (by simp [rule])]
    cases hstands with
    | word hne hrun hstop =>
      obtain ⟨b, run, rfl⟩ := List.exists_cons_of_ne_nil hne
      rw [spelling, List.cons_append, List.cons.injEq] at hcs
      obtain ⟨rfl, rfl⟩ := hcs
      obtain ⟨htake, hdrop⟩ :=
        takeWhile_append_of_stop (fun d hd => hrun d (List.mem_cons_of_mem b hd)) hstop
      rw [htake, hdrop]
      rfl

theorem exists_stands (hc : isSeparator c = false) (cs : List Char) :
    ∃ ℓ rest, Stands ℓ rest ∧ ℓ.spelling ++ rest = c :: cs := by
  by_cases hparen : c = '(' ∨ c = ')'
  · rcases hparen with rfl | rfl
    · exact ⟨.paren .lparen, cs, .lparen, rfl⟩
    · exact ⟨.paren .rparen, cs, .rparen, rfl⟩
  · refine ⟨.word (c :: cs.takeWhile isWordChar), cs.dropWhile isWordChar,
      .word (List.cons_ne_nil _ _) ?_ (head?_dropWhile_stops isWordChar cs), ?_⟩
    · intro d hd
      rcases List.mem_cons.mp hd with rfl | hd
      · exact isWordChar_iff.mpr ⟨hc, not_or.mp hparen⟩
      · exact List.mem_takeWhile_imp hd
    · exact congrArg (c :: ·) List.takeWhile_append_dropWhile

/-- What reading finds leads. -/
theorem leads_next (hc : isSeparator c = false) (cs : List Char) :
    (next c cs).1.Leads (next c cs).2 ∧ (next c cs).1.spelling ++ (next c cs).2 = c :: cs := by
  -- something stands there; what stands by the least rule leads
  obtain ⟨ℓ₀, rest₀, h₀⟩ := exists_stands hc cs
  obtain ⟨⟨ℓ, rest⟩, ⟨hstands, hcs⟩, hmin⟩ := exists_minimalFor_of_wellFoundedLT
    (fun r : Lexeme × List Char => r.1.Stands r.2 ∧ r.1.spelling ++ r.2 = c :: cs)
    (fun r => r.1.rule) ⟨(ℓ₀, rest₀), h₀⟩
  have hleads : ℓ.Leads rest := by
    refine ⟨hstands, fun ℓ' rest' hstands' hcs' => ?_⟩
    rcases le_total ℓ.rule ℓ'.rule with hle | hle
    · exact hle
    · exact hmin (j := (ℓ', rest')) ⟨hstands', hcs'.trans hcs⟩ hle
  rw [next_of_leads hleads hcs]
  exact ⟨hleads, hcs⟩

theorem Leads.phrase {body : List Char} (hne : body ≠ []) (hq : '"' ∉ body) (rest : List Char) :
    (Lexeme.phrase body).Leads rest := by
  refine ⟨.phrase hne hq, fun ℓ' _ _ _ => ?_⟩
  cases ℓ' <;> simp [rule]

theorem Stands.one_lt_rule (h : ℓ.Stands rest) (hcs : ℓ.spelling ++ rest = c :: cs)
    (hc : c ≠ '"') : 1 < ℓ.rule := by
  cases h with
  | phrase => exact absurd (List.cons.inj hcs).1.symm hc
  | lparen => decide
  | rparen => decide
  | keyword => simp [rule]
  | word => simp [rule]

theorem Leads.lparen (rest : List Char) : (Lexeme.paren .lparen).Leads rest :=
  ⟨.lparen, fun _ _ h hcs => h.one_lt_rule hcs (by decide)⟩

theorem Leads.rparen (rest : List Char) : (Lexeme.paren .rparen).Leads rest :=
  ⟨.rparen, fun _ _ h hcs => h.one_lt_rule hcs (by decide)⟩

theorem Leads.keyword {op : Operator} (hop : op ∈ Operator.keywords) (hs : spells op cs = true)
    (hend : ∀ c ∈ rest.head?, continuesKeyword c = false) : (Lexeme.keyword op cs).Leads rest := by
  refine ⟨.keyword hop hs hend, fun ℓ' rest' h hcs => ?_⟩
  obtain ⟨c, cs, rfl, -⟩ := head_spelled hs
  have hc := continuesKeyword_of_spells hop hs List.mem_cons_self
  cases h with
  | phrase =>
    obtain ⟨rfl, -⟩ := List.cons.inj hcs
    cases hc
  | lparen =>
    obtain ⟨rfl, -⟩ := List.cons.inj hcs
    cases hc
  | rparen =>
    obtain ⟨rfl, -⟩ := List.cons.inj hcs
    cases hc
  | keyword => exact le_rfl
  | word => exact Nat.le_succ 3

/-- A run of word characters that begins neither a phrase nor a keyword is a word. -/
theorem Leads.word (hrun : ∀ d ∈ c :: cs, isWordChar d = true) (hquote : c ≠ '"')
    (hkeyword : ∀ op ∈ Operator.keywords, op.text.toList.head? ≠ some c.toUpper)
    (hstop : ∀ d ∈ rest.head?, isWordChar d = false) : (Lexeme.word (c :: cs)).Leads rest := by
  refine ⟨.word (List.cons_ne_nil _ _) hrun hstop, fun ℓ' rest' h hcs => ?_⟩
  obtain ⟨-, hopen, hclose⟩ := isWordChar_iff.mp (hrun c List.mem_cons_self)
  cases h with
  | phrase => exact (hquote (List.cons.inj hcs).1.symm).elim
  | lparen => exact (hopen (List.cons.inj hcs).1.symm).elim
  | rparen => exact (hclose (List.cons.inj hcs).1.symm).elim
  | keyword hop hs =>
    obtain ⟨d, ds, rfl, hd⟩ := head_spelled hs
    obtain ⟨rfl, -⟩ := List.cons.inj hcs
    exact (hkeyword _ hop hd).elim
  | word => exact le_rfl

theorem unquote_quoted (body : List Char) : unquote ('"' :: (body ++ ['"'])) = body := by
  simp [unquote]

end Lexeme

/-! ### The lexemes of a text -/

theorem lexemes_of_dropWhile_nil {cs : List Char} (h : cs.dropWhile isSeparator = []) :
    lexemes cs = [] := by
  rw [lexemes]
  split
  · rfl
  · next heq =>
    rw [h] at heq
    cases heq

theorem lexemes_of_dropWhile_cons {cs : List Char} {c : Char} {rest : List Char}
    (h : cs.dropWhile isSeparator = c :: rest) :
    lexemes cs = (Lexeme.next c rest).1 :: lexemes (Lexeme.next c rest).2 := by
  rw [lexemes]
  split
  · next heq =>
    rw [h] at heq
    cases heq
  · next heq =>
    rw [h] at heq
    cases heq
    rfl

/-- The gap before a lexeme is all that separates, and the lexeme is what reading finds behind
it. -/
theorem Lexeme.Leads.next_after {ℓ : Lexeme} {gap rest : List Char} (h : ℓ.Leads rest)
    (hgap : ∀ c ∈ gap, isSeparator c = true) :
    (gap ++ ℓ.spelling ++ rest).takeWhile isSeparator = gap ∧ ∃ c cs,
      (gap ++ ℓ.spelling ++ rest).dropWhile isSeparator = c :: cs ∧ next c cs = (ℓ, rest) := by
  obtain ⟨c, cs, hspelling, hc⟩ := h.stands.head
  have hcs : ℓ.spelling ++ rest = c :: (cs ++ rest) := by rw [hspelling, List.cons_append]
  have hstop : ∀ d ∈ (ℓ.spelling ++ rest).head?, isSeparator d = false := by
    rw [hcs]
    rintro d ⟨⟩
    exact hc
  obtain ⟨htake, hdrop⟩ := takeWhile_append_of_stop hgap hstop
  rw [List.append_assoc]
  exact ⟨htake, c, cs ++ rest, hdrop.trans hcs, next_of_leads h hcs⟩

end CellQuery
