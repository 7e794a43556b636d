import CellQuery.Json.Value

/-!
# Reading what was written

The text of a value is read back as the tree of the value (`parse?_spell`). A string is read code by
code (`scanCodes_escapeCode`), and its codes are joined to the same characters again. The machine
that reads trees comes out of the text of a value with the stack that it went in with (`readsBack`),
so the induction is on the value, for every stack and everything behind the text. Numbers are left
out: the values that are written and read in this way have none (`Value.plain`).
-/

namespace CellQuery.Json

/-! ### Strings -/

section Strings

theorem hexDigit?_hexChar {n : Nat} (h : n < 16) : hexDigit? (hexChar n) = some n := by
  have hall : ∀ n < 16, hexDigit? (hexChar n) = some n := by decide
  exact hall n h

theorem hexUnit?_control {n : Nat} (h : n < 0x20) :
    hexUnit? '0' '0' (hexChar (n / 16)) (hexChar (n % 16)) = some n := by
  have hzero : hexDigit? '0' = some 0 := rfl
  have hhigh : hexDigit? (hexChar (n / 16)) = some (n / 16) := hexDigit?_hexChar (by omega)
  have hlow : hexDigit? (hexChar (n % 16)) = some (n % 16) := hexDigit?_hexChar (by omega)
  simp only [hexUnit?, hzero, hhigh, hlow, Option.bind_eq_bind, Option.bind_some, Option.pure_def,
    Option.some.injEq]
  omega

/-- What a character is read as, once it was written. -/
def codeOf (c : Char) : Code :=
  match escapeCode c with
  | '\\' :: 'u' :: _ => .unit c.toNat
  | _ => .char c

/-- What a text is read as, once it was written. -/
def codesOf (s : String) : List Code :=
  s.toList.map codeOf

theorem scanCodes_plain {c : Char} (hquote : c ≠ '"') (hslash : c ≠ '\\') (h : 0x20 ≤ c.toNat)
    (cs : List Char) : scanCodes (c :: cs) = (scanCodes cs).map (Prod.map (.char c :: ·) id) := by
  rw [scanCodes.eq_def]
  split
  · next heq => cases heq
  · next heq => exact absurd (List.cons.inj heq).1 hquote
  · next heq => exact absurd (List.cons.inj heq).1 hslash
  · next heq => exact absurd (List.cons.inj heq).1 hslash
  · next heq =>
    cases heq
    exact if_pos ⟨hslash, h⟩

/-- Writing a character and reading it again takes one step. -/
theorem scanCodes_escapeCode (c : Char) (cs : List Char) :
    scanCodes (escapeCode c ++ cs) = (scanCodes cs).map (Prod.map (codeOf c :: ·) id) := by
  unfold codeOf escapeCode
  split
  case h_8 hquote hslash _ _ _ _ _ =>
    by_cases hcontrol : c.toNat < 0x20
    · simp only [hcontrol, if_true, List.cons_append, List.nil_append]
      rw [scanCodes, hexUnit?_control hcontrol]
    · simp only [hcontrol, if_false, List.cons_append, List.nil_append]
      rw [scanCodes_plain hquote hslash (Nat.le_of_not_lt hcontrol)]
  all_goals rfl

theorem scanCodes_quoted (cs rest : List Char) :
    scanCodes (cs.flatMap escapeCode ++ '"' :: rest) = some (cs.map codeOf, rest) := by
  induction cs with
  | nil => rw [List.flatMap_nil, List.nil_append, scanCodes, List.map_nil]
  | cons c cs ih =>
    rw [List.flatMap_cons, List.append_assoc, scanCodes_escapeCode, ih, Option.map_some,
      Prod.map_apply, List.map_cons, id]

/-- Only control characters are read as bits. -/
theorem codeOf_eq (c : Char) : codeOf c = .char c ∨ codeOf c = .unit c.toNat ∧ c.toNat < 0x20 := by
  by_cases hcontrol : c.toNat < 0x20
  · unfold codeOf
    split
    · exact .inr ⟨rfl, hcontrol⟩
    · exact .inl rfl
  · refine .inl ?_
    unfold codeOf
    split
    · next heq =>
      unfold escapeCode at heq
      split at heq
      case h_8 =>
        rw [if_neg hcontrol] at heq
        cases heq
      all_goals exact absurd (List.cons.inj (List.cons.inj heq).2).1 (by decide)
    · rfl

theorem joinCodes?_cons_codeOf (c : Char) (codes : List Code) :
    joinCodes? (codeOf c :: codes) = (joinCodes? codes).map (c :: ·) := by
  rcases codeOf_eq c with hcode | ⟨hcode, hcontrol⟩
  · rw [hcode, joinCodes?]
  -- a control character is no half of a surrogate pair
  · have hhigh : isHighSurrogate c.toNat = false := by
      simp [isHighSurrogate]
      omega
    have hlow : isLowSurrogate c.toNat = false := by
      simp [isLowSurrogate]
      omega
    rw [hcode, joinCodes?.eq_def]
    simp only [hhigh, hlow, Bool.false_eq_true, if_false, Char.ofNat_toNat]

theorem textOf?_codesOf (s : String) : textOf? (codesOf s) = some s := by
  have hjoin : ∀ cs : List Char, joinCodes? (cs.map codeOf) = some cs := by
    intro cs
    induction cs with
    | nil => rfl
    | cons c cs ih => rw [List.map_cons, joinCodes?_cons_codeOf, ih, Option.map_some]
  rw [textOf?, codesOf, hjoin, Option.map_some, String.ofList_toList]

end Strings

/-! ### Lexemes -/

section Lexemes

open Lexeme

theorem lexemes_cons {c : Char} {cs rest : List Char} {l : Lexeme} (hspace : isSpace c = false)
    (h : next? (c :: cs) = some (l, rest)) : lexemes (c :: cs) = l :: lexemes rest := by
  have hdrop : (c :: cs).dropWhile isSpace = c :: cs := by
    rw [List.dropWhile_cons_of_neg (Bool.eq_false_iff.mp hspace)]
  rw [lexemes]
  split
  · next heq =>
    rw [hdrop] at heq
    cases heq
  · next heq =>
    rw [hdrop] at heq
    cases heq
    split
    · next hnext =>
      rw [h] at hnext
      cases hnext
      rfl
    · next hnext =>
      rw [h] at hnext
      cases hnext

theorem lexemes_quote (s : String) (cs : List Char) :
    lexemes (quote s ++ cs) = .text (codesOf s) :: lexemes cs := by
  have hquote : quote s ++ cs = '"' :: (s.toList.flatMap escapeCode ++ '"' :: cs) := by
    simp [quote]
  rw [hquote]
  refine lexemes_cons rfl ?_
  rw [next?, text?, scanCodes_quoted]
  rfl

theorem lexemes_lbracket (cs : List Char) : lexemes ('[' :: cs) = .lbracket :: lexemes cs :=
  lexemes_cons rfl rfl

theorem lexemes_rbracket (cs : List Char) : lexemes (']' :: cs) = .rbracket :: lexemes cs :=
  lexemes_cons rfl rfl

theorem lexemes_lbrace (cs : List Char) : lexemes ('\x7b' :: cs) = .lbrace :: lexemes cs :=
  lexemes_cons rfl rfl

theorem lexemes_rbrace (cs : List Char) : lexemes ('\x7d' :: cs) = .rbrace :: lexemes cs :=
  lexemes_cons rfl rfl

theorem lexemes_comma (cs : List Char) : lexemes (',' :: cs) = .comma :: lexemes cs :=
  lexemes_cons rfl rfl

theorem lexemes_colon (cs : List Char) : lexemes (':' :: cs) = .colon :: lexemes cs :=
  lexemes_cons rfl rfl

end Lexemes

/-! ### Values -/

mutual

/-- Whether there is no number in a value. -/
def Value.plain : Value → Bool
  | .number _ => false
  | .array vs => plainElements vs
  | .object fs => plainFields fs
  | _ => true

/-- Whether there is no number in the elements of an array. -/
def plainElements : List Value → Bool
  | [] => true
  | v :: rest => v.plain && plainElements rest

/-- Whether there is no number in the fields of an object. -/
def plainFields : List (String × Value) → Bool
  | [] => true
  | (_, v) :: rest => v.plain && plainFields rest

end

theorem plainElements_iff {vs : List Value} :
    plainElements vs = true ↔ ∀ v ∈ vs, v.plain = true := by
  induction vs with
  | nil => simp [plainElements]
  | cons v vs ih => simp [plainElements, ih]

mutual

/-- The tree of the text of a value, up to numbers, which have none here. -/
def Value.tree : Value → Tree
  | .null => .null
  | .bool b => .bool b
  | .number _ => .null
  | .text s => .text (codesOf s)
  | .array vs => .array (elementTrees vs)
  | .object fs => .object (fieldTrees fs)

/-- The trees of the elements of an array. -/
def elementTrees : List Value → List Tree
  | [] => []
  | v :: rest => v.tree :: elementTrees rest

/-- The trees of the fields of an object, the keys as they are read. -/
def fieldTrees : List (String × Value) → List (List Code × Tree)
  | [] => []
  | (k, v) :: rest => (codesOf k, v.tree) :: fieldTrees rest

end

/-- The first lexeme of a plain value begins a value. -/
theorem exists_begin? {v : Value} (hv : v.plain = true) (cs : List Char) :
    ∃ l rest phase, lexemes (v.spell ++ cs) = l :: rest ∧ begin? l = some phase := by
  cases v with
  | null => exact ⟨.null, _, _, lexemes_cons rfl rfl, rfl⟩
  | bool b =>
    cases b with
    | true => exact ⟨.bool true, _, _, lexemes_cons rfl rfl, rfl⟩
    | false => exact ⟨.bool false, _, _, lexemes_cons rfl rfl, rfl⟩
  | number n => cases hv
  | text s => exact ⟨_, _, _, lexemes_quote s cs, rfl⟩
  | array vs => exact ⟨.lbracket, _, _, lexemes_cons rfl rfl, rfl⟩
  | object fs => exact ⟨.lbrace, _, _, lexemes_cons rfl rfl, rfl⟩

/-- The first element of an array is read like any other value. -/
theorem read_element {v : Value} (hv : v.plain = true) (stack : List Frame) (cs : List Char) :
    read .element stack (lexemes (v.spell ++ cs)) =
      read .value (.array [] :: stack) (lexemes (v.spell ++ cs)) := by
  obtain ⟨l, rest, phase, hl, hbegin⟩ := exists_begin? hv cs
  rw [hl]
  cases l <;> cases hbegin <;> rfl

theorem read_key (before : List (List Code × Tree)) (k : String) (stack : List Frame)
    (cs : List Char) : read (.key before) stack (lexemes (quote k ++ ':' :: cs)) =
      read .value (.object before (codesOf k) :: stack) (lexemes cs) := by
  rw [lexemes_quote, lexemes_colon, read]

/-- The first field of an object is read like any other field. -/
theorem read_field (k : String) (stack : List Frame) (cs : List Char) :
    read .field stack (lexemes (quote k ++ ':' :: cs)) =
      read (.key []) stack (lexemes (quote k ++ ':' :: cs)) := by
  rw [read_key, lexemes_quote, lexemes_colon, read]

/-! ### Reading on -/

/-- What the machine is to do with the text of a value: find its tree, and leave everything else. -/
def Value.ReadsBack (v : Value) : Prop :=
  ∀ (stack : List Frame) (cs : List Char),
    read .value stack (lexemes (v.spell ++ cs)) = read (.after v.tree) stack (lexemes cs)

/-- The elements of an array up to its end, behind those that were read before, the last first. -/
theorem read_elements {v : Value} {vs : List Value} (h : ∀ w ∈ v :: vs, w.ReadsBack)
    (before : List Tree) (stack : List Frame) (cs : List Char) :
    read .value (.array before :: stack)
        (lexemes (joinWith [','] (spellElements (v :: vs)) ++ ']' :: cs)) =
      read (.after (.array (before.reverse ++ elementTrees (v :: vs)))) stack (lexemes cs) := by
  induction vs generalizing v before with
  | nil =>
    simp only [spellElements, joinWith, elementTrees]
    rw [h v List.mem_cons_self, lexemes_rbracket, read, List.reverse_cons]
  | cons w vs ih =>
    have hrest := ih (fun x hx => h x (List.mem_cons_of_mem v hx)) (v.tree :: before)
    simp only [spellElements, joinWith, elementTrees, List.append_assoc, List.cons_append,
      List.nil_append] at hrest ⊢
    rw [h v List.mem_cons_self, lexemes_comma, read, hrest, List.reverse_cons, List.append_assoc]
    rfl

/-- The fields of an object up to its end, behind those that were read before, the last first. -/
theorem read_fields {f : String × Value} {fs : List (String × Value)}
    (h : ∀ g ∈ f :: fs, g.2.ReadsBack) (before : List (List Code × Tree)) (stack : List Frame)
    (cs : List Char) :
    read (.key before) stack (lexemes (joinWith [','] (spellFields (f :: fs)) ++ '\x7d' :: cs)) =
      read (.after (.object (before.reverse ++ fieldTrees (f :: fs)))) stack (lexemes cs) := by
  induction fs generalizing f before with
  | nil =>
    simp only [spellFields, joinWith, fieldTrees, List.append_assoc, List.cons_append]
    rw [read_key, h f List.mem_cons_self, lexemes_rbrace, read, List.reverse_cons]
  | cons g fs ih =>
    have hrest := ih (fun x hx => h x (List.mem_cons_of_mem f hx))
      ((codesOf f.1, f.2.tree) :: before)
    simp only [spellFields, joinWith, fieldTrees, List.append_assoc, List.cons_append,
      List.nil_append] at hrest ⊢
    rw [read_key, h f List.mem_cons_self, lexemes_comma, read, hrest, List.reverse_cons,
      List.append_assoc]
    rfl

theorem readsBack_array {vs : List Value} (hplain : ∀ v ∈ vs, v.plain = true)
    (h : ∀ v ∈ vs, v.ReadsBack) : (Value.array vs).ReadsBack := by
  intro stack cs
  simp only [Value.spell, Value.tree, List.cons_append, List.append_assoc, List.nil_append]
  rw [lexemes_lbracket]
  show read .element stack _ = _
  cases vs with
  | nil =>
    simp only [spellElements, joinWith, List.nil_append, lexemes_rbracket, elementTrees]
    rw [read]
  | cons v vs =>
    have hrest := read_elements h [] stack cs
    obtain ⟨more, hmore⟩ : ∃ more, joinWith [','] (spellElements (v :: vs)) = v.spell ++ more := by
      cases vs with
      | nil => exact ⟨[], (List.append_nil _).symm⟩
      | cons w vs => exact ⟨_, List.append_assoc _ _ _⟩
    rw [hmore, List.append_assoc] at hrest ⊢
    rw [read_element (hplain v List.mem_cons_self), hrest]
    rfl

theorem readsBack_object {fs : List (String × Value)} (h : ∀ f ∈ fs, f.2.ReadsBack) :
    (Value.object fs).ReadsBack := by
  intro stack cs
  simp only [Value.spell, Value.tree, List.cons_append, List.append_assoc, List.nil_append]
  rw [lexemes_lbrace]
  show read .field stack _ = _
  cases fs with
  | nil =>
    simp only [spellFields, joinWith, List.nil_append, lexemes_rbrace, fieldTrees]
    rw [read]
  | cons f fs =>
    have hrest := read_fields h [] stack cs
    obtain ⟨more, hmore⟩ : ∃ more,
        joinWith [','] (spellFields (f :: fs)) = quote f.1 ++ ':' :: more := by
      cases fs with
      | nil => exact ⟨_, rfl⟩
      | cons g fs => exact ⟨f.2.spell ++ _, by simp [spellFields, joinWith]; rfl⟩
    rw [hmore, List.append_assoc, List.cons_append] at hrest ⊢
    rw [read_field, hrest]
    rfl

mutual

theorem readsBack : ∀ v : Value, v.plain = true → v.ReadsBack
  | .null, _ => fun stack cs => by
    have hfirst : lexemes (Value.null.spell ++ cs) = .null :: lexemes cs := lexemes_cons rfl rfl
    rw [hfirst]
    rfl
  | .bool b, _ => fun stack cs => by
    have hfirst : lexemes ((Value.bool b).spell ++ cs) = .bool b :: lexemes cs := by
      cases b <;> exact lexemes_cons rfl rfl
    rw [hfirst]
    rfl
  | .number _, h => by cases h
  | .text s, _ => fun stack cs => by
    rw [Value.spell, lexemes_quote]
    rfl
  | .array vs, h => readsBack_array (plainElements_iff.mp h) (readsBack_elements vs h)
  | .object fs, h => readsBack_object (readsBack_fields fs h)

theorem readsBack_elements : ∀ vs : List Value, plainElements vs = true → ∀ v ∈ vs, v.ReadsBack
  | [], _ => List.forall_mem_nil _
  | v :: vs, h => by
    have h := Bool.and_eq_true_iff.mp h
    exact List.forall_mem_cons.mpr ⟨readsBack v h.1, readsBack_elements vs h.2⟩

theorem readsBack_fields : ∀ fs : List (String × Value), plainFields fs = true →
    ∀ f ∈ fs, f.2.ReadsBack
  | [], _ => List.forall_mem_nil _
  | (k, v) :: fs, h => by
    have h := Bool.and_eq_true_iff.mp h
    exact List.forall_mem_cons.mpr ⟨readsBack v h.1, readsBack_fields fs h.2⟩

end

/-- **Reading what was written** finds the tree of the value, and nothing behind it. -/
theorem parse?_spell {v : Value} (h : v.plain = true) :
    Tree.parse? (.ofList v.spell) = some v.tree := by
  have hread := readsBack v h [] []
  rw [List.append_nil] at hread
  have hnil : lexemes [] = [] := by rw [lexemes]; rfl
  rw [Tree.parse?, Tree.read?, String.toList_ofList, hread, hnil]
  rfl

end CellQuery.Json
