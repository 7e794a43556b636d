import CellQuery.Json.Numeral
import Mathlib.Data.List.TakeWhile

/-!
# Numerals as they are written

A numeral that was read is well formed, and its spelling is what was read (`scanNumeral_sound`). A
well formed numeral is read back from its spelling (`scanNumeral_unsigned`), so numerals that are
spelled alike are one numeral (`Numeral.spelling_injective`).
-/

namespace CellQuery.Json

variable {cs ds rest : List Char}

/-! ### Digits -/

/-- At least one digit, and nothing else. -/
def IsDigits (ds : List Char) : Prop :=
  ds ≠ [] ∧ ∀ c ∈ ds, c.isDigit = true

/-- Whatever does not go on with a digit. -/
def EndsDigits (rest : List Char) : Prop :=
  ∀ c ∈ rest.head?, c.isDigit = false

theorem endsDigits_nil : EndsDigits [] := by
  intro c hc
  cases hc

theorem digitsOf_append (hds : ∀ c ∈ ds, c.isDigit = true) (hrest : EndsDigits rest) :
    digitsOf (ds ++ rest) = (ds, rest) := by
  rw [digitsOf, List.takeWhile_append_of_pos hds, List.dropWhile_append_of_pos hds]
  cases rest with
  | nil => rw [List.takeWhile_nil, List.dropWhile_nil, List.append_nil]
  | cons c rest =>
    have hc : ¬c.isDigit = true := Bool.eq_false_iff.mp (hrest c rfl)
    rw [List.takeWhile_cons_of_neg hc, List.dropWhile_cons_of_neg hc, List.append_nil]

theorem digitsOf_sound (h : digitsOf cs = (ds, rest)) :
    cs = ds ++ rest ∧ ∀ c ∈ ds, c.isDigit = true := by
  cases h
  exact ⟨List.takeWhile_append_dropWhile.symm, fun c hc => List.mem_takeWhile_imp hc⟩

/-! ### The parts -/

/-- The whole part of a numeral: digits, and a zero only if there are no others. -/
def IsWhole (ds : List Char) : Prop :=
  IsDigits ds ∧ (ds.head? = some '0' → ds = ['0'])

theorem scanWhole_sound (h : scanWhole cs = some (ds, rest)) : cs = ds ++ rest ∧ IsWhole ds := by
  unfold scanWhole at h
  split at h
  · cases h
  · cases h
  · next ds' rest' hnil hzero heq =>
    cases h
    obtain ⟨hcs, hdigits⟩ := digitsOf_sound heq
    refine ⟨hcs, ⟨hnil, hdigits⟩, fun hhead => ?_⟩
    obtain ⟨tail, rfl⟩ := List.head?_eq_some_iff.mp hhead
    cases tail with
    | nil => rfl
    | cons d tail => exact (hzero d tail rfl).elim

theorem scanWhole_append (hds : IsWhole ds) (hrest : EndsDigits rest) :
    scanWhole (ds ++ rest) = some (ds, rest) := by
  unfold scanWhole
  rw [digitsOf_append hds.1.2 hrest]
  split
  · next heq =>
    cases heq
    exact (hds.1.1 rfl).elim
  · next heq =>
    cases heq
    cases hds.2 rfl
  · next heq =>
    cases heq
    rfl

/-- The text of a fraction, with its point. -/
def fractionSpelling (fraction : Option (List Char)) : List Char :=
  (fraction.map ('.' :: ·)).getD []

theorem scanFraction_sound {fraction : Option (List Char)}
    (h : scanFraction cs = some (fraction, rest)) :
    cs = fractionSpelling fraction ++ rest ∧ ∀ ds ∈ fraction, IsDigits ds := by
  unfold scanFraction at h
  split at h
  · split at h
    · cases h
    · next hnil heq =>
      cases h
      obtain ⟨hcs, hdigits⟩ := digitsOf_sound heq
      refine ⟨congrArg ('.' :: ·) hcs, fun ds hds => ?_⟩
      obtain rfl := Option.mem_some_iff.mp hds
      exact ⟨hnil, hdigits⟩
  · cases h
    exact ⟨rfl, nofun⟩

theorem scanFraction_append {fraction : Option (List Char)} (h : ∀ ds ∈ fraction, IsDigits ds)
    (hrest : EndsDigits rest) (hpoint : rest.head? ≠ some '.') :
    scanFraction (fractionSpelling fraction ++ rest) = some (fraction, rest) := by
  cases fraction with
  | none =>
    show scanFraction rest = _
    unfold scanFraction
    split
    · exact (hpoint rfl).elim
    · rfl
  | some ds =>
    obtain ⟨hne, hdigits⟩ := h ds rfl
    show scanFraction ('.' :: (ds ++ rest)) = _
    rw [scanFraction, digitsOf_append hdigits hrest]
    split
    · next heq =>
      cases heq
      exact (hne rfl).elim
    · next heq =>
      cases heq
      rfl

/-- An exponent that JSON allows. -/
structure Exponent.WellFormed (e : Exponent) : Prop where
  mark : e.mark = 'e' ∨ e.mark = 'E'
  sign : ∀ c ∈ e.sign, c = '+' ∨ c = '-'
  digits : IsDigits e.digits

/-- The text of an exponent that may be missing. -/
def exponentSpelling (exponent : Option Exponent) : List Char :=
  (exponent.map Exponent.spelling).getD []

theorem scanSign_sound (cs : List Char) :
    cs = (scanSign cs).1.toList ++ (scanSign cs).2 ∧ ∀ c ∈ (scanSign cs).1, c = '+' ∨ c = '-' := by
  unfold scanSign
  split
  · exact ⟨rfl, fun c hc => .inl (Option.mem_some_iff.mp hc).symm⟩
  · exact ⟨rfl, fun c hc => .inr (Option.mem_some_iff.mp hc).symm⟩
  · exact ⟨rfl, nofun⟩

theorem scanSign_append {sign : Option Char} (h : ∀ c ∈ sign, c = '+' ∨ c = '-')
    (hds : IsDigits ds) : scanSign (sign.toList ++ ds) = (sign, ds) := by
  cases sign with
  | none =>
    obtain ⟨d, ds, rfl⟩ := List.exists_cons_of_ne_nil hds.1
    have hd := hds.2 d List.mem_cons_self
    show scanSign (d :: ds) = _
    unfold scanSign
    split
    · next heq =>
      cases heq
      cases hd
    · next heq =>
      cases heq
      cases hd
    · rfl
  | some c =>
    rcases h c rfl with rfl | rfl
    · rfl
    · rfl

theorem scanExponent_sound {exponent : Option Exponent}
    (h : scanExponent cs = some (exponent, rest)) :
    cs = exponentSpelling exponent ++ rest ∧ ∀ e ∈ exponent, e.WellFormed := by
  unfold scanExponent at h
  split at h
  · next c cs' =>
    split at h
    · next hmark =>
      obtain ⟨hsign, hsigns⟩ := scanSign_sound cs'
      dsimp only at h
      split at h
      · cases h
      · next hnil heq =>
        cases h
        obtain ⟨hcs, hdigits⟩ := digitsOf_sound heq
        refine ⟨?_, fun e he => ?_⟩
        · show c :: cs' = c :: (_ ++ _) ++ rest
          rw [List.cons_append, List.append_assoc, ← hcs, ← hsign]
        · obtain rfl := Option.mem_some_iff.mp he
          exact ⟨hmark, hsigns, hnil, hdigits⟩
    · cases h
      exact ⟨rfl, nofun⟩
  · cases h
    exact ⟨rfl, nofun⟩

theorem scanExponent_spelling {exponent : Option Exponent} (h : ∀ e ∈ exponent, e.WellFormed) :
    scanExponent (exponentSpelling exponent) = some (exponent, []) := by
  cases exponent with
  | none => rfl
  | some e =>
    obtain ⟨hmark, hsign, hdigits⟩ := h e rfl
    show scanExponent (e.mark :: (e.sign.toList ++ e.digits)) = _
    unfold scanExponent
    dsimp only
    rw [if_pos hmark, scanSign_append hsign hdigits, ← List.append_nil e.digits,
      digitsOf_append hdigits.2 endsDigits_nil, List.append_nil]
    dsimp only
    split
    · next heq =>
      exact (hdigits.1 (Prod.mk.inj heq).1).elim
    · next heq =>
      cases heq
      rfl

/-! ### Numerals -/

namespace Numeral

variable {n m : Numeral}

/-- A numeral that JSON allows. -/
structure WellFormed (n : Numeral) : Prop where
  whole : IsWhole n.whole
  fraction : ∀ ds ∈ n.fraction, IsDigits ds
  exponent : ∀ e ∈ n.exponent, e.WellFormed

/-- The spelling without the sign. -/
def unsigned (n : Numeral) : List Char :=
  n.whole ++ (fractionSpelling n.fraction ++ exponentSpelling n.exponent)

theorem spelling_eq (n : Numeral) :
    n.spelling = (if n.negative then ['-'] else []) ++ n.unsigned := by
  simp only [spelling, unsigned, fractionSpelling, exponentSpelling, List.append_assoc]

end Numeral

theorem scanNumeral_sound {negative : Bool} {n : Numeral}
    (h : scanNumeral negative cs = some (n, rest)) :
    cs = n.unsigned ++ rest ∧ n.negative = negative ∧ n.WellFormed := by
  simp only [scanNumeral, Option.bind_eq_bind, Option.bind_eq_some_iff, Option.pure_def,
    Prod.exists, Option.some.injEq, Prod.mk.injEq] at h
  obtain ⟨whole, rest₁, h₁, fraction, rest₂, h₂, exponent, rest₃, h₃, rfl, rfl⟩ := h
  obtain ⟨hcs₁, hwhole⟩ := scanWhole_sound h₁
  obtain ⟨hcs₂, hfraction⟩ := scanFraction_sound h₂
  obtain ⟨hcs₃, hexponent⟩ := scanExponent_sound h₃
  refine ⟨?_, rfl, hwhole, hfraction, hexponent⟩
  rw [hcs₁, hcs₂, hcs₃, Numeral.unsigned, List.append_assoc, List.append_assoc]

theorem scanNumeral_unsigned {n : Numeral} (h : n.WellFormed) :
    scanNumeral n.negative n.unsigned = some (n, []) := by
  -- what comes behind each part cannot go on with it
  have hmark : ∀ c ∈ (exponentSpelling n.exponent).head?, c = 'e' ∨ c = 'E' := by
    intro c hc
    cases hexp : n.exponent with
    | none =>
      rw [hexp] at hc
      cases hc
    | some e =>
      rw [hexp] at hc
      obtain rfl := Option.mem_some_iff.mp hc
      exact (h.exponent e hexp).mark
  have hends : EndsDigits (exponentSpelling n.exponent) := by
    intro c hc
    rcases hmark c hc with rfl | rfl <;> rfl
  have hpoint : (exponentSpelling n.exponent).head? ≠ some '.' := by
    intro hc
    rcases hmark '.' hc with h | h <;> cases h
  have hends' : EndsDigits (fractionSpelling n.fraction ++ exponentSpelling n.exponent) := by
    cases n.fraction with
    | none => exact hends
    | some ds => exact fun c hc => (Option.mem_some_iff.mp hc) ▸ rfl
  simp only [scanNumeral, Numeral.unsigned]
  rw [scanWhole_append h.whole hends']
  simp only [Option.bind_eq_bind, Option.bind_some]
  rw [scanFraction_append h.fraction hends hpoint]
  simp only [Option.bind_some]
  rw [scanExponent_spelling h.exponent]
  rfl

/-- Numerals that are spelled alike are one numeral. -/
theorem Numeral.spelling_injective {n m : Numeral} (hn : n.WellFormed) (hm : m.WellFormed)
    (h : n.spelling = m.spelling) : n = m := by
  -- no digit is a sign, so the sign can be told from the spelling
  have hhead : ∀ {n : Numeral}, n.WellFormed → n.unsigned.head? ≠ some '-' := by
    intro n hn hminus
    obtain ⟨d, ds, hd⟩ := List.exists_cons_of_ne_nil hn.whole.1.1
    have hdigit := hn.whole.1.2 d (hd ▸ List.mem_cons_self)
    rw [unsigned, hd] at hminus
    obtain rfl := Option.some.inj hminus
    cases hdigit
  have hsame : n.negative = m.negative ∧ n.unsigned = m.unsigned := by
    rw [spelling_eq, spelling_eq] at h
    cases hneg : n.negative <;> cases hneg' : m.negative <;>
      simp only [hneg, hneg', Bool.false_eq_true, if_true, if_false, List.nil_append] at h
    · exact ⟨rfl, h⟩
    · exact (hhead hn (h ▸ rfl)).elim
    · exact (hhead hm (h ▸ rfl)).elim
    · exact ⟨rfl, (List.cons.inj h).2⟩
  have hn' := scanNumeral_unsigned hn
  rw [hsame.1, hsame.2, scanNumeral_unsigned hm] at hn'
  exact (Prod.mk.inj (Option.some.inj hn')).1.symm

end CellQuery.Json
