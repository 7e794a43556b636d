import CellQuery.Decimal.Shortest
import Mathlib.Data.Nat.Factorization.Basic

/-!
# Decimal digits

How many digits a number has, and which of them are zeros at the end. A decimal is a significand
without zeros at the end and its place (`Scientific.ofPlace`), and is so in one way only.
-/

namespace CellQuery.Decimal

variable {c d k : Nat} {e p : Int}

/-! ### Lengths -/

theorem lt_pow_length_toDigits (d : Nat) : d < 10 ^ (Nat.toDigits 10 d).length :=
  (Nat.length_toDigits_le_iff (by omega) Nat.length_toDigits_pos).mp (Nat.le_refl _)

theorem pow_length_toDigits_le (hd : 0 < d) : 10 ^ ((Nat.toDigits 10 d).length - 1) ≤ d := by
  have hlen := Nat.length_toDigits_pos (b := 10) (n := d)
  refine Nat.le_of_not_lt fun hlt => ?_
  rcases Nat.eq_zero_or_pos ((Nat.toDigits 10 d).length - 1) with hone | hpos
  · rw [hone] at hlt
    omega
  · have := (Nat.length_toDigits_le_iff (by omega) hpos).mpr hlt
    omega

/-! ### Zeros at the end -/

theorem toDigits_mul_pow (hc : 0 < c) (t : Nat) :
    Nat.toDigits 10 (c * 10 ^ t) = Nat.toDigits 10 c ++ List.replicate t '0' := by
  induction t with
  | zero => rw [Nat.pow_zero, Nat.mul_one, List.replicate_zero, List.append_nil]
  | succ t ih =>
    have happend := Nat.toDigits_append_toDigits (b := 10) (n := c * 10 ^ t) (d := 0) (by omega)
      (Nat.mul_pos hc (Nat.pow_pos (by omega))) (by omega)
    have hpow : c * 10 ^ (t + 1) = 10 * (c * 10 ^ t) + 0 := by
      rw [Nat.pow_succ, Nat.add_zero, ← Nat.mul_assoc, Nat.mul_comm]
    rw [hpow, ← happend, ih, List.append_assoc, Nat.toDigits_zero, List.replicate_succ']

/-- The last digit is the remainder. -/
theorem getLast?_toDigits (c : Nat) :
    (Nat.toDigits 10 c).getLast? = some (c % 10).digitChar := by
  by_cases hc : c < 10
  · rw [Nat.toDigits_of_lt_base hc, Nat.mod_eq_of_lt hc]
    rfl
  · rw [Nat.toDigits_of_base_le (by omega) (by omega), List.getLast?_concat]

theorem dropWhile_reverse_toDigits (hc : ¬10 ∣ c) (t : Nat) :
    ((Nat.toDigits 10 (c * 10 ^ t)).reverse.dropWhile (· == '0')).reverse = Nat.toDigits 10 c := by
  have hpos : 0 < c := Nat.pos_of_ne_zero fun h => hc (h ▸ Nat.dvd_zero _)
  have hlast := getLast?_toDigits c
  rw [← List.head?_reverse] at hlast
  obtain ⟨rest, hrest⟩ := List.head?_eq_some_iff.mp hlast
  have hdigit : ((c % 10).digitChar == '0') = false := by
    rw [beq_eq_false_iff_ne, Ne, Nat.digitChar_eq_zero]
    omega
  rw [toDigits_mul_pow hpos, List.reverse_append, List.reverse_replicate, hrest,
    List.dropWhile_append_of_pos (by simp), List.dropWhile_cons_of_neg (by simp [hdigit]), ← hrest,
    List.reverse_reverse]

/-! ### Digits read as a number -/

section Read

variable {ds : List Char}

theorem exists_digitChar {ch : Char} (h : ch.isDigit = true) :
    ∃ k < 10, ch = k.digitChar ∧ ch.toNat - '0'.toNat = k := by
  have hle := Char.isDigit_iff_toNat.mp h
  have hall : ∀ k < 10, Char.ofNat ('0'.toNat + k) = k.digitChar := by decide
  have hten : '9'.toNat = '0'.toNat + 9 := rfl
  refine ⟨ch.toNat - '0'.toNat, by omega, ?_, rfl⟩
  rw [← hall _ (by omega), Nat.add_sub_cancel' hle.1, Char.ofNat_toNat]

theorem ofDigitChars_concat (ds : List Char) (ch : Char) :
    Nat.ofDigitChars 10 (ds ++ [ch]) 0 = 10 * Nat.ofDigitChars 10 ds 0 + (ch.toNat - '0'.toNat) := by
  rw [Nat.ofDigitChars_append, Nat.ofDigitChars_cons, Nat.ofDigitChars_nil]

theorem ofDigitChars_lt (h : ∀ ch ∈ ds, ch.isDigit = true) :
    Nat.ofDigitChars 10 ds 0 < 10 ^ ds.length := by
  induction ds using List.reverseRecOn with
  | nil => decide
  | append_singleton ds ch ih =>
    obtain ⟨k, hk, -, hval⟩ := exists_digitChar (h ch (by simp))
    have := ih fun ch' hch' => h ch' (List.mem_append_left _ hch')
    rw [ofDigitChars_concat, hval, List.length_append, List.length_singleton, Nat.pow_succ]
    omega

/-- Digits are those of the number that they make, if there is no zero in front of them. -/
theorem toDigits_ofDigitChars (hne : ds ≠ []) (h : ∀ ch ∈ ds, ch.isDigit = true)
    (hzero : ds.head? = some '0' → ds = ['0']) : Nat.toDigits 10 (Nat.ofDigitChars 10 ds 0) = ds := by
  induction ds using List.reverseRecOn with
  | nil => exact (hne rfl).elim
  | append_singleton ds ch ih =>
    obtain ⟨k, hk, hch, hval⟩ := exists_digitChar (h ch (by simp))
    rw [ofDigitChars_concat, hval]
    -- a single digit may be zero; otherwise the digits before the last one make a number above zero
    rcases eq_or_ne ds [] with rfl | hds
    · rw [Nat.ofDigitChars_nil, Nat.mul_zero, Nat.zero_add, Nat.toDigits_of_lt_base hk, hch]
      rfl
    · have hhead : (ds ++ [ch]).head? = ds.head? := List.head?_append_of_ne_nil _ hds
      have hnonzero : ds.head? ≠ some '0' := by
        intro hh
        have hlen := congrArg List.length (hzero (hhead.trans hh))
        have hpos := List.length_pos_iff.mpr hds
        rw [List.length_append, List.length_singleton, List.length_singleton] at hlen
        omega
      have hdigits := ih hds (fun ch' hch' => h ch' (List.mem_append_left _ hch'))
        fun hh => (hnonzero hh).elim
      have hpos : 0 < Nat.ofDigitChars 10 ds 0 := by
        refine Nat.pos_of_ne_zero fun hz => hnonzero ?_
        rw [← hdigits, hz]
        rfl
      rw [← Nat.toDigits_append_toDigits (by omega) hpos hk, hdigits, Nat.toDigits_of_lt_base hk, hch]

end Read

/-! ### Significands -/

namespace Scientific

variable {s s' : Scientific}

/-- The number that the digits make without a point. -/
def significand (s : Scientific) : Nat :=
  Nat.ofDigitChars 10 s.digits 0

/-- The power of ten that the last digit counts. -/
def place (s : Scientific) : Int :=
  s.exponent + 1 - s.digits.length

/-- No zero stands in front of the digits or behind them, and there are digits. -/
structure Normal (s : Scientific) : Prop where
  digits : Nat.toDigits 10 s.significand = s.digits
  not_dvd : ¬10 ∣ s.significand

theorem Normal.pos (h : s.Normal) : 0 < s.significand :=
  Nat.pos_of_ne_zero fun hzero => h.not_dvd (hzero ▸ Nat.dvd_zero _)

theorem Normal.ext (h : s.Normal) (h' : s'.Normal) (hsig : s.significand = s'.significand)
    (hplace : s.place = s'.place) : s = s' := by
  have hdigits : s.digits = s'.digits := by rw [← h.digits, ← h'.digits, hsig]
  obtain ⟨digits, exponent⟩ := s
  obtain ⟨digits', exponent'⟩ := s'
  obtain rfl : digits = digits' := hdigits
  simp only [place] at hplace
  obtain rfl : exponent = exponent' := by omega
  rfl

theorem ofNat_mul_pow (hc : ¬10 ∣ c) (t : Nat) (e : Int) :
    ofNat (c * 10 ^ t) e = ⟨Nat.toDigits 10 c, e + t + (Nat.toDigits 10 c).length - 1⟩ := by
  have hpos : 0 < c := Nat.pos_of_ne_zero fun h => hc (h ▸ Nat.dvd_zero _)
  unfold ofNat
  dsimp only
  rw [dropWhile_reverse_toDigits hc, toDigits_mul_pow hpos, List.length_append,
    List.length_replicate]
  congr 1
  omega

/-- The zeros at the end of `d` go into the place. -/
theorem exists_ofNat (hd : 0 < d) (e : Int) :
    (ofNat d e).Normal ∧ ∃ t : Nat, d = (ofNat d e).significand * 10 ^ t ∧
      (ofNat d e).place = e + t := by
  -- the zeros at the end are the power of ten that divides the number
  obtain ⟨t, c, hc, hct⟩ := Nat.exists_eq_pow_mul_and_not_dvd hd.ne' 10 (by omega)
  rw [Nat.mul_comm] at hct
  subst hct
  rw [ofNat_mul_pow hc]
  have hsig : significand ⟨Nat.toDigits 10 c, e + t + (Nat.toDigits 10 c).length - 1⟩ = c :=
    Nat.ofDigitChars_toDigits (by omega) (by omega)
  refine ⟨⟨by rw [hsig], by rwa [hsig]⟩, t, by rw [hsig], ?_⟩
  rw [place]
  dsimp only
  omega

end Scientific

/-! ### Padded with zeros -/

/-- Digits that begin and end with something else than zero. -/
structure IsSignificand (ds : List Char) : Prop where
  ne_nil : ds ≠ []
  digits : ∀ ch ∈ ds, ch.isDigit = true
  head : ds.head? ≠ some '0'
  last : ds.getLast? ≠ some '0'

namespace IsSignificand

variable {ds : List Char}

theorem toDigits_ofDigitChars (h : IsSignificand ds) :
    Nat.toDigits 10 (Nat.ofDigitChars 10 ds 0) = ds :=
  Decimal.toDigits_ofDigitChars h.ne_nil h.digits fun hzero => (h.head hzero).elim

theorem not_dvd (h : IsSignificand ds) : ¬10 ∣ Nat.ofDigitChars 10 ds 0 := by
  intro hdvd
  have hlast := getLast?_toDigits (Nat.ofDigitChars 10 ds 0)
  rw [h.toDigits_ofDigitChars, Nat.mod_eq_zero_of_dvd hdvd] at hlast
  exact h.last hlast

theorem normal {s : Scientific} (h : IsSignificand s.digits) : s.Normal :=
  ⟨h.toDigits_ofDigitChars, h.not_dvd⟩

/-- Zeros in front of the digits do not count, zeros behind them move the point. -/
theorem ofNat_padded (h : IsSignificand ds) (z t : Nat) (e : Int) :
    Scientific.ofNat (Nat.ofDigitChars 10 (List.replicate z '0' ++ (ds ++ List.replicate t '0')) 0) e =
      ⟨ds, e + t + ds.length - 1⟩ := by
  have hvalue : Nat.ofDigitChars 10 (List.replicate z '0' ++ (ds ++ List.replicate t '0')) 0 =
      Nat.ofDigitChars 10 ds 0 * 10 ^ t := by
    rw [Nat.ofDigitChars_append, Nat.ofDigitChars_replicate_zero, Nat.mul_zero, Nat.ofDigitChars_append,
      Nat.ofDigitChars_replicate_zero, Nat.mul_comm]
  rw [hvalue, Scientific.ofNat_mul_pow h.not_dvd, h.toDigits_ofDigitChars]

end IsSignificand

/-- A number has no zero in front, since with a digit less it would be smaller. -/
theorem head?_toDigits (hd : 0 < d) : (Nat.toDigits 10 d).head? ≠ some '0' := by
  intro hzero
  obtain ⟨tail, htail⟩ := List.head?_eq_some_iff.mp hzero
  have hge := pow_length_toDigits_le hd
  have hlt : Nat.ofDigitChars 10 tail 0 < 10 ^ tail.length := by
    refine ofDigitChars_lt fun ch hch => ?_
    have hmem : ch ∈ Nat.toDigits 10 d := htail ▸ List.mem_cons_of_mem _ hch
    exact Nat.isDigit_of_mem_toDigits (by omega) (by omega) hmem
  have hvalue : d = Nat.ofDigitChars 10 tail 0 := by
    have hread := Nat.ofDigitChars_toDigits (b := 10) (n := d) (by omega) (by omega)
    rw [htail, Nat.ofDigitChars_cons] at hread
    exact hread.symm
  rw [htail, List.length_cons, Nat.add_sub_cancel, hvalue] at hge
  omega

theorem Scientific.Normal.isSignificand {s : Scientific} (h : s.Normal) : IsSignificand s.digits where
  ne_nil := h.digits ▸ Nat.toDigits_ne_nil
  digits ch hch := by
    rw [← h.digits] at hch
    exact Nat.isDigit_of_mem_toDigits (by omega) (by omega) hch
  head := h.digits ▸ head?_toDigits h.pos
  last hzero := by
    rw [← h.digits, getLast?_toDigits, Option.some.injEq, Nat.digitChar_eq_zero] at hzero
    exact h.not_dvd (Nat.dvd_of_mod_eq_zero hzero)

end CellQuery.Decimal
