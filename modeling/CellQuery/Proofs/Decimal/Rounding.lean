import CellQuery.Proofs.Decimal.Digits
import Mathlib.Algebra.Order.Field.Rat
import Mathlib.Data.Nat.Log
import Mathlib.Tactic.FieldSimp
import Mathlib.Tactic.Linarith
import Mathlib.Tactic.Positivity
import Mathlib.Tactic.Ring

/-!
# Rounding to the format

A decimal is a rational count of units (`inUnits`), and it is read as the number that it is nearest
to: it lies no farther than half way to the neighbours of this number, and half way only if the
number has an even significand (`RoundsTo`). No decimal is as near to two numbers
(`RoundsTo.unique`), so this describes reading completely (`ofDecimal_eq_some_iff`), and what is
tested for when digits are searched for is that they are read as the number they were searched for
(`readsBack_iff`).
-/

namespace CellQuery.Decimal

/-- `digits · 10 ^ exponent`, in units. -/
def inUnits (digits : Nat) (exponent : Int) : ℚ :=
  digits * 10 ^ exponent * 2 ^ unitExponent

/-! ### Gaps -/

section Gap

variable {m n k : Nat}

theorem gapAbove_eq_pow (n : Nat) : gapAbove n = 2 ^ (n.log2 + 1 - precision) := rfl

theorem gapAbove_pos (n : Nat) : 0 < gapAbove n :=
  Nat.two_pow_pos _

/-- A significand has at most 53 binary digits. -/
theorem lt_mul_gapAbove (n : Nat) : n < 2 ^ 53 * gapAbove n := by
  rw [gapAbove_eq_pow, ← Nat.pow_add]
  refine Nat.lt_of_lt_of_le Nat.lt_log2_self (Nat.pow_le_pow_right (by omega) ?_)
  unfold precision
  omega

/-- It has exactly that many, unless the number is at the bottom of the format. -/
theorem mul_gapAbove_le (n : Nat) : gapAbove n = 1 ∨ 2 ^ 52 * gapAbove n ≤ n := by
  rw [gapAbove_eq_pow, ← Nat.pow_add]
  by_cases h : n.log2 + 1 ≤ precision
  · exact .inl (by rw [Nat.sub_eq_zero_of_le h, Nat.pow_zero])
  · unfold precision at h ⊢
    have hn : n ≠ 0 := by
      rintro rfl
      rw [Nat.log2_zero] at h
      omega
    have hlog : 52 + (n.log2 + 1 - 53) = n.log2 := by omega
    rw [hlog]
    exact .inr (Nat.log2_self_le hn)

theorem gapAbove_eq (hlt : n < 2 ^ 53 * 2 ^ k) (hle : k = 0 ∨ 2 ^ 52 * 2 ^ k ≤ n) :
    gapAbove n = 2 ^ k := by
  have hlt' := lt_mul_gapAbove n
  have hle' := mul_gapAbove_le n
  rw [gapAbove_eq_pow] at hlt' hle' ⊢
  generalize n.log2 + 1 - precision = j at hlt' hle' ⊢
  rw [← Nat.pow_add] at hlt hlt' hle hle'
  -- gaps are powers of two, and each has its own range of numbers
  rcases Nat.lt_trichotomy j k with hjk | rfl | hjk
  · have hpow : 2 ^ (53 + j) ≤ 2 ^ (52 + k) := Nat.pow_le_pow_right (by omega) (by omega)
    omega
  · rfl
  · have hpow : 2 ^ (53 + k) ≤ 2 ^ (52 + j) := Nat.pow_le_pow_right (by omega) (by omega)
    have hone : 2 ^ j ≠ 1 := by
      rw [Ne, Nat.pow_eq_one]
      omega
    omega

theorem gapAbove_dvd (h : m ≤ n) : gapAbove m ∣ gapAbove n := by
  have hlog : m.log2 ≤ n.log2 := by
    rw [Nat.log2_eq_log_two, Nat.log2_eq_log_two]
    exact Nat.log_mono_right h
  rw [gapAbove_eq_pow, gapAbove_eq_pow]
  exact Nat.pow_dvd_pow 2 (by omega)

theorem gapBelow_le (n : Nat) : gapBelow n ≤ gapAbove n := by
  have hpos := gapAbove_pos n
  unfold gapBelow
  dsimp only
  split <;> omega

theorem gapBelow_pos (n : Nat) : 0 < gapBelow n := by
  have hpos := gapAbove_pos n
  unfold gapBelow
  dsimp only
  split <;> omega

theorem gapAbove_le_self (hn : 0 < n) : gapAbove n ≤ n := by
  have hpos := gapAbove_pos n
  rcases mul_gapAbove_le n with h | h <;> omega

theorem gapAbove_zero : gapAbove 0 = 1 := by
  rw [gapAbove_eq_pow, Nat.log2_zero]
  rfl

theorem gapAbove_le_succ (n : Nat) : gapAbove n ≤ n + 1 := by
  rcases Nat.eq_zero_or_pos n with rfl | hpos
  · exact gapAbove_zero.le
  · exact (gapAbove_le_self hpos).trans (Nat.le_succ n)

/-- One number has a gap half as long below it as above it. -/
theorem gapBelow_eq (n : Nat) :
    (gapBelow n = gapAbove n ∧ (gapAbove n = 1 ∨ n ≠ 2 ^ 52 * gapAbove n)) ∨
      (n = 2 ^ 52 * gapAbove n ∧ gapAbove n = 2 * gapBelow n) := by
  have hpow : Nat.pow 2 (precision - 1) = 2 ^ 52 := rfl
  unfold gapBelow
  dsimp only
  rw [hpow, gapAbove_eq_pow]
  generalize n.log2 + 1 - precision = k
  split
  · next hn =>
    cases k with
    | zero => exact .inl ⟨rfl, .inl rfl⟩
    | succ k =>
      refine .inr ⟨hn, ?_⟩
      rw [Nat.pow_succ]
      omega
  · next hn => exact .inl ⟨rfl, .inr hn⟩

end Gap

/-! ### The numbers of the format -/

/-- A count of units with a significand that fits. It is a number of the format if it is not too
large. -/
def Representable (n : Nat) : Prop :=
  gapAbove n ∣ n

namespace Representable

variable {m n : Nat}

/-- A gap is not overlooked: there is no number in it. -/
theorem add_gapAbove_le (hm : Representable m) (hn : Representable n) (h : m < n) :
    m + gapAbove m ≤ n := by
  obtain ⟨a, ha⟩ := hm
  obtain ⟨b, hb⟩ := (gapAbove_dvd (Nat.le_of_lt h)).trans hn
  generalize gapAbove m = g at ha hb ⊢
  subst ha hb
  rw [← Nat.mul_succ]
  exact Nat.mul_le_mul_left g (Nat.lt_of_mul_lt_mul_left h)

/-- From the next smaller number one gap leads back. -/
theorem gapAbove_sub (hn : Representable n) (hpos : 0 < n) :
    gapAbove (n - gapBelow n) = gapBelow n ∧ Representable (n - gapBelow n) := by
  have hlt := lt_mul_gapAbove n
  have hle := mul_gapAbove_le n
  -- the gap above the smaller number is what has to be found; that it fits follows
  suffices h : gapAbove (n - gapBelow n) = gapBelow n ∧ gapBelow n ∣ n by
    refine ⟨h.1, ?_⟩
    rw [Representable, h.1]
    exact Nat.dvd_sub h.2 (Nat.dvd_refl _)
  -- below a power of two the gaps are half as long
  rcases gapBelow_eq n with ⟨hbelow, hodd⟩ | ⟨hn', hhalf⟩
  · rw [hbelow]
    refine ⟨?_, hn⟩
    have hdvd : gapAbove n ∣ n := hn
    obtain ⟨k, hk⟩ : ∃ k, gapAbove n = 2 ^ k := ⟨_, rfl⟩
    rw [hk] at hlt hle hodd hdvd ⊢
    have hself : n - 2 ^ k ≤ n := Nat.sub_le _ _
    refine gapAbove_eq (by omega) ?_
    -- at the bottom of the format all gaps are one unit, above it the significand stays large
    -- enough
    rcases hodd with hone | hne
    · exact .inl (by simpa using hone)
    · rcases hle with hone | hle
      · exact .inl (by simpa using hone)
      · obtain ⟨b, rfl⟩ := hdvd
        have hb : 2 ^ 52 < b := by
          refine Nat.lt_of_le_of_ne (Nat.le_of_mul_le_mul_left ?_ (Nat.two_pow_pos k)) ?_
          · rwa [Nat.mul_comm]
          · rintro rfl
            exact hne (Nat.mul_comm _ _)
        right
        rw [← Nat.mul_sub_one, Nat.mul_comm]
        exact Nat.mul_le_mul_left _ (by omega)
  · refine ⟨?_, (Dvd.intro_left 2 hhalf.symm).trans hn⟩
    rw [gapAbove_eq_pow] at hn' hhalf
    generalize n.log2 + 1 - precision = k at hn' hhalf
    cases k with
    | zero => omega
    | succ k =>
      have hbelow : gapBelow n = 2 ^ k := by
        rw [Nat.pow_succ] at hhalf
        omega
      rw [hbelow]
      rw [Nat.pow_succ] at hn'
      have hpow := Nat.two_pow_pos k
      exact gapAbove_eq (by omega) (.inr (by omega))

end Representable

/-! ### Nearest numbers -/

/-- `n` is the number that `v` units are rounded to: `v` is at most half a gap away from it, and
exactly half a gap only if its significand is even. -/
structure RoundsTo (v : ℚ) (n : Nat) : Prop where
  representable : Representable n
  low : 2 * (n : ℚ) - gapBelow n ≤ 2 * v
  high : 2 * v ≤ 2 * (n : ℚ) + gapAbove n
  tie : 2 * (n : ℚ) - gapBelow n = 2 * v ∨ 2 * v = 2 * (n : ℚ) + gapAbove n →
    Even (n / gapAbove n)

namespace RoundsTo

variable {v w : ℚ} {m n : Nat}

theorem not_lt (hm : RoundsTo v m) (hn : RoundsTo v n) : ¬m < n := by
  intro hlt
  obtain ⟨hgap, hpred⟩ := hn.representable.gapAbove_sub (Nat.zero_lt_of_lt hlt)
  have hbelow : gapBelow n ≤ n :=
    (gapBelow_le n).trans (gapAbove_le_self (Nat.zero_lt_of_lt hlt))
  -- no number fits between `n` and the one below it
  have hmp : m ≤ n - gapBelow n := by
    refine Nat.le_of_not_lt fun hpm => ?_
    have := hpred.add_gapAbove_le hm.representable hpm
    omega
  have hmn := hm.representable.add_gapAbove_le hn.representable hlt
  -- The value is half way between neighbours, so both significands are even.
  have hmn' : (m : ℚ) + gapAbove m ≤ n := by exact_mod_cast hmn
  have hmp' : (m : ℚ) + gapBelow n ≤ n := by
    have : m + gapBelow n ≤ n := by omega
    exact_mod_cast this
  have hhigh := hm.high
  have hlow := hn.low
  have hpq : (m : ℚ) + gapBelow n = n := by linarith
  have hpm : m + gapBelow n = n := by exact_mod_cast hpq
  have hsame : gapAbove m = gapBelow n := by
    rw [← hgap]
    congr 1
    omega
  have heven := hm.tie (.inr (by linarith))
  have heven' := hn.tie (.inl (by linarith))
  -- the two significands follow one another, except that the higher one may begin a new power of
  -- two
  obtain ⟨a, ha⟩ := hm.representable
  have hpos := gapAbove_pos m
  have hn' : n = gapAbove m * (a + 1) := by
    rw [Nat.mul_succ, ← ha, hsame, hpm]
  have hdiv : m / gapAbove m = a := Nat.div_eq_of_eq_mul_right hpos ha
  rw [hdiv] at heven
  rcases gapBelow_eq n with ⟨hbelow, -⟩ | ⟨hpow, hhalf⟩
  · rw [← hbelow, ← hsame, Nat.div_eq_of_eq_mul_right hpos hn'] at heven'
    exact (Nat.even_add_one.mp heven') heven
  · have htop : a + 1 = 2 ^ 53 := by
      refine Nat.eq_of_mul_eq_mul_left hpos ?_
      rw [← hn', hpow, hhalf, hsame]
      ring
    exact (Nat.even_add_one.mp (htop ▸ (by decide : Even (2 ^ 53)))) heven

theorem unique (hm : RoundsTo v m) (hn : RoundsTo v n) : m = n :=
  Nat.le_antisymm (Nat.le_of_not_lt (hn.not_lt hm)) (Nat.le_of_not_lt (hm.not_lt hn))

/-- What is nearer to a number on the same side is rounded to it as well. -/
theorem of_between {u : ℚ} (hv : RoundsTo v n) (h : v ≤ u ∧ u ≤ n ∨ (n : ℚ) ≤ u ∧ u ≤ v) :
    RoundsTo u n := by
  have hlow := hv.low
  have hhigh := hv.high
  have hbelow : (0 : ℚ) < gapBelow n := by exact_mod_cast gapBelow_pos n
  have habove : (0 : ℚ) < gapAbove n := by exact_mod_cast gapAbove_pos n
  refine ⟨hv.representable, ?_, ?_, fun htie => hv.tie ?_⟩
  · rcases h with ⟨h, -⟩ | ⟨h, -⟩ <;> linarith
  · rcases h with ⟨-, h⟩ | ⟨-, h⟩ <;> linarith
  · rcases h with ⟨h₁, h₂⟩ | ⟨h₁, h₂⟩ <;> rcases htie with htie | htie
    · exact .inl (by linarith)
    · linarith
    · linarith
    · exact .inr (by linarith)

end RoundsTo

/-! ### Rounding -/

section Round

variable {v : ℚ} {num den n : Nat}

theorem div_le_and_lt (hden : 0 < den) (hv : v * den = num) :
    ((num / den : Nat) : ℚ) ≤ v ∧ v < ((num / den : Nat) : ℚ) + 1 := by
  have hden' : (0 : ℚ) < den := by exact_mod_cast hden
  have hdvd : num / den * den ≤ num := Nat.div_mul_le_self num den
  have hdvd' : num < (num / den + 1) * den := by
    rw [Nat.mul_comm]
    exact Nat.lt_mul_div_succ num hden
  constructor
  · refine le_of_mul_le_mul_right ?_ hden'
    rw [hv]
    exact_mod_cast hdvd
  · refine lt_of_mul_lt_mul_right ?_ hden'.le
    rw [hv]
    exact_mod_cast hdvd'

theorem roundDiv_nearest (hden : 0 < den) (hv : v * den = num) :
    2 * (roundDiv num den : ℚ) ≤ 2 * v + 1 ∧ 2 * v ≤ 2 * (roundDiv num den : ℚ) + 1 ∧
      (2 * (roundDiv num den : ℚ) = 2 * v + 1 ∨ 2 * v = 2 * (roundDiv num den : ℚ) + 1 →
        Even (roundDiv num den)) := by
  have hden' : (0 : ℚ) < den := by exact_mod_cast hden
  have hdiv : (den : ℚ) * (num / den : Nat) + (num % den : Nat) = num := by
    exact_mod_cast Nat.div_add_mod num den
  have hmod : ((num % den : Nat) : ℚ) < den := by exact_mod_cast Nat.mod_lt num hden
  have hmod' : (0 : ℚ) ≤ (num % den : Nat) := Nat.cast_nonneg _
  have hround : roundDiv num den =
      if den < 2 * (num % den) ∨ 2 * (num % den) = den ∧ num / den % 2 = 1 then num / den + 1
      else num / den := rfl
  rw [hround]
  generalize num / den = q at hdiv ⊢
  generalize num % den = r at hdiv hmod hmod' ⊢
  -- everything in terms of how far the value is above the quotient
  have hr : (r : ℚ) = (v - q) * den := by linarith
  have hlt : den < 2 * r ↔ 1 < 2 * (v - q) := by
    rw [← Nat.cast_lt (α := ℚ), Nat.cast_mul, hr, ← lt_mul_iff_one_lt_left hden', mul_assoc]
    rfl
  have heq : 2 * r = den ↔ 2 * (v - q) = 1 := by
    rw [← Nat.cast_inj (R := ℚ), Nat.cast_mul, hr, ← mul_assoc, mul_eq_right₀ hden'.ne']
    rfl
  have hlow : 0 ≤ v - q := by
    rw [hr] at hmod'
    exact nonneg_of_mul_nonneg_left hmod' hden'
  have hhigh : v - q < 1 := by
    rw [hr] at hmod
    exact (mul_lt_iff_lt_one_left hden').mp hmod
  split
  · next hup =>
    rw [hlt, heq] at hup
    push_cast
    refine ⟨?_, by linarith, fun htie => ?_⟩
    · rcases hup with hup | ⟨hup, -⟩ <;> linarith
    · rcases hup with hup | ⟨-, hodd⟩
      · rcases htie with htie | htie <;> linarith
      · rw [Nat.even_add_one, Nat.not_even_iff]
        exact hodd
  · next hdown =>
    rw [hlt, heq] at hdown
    push Not at hdown
    refine ⟨by linarith, by linarith [hdown.1], fun htie => ?_⟩
    rcases htie with htie | htie
    · linarith
    · rw [Nat.even_iff]
      have := hdown.2 (by linarith)
      omega

section Scaled

variable {x : ℚ} {j k : Nat}

theorem gapAbove_mul_pow (hk : k < 2 ^ 53) (hle : j = 0 ∨ 2 ^ 52 ≤ k) :
    gapAbove (k * 2 ^ j) = 2 ^ j :=
  gapAbove_eq (Nat.mul_lt_mul_of_pos_right hk (Nat.two_pow_pos j))
    (hle.imp_right (Nat.mul_le_mul_right _))

theorem gapBelow_mul_pow (hk : k < 2 ^ 53) (hle : j = 0 ∨ 2 ^ 52 ≤ k) :
    gapBelow (k * 2 ^ j) = 2 ^ j ∨ j ≠ 0 ∧ k = 2 ^ 52 := by
  rcases gapBelow_eq (k * 2 ^ j) with ⟨hbelow, -⟩ | ⟨hpow, hhalf⟩
  · exact .inl (hbelow.trans (gapAbove_mul_pow hk hle))
  · rw [gapAbove_mul_pow hk hle] at hpow hhalf
    refine .inr ⟨?_, Nat.eq_of_mul_eq_mul_right (Nat.two_pow_pos j) hpow⟩
    rintro rfl
    omega

/-- `x` gaps are rounded to the nearest whole count of gaps, if 53 binary digits are what it takes
to count them. -/
theorem roundsTo_mul_gap_of_lt (hk : k < 2 ^ 53) (hle : j = 0 ∨ 2 ^ 52 ≤ x)
    (hlow : 2 * (k : ℚ) ≤ 2 * x + 1) (hhigh : 2 * x ≤ 2 * (k : ℚ) + 1)
    (htie : 2 * (k : ℚ) = 2 * x + 1 ∨ 2 * x = 2 * (k : ℚ) + 1 → Even k) :
    RoundsTo (x * 2 ^ j) (k * 2 ^ j : Nat) := by
  have hpos : (0 : ℚ) < 2 ^ j := by positivity
  have hjk : j = 0 ∨ 2 ^ 52 ≤ k := by
    refine hle.imp_right fun hle => ?_
    have : (2 * 2 ^ 52 : ℚ) ≤ 2 * (k : ℚ) + 1 := by linarith
    have : 2 * 2 ^ 52 ≤ 2 * k + 1 := by exact_mod_cast this
    omega
  have hgap := gapAbove_mul_pow hk hjk
  -- The gap below is as long as the one above, unless `x` is above the number anyway.
  have hbelow : (gapBelow (k * 2 ^ j) : ℚ) = 2 ^ j ∨
      (k : ℚ) ≤ x ∧ (0 : ℚ) < gapBelow (k * 2 ^ j) := by
    refine (gapBelow_mul_pow hk hjk).imp (fun h => ?_) fun ⟨hj, hk'⟩ => ⟨?_, ?_⟩
    · exact_mod_cast h
    · rw [hk']
      exact_mod_cast hle.resolve_left hj
    · exact_mod_cast gapBelow_pos _
  refine ⟨?_, ?_, ?_, fun htie' => ?_⟩
  · rw [Representable, hgap]
    exact Nat.dvd_mul_left _ _
  · push_cast
    rcases hbelow with hb | ⟨hkx, hb⟩ <;> nlinarith
  · rw [hgap]
    push_cast
    nlinarith
  · rw [hgap] at htie' ⊢
    rw [Nat.mul_div_cancel _ (Nat.two_pow_pos j)]
    push_cast at htie'
    refine htie ?_
    rcases htie' with h | h
    · rcases hbelow with hb | ⟨hkx, hb⟩
      · left
        rw [hb] at h
        refine mul_right_cancel₀ hpos.ne' ?_
        linarith
      · nlinarith
    · right
      refine mul_right_cancel₀ hpos.ne' ?_
      linarith

/-- If rounding makes one binary digit more of them, the gap at the number is twice as long. -/
theorem roundsTo_mul_gap_of_eq (hlt : x < 2 ^ 53) (hlow : 2 * 2 ^ 53 ≤ 2 * x + 1) :
    RoundsTo (x * 2 ^ j) (2 ^ 53 * 2 ^ j : Nat) := by
  have hpos : (0 : ℚ) < 2 ^ j := by positivity
  have htwice : 2 ^ 53 * 2 ^ j = 2 ^ 52 * 2 ^ (j + 1) := by ring
  have hgap : gapAbove (2 ^ 53 * 2 ^ j) = 2 ^ (j + 1) := by
    rw [htwice]
    exact gapAbove_mul_pow (by omega) (.inr (Nat.le_refl _))
  have hbelow : (gapBelow (2 ^ 53 * 2 ^ j) : ℚ) = 2 ^ j := by
    have hhalf := gapBelow_eq (2 ^ 53 * 2 ^ j)
    rw [hgap, Nat.pow_succ] at hhalf
    have hpow := Nat.two_pow_pos j
    generalize gapBelow (2 ^ 53 * 2 ^ j) = b at hhalf ⊢
    have hb : b = 2 ^ j := by omega
    exact_mod_cast hb
  refine ⟨?_, ?_, ?_, fun _ => ?_⟩
  · rw [Representable, hgap, htwice]
    exact Nat.dvd_mul_left _ _
  · rw [hbelow]
    push_cast
    nlinarith
  · rw [hgap]
    push_cast
    rw [pow_succ]
    nlinarith
  · rw [hgap, htwice, Nat.mul_div_cancel _ (Nat.two_pow_pos _)]
    decide

theorem roundsTo_mul_gap (hlt : x < 2 ^ 53) (hle : j = 0 ∨ 2 ^ 52 ≤ x)
    (hlow : 2 * (k : ℚ) ≤ 2 * x + 1) (hhigh : 2 * x ≤ 2 * (k : ℚ) + 1)
    (htie : 2 * (k : ℚ) = 2 * x + 1 ∨ 2 * x = 2 * (k : ℚ) + 1 → Even k) :
    RoundsTo (x * 2 ^ j) (k * 2 ^ j : Nat) := by
  -- rounding up leads to the next power of two at most
  have hk : k ≤ 2 ^ 53 := by
    have : 2 * (k : ℚ) < 2 * 2 ^ 53 + 1 := by linarith
    have : 2 * k < 2 * 2 ^ 53 + 1 := by exact_mod_cast this
    omega
  rcases Nat.lt_or_eq_of_le hk with hk | rfl
  · exact roundsTo_mul_gap_of_lt hk hle hlow hhigh htie
  · push_cast at hlow
    exact roundsTo_mul_gap_of_eq hlt hlow

end Scaled

/-- The numbers that are read are the nearest ones, as long as they are not too large. -/
theorem roundUnits_eq_some_iff (hden : 0 < den) (hv : v * den = num) :
    roundUnits num den = some n ↔ RoundsTo v n ∧ n < overflow := by
  obtain ⟨j, hj⟩ : ∃ j, gapAbove (num / den) = 2 ^ j := ⟨_, rfl⟩
  obtain ⟨hfloor, hfloor'⟩ := div_le_and_lt hden hv
  -- counted in gaps the value has 53 binary digits before the point
  have hnearest : RoundsTo v (roundDiv num (den * 2 ^ j) * 2 ^ j) := by
    have hpow := Nat.two_pow_pos j
    have hpos : (0 : ℚ) < 2 ^ j := by positivity
    have hscaled : v / 2 ^ j * (den * 2 ^ j : Nat) = num := by
      push_cast
      field_simp
      exact hv
    obtain ⟨hlow, hhigh, htie⟩ := roundDiv_nearest (Nat.mul_pos hden hpow) hscaled
    have hround := roundsTo_mul_gap (j := j) (x := v / 2 ^ j) ?_ ?_ hlow hhigh htie
    · rwa [div_mul_cancel₀ v hpos.ne'] at hround
    · rw [div_lt_iff₀ hpos]
      have hlt : num / den + 1 ≤ 2 ^ 53 * 2 ^ j := hj ▸ lt_mul_gapAbove (num / den)
      refine lt_of_lt_of_le hfloor' ?_
      exact_mod_cast hlt
    · rcases mul_gapAbove_le (num / den) with hone | hle
      · left
        simpa [hj] using hone
      · right
        rw [le_div_iff₀ hpos]
        rw [hj] at hle
        refine le_trans ?_ hfloor
        exact_mod_cast hle
  unfold roundUnits
  dsimp only
  rw [hj]
  generalize roundDiv num (den * 2 ^ j) * 2 ^ j = m at hnearest ⊢
  constructor
  · intro h
    split at h
    · next hlt =>
      obtain rfl := Option.some.inj h
      exact ⟨hnearest, hlt⟩
    · cases h
  · rintro ⟨hn, hlt⟩
    obtain rfl := hn.unique hnearest
    rw [if_pos hlt]

end Round

/-! ### Reading -/

section Read

variable {v : ℚ} {d m n : Nat} {e : Int}

theorem two_mul_two_pow_lt : 2 * 2 ^ unitExponent < 10 ^ 330 := by decide +kernel

theorem two_mul_overflow_lt : 2 * overflow < 10 ^ 310 * 2 ^ unitExponent := by decide +kernel

theorem overflow_pos : 0 < overflow := by
  unfold overflow
  generalize 1024 + unitExponent = k
  exact Nat.two_pow_pos k

theorem zpow_mul_pow_toNat (e : Int) : (10 : ℚ) ^ e * 10 ^ (-e).toNat = 10 ^ e.toNat := by
  have hsum : e + ((-e).toNat : Int) = e.toNat := by omega
  rw [← zpow_natCast, ← zpow_natCast, ← zpow_add₀ (by norm_num), hsum]

theorem inUnits_mul_pow_toNat (d : Nat) (e : Int) :
    inUnits d e * 10 ^ (-e).toNat = d * 10 ^ e.toNat * 2 ^ unitExponent := by
  rw [inUnits, mul_right_comm, mul_assoc (d : ℚ), zpow_mul_pow_toNat]

theorem inUnits_nonneg (d : Nat) (e : Int) : 0 ≤ inUnits d e :=
  mul_nonneg (mul_nonneg d.cast_nonneg (zpow_nonneg (by norm_num) e)) (pow_nonneg (by norm_num) _)

theorem inUnits_lt (d : Nat) (e : Int) :
    inUnits d e < 10 ^ ((Nat.toDigits 10 d).length + e) * 2 ^ unitExponent := by
  have hlt : (d : ℚ) < 10 ^ ((Nat.toDigits 10 d).length : Int) := by
    rw [zpow_natCast]
    exact_mod_cast lt_pow_length_toDigits d
  have hpow : (0 : ℚ) < 10 ^ e := zpow_pos (by norm_num) e
  rw [inUnits, zpow_add₀ (by norm_num)]
  gcongr

theorem le_inUnits (hd : 0 < d) (e : Int) :
    10 ^ ((Nat.toDigits 10 d).length + e - 1) * 2 ^ unitExponent ≤ inUnits d e := by
  have hlen := Nat.length_toDigits_pos (b := 10) (n := d)
  have hle : (10 : ℚ) ^ ((Nat.toDigits 10 d).length - 1 : Int) ≤ d := by
    have hcast : ((Nat.toDigits 10 d).length : Int) - 1 = ((Nat.toDigits 10 d).length - 1 : Nat) := by
      omega
    rw [hcast, zpow_natCast]
    exact_mod_cast pow_length_toDigits_le hd
  have hpow : (0 : ℚ) < 10 ^ e := zpow_pos (by norm_num) e
  rw [inUnits, add_sub_right_comm, zpow_add₀ (by norm_num)]
  gcongr

theorem roundsTo_zero (hpos : 0 ≤ v) (hlt : 2 * v < 1) : RoundsTo v 0 := by
  have hbelow : (0 : ℚ) < gapBelow 0 := by exact_mod_cast gapBelow_pos 0
  refine ⟨Nat.dvd_zero _, ?_, ?_, fun _ => ?_⟩
  · push_cast
    linarith
  · rw [gapAbove_zero]
    push_cast
    linarith
  · rw [Nat.zero_div]
    exact Nat.even_iff.mpr rfl

theorem RoundsTo.some_eq_iff (hm : RoundsTo v m) (hlt : m < overflow) :
    some m = some n ↔ RoundsTo v n ∧ n < overflow := by
  constructor
  · intro h
    obtain rfl := Option.some.inj h
    exact ⟨hm, hlt⟩
  · rintro ⟨hn, -⟩
    exact congrArg some (hm.unique hn)

/-- Where no power is taken because the exponent is too low, the decimal is less than half a
unit. -/
theorem two_mul_inUnits_lt_one (h : (Nat.toDigits 10 d).length + e < -330) :
    2 * inUnits d e < 1 := by
  have hlt := inUnits_lt d e
  have hpow : (10 : ℚ) ^ ((Nat.toDigits 10 d).length + e) ≤ 10 ^ (-330 : Int) :=
    zpow_le_zpow_right₀ (by norm_num) h.le
  have hcut : (2 * 2 ^ unitExponent : ℚ) < 10 ^ 330 := by exact_mod_cast two_mul_two_pow_lt
  have hunit : (0 : ℚ) < 2 ^ unitExponent := by positivity
  calc 2 * inUnits d e
      < 2 * (10 ^ ((Nat.toDigits 10 d).length + e) * 2 ^ unitExponent) := by linarith
    _ ≤ 2 * (10 ^ (-330 : Int) * 2 ^ unitExponent) := by gcongr
    _ = 2 * 2 ^ unitExponent / 10 ^ 330 := by
      rw [zpow_neg, zpow_ofNat, div_eq_mul_inv, mul_assoc, mul_comm (2 ^ unitExponent : ℚ)]
    _ ≤ 1 := by rw [div_le_one (by positivity)]; exact hcut.le

/-- Where none is taken because it is too high, the decimal is too large for the format. -/
theorem RoundsTo.overflow_le (hd : 0 < d) (h : 310 < (Nat.toDigits 10 d).length + e)
    (hn : RoundsTo (inUnits d e) n) : overflow ≤ n := by
  refine Nat.le_of_not_lt fun hlt => ?_
  have hpow : (10 : ℚ) ^ (310 : Int) ≤ 10 ^ ((Nat.toDigits 10 d).length + e - 1) :=
    zpow_le_zpow_right₀ (by norm_num) (by omega)
  have hcut : (2 * overflow : ℚ) < 10 ^ 310 * 2 ^ unitExponent := by
    exact_mod_cast two_mul_overflow_lt
  have hvalue : (10 : ℚ) ^ 310 * 2 ^ unitExponent ≤ inUnits d e := by
    refine le_trans ?_ (le_inUnits hd e)
    rw [zpow_ofNat] at hpow
    gcongr
  have hlarge := hcut.trans_le hvalue
  -- the powers are large; nothing after this line may try to compare them
  clear hcut hvalue hpow
  have hlt' : (n : ℚ) + 1 ≤ overflow := by exact_mod_cast hlt
  have hgap : (gapAbove n : ℚ) ≤ n + 1 := by exact_mod_cast gapAbove_le_succ n
  have hhigh := hn.high
  have hpos : (0 : ℚ) ≤ n := n.cast_nonneg
  linarith

theorem ofDecimal_eq_some_iff :
    ofDecimal d e = some n ↔ RoundsTo (inUnits d e) n ∧ n < overflow := by
  unfold ofDecimal
  dsimp only
  -- a decimal outside the range of the powers is rounded without looking at its digits
  split
  · next hsmall =>
    refine (roundsTo_zero (inUnits_nonneg d e) ?_).some_eq_iff overflow_pos
    rcases hsmall with rfl | hsmall
    · simp [inUnits]
    · exact two_mul_inUnits_lt_one hsmall
  · next hsmall =>
    push Not at hsmall
    split
    · next hlarge =>
      simp only [reduceCtorEq, false_iff, not_and, Nat.not_lt]
      exact RoundsTo.overflow_le (Nat.pos_of_ne_zero hsmall.1) hlarge
    · refine roundUnits_eq_some_iff (Nat.pow_pos (by omega)) ?_
      rw [Nat.pow_eq, Nat.pow_eq, Nat.pow_eq]
      simp only [Nat.cast_mul, Nat.cast_pow, Nat.cast_ofNat]
      exact inUnits_mul_pow_toNat d e

/-- How a decimal is read depends on its value only. -/
theorem ofDecimal_congr {d' : Nat} {e' : Int} (h : inUnits d e = inUnits d' e') :
    ofDecimal d e = ofDecimal d' e' := by
  refine Option.ext fun n => ?_
  rw [ofDecimal_eq_some_iff, ofDecimal_eq_some_iff, h]

/-- The comparison is made in whole numbers, and means the same. -/
theorem compareQuarters_eq (d : Nat) (e : Int) (q : Nat) :
    compareQuarters d e q = compare (4 * inUnits d e) q := by
  have hpos : (0 : ℚ) < 10 ^ (-e).toNat := by positivity
  have hleft : ((d * Nat.pow 10 e.toNat * Nat.pow 2 (unitExponent + 2) : Nat) : ℚ) =
      4 * inUnits d e * 10 ^ (-e).toNat := by
    rw [mul_assoc (4 : ℚ), inUnits_mul_pow_toNat, Nat.pow_eq, Nat.pow_eq, Nat.pow_add]
    simp only [Nat.cast_mul, Nat.cast_pow, Nat.cast_ofNat]
    ring
  have hright : ((q * Nat.pow 10 (-e).toNat : Nat) : ℚ) = q * 10 ^ (-e).toNat := by
    rw [Nat.pow_eq, Nat.cast_mul, Nat.cast_pow, Nat.cast_ofNat]
  unfold compareQuarters
  generalize d * Nat.pow 10 e.toNat * Nat.pow 2 (unitExponent + 2) = a at hleft ⊢
  generalize q * Nat.pow 10 (-e).toNat = b at hright ⊢
  -- both sides are multiplied by the same power of ten
  rcases lt_trichotomy a b with h | rfl | h
  · have h' : (a : ℚ) < b := by exact_mod_cast h
    rw [hleft, hright] at h'
    rw [compare_lt_iff_lt.mpr h, compare_lt_iff_lt.mpr (lt_of_mul_lt_mul_right h' hpos.le)]
  · rw [hleft] at hright
    rw [compare_eq_iff_eq.mpr rfl, compare_eq_iff_eq.mpr (mul_right_cancel₀ hpos.ne' hright)]
  · have h' : (b : ℚ) < a := by exact_mod_cast h
    rw [hleft, hright] at h'
    rw [compare_gt_iff_gt.mpr h, compare_gt_iff_gt.mpr (lt_of_mul_lt_mul_right h' hpos.le)]

/-- What is tested for when digits are searched for. -/
theorem readsBack_iff (hn : Representable n) (hpos : 0 < n) :
    readsBack n d e = true ↔ RoundsTo (inUnits d e) n := by
  have hbelow : 2 * gapBelow n ≤ 4 * n := by
    have := (gapBelow_le n).trans (gapAbove_le_self hpos)
    omega
  have hlow : ((4 * n - 2 * gapBelow n : Nat) : ℚ) = 2 * (2 * n - gapBelow n) := by
    rw [Nat.cast_sub hbelow]
    push_cast
    ring
  have hhigh : ((4 * n + 2 * gapAbove n : Nat) : ℚ) = 2 * (2 * n + gapAbove n) := by
    push_cast
    ring
  unfold readsBack
  dsimp only
  rw [compareQuarters_eq, compareQuarters_eq, hlow, hhigh]
  simp only [Bool.and_eq_true, Bool.or_eq_true, beq_iff_eq, compare_gt_iff_gt, compare_eq_iff_eq,
    compare_lt_iff_lt, ← Nat.even_iff]
  -- a border belongs to the number exactly if the significand is even, in the test as in the
  -- relation
  constructor
  · rintro ⟨hl, hh⟩
    refine ⟨hn, ?_, ?_, ?_⟩
    · rcases hl with hl | ⟨-, hl⟩ <;> linarith
    · rcases hh with hh | ⟨-, hh⟩ <;> linarith
    · rintro (htie | htie)
      · exact (hl.resolve_left (by linarith)).1
      · exact (hh.resolve_left (by linarith)).1
  · intro h
    have hl := h.low
    have hh := h.high
    constructor
    · rcases hl.lt_or_eq with hl | hl
      · exact .inl (by linarith)
      · exact .inr ⟨h.tie (.inl hl), by linarith⟩
    · rcases hh.lt_or_eq with hh | hh
      · exact .inl (by linarith)
      · exact .inr ⟨h.tie (.inr hh), by linarith⟩

end Read

end CellQuery.Decimal
