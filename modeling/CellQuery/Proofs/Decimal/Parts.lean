import CellQuery.Decimal.Parts
import CellQuery.Proofs.Decimal.Rounding

/-!
# Exact parts

Reading a decimal from its parts rounds the significand, the power of ten and their product or
quotient. A significand of at most 53 binary digits and a power up to `10 ^ 22` are numbers of the
format (`ofNat?_eq`, `powerOfTen?_eq`), so that only the last rounding is left, and the number that
is read is the one nearest to the decimal (`ofParts?_eq_ofDecimal`).
-/

namespace CellQuery.Decimal

variable {m n j k : Nat} {e : Int}

/-! ### Numbers that are not rounded -/

/-- A number of the format is rounded to itself. -/
theorem Representable.roundsTo (h : Representable n) : RoundsTo n n := by
  have hbelow : (0 : ℚ) < gapBelow n := by exact_mod_cast gapBelow_pos n
  have habove : (0 : ℚ) < gapAbove n := by exact_mod_cast gapAbove_pos n
  exact ⟨h, by linarith, by linarith, fun htie => by rcases htie with htie | htie <;> linarith⟩

/-- At most 53 binary digits, and one more if the others are zeros. -/
theorem representable_mul_two_pow (hm : m ≤ 2 ^ 53) (j : Nat) : Representable (m * 2 ^ j) := by
  unfold Representable
  have hle := mul_gapAbove_le (m * 2 ^ j)
  rw [gapAbove_eq_pow] at hle ⊢
  generalize (m * 2 ^ j).log2 + 1 - precision = i at hle ⊢
  rcases Nat.lt_or_ge j i with hij | hij
  · -- A gap longer than the unit of the last digit leaves room for a power of two only.
    obtain ⟨t, rfl⟩ := Nat.exists_eq_add_of_lt hij
    have hone : 2 ^ (j + t + 1) ≠ 1 := by
      rw [Ne, Nat.pow_eq_one]
      omega
    have hge : 2 ^ 53 * 2 ^ t ≤ m := by
      refine Nat.le_of_mul_le_mul_right ?_ (Nat.two_pow_pos j)
      calc 2 ^ 53 * 2 ^ t * 2 ^ j
          = 2 ^ 52 * 2 ^ (j + t + 1) := by ring
        _ ≤ m * 2 ^ j := hle.resolve_left hone
    have ht : t = 0 := by
      by_contra hne
      have htwo : 2 ^ 1 ≤ 2 ^ t := Nat.pow_le_pow_right (by omega) (by omega)
      omega
    subst ht
    obtain rfl : m = 2 ^ 53 := by omega
    rw [Nat.add_zero, ← Nat.pow_add]
    exact Nat.pow_dvd_pow 2 (by omega)
  · exact (Nat.pow_dvd_pow 2 hij).trans (Nat.dvd_mul_left _ m)

theorem roundUnits_eq_self {num den : Nat} (hden : 0 < den) (hn : Representable n)
    (hlt : n < overflow) (h : n * den = num) : roundUnits num den = some n := by
  refine (roundUnits_eq_some_iff (v := n) hden ?_).mpr ⟨hn.roundsTo, hlt⟩
  exact_mod_cast h

/-- Whole numbers of this size are far from too large. -/
theorem mul_unit_lt_overflow (hm : m < 2 ^ 128) : m * 2 ^ unitExponent < overflow := by
  unfold overflow
  generalize unitExponent = u
  calc m * 2 ^ u
      < 2 ^ 128 * 2 ^ u := Nat.mul_lt_mul_of_pos_right hm (Nat.two_pow_pos u)
    _ = 2 ^ (128 + u) := (Nat.pow_add 2 128 u).symm
    _ ≤ 2 ^ (1024 + u) := Nat.pow_le_pow_right (by omega) (by omega)

theorem nat_pow_two (k : Nat) : Nat.pow 2 k = 2 ^ k := rfl

theorem ofNat?_eq (hm : m ≤ 2 ^ 53) : ofNat? m = some (m * 2 ^ unitExponent) := by
  have hlt : m < 2 ^ 128 := Nat.lt_of_le_of_lt hm (Nat.pow_lt_pow_right (by omega) (by omega))
  rw [ofNat?, nat_pow_two]
  exact roundUnits_eq_self Nat.one_pos (representable_mul_two_pow hm _) (mul_unit_lt_overflow hlt)
    (Nat.mul_one _)

/-- The powers of five up to the 22nd have at most 53 binary digits. -/
theorem powerOfTen?_eq (hk : k ≤ 22) : powerOfTen? k = some (10 ^ k * 2 ^ unitExponent) := by
  have hfive : 5 ^ k ≤ 2 ^ 53 := (Nat.pow_le_pow_right (by omega) hk).trans (by decide)
  have hten : 10 ^ k < 2 ^ 128 := (Nat.pow_le_pow_right (by omega) hk).trans_lt (by decide)
  have hshift : 10 ^ k * 2 ^ unitExponent = 5 ^ k * 2 ^ (k + unitExponent) := by
    rw [Nat.pow_add, ← Nat.mul_assoc, ← Nat.mul_pow]
  have hvalue : inUnits 1 k = (10 ^ k * 2 ^ unitExponent : Nat) := by
    rw [inUnits, zpow_natCast]
    push_cast
    ring
  refine ofDecimal_eq_some_iff.mpr ⟨?_, mul_unit_lt_overflow hten⟩
  rw [hvalue, hshift]
  exact (representable_mul_two_pow hfive _).roundsTo

/-! ### Numbers of the format -/

theorem powerOfTen?_pos (h : powerOfTen? k = some n) : 0 < n := by
  refine Nat.pos_of_ne_zero ?_
  rintro rfl
  have hhigh := (ofDecimal_eq_some_iff.mp h).1.high
  have hone : (1 : ℚ) ≤ inUnits 1 k := by
    rw [inUnits, zpow_natCast, Nat.cast_one, one_mul]
    exact one_le_mul_of_one_le_of_one_le (one_le_pow₀ (by norm_num)) (one_le_pow₀ (by norm_num))
  rw [gapAbove_zero] at hhigh
  push_cast at hhigh
  linarith

theorem roundUnits_representable {num den : Nat} (hden : 0 < den)
    (h : roundUnits num den = some n) : Representable n ∧ n < overflow := by
  have hv : (num / den : ℚ) * den = num := div_mul_cancel₀ _ (by exact_mod_cast hden.ne')
  obtain ⟨hround, hlt⟩ := (roundUnits_eq_some_iff hden hv).mp h
  exact ⟨hround.representable, hlt⟩

theorem representable_zero : Representable 0 ∧ 0 < overflow :=
  ⟨Nat.dvd_zero _, overflow_pos⟩

theorem mul?_representable (h : mul? m k = some n) : Representable n ∧ n < overflow := by
  rw [mul?, nat_pow_two] at h
  exact roundUnits_representable (Nat.two_pow_pos _) h

theorem div_powerOfTen?_representable (h : (powerOfTen? k).bind (div? m) = some n) :
    Representable n ∧ n < overflow := by
  obtain ⟨b, hb, hn⟩ := Option.bind_eq_some_iff.mp h
  rw [div?] at hn
  exact roundUnits_representable (powerOfTen?_pos hb) hn

theorem divPower?_representable (h : divPower? m k = some n) : Representable n ∧ n < overflow := by
  fun_induction divPower? m k with
  | case1 m k => exact div_powerOfTen?_representable h
  | case2 =>
    obtain rfl := Option.some.inj h
    exact representable_zero
  | case3 m k _ _ ih =>
    obtain ⟨b, -, hn⟩ := Option.bind_eq_some_iff.mp h
    exact ih b hn

/-- Whatever is read is a number of the format. -/
theorem ofParts?_representable (h : ofParts? m e = some n) : Representable n ∧ n < overflow := by
  rw [ofParts?, Option.bind_eq_bind, Option.bind_eq_some_iff] at h
  -- whichever way the parts go, the last step rounds, or gives zero
  obtain ⟨a, -, hn⟩ := h
  split at hn
  · unfold mulPower? at hn
    split at hn
    · obtain ⟨b, -, hn⟩ := Option.bind_eq_some_iff.mp hn
      exact mul?_representable hn
    · split at hn
      · obtain rfl := Option.some.inj hn
        exact representable_zero
      · cases hn
  · exact divPower?_representable hn

/-! ### One rounding -/

/-- The product of exact parts is rounded once. -/
theorem mul?_eq_ofDecimal (m k : Nat) :
    mul? (m * 2 ^ unitExponent) (10 ^ k * 2 ^ unitExponent) = ofDecimal m k := by
  refine Option.ext fun n => ?_
  rw [ofDecimal_eq_some_iff, mul?, nat_pow_two]
  refine roundUnits_eq_some_iff (Nat.two_pow_pos _) ?_
  rw [inUnits, zpow_natCast]
  simp only [Nat.cast_mul, Nat.cast_pow, Nat.cast_ofNat]
  ring

/-- So is their quotient. -/
theorem div?_eq_ofDecimal (m k : Nat) :
    div? (m * 2 ^ unitExponent) (10 ^ k * 2 ^ unitExponent) = ofDecimal m (-k) := by
  refine Option.ext fun n => ?_
  rw [ofDecimal_eq_some_iff, div?, nat_pow_two]
  refine roundUnits_eq_some_iff (Nat.mul_pos (Nat.pow_pos (by omega)) (Nat.two_pow_pos _)) ?_
  have hpow : (10 : ℚ) ^ k ≠ 0 := pow_ne_zero _ (by norm_num)
  rw [inUnits, zpow_neg, zpow_natCast]
  simp only [Nat.cast_mul, Nat.cast_pow, Nat.cast_ofNat]
  field_simp

/-- **Short significands with small powers are read as the nearest number.** -/
theorem ofParts?_eq_ofDecimal (hm : m ≤ 2 ^ 53) (he : e.natAbs ≤ 22) :
    ofParts? m e = ofDecimal m e := by
  -- no power of this size is split up
  have hmax : e.natAbs ≤ maxPower := he.trans (by decide)
  rw [ofParts?, ofNat?_eq hm, Option.bind_eq_bind, Option.bind_some]
  split
  · next hnonneg =>
    obtain ⟨k, rfl⟩ := Int.eq_ofNat_of_zero_le hnonneg
    rw [Int.natAbs_natCast] at he hmax
    rw [Int.toNat_natCast, mulPower?, if_pos hmax, powerOfTen?_eq he, Option.bind_some,
      mul?_eq_ofDecimal]
  · next hneg =>
    obtain ⟨k, rfl⟩ : ∃ k : Nat, e = -k := ⟨e.natAbs, by omega⟩
    rw [Int.natAbs_neg, Int.natAbs_natCast] at he hmax
    rw [Int.neg_neg, Int.toNat_natCast, divPower?, if_pos hmax, powerOfTen?_eq he, Option.bind_some,
      div?_eq_ofDecimal]

end CellQuery.Decimal
