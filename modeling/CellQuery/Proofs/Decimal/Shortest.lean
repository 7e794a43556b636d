import CellQuery.Proofs.Decimal.Rounding
import Mathlib.Data.Rat.Floor

/-!
# The shortest digits

The digits that are written for a number are the fewest that are read as it, and of these the
nearest to it (`Scientific.Shortest`), and there are no others (`shortest_eq_iff`). The search looks
at the multiples of one power of ten after another (`nearestOn_spec`), and ends where 17 digits are
fine enough at the latest (`exists_roundsTo`). Up to 15 digits are always the shortest of what they
are read as (`Scientific.Shortest.of_fifteen`).
-/

namespace CellQuery.Decimal

variable {n d k : Nat} {e : Int}

theorem inUnits_eq_mul (d : Nat) (e : Int) :
    inUnits d e = d * (10 ^ e * 2 ^ unitExponent) :=
  mul_assoc _ _ _

/-- The length of a unit of the last place. -/
theorem unitOfPlace_pos (e : Int) : (0 : ℚ) < 10 ^ e * 2 ^ unitExponent :=
  mul_pos (zpow_pos (by norm_num) e) (pow_pos (by norm_num) _)

/-- Zeros at the end count as much as a higher place. -/
theorem inUnits_mul_pow (d t : Nat) (e : Int) : inUnits (d * 10 ^ t) e = inUnits d (e + t) := by
  rw [inUnits, inUnits, zpow_add₀ (by norm_num), zpow_natCast, Nat.cast_mul, Nat.cast_pow,
    Nat.cast_ofNat]
  ring

theorem inUnits_le_inUnits {m : Nat} (h : m ≤ d) (e : Int) : inUnits m e ≤ inUnits d e := by
  have h' : (m : ℚ) ≤ d := by exact_mod_cast h
  rw [inUnits_eq_mul, inUnits_eq_mul]
  exact mul_le_mul_of_nonneg_right h' (unitOfPlace_pos e).le

theorem inUnits_injective {m : Nat} (h : inUnits m e = inUnits d e) : m = d := by
  rw [inUnits_eq_mul, inUnits_eq_mul] at h
  have h' : (m : ℚ) = d := mul_right_cancel₀ (unitOfPlace_pos e).ne' h
  exact_mod_cast h'

/-- A name for a power of two keeps it from being multiplied out. -/
theorem exists_two_pow (k : Nat) : ∃ u, Nat.pow 2 k = u ∧ 0 < u ∧ (2 : ℚ) ^ k = u :=
  ⟨2 ^ k, rfl, Nat.two_pow_pos k, by rw [Nat.cast_pow, Nat.cast_ofNat]⟩

/-! ### The scale -/

/-- The scale is that of the first digit of the number. -/
theorem decimalScale_spec (hn : 0 < n) :
    (10 : ℚ) ^ (decimalScale n - 1) * 2 ^ unitExponent ≤ n ∧
      (n : ℚ) < 10 ^ decimalScale n * 2 ^ unitExponent := by
  obtain ⟨u, hu, hunit, hcast⟩ := exists_two_pow unitExponent
  unfold decimalScale
  dsimp only
  rw [hu, hcast]
  -- from one unit of the first place on, the whole part has the digits; below it, the reciprocal
  -- has
  split
  · next hone =>
    have hq : 0 < n / u := Nat.div_pos hone hunit
    have hlt := lt_pow_length_toDigits (n / u)
    have hle := pow_length_toDigits_le hq
    have hlen := Nat.length_toDigits_pos (b := 10) (n := n / u)
    generalize (Nat.toDigits 10 (n / u)).length = len at hlt hle hlen ⊢
    obtain ⟨l, rfl⟩ := Nat.exists_eq_succ_of_ne_zero hlen.ne'
    rw [Nat.succ_sub_one, Nat.le_div_iff_mul_le hunit] at hle
    rw [Nat.div_lt_iff_lt_mul hunit] at hlt
    have hscale : ((l.succ : Nat) : Int) - 1 = l := by omega
    rw [hscale, zpow_natCast, zpow_natCast]
    exact ⟨by exact_mod_cast hle, by exact_mod_cast hlt⟩
  · next hone =>
    have hq : 0 < (u - 1) / n := Nat.div_pos (by omega) hn
    have hlt := lt_pow_length_toDigits ((u - 1) / n)
    have hle := pow_length_toDigits_le hq
    have hlen := Nat.length_toDigits_pos (b := 10) (n := (u - 1) / n)
    generalize (Nat.toDigits 10 ((u - 1) / n)).length = len at hlt hle hlen ⊢
    obtain ⟨l, rfl⟩ := Nat.exists_eq_succ_of_ne_zero hlen.ne'
    rw [Nat.succ_sub_one, Nat.le_div_iff_mul_le hn] at hle
    rw [Nat.div_lt_iff_lt_mul hn] at hlt
    have hle' : u ≤ 10 ^ l.succ * n := by omega
    have hlt' : 10 ^ l * n < u := by omega
    have hscale : (1 : Int) - (l.succ : Nat) = -l := by omega
    have hscale' : (-l : Int) - 1 = -(l.succ : Nat) := by omega
    rw [hscale, hscale', zpow_neg, zpow_neg, zpow_natCast, zpow_natCast, inv_mul_le_iff₀ (by positivity),
      lt_inv_mul_iff₀ (by positivity)]
    exact ⟨by exact_mod_cast hle', by exact_mod_cast hlt'⟩

/-! ### One grid -/

section Grid

variable {x : ℚ} {m : Nat}

theorem roundDiv_eq_or (num den : Nat) :
    roundDiv num den = num / den ∨ roundDiv num den = num / den + 1 := by
  unfold roundDiv
  dsimp only
  split
  · exact .inr rfl
  · exact .inl rfl

/-- Of all whole numbers the nearest one to `x` is at most a half away. -/
theorem abs_sub_le_of_half (hlow : 2 * (d : ℚ) ≤ 2 * x + 1) (hhigh : 2 * x ≤ 2 * (d : ℚ) + 1)
    (htie : 2 * (d : ℚ) = 2 * x + 1 ∨ 2 * x = 2 * (d : ℚ) + 1 → Even d) (m : Nat) :
    |(d : ℚ) - x| ≤ |(m : ℚ) - x| ∧ (|(d : ℚ) - x| = |(m : ℚ) - x| → m = d ∨ Even d) := by
  have habs : |(d : ℚ) - x| ≤ 1 / 2 := by
    rw [abs_le]
    constructor <;> linarith
  -- the error is at most a half, and the next whole number is at least a half away
  rcases Nat.lt_trichotomy m d with h | rfl | h
  · have h' : (m : ℚ) + 1 ≤ d := by exact_mod_cast h
    have hm : |(m : ℚ) - x| = x - m := by rw [abs_sub_comm, abs_of_nonneg (by linarith)]
    refine ⟨by rw [hm]; linarith, fun heq => .inr (htie (.inl ?_))⟩
    rw [hm] at heq
    linarith
  · exact ⟨le_rfl, fun _ => .inl rfl⟩
  · have h' : (d : ℚ) + 1 ≤ m := by exact_mod_cast h
    have hm : |(m : ℚ) - x| = m - x := abs_of_nonneg (by linarith)
    refine ⟨by rw [hm]; linarith, fun heq => .inr (htie (.inr ?_))⟩
    rw [hm] at heq
    linarith

theorem abs_sub_le_of_le (hdx : (d : ℚ) ≤ x) (hm : m ≤ d) :
    |(d : ℚ) - x| ≤ |(m : ℚ) - x| ∧ (|(d : ℚ) - x| = |(m : ℚ) - x| → m = d ∨ Even d) := by
  have hm' : (m : ℚ) ≤ d := by exact_mod_cast hm
  rw [abs_sub_comm, abs_of_nonneg (by linarith), abs_sub_comm, abs_of_nonneg (by linarith)]
  refine ⟨by linarith, fun heq => .inl ?_⟩
  have : (m : ℚ) = d := by linarith
  exact_mod_cast this

theorem abs_sub_le_of_ge (hxd : x ≤ (d : ℚ)) (hm : d ≤ m) :
    |(d : ℚ) - x| ≤ |(m : ℚ) - x| ∧ (|(d : ℚ) - x| = |(m : ℚ) - x| → m = d ∨ Even d) := by
  have hm' : (d : ℚ) ≤ m := by exact_mod_cast hm
  rw [abs_of_nonneg (by linarith), abs_of_nonneg (by linarith)]
  refine ⟨by linarith, fun heq => .inl ?_⟩
  have : (m : ℚ) = d := by linarith
  exact_mod_cast this

/-- `d · 10 ^ e` is nearest to `n` units, of all multiples of `10 ^ e` that are read as `n` units.
No other one is as near if `d` is odd. -/
structure Nearest (n : Nat) (e : Int) (d : Nat) : Prop where
  reads : RoundsTo (inUnits d e) n
  le : inUnits d e ≤ n + 10 ^ e * 2 ^ unitExponent
  nearest : ∀ m, RoundsTo (inUnits m e) n → |inUnits d e - n| ≤ |inUnits m e - n|
  tie : ∀ m, RoundsTo (inUnits m e) n → |inUnits d e - n| = |inUnits m e - n| → m = d ∨ Even d

section Steps

variable {g : ℚ} (hg : 10 ^ e * 2 ^ unitExponent = g) (hpos : 0 < g) (hx : x * g = n)

include hg hpos hx

theorem Nearest.of_steps (hreads : RoundsTo (inUnits d e) n) (hle : (d : ℚ) ≤ x + 1)
    (h : ∀ m, RoundsTo (inUnits m e) n → |(d : ℚ) - x| ≤ |(m : ℚ) - x| ∧
      (|(d : ℚ) - x| = |(m : ℚ) - x| → m = d ∨ Even d)) : Nearest n e d := by
  have hdist : ∀ m : Nat, |inUnits m e - n| = |(m : ℚ) - x| * g := by
    intro m
    rw [inUnits_eq_mul, hg, ← hx, ← sub_mul, abs_mul, abs_of_pos hpos]
  refine ⟨hreads, ?_, fun m hm => ?_, fun m hm htie => (h m hm).2 ?_⟩
  · rw [inUnits_eq_mul, hg, ← hx]
    nlinarith
  · rw [hdist, hdist]
    exact mul_le_mul_of_nonneg_right (h m hm).1 hpos.le
  · rw [hdist, hdist] at htie
    exact mul_right_cancel₀ hpos.ne' htie

/-- If any decimal of the grid is read as the number, then so is the one next to the number on the
same side. -/
theorem RoundsTo.next {f : Nat} (hf : (f : ℚ) ≤ x) (hf' : x < f + 1) (hm : RoundsTo (inUnits m e) n) :
    m ≤ f ∧ RoundsTo (inUnits f e) n ∨ f + 1 ≤ m ∧ RoundsTo (inUnits (f + 1) e) n := by
  -- what lies between a decimal that is read and the number is read, too
  rcases Nat.lt_or_ge f m with h | h
  · refine .inr ⟨h, hm.of_between (.inr ⟨?_, inUnits_le_inUnits h e⟩)⟩
    rw [inUnits_eq_mul, hg, ← hx]
    push_cast
    exact mul_le_mul_of_nonneg_right hf'.le hpos.le
  · refine .inl ⟨h, hm.of_between (.inl ⟨inUnits_le_inUnits h e, ?_⟩)⟩
    rw [inUnits_eq_mul, hg, ← hx]
    exact mul_le_mul_of_nonneg_right hf hpos.le

end Steps

theorem nearestOn_eq {num den : Nat} (hnum : n * Nat.pow 10 (-e).toNat = num)
    (hden : Nat.pow 2 unitExponent * Nat.pow 10 e.toNat = den) : nearestOn n e =
      match readsBack n (num / den) e, readsBack n (num / den + 1) e with
      | true, true => some (roundDiv num den)
      | true, false => some (num / den)
      | false, true => some (num / den + 1)
      | false, false => none := by
  -- Two functions are compared, since a comparison of their results would begin with computing them.
  have hfun : nearestOn = fun n e =>
      let num := n * Nat.pow 10 (-e).toNat
      let den := Nat.pow 2 unitExponent * Nat.pow 10 e.toNat
      match readsBack n (num / den) e, readsBack n (num / den + 1) e with
      | true, true => some (roundDiv num den)
      | true, false => some (num / den)
      | false, true => some (num / den + 1)
      | false, false => none := rfl
  subst hnum hden
  exact congrFun (congrFun hfun n) e

/-- The number in steps of the grid, as a fraction of whole numbers. -/
theorem steps_mul_den {g : ℚ} {num den : Nat} (hg : 10 ^ e * 2 ^ unitExponent = g) (hx : x * g = n)
    (hnum : n * Nat.pow 10 (-e).toNat = num)
    (hden : Nat.pow 2 unitExponent * Nat.pow 10 e.toNat = den) : 0 < den ∧ x * den = num := by
  obtain ⟨u, hu, hupos, hucast⟩ := exists_two_pow unitExponent
  rw [hu] at hden
  refine ⟨hden ▸ Nat.mul_pos hupos (Nat.pow_pos (by omega)), ?_⟩
  rw [← hden, ← hnum, Nat.pow_eq, Nat.pow_eq]
  simp only [Nat.cast_mul, Nat.cast_pow, Nat.cast_ofNat]
  rw [← zpow_mul_pow_toNat, ← hx, ← hg, hucast]
  ring

/-- What is found on a grid is the nearest one of all its decimals that are read as the number, and
something is found if there are any. -/
theorem nearestOn_spec (hn : Representable n) (hpos : 0 < n) (e : Int) :
    (nearestOn n e = none → ∀ m, ¬RoundsTo (inUnits m e) n) ∧
    ∀ d, nearestOn n e = some d → Nearest n e d := by
  obtain ⟨g, hg, hgpos⟩ : ∃ g : ℚ, 10 ^ e * 2 ^ unitExponent = g ∧ 0 < g :=
    ⟨_, rfl, unitOfPlace_pos e⟩
  obtain ⟨x, hx⟩ : ∃ x : ℚ, x * g = n := ⟨n / g, div_mul_cancel₀ _ hgpos.ne'⟩
  obtain ⟨den, hden⟩ : ∃ den, Nat.pow 2 unitExponent * Nat.pow 10 e.toNat = den := ⟨_, rfl⟩
  obtain ⟨num, hnum⟩ : ∃ num, n * Nat.pow 10 (-e).toNat = num := ⟨_, rfl⟩
  rw [nearestOn_eq hnum hden]
  obtain ⟨hdenpos, hxden⟩ := steps_mul_den hg hx hnum hden
  obtain ⟨hlow, hhigh, htie⟩ := roundDiv_nearest hdenpos hxden
  obtain ⟨hf, hf'⟩ := div_le_and_lt hdenpos hxden
  have hround := roundDiv_eq_or num den
  generalize roundDiv num den = r at hlow hhigh htie hround ⊢
  generalize num / den = f at hf hf' hround ⊢
  have hiff : ∀ d, readsBack n d e = true ↔ RoundsTo (inUnits d e) n := fun d =>
    readsBack_iff hn hpos
  have hright : readsBack n f e = false → ∀ m, RoundsTo (inUnits m e) n → f + 1 ≤ m := by
    intro h m hm
    refine ((hm.next hg hgpos hx hf hf').resolve_left fun hleft => ?_).1
    rw [(hiff f).mpr hleft.2] at h
    cases h
  have hleft : readsBack n (f + 1) e = false → ∀ m, RoundsTo (inUnits m e) n → m ≤ f := by
    intro h m hm
    refine ((hm.next hg hgpos hx hf hf').resolve_right fun hright => ?_).1
    rw [(hiff (f + 1)).mpr hright.2] at h
    cases h
  -- the two decimals around the number decide, and all others lie behind one of them
  cases hreads : readsBack n f e <;> cases hreads' : readsBack n (f + 1) e
  case false.false =>
    refine ⟨fun _ m hm => ?_, nofun⟩
    have hge := hright hreads m hm
    have hle := hleft hreads' m hm
    omega
  case false.true =>
    refine ⟨nofun, fun d hd => ?_⟩
    obtain rfl := Option.some.inj hd
    exact .of_steps hg hgpos hx ((hiff _).mp hreads') (by push_cast; linarith) fun m hm =>
      abs_sub_le_of_ge (by push_cast; exact hf'.le) (hright hreads m hm)
  case true.false =>
    refine ⟨nofun, fun d hd => ?_⟩
    obtain rfl := Option.some.inj hd
    exact .of_steps hg hgpos hx ((hiff _).mp hreads) (by linarith) fun m hm =>
      abs_sub_le_of_le hf (hleft hreads' m hm)
  case true.true =>
    refine ⟨nofun, fun d hd => ?_⟩
    obtain rfl := Option.some.inj hd
    refine .of_steps hg hgpos hx ?_ (by linarith) fun m _ => abs_sub_le_of_half hlow hhigh htie m
    rcases hround with rfl | rfl
    · exact (hiff _).mp hreads
    · exact (hiff _).mp hreads'

theorem RoundsTo.of_lt {v : ℚ} (hn : Representable n) (hlow : 2 * (n : ℚ) - gapBelow n < 2 * v)
    (hhigh : 2 * v < 2 * (n : ℚ) + gapAbove n) : RoundsTo v n :=
  ⟨hn, hlow.le, hhigh.le, fun h => by rcases h with h | h <;> linarith⟩

/-- A grid on which a number has seventeen digits is finer than the gaps. -/
theorem exists_roundsTo (hn : Representable n) (h : 10 ^ 16 * (10 ^ e * 2 ^ unitExponent) ≤ (n : ℚ)) :
    ∃ m, RoundsTo (inUnits m e) n := by
  obtain ⟨g, hg, hgpos⟩ : ∃ g : ℚ, 10 ^ e * 2 ^ unitExponent = g ∧ 0 < g :=
    ⟨_, rfl, unitOfPlace_pos e⟩
  rw [hg] at h
  have hfloor : (⌊(n : ℚ) / g⌋₊ : ℚ) * g ≤ n := by
    rw [← le_div_iff₀ hgpos]
    exact Nat.floor_le (by positivity)
  have hfloor' : (n : ℚ) < (⌊(n : ℚ) / g⌋₊ + 1) * g := by
    rw [← div_lt_iff₀ hgpos]
    exact Nat.lt_floor_add_one _
  generalize ⌊(n : ℚ) / g⌋₊ = f at hfloor hfloor'
  have hgap : (n : ℚ) < 2 ^ 53 * gapAbove n := by exact_mod_cast lt_mul_gapAbove n
  have hbelow : (0 : ℚ) < gapBelow n := by exact_mod_cast gapBelow_pos n
  have hlow : inUnits f e = f * g := by rw [inUnits_eq_mul, hg]
  have hhigh : inUnits (f + 1) e = (f + 1) * g := by
    rw [inUnits_eq_mul, hg]
    push_cast
    rfl
  -- with gaps of one length the nearer of the two decimals is within half a gap
  rcases gapBelow_eq n with ⟨hsame, -⟩ | ⟨hpow, -⟩
  · have hsame' : (gapBelow n : ℚ) = gapAbove n := by exact_mod_cast hsame
    rcases le_total (2 * (n : ℚ)) ((2 * f + 1) * g) with hhalf | hhalf
    · refine ⟨f, .of_lt hn ?_ ?_⟩ <;> rw [hlow] <;> linarith
    · refine ⟨f + 1, .of_lt hn ?_ ?_⟩ <;> rw [hhigh] <;> linarith
  · -- Here the gap below is too small, but the next decimal above is near enough.
    have hpow' : (n : ℚ) = 2 ^ 52 * gapAbove n := by exact_mod_cast hpow
    refine ⟨f + 1, .of_lt hn ?_ ?_⟩ <;> rw [hhigh] <;> linarith

/-- Decimals of at most `k` digits do not come nearer than the ones on the grid on which the number
has `k` digits. -/
theorem exists_on_grid {z : Int} (hz : 10 ^ (z - 1) * 2 ^ unitExponent ≤ (n : ℚ)) (hk : 0 < k)
    (hlen : (Nat.toDigits 10 d).length ≤ k) (h : RoundsTo (inUnits d e) n) :
    ∃ m, RoundsTo (inUnits m (z - k)) n ∧ |inUnits m (z - k) - n| ≤ |inUnits d e - n| ∧
      (|inUnits m (z - k) - n| = |inUnits d e - n| → inUnits m (z - k) = inUnits d e) := by
  rcases lt_or_ge e (z - k) with hfine | hcoarse
  · -- Finer decimals of so few digits stay below the power of ten where the digits of the number begin.
    have hm : inUnits (1 * 10 ^ (k - 1)) (z - k) = 10 ^ (z - 1) * 2 ^ unitExponent := by
      have hplace : z - k + ((k - 1 : Nat) : Int) = z - 1 := by omega
      rw [inUnits_mul_pow, hplace, inUnits, Nat.cast_one, one_mul]
    have hlt : inUnits d e < 10 ^ (z - 1) * 2 ^ unitExponent := by
      refine (inUnits_lt d e).trans_le (mul_le_mul_of_nonneg_right ?_ (pow_nonneg (by norm_num) _))
      exact zpow_le_zpow_right₀ (by norm_num) (by omega)
    rw [← hm] at hz hlt
    refine ⟨_, h.of_between (.inl ⟨hlt.le, hz⟩), ?_⟩
    rw [abs_sub_comm, abs_of_nonneg (by linarith), abs_sub_comm, abs_of_nonneg (by linarith)]
    exact ⟨by linarith, fun heq => by linarith⟩
  -- coarser decimals are on the grid themselves
  · have hm : inUnits (d * 10 ^ (e - (z - k)).toNat) (z - k) = inUnits d e := by
      rw [inUnits_mul_pow]
      congr 1
      omega
    refine ⟨d * 10 ^ (e - (z - k)).toNat, ?_, ?_, fun _ => hm⟩
    · rwa [hm]
    · rw [hm]

end Grid

/-! ### The search -/

theorem findSome?_range_eq_some {α : Type} {f : Nat → Option α} {a : α}
    (h : (List.range k).findSome? f = some a) :
    ∃ i < k, f i = some a ∧ ∀ j < i, f j = none := by
  obtain ⟨front, i, back, hsplit, hi, hnone⟩ := List.findSome?_eq_some_iff.mp h
  have hat : (List.range k)[front.length]? = some i := by
    rw [hsplit, List.getElem?_append_right (Nat.le_refl _), Nat.sub_self, List.getElem?_cons_zero]
  obtain ⟨hlt, hat⟩ := List.getElem?_eq_some_iff.mp hat
  rw [List.getElem_range] at hat
  rw [List.length_range] at hlt
  refine ⟨i, hat ▸ hlt, hi, fun j hj => hnone j ?_⟩
  have hj' : (List.range k)[j]? = some j := List.getElem?_range (by omega)
  rw [hsplit, List.getElem?_append_left (by omega)] at hj'
  exact List.mem_of_getElem? hj'

/-- The search ends at the first grid on which there is a decimal that is read as the number. -/
theorem exists_shortest (hn : Representable n) (hpos : 0 < n) :
    ∃ (k d : Nat), nearestOn n (decimalScale n - (k + 1 : Nat)) = some d ∧
      (∀ j < k, nearestOn n (decimalScale n - (j + 1 : Nat)) = none) ∧
      shortest n = .ofNat d (decimalScale n - (k + 1 : Nat)) := by
  unfold shortest
  dsimp only
  generalize hfound : (List.range 17).findSome? (fun k =>
    (nearestOn n (decimalScale n - (k + 1 : Nat))).map fun d =>
      Scientific.ofNat d (decimalScale n - (k + 1 : Nat))) = found
  -- the last of the seventeen grids always has something
  cases found with
  | none =>
    obtain ⟨m, hm⟩ : ∃ m, RoundsTo (inUnits m (decimalScale n - (16 + 1 : Nat))) n := by
      have hspec := (decimalScale_spec hpos).1
      have hplace : decimalScale n - 1 = (16 : Nat) + (decimalScale n - (16 + 1 : Nat)) := by omega
      rw [hplace, zpow_add₀ (by norm_num), zpow_natCast, mul_assoc] at hspec
      exact exists_roundsTo hn hspec
    have hlast := List.findSome?_eq_none_iff.mp hfound 16 (by decide)
    exact ((nearestOn_spec hn hpos _).1 (Option.map_eq_none_iff.mp hlast) m hm).elim
  | some s =>
    obtain ⟨k, -, hk, hnone⟩ := findSome?_range_eq_some hfound
    obtain ⟨d, hd, rfl⟩ := Option.map_eq_some_iff.mp hk
    exact ⟨k, d, hd, fun j hj => Option.map_eq_none_iff.mp (hnone j hj), rfl⟩

/-! ### Half way between nine and ten -/

/-- Only small numbers lie half way between nine and ten steps of a grid as wide as their gaps, and
they would be divisible by nineteen. -/
theorem two_mul_ne_nineteen (hpos : 0 < n) (hreads : RoundsTo (inUnits 9 e) n) :
    2 * (n : ℚ) ≠ inUnits 19 e := by
  -- a number half way is nineteen halves of a power of ten, in whole numbers of units
  intro hhalf
  have hnat : 2 * n * 10 ^ (-e).toNat = 19 * 10 ^ e.toNat * 2 ^ unitExponent := by
    have hcast := inUnits_mul_pow_toNat 19 e
    rw [← hhalf] at hcast
    exact_mod_cast hcast
  have hdvd : 19 ∣ n := by
    have hcop : Nat.Coprime 19 (10 ^ (-e).toNat) := Nat.Coprime.pow_right _ (by decide)
    rw [Nat.mul_assoc 19] at hnat
    exact (by decide : Nat.Coprime 19 2).dvd_of_dvd_mul_left
      (hcop.dvd_of_dvd_mul_right ⟨_, hnat⟩)
  have hlarge : 19 ≤ n := Nat.le_of_dvd hpos hdvd
  have hbelow : (gapBelow n : ℚ) ≤ gapAbove n := by exact_mod_cast gapBelow_le n
  have hlow := hreads.low
  rw [inUnits_eq_mul] at hhalf hlow
  generalize (10 ^ e * 2 ^ unitExponent : ℚ) = g at hhalf hlow
  push_cast at hhalf hlow
  have hlarge' : (19 : ℚ) ≤ n := by exact_mod_cast hlarge
  rcases mul_gapAbove_le n with hone | hle
  · rw [hone, Nat.cast_one] at hbelow
    linarith
  · have hle' : (2 ^ 52 * gapAbove n : ℚ) ≤ n := by exact_mod_cast hle
    linarith

/-- Ten steps of the grid are never found in place of something that is as near. -/
theorem Nearest.eq_of_ten {m : Nat} (h : Nearest n e d) (hd : d = 10) (hpos : 0 < n)
    (hlt : (n : ℚ) < 10 * (10 ^ e * 2 ^ unitExponent)) (hm : RoundsTo (inUnits m e) n)
    (htie : |inUnits d e - n| = |inUnits m e - n|) : m = d := by
  subst hd
  by_contra hne
  obtain ⟨g, hg, hgpos⟩ : ∃ g : ℚ, 10 ^ e * 2 ^ unitExponent = g ∧ 0 < g :=
    ⟨_, rfl, unitOfPlace_pos e⟩
  have hunits : ∀ a : Nat, inUnits a e = a * g := fun a => by rw [inUnits_eq_mul, hg]
  have hreads := h.reads
  have hhalf : RoundsTo (inUnits 9 e) n → 2 * (n : ℚ) ≠ inUnits 19 e := two_mul_ne_nineteen hpos
  have hnine := h.nearest 9
  simp only [hunits, hg, Nat.cast_ofNat] at hreads hhalf hnine hm htie hlt
  rw [abs_of_nonneg (by linarith : 0 ≤ 10 * g - n)] at hnine
  -- the other decimal is below the number, since only one of them is above it and as near
  have hm_le : m ≤ 9 := by
    rcases abs_eq_abs.mp htie with heq | heq
    · have : (m : ℚ) * g = 10 * g := by linarith
      have : (m : ℚ) = 10 := mul_right_cancel₀ hgpos.ne' this
      exact (hne (by exact_mod_cast this)).elim
    · have : (m : ℚ) * g < 10 * g := by linarith
      have : (m : ℚ) < 10 := lt_of_mul_lt_mul_right this hgpos.le
      have : m < 10 := by exact_mod_cast this
      omega
  have hm_le' : (m : ℚ) * g ≤ 9 * g :=
    mul_le_mul_of_nonneg_right (by exact_mod_cast hm_le) hgpos.le
  -- nine steps lie between: if they are above the number they are nearer, and if below, the number
  -- is in the middle between nine and ten
  rcases le_total (n : ℚ) (9 * g) with hle | hle
  · have hbetter := hnine (hreads.of_between (.inr ⟨hle, by linarith⟩))
    rw [abs_of_nonneg (by linarith)] at hbetter
    linarith
  · have hnine_reads := hm.of_between (.inl ⟨hm_le', hle⟩)
    have hbetter := hnine hnine_reads
    rw [abs_of_nonpos (by linarith)] at hbetter
    refine hhalf hnine_reads ?_
    rcases abs_eq_abs.mp htie with heq | heq <;> linarith

/-! ### Shortest decimals -/

/-- `s` is read as `n` units, no decimal with fewer digits is, and none with as many is nearer to
`n` units. If another one is as near, the significand of `s` is even. -/
structure Scientific.Shortest (s : Scientific) (n : Nat) : Prop where
  reads : ofDecimal s.significand s.place = some n
  fewest : ∀ d e, ofDecimal d e = some n → s.digits.length ≤ (Nat.toDigits 10 d).length
  nearest : ∀ d e, ofDecimal d e = some n → (Nat.toDigits 10 d).length = s.digits.length →
    |inUnits s.significand s.place - n| ≤ |inUnits d e - n|
  tie : ∀ d e, ofDecimal d e = some n → (Nat.toDigits 10 d).length = s.digits.length →
    |inUnits s.significand s.place - n| = |inUnits d e - n| →
      inUnits d e = inUnits s.significand s.place ∨ Even s.significand

/-- No grid before the one where the search ends has a decimal that is read as the number, so it has
at least as many digits as it has on that grid. -/
theorem le_length_toDigits (hn : Representable n) (hpos : 0 < n)
    (hnone : ∀ j < k, nearestOn n (decimalScale n - (j + 1 : Nat)) = none)
    (h : RoundsTo (inUnits d e) n) : k + 1 ≤ (Nat.toDigits 10 d).length := by
  have hlen := Nat.length_toDigits_pos (b := 10) (n := d)
  refine Nat.le_of_not_lt fun hlt => ?_
  obtain ⟨m, hm, -⟩ := exists_on_grid (decimalScale_spec hpos).1 hlen (Nat.le_refl _) h
  have hnone := hnone ((Nat.toDigits 10 d).length - 1) (by omega)
  rw [Nat.sub_add_cancel hlen] at hnone
  exact (nearestOn_spec hn hpos _).1 hnone m hm

theorem RoundsTo.pos_of_pos (hpos : 0 < n) (h : RoundsTo (inUnits d e) n) : 0 < d := by
  refine Nat.pos_of_ne_zero fun hzero => ?_
  have hbelow := (gapBelow_le n).trans (gapAbove_le_self hpos)
  have hbelow' : (gapBelow n : ℚ) ≤ n := by exact_mod_cast hbelow
  have hpos' : (0 : ℚ) < n := by exact_mod_cast hpos
  have hlow := h.low
  rw [inUnits_eq_mul, hzero, Nat.cast_zero, zero_mul] at hlow
  linarith

/-- What is found on the grid on which a number has `k` digits is at most the next power of ten. -/
theorem Nearest.le_pow {z : Int} (h : Nearest n (z - k) d)
    (hz : (n : ℚ) < 10 ^ z * 2 ^ unitExponent) : d ≤ 10 ^ k := by
  have hg := unitOfPlace_pos (z - k)
  have hle := h.le
  have hz' : (10 : ℚ) ^ z = 10 ^ k * 10 ^ (z - k) := by
    rw [← zpow_natCast, ← zpow_add₀ (by norm_num), add_sub_cancel]
  rw [hz', mul_assoc] at hz
  rw [inUnits_eq_mul] at hle
  have hlt : (d : ℚ) < 10 ^ k + 1 := by
    refine lt_of_mul_lt_mul_right ?_ hg.le
    linarith
  have hlt' : d < 10 ^ k + 1 := by exact_mod_cast hlt
  omega

/-- A significand of as many digits as a power of ten can have below it is not followed by zeros
there, unless it is one and the power is ten. -/
theorem Scientific.Normal.eq_zero_or_ten {s : Scientific} {t : Nat} (h : s.Normal)
    (hlen : s.digits.length = k + 1) (hle : s.significand * 10 ^ t ≤ 10 ^ (k + 1)) :
    t = 0 ∨ k = 0 ∧ s.significand * 10 ^ t = 10 := by
  cases t with
  | zero => exact .inl rfl
  | succ t =>
    have hge := pow_length_toDigits_le h.pos
    rw [h.digits, hlen, Nat.add_sub_cancel] at hge
    rw [Nat.pow_succ, Nat.pow_succ, ← Nat.mul_assoc] at hle
    have hle : s.significand * 10 ^ t ≤ 10 ^ k := Nat.le_of_mul_le_mul_right hle (by omega)
    have hself := Nat.le_mul_of_pos_right s.significand (Nat.pow_pos (n := t) (by omega : 0 < 10))
    have hsig : s.significand = 10 ^ k := by omega
    cases k with
    | zero =>
      rw [Nat.pow_succ, ← Nat.mul_assoc]
      omega
    | succ k => exact (h.not_dvd (hsig ▸ Dvd.intro_left _ rfl)).elim

/-- What is found on the first grid that has anything has one digit for each power of ten that the
search went down. The digits are the steps on the grid, unless a nine was rounded up to ten. -/
theorem Nearest.ofNat_spec {s : Scientific} (hn : Representable n) (hpos : 0 < n)
    (hnone : ∀ j < k, nearestOn n (decimalScale n - (j + 1 : Nat)) = none)
    (hnear : Nearest n (decimalScale n - (k + 1 : Nat)) d)
    (hs : s = .ofNat d (decimalScale n - (k + 1 : Nat))) :
    s.Normal ∧ inUnits s.significand s.place = inUnits d (decimalScale n - (k + 1 : Nat)) ∧
      s.digits.length = k + 1 ∧ (d = s.significand ∨ k = 0 ∧ d = 10) := by
  obtain ⟨hnormal, t, hdt, hplace⟩ := Scientific.exists_ofNat (hnear.reads.pos_of_pos hpos)
    (decimalScale n - (k + 1 : Nat))
  rw [← hs] at hnormal hdt hplace
  have hle := hnear.le_pow (decimalScale_spec hpos).2
  have hvalue : inUnits s.significand s.place = inUnits d (decimalScale n - (k + 1 : Nat)) := by
    rw [hplace, ← inUnits_mul_pow, ← hdt]
  have hsig_ge : k + 1 ≤ s.digits.length := by
    rw [← hnormal.digits]
    exact le_length_toDigits hn hpos hnone (hvalue ▸ hnear.reads)
  have hsig_lt : s.significand < 10 ^ (k + 1) := by
    refine Nat.lt_of_le_of_ne ?_ fun heq => hnormal.not_dvd (heq ▸ Dvd.intro_left _ rfl)
    exact (Nat.le_mul_of_pos_right _ (Nat.pow_pos (by omega))).trans (hdt ▸ hle)
  have hlen : s.digits.length = k + 1 := by
    rw [← hnormal.digits] at hsig_ge ⊢
    exact Nat.le_antisymm ((Nat.length_toDigits_le_iff (by omega) (by omega)).mpr hsig_lt) hsig_ge
  refine ⟨hnormal, hvalue, hlen, ?_⟩
  refine (hnormal.eq_zero_or_ten hlen (hdt ▸ hle)).imp (fun ht => ?_) fun ⟨hk, hd⟩ => ⟨hk, ?_⟩
  · rw [hdt, ht, Nat.pow_zero, Nat.mul_one]
  · rw [hdt, hd]

/-- The search finds the shortest digits. -/
theorem shortest_spec (hn : Representable n) (hpos : 0 < n) (hoverflow : n < overflow) :
    (shortest n).Normal ∧ (shortest n).Shortest n := by
  have hreads_iff : ∀ {d e}, ofDecimal d e = some n ↔ RoundsTo (inUnits d e) n := by
    intro d e
    rw [ofDecimal_eq_some_iff]
    exact and_iff_left hoverflow
  obtain ⟨k, d, hd, hnone, hs⟩ := exists_shortest hn hpos
  obtain ⟨hscale, hscale'⟩ := decimalScale_spec hpos
  have hnear := (nearestOn_spec hn hpos _).2 d hd
  obtain ⟨hnormal, hvalue, hlen, hten⟩ := hnear.ofNat_spec hn hpos hnone hs
  generalize shortest n = s at hnormal hvalue hlen hten
  have hgrid := fun d' e' => exists_on_grid (d := d') (e := e') hscale (Nat.succ_pos k)
  refine ⟨hnormal, hreads_iff.mpr (hvalue ▸ hnear.reads), fun d' e' h => ?_, fun d' e' h hlen' => ?_,
    fun d' e' h hlen' heq => ?_⟩
  -- fewer digits would have been found on an earlier grid
  · rw [hlen]
    exact le_length_toDigits hn hpos hnone (hreads_iff.mp h)
  -- as many digits are on this grid, or no nearer than something on it
  · obtain ⟨m, hm, hnearer, -⟩ := hgrid d' e' (hlen' ▸ hlen.le) (hreads_iff.mp h)
    rw [hvalue]
    exact (hnear.nearest m hm).trans hnearer
  -- an odd significand that is as near as another one is ten, which has been excluded
  · obtain ⟨m, hm, hnearer, hvalue'⟩ := hgrid d' e' (hlen' ▸ hlen.le) (hreads_iff.mp h)
    rw [hvalue] at heq ⊢
    have hsame := le_antisymm (hnear.nearest m hm) (heq ▸ hnearer)
    rw [← hvalue' (hsame ▸ heq)]
    rcases hten with hsig | ⟨rfl, hten⟩
    · rcases hnear.tie m hm hsame with rfl | heven
      · exact .inl rfl
      · exact .inr (hsig ▸ heven)
    · have hlt : (n : ℚ) < 10 * (10 ^ (decimalScale n - (0 + 1 : Nat)) * 2 ^ unitExponent) := by
        have hplace : decimalScale n = 1 + (decimalScale n - (0 + 1 : Nat)) := by omega
        rw [hplace, zpow_one_add₀ (by norm_num), mul_assoc] at hscale'
        exact hscale'
      exact .inl (hnear.eq_of_ten hten hpos hlt hm hsame ▸ rfl)

/-! ### No others -/

namespace Scientific

variable {s s' : Scientific}

theorem Normal.eq_of_inUnits_eq (h : s.Normal) (h' : s'.Normal)
    (heq : inUnits s.significand s.place = inUnits s'.significand s'.place) : s = s' := by
  have hplace : ∀ {s s' : Scientific}, s.Normal →
      inUnits s.significand s.place = inUnits s'.significand s'.place → s'.place ≤ s.place := by
    intro s s' h heq
    -- a lower place would have zeros at the end of the significand
    refine le_of_not_gt fun hlt => h.not_dvd ?_
    have ht : s'.place = s.place + (s'.place - s.place).toNat := by omega
    rw [ht, ← inUnits_mul_pow] at heq
    rw [inUnits_injective heq]
    exact Dvd.dvd.mul_left (dvd_pow_self 10 (by omega)) _
  have hsame : s.place = s'.place := le_antisymm (hplace h' heq.symm) (hplace h heq)
  rw [hsame] at heq
  exact h.ext h' (inUnits_injective heq) hsame

/-- Whatever lies between is read as the number. -/
theorem Shortest.reads_of_between (h : s.Shortest n) (h' : s'.Shortest n)
    (hle : inUnits s.significand s.place ≤ inUnits d e)
    (hle' : inUnits d e ≤ inUnits s'.significand s'.place) : ofDecimal d e = some n := by
  obtain ⟨hreads, hoverflow⟩ := ofDecimal_eq_some_iff.mp h.reads
  obtain ⟨hreads', -⟩ := ofDecimal_eq_some_iff.mp h'.reads
  refine ofDecimal_eq_some_iff.mpr ⟨?_, hoverflow⟩
  rcases le_total (inUnits d e) n with hn | hn
  · exact hreads.of_between (.inl ⟨hle, hn⟩)
  · exact hreads'.of_between (.inr ⟨hn, hle'⟩)

theorem pow_mul_unit_le {a b : Int} (h : a ≤ b) :
    (10 : ℚ) ^ a * 2 ^ unitExponent ≤ 10 ^ b * 2 ^ unitExponent :=
  mul_le_mul_of_nonneg_right (zpow_le_zpow_right₀ (by norm_num) h) (pow_nonneg (by norm_num) _)

section Two

variable (hs : s.Normal) (hs' : s'.Normal) (h : s.Shortest n) (h' : s'.Shortest n)

include hs hs' h h'

theorem Shortest.length_eq : s.digits.length = s'.digits.length := by
  have hle := h.fewest _ _ h'.reads
  have hge := h'.fewest _ _ h.reads
  rw [hs.digits] at hge
  rw [hs'.digits] at hle
  omega

theorem Shortest.abs_eq : |inUnits s.significand s.place - n| = |inUnits s'.significand s'.place - n| := by
  have hlen := h.length_eq hs hs' h'
  refine le_antisymm (h.nearest _ _ h'.reads ?_) (h'.nearest _ _ h.reads ?_)
  · rw [hs'.digits, hlen]
  · rw [hs.digits, hlen]

theorem Shortest.even (hne : s ≠ s') : Even s.significand := by
  refine (h.tie _ _ h'.reads ?_ (h.abs_eq hs hs' h')).resolve_left fun heq => ?_
  · rw [hs'.digits, h.length_eq hs hs' h']
  · exact hne (hs'.eq_of_inUnits_eq hs heq).symm

section Order

variable (hlt : inUnits s.significand s.place < inUnits s'.significand s'.place)

include hlt

/-- The number is in the middle. -/
theorem Shortest.add_eq :
    inUnits s.significand s.place + inUnits s'.significand s'.place = 2 * n := by
  rcases abs_eq_abs.mp (h.abs_eq hs hs' h') with heq | heq <;> linarith

/-- On one grid the middle itself is a decimal. -/
theorem Shortest.place_ne : s.place ≠ s'.place := by
  intro hplace
  have hmid := h.add_eq hs hs' h' hlt
  have hne : s ≠ s' := by
    rintro rfl
    exact lt_irrefl _ hlt
  -- both significands are even, so half their sum is a whole number
  obtain ⟨a, ha⟩ := h.even hs hs' h' hne
  obtain ⟨b, hb⟩ := h'.even hs' hs h hne.symm
  have hn : inUnits (a + b) s'.place = n := by
    rw [hplace, inUnits_eq_mul, inUnits_eq_mul, ha, hb] at hmid
    rw [inUnits_eq_mul]
    push_cast at hmid ⊢
    linarith
  have hreads := h.reads_of_between h' (d := a + b) (e := s'.place) (by linarith) (by linarith)
  have hsum : a + b ≤ s'.significand := by
    refine Nat.le_of_not_lt fun hgt => ?_
    have := inUnits_le_inUnits hgt.le s'.place
    linarith
  have hlen : (Nat.toDigits 10 (a + b)).length = s.digits.length := by
    refine Nat.le_antisymm ?_ (h.fewest _ _ hreads)
    have hpow := lt_pow_length_toDigits s'.significand
    have hpos := Nat.length_toDigits_pos (b := 10) (n := s'.significand)
    rw [hs'.digits, ← h.length_eq hs hs' h'] at hpow hpos
    exact (Nat.length_toDigits_le_iff (by omega) hpos).mpr (Nat.lt_of_le_of_lt hsum hpow)
  have hnearest := h.nearest _ _ hreads hlen
  rw [hn, sub_self, abs_zero, abs_le] at hnearest
  linarith

/-- If the greater one begins at a higher place, it begins at a power of ten, and ends there. -/
theorem Shortest.significand_eq_one (hplace : s.place < s'.place) : s'.significand = 1 := by
  have hlen := h.length_eq hs hs' h'
  have hmid := h.add_eq hs hs' h' hlt
  have hpos := Nat.length_toDigits_pos (b := 10) (n := s'.significand)
  have hbelow := inUnits_lt s.significand s.place
  have habove := le_inUnits hs'.pos s'.place
  rw [hs.digits, hlen] at hbelow
  rw [hs'.digits] at habove hpos
  -- the power of ten at which the greater one begins lies between the two, and has one digit
  have hone : inUnits 1 (s'.digits.length + s'.place - 1) =
      10 ^ (s'.digits.length + s'.place - 1) * 2 ^ unitExponent := by
    rw [inUnits, Nat.cast_one, one_mul]
  have hstep := pow_mul_unit_le (a := s'.digits.length + s.place)
    (b := s'.digits.length + s'.place - 1) (by omega)
  have hless := hbelow.trans_le hstep
  rw [← hone] at habove hless
  have hreads := h.reads_of_between h' hless.le habove
  have hfewest : s'.digits.length = 1 := Nat.le_antisymm (h'.fewest _ _ hreads) hpos
  have hnearest := h'.nearest _ _ hreads hfewest.symm
  rw [abs_of_nonneg (by linarith)] at hnearest
  rw [hfewest, Nat.cast_one, add_sub_cancel_left] at habove hless hnearest
  refine (inUnits_injective (e := s'.place) (le_antisymm habove ?_)).symm
  rcases le_total (n : ℚ) (inUnits 1 s'.place) with hn | hn
  · rw [abs_of_nonneg (by linarith)] at hnearest
    linarith
  · rw [abs_of_nonpos (by linarith)] at hnearest
    linarith

theorem Shortest.place_le : s.place ≤ s'.place := by
  refine le_of_not_gt fun hplace => ?_
  have hbelow := inUnits_lt s'.significand s'.place
  have habove := le_inUnits hs.pos s.place
  rw [hs'.digits, ← h.length_eq hs hs' h'] at hbelow
  rw [hs.digits] at habove
  have hstep := pow_mul_unit_le (a := s.digits.length + s'.place)
    (b := s.digits.length + s.place - 1) (by omega)
  linarith

end Order

theorem Shortest.not_lt : ¬inUnits s.significand s.place < inUnits s'.significand s'.place := by
  intro hlt
  have hplace := lt_of_le_of_ne (h.place_le hs hs' h' hlt) (h.place_ne hs hs' h' hlt)
  have heven := h'.even hs' hs h (by rintro rfl; exact lt_irrefl _ hlt)
  rw [h.significand_eq_one hs hs' h' hlt hplace] at heven
  exact absurd heven (by decide)

theorem Shortest.unique : s = s' :=
  hs.eq_of_inUnits_eq hs'
    (le_antisymm (le_of_not_gt (h'.not_lt hs' hs h)) (le_of_not_gt (h.not_lt hs hs' h')))

end Two

end Scientific

theorem shortest_eq_iff {s : Scientific} (hs : s.Normal) (hn : Representable n) (hpos : 0 < n)
    (hoverflow : n < overflow) : shortest n = s ↔ s.Shortest n := by
  obtain ⟨hnormal, hshortest⟩ := shortest_spec hn hpos hoverflow
  constructor
  · rintro rfl
    exact hshortest
  · exact fun h => hshortest.unique hnormal hs h

/-! ### Fifteen digits -/

section Fifteen

variable {d' : Nat} {e' : Int} {v : ℚ}

theorem exists_common_unit (d d' : Nat) (e e' : Int) : ∃ (a b : Nat) (u : ℚ),
    0 < u ∧ inUnits d e = a * u ∧ inUnits d' e' = b * u ∧ (a = d ∨ b = d') := by
  rcases le_total e e' with h | h
  · obtain ⟨t, rfl⟩ : ∃ t : Nat, e' = e + t := ⟨(e' - e).toNat, by omega⟩
    rw [← inUnits_mul_pow]
    exact ⟨d, _, _, unitOfPlace_pos e, inUnits_eq_mul _ _, inUnits_eq_mul _ _, .inl rfl⟩
  · obtain ⟨t, rfl⟩ : ∃ t : Nat, e = e' + t := ⟨(e - e').toNat, by omega⟩
    rw [← inUnits_mul_pow]
    exact ⟨_, d', _, unitOfPlace_pos e', inUnits_eq_mul _ _, inUnits_eq_mul _ _, .inr rfl⟩

/-- Two decimals of at most 15 digits are farther apart than two neighbours of the format, except at
its bottom. -/
theorem RoundsTo.not_lt_of_fifteen (hn : 2 ^ 52 ≤ n) (hd : d < 10 ^ 15) (hd' : d' < 10 ^ 15)
    (h : RoundsTo (inUnits d e) n) (h' : RoundsTo (inUnits d' e') n) :
    ¬inUnits d e < inUnits d' e' := by
  intro hlt
  -- one of the two significands counts the common unit, and has 15 digits
  obtain ⟨a, b, u, hu, ha, hb, hab⟩ := exists_common_unit d d' e e'
  have hlow := h.low
  have hhigh := h'.high
  rw [ha] at hlt hlow
  rw [hb] at hlt hhigh
  have hstep : a + 1 ≤ b := by exact_mod_cast lt_of_mul_lt_mul_right hlt hu.le
  have hstep' : ((a : ℚ) + 1) * u ≤ b * u :=
    mul_le_mul_of_nonneg_right (by exact_mod_cast hstep) hu.le
  have hdigits : a + 1 ≤ 10 ^ 15 := by omega
  have hdigits' : ((a : ℚ) + 1) * u ≤ 10 ^ 15 * u :=
    mul_le_mul_of_nonneg_right (by exact_mod_cast hdigits) hu.le
  have hgap : 2 ^ 52 * gapAbove n ≤ n := by
    rcases mul_gapAbove_le n with hone | hle
    · omega
    · exact hle
  have hgap' : (2 : ℚ) ^ 52 * gapAbove n ≤ n := by exact_mod_cast hgap
  have hbelow : (gapBelow n : ℚ) ≤ gapAbove n := by exact_mod_cast gapBelow_le n
  have hpos : (0 : ℚ) < gapAbove n := by exact_mod_cast gapAbove_pos n
  linarith

theorem RoundsTo.le_of_le (h : RoundsTo v n) (hv : 2 ^ 53 ≤ v) : 2 ^ 52 ≤ n := by
  have hgap : (gapAbove n : ℚ) ≤ n + 1 := by exact_mod_cast gapAbove_le_succ n
  have hhigh := h.high
  have hle : (2 * 2 ^ 53 : ℚ) ≤ 3 * n + 1 := by linarith
  have hle' : 2 * 2 ^ 53 ≤ 3 * n + 1 := by exact_mod_cast hle
  omega

/-- At most 15 digits are the shortest ones of what they are read as. -/
theorem Scientific.Shortest.of_fifteen {s : Scientific} (hs : s.Normal) (hlen : s.digits.length ≤ 15)
    (hn : 2 ^ 52 ≤ n) (h : ofDecimal s.significand s.place = some n) : s.Shortest n := by
  obtain ⟨hround, -⟩ := ofDecimal_eq_some_iff.mp h
  have hlt : ∀ d : Nat, (Nat.toDigits 10 d).length ≤ 15 → d < 10 ^ 15 := fun d hd =>
    (lt_pow_length_toDigits d).trans_le (Nat.pow_le_pow_right (by omega) hd)
  have hsame : ∀ d e, ofDecimal d e = some n → (Nat.toDigits 10 d).length ≤ 15 →
      inUnits d e = inUnits s.significand s.place := by
    intro d e hd hdlen
    obtain ⟨hround', -⟩ := ofDecimal_eq_some_iff.mp hd
    have hslen : (Nat.toDigits 10 s.significand).length ≤ 15 := hs.digits ▸ hlen
    exact le_antisymm
      (le_of_not_gt (hround.not_lt_of_fifteen hn (hlt _ hslen) (hlt _ hdlen) hround'))
      (le_of_not_gt (hround'.not_lt_of_fifteen hn (hlt _ hdlen) (hlt _ hslen) hround))
  refine ⟨h, fun d e hd => ?_, fun d e hd hdlen => ?_, fun d e hd hdlen _ => ?_⟩
  -- fewer digits would be the same decimal with zeros at the end
  · by_contra hshort
    have hvalue := hsame d e hd (by omega)
    obtain ⟨hround', -⟩ := ofDecimal_eq_some_iff.mp hd
    obtain ⟨hnormal, t, hdt, hplace⟩ := exists_ofNat (hround'.pos_of_pos (by omega)) e
    have heq : ofNat d e = s := by
      refine hnormal.eq_of_inUnits_eq hs ?_
      rw [hplace, ← inUnits_mul_pow, ← hdt, hvalue]
    rw [heq] at hdt
    rw [hdt, toDigits_mul_pow hs.pos, List.length_append, hs.digits] at hshort
    omega
  · rw [hsame d e hd (hdlen ▸ hlen)]
  · exact .inl (hsame d e hd (hdlen ▸ hlen))

end Fifteen

end CellQuery.Decimal
