import CellQuery.Json.Value
import CellQuery.Proofs.Decimal.Parts
import CellQuery.Proofs.Json.Occurrence
import CellQuery.Proofs.Json.Written

/-!
# Literals that are kept

A literal is read as a value, and the value is written as a literal again. Reading may round more
than once, and writing takes the shortest digits of what was read: the literal that is written
stands for that value (`Literal.exists_written`), and it is the one that was read exactly for the
literals that are kept (`Literal.Kept`). These are booleans, whole numbers of 64 bits, and the
numerals that are laid out like written ones and have the shortest digits of the floating point
number they are read as, as ordinary ones have (`Literal.Ordinary.kept`).
-/

namespace CellQuery.Json

open Decimal

namespace Numeral

variable {n : Numeral} {x : Number}

/-! ### Whole numbers -/

/-- A whole number of 64 bits, with a sign or without. Minus zero is none. -/
structure IsInteger (n : Numeral) : Prop where
  fraction : n.fraction = none
  exponent : n.exponent = none
  fits : if n.negative then 0 < natOfDigits n.whole ∧ natOfDigits n.whole ≤ UInt64.size / 2
    else natOfDigits n.whole < UInt64.size

theorem number?_of_isInteger (h : n.IsInteger) : n.number? =
    some (.integer (if n.negative then -natOfDigits n.whole else natOfDigits n.whole)) := by
  have hfits := h.fits
  unfold number?
  dsimp only
  rw [h.fraction, h.exponent]
  split at hfits
  · next hneg => simp [hneg, hfits]
  · next hneg => simp [hneg, hfits]

theorem number?_of_not_isInteger (h : ¬n.IsInteger) : n.number? = n.float? := by
  unfold number?
  dsimp only
  split
  · rfl
  · next hwhole =>
    rw [Bool.or_eq_true, not_or, Option.not_isSome_iff_eq_none, Option.not_isSome_iff_eq_none] at hwhole
    split
    · next hneg =>
      exact if_neg fun hfits => h ⟨hwhole.1, hwhole.2, by rwa [if_pos hneg]⟩
    · next hneg =>
      exact if_neg fun hfits => h ⟨hwhole.1, hwhole.2, by rwa [if_neg hneg]⟩

/-- Whole numbers have one spelling. -/
theorem IsInteger.numeral_eq (h : n.IsInteger) (hwell : n.WellFormed) :
    (Number.integer (if n.negative then -natOfDigits n.whole else natOfDigits n.whole)).numeral = n := by
  -- no zeros in front, so the digits are those of the number
  have hdigits : Nat.toDigits 10 (natOfDigits n.whole) = n.whole :=
    toDigits_ofDigitChars hwell.whole.1.1 hwell.whole.1.2 hwell.whole.2
  have hfits := h.fits
  obtain ⟨negative, whole, fraction, exponent⟩ := n
  obtain rfl : fraction = none := h.fraction
  obtain rfl : exponent = none := h.exponent
  dsimp only at hdigits hfits ⊢
  cases negative with
  | true =>
    rw [if_pos rfl] at hfits ⊢
    rw [Number.numeral, Int.natAbs_neg, Int.natAbs_natCast, hdigits, decide_eq_true (by omega)]
  | false =>
    rw [if_neg (by decide), Number.numeral, Int.natAbs_natCast, hdigits, decide_eq_false (by omega)]

theorem Laid.not_isInteger (h : n.Laid) : ¬n.IsInteger := by
  intro hint
  cases h with
  | plain => cases hint.fraction
  | scientific => cases hint.exponent

/-! ### Parts -/

theorem le_ofDigitChars (m : Nat) (ds : List Char) : m ≤ Nat.ofDigitChars 10 ds m := by
  induction ds generalizing m with
  | nil => exact Nat.le_refl m
  | cons d ds ih =>
    rw [Nat.ofDigitChars_cons]
    exact Nat.le_trans (by omega) (ih _)

/-- Digits that fit are all taken. -/
theorem takeSignificand_of_lt {m : Nat} {ds : List Char}
    (h : Nat.ofDigitChars 10 ds m < UInt64.size) :
    takeSignificand m ds = (Nat.ofDigitChars 10 ds m, []) := by
  induction ds generalizing m with
  | nil => rfl
  | cons d ds ih =>
    rw [Nat.ofDigitChars_cons] at h ⊢
    have hnext := Nat.lt_of_le_of_lt (le_ofDigitChars _ ds) h
    rw [takeSignificand, if_pos hnext, ih h]

/-- A numeral whose digits fit is read with all of them. -/
theorem parts_eq (h : natOfDigits n.digits < UInt64.size) :
    n.parts = (natOfDigits n.digits, n.power) := by
  have hsplit : natOfDigits n.digits =
      Nat.ofDigitChars 10 (n.fraction.getD []) (Nat.ofDigitChars 10 n.whole 0) :=
    Nat.ofDigitChars_append 0
  -- the whole part alone fits too, so nothing is left over in either run
  rw [hsplit] at h ⊢
  have hwhole := takeSignificand_of_lt (Nat.lt_of_le_of_lt (le_ofDigitChars _ _) h)
  rw [parts, hwhole]
  show (_, _) = _
  rw [takeSignificand_of_lt h, power]
  congr 1
  simp only [List.length_nil]
  omega

/-! ### Floating point numbers -/

theorem float?_eq_some_iff : n.float? = some x ↔
    ∃ units, ofParts? n.parts.1 n.parts.2 = some units ∧ x = .float n.negative units := by
  unfold float?
  rw [Option.map_eq_some_iff]
  simp only [eq_comm]

/-- A numeral with few digits and a small power is read as the number nearest to what it stands
for. -/
theorem float?_of_small (hsig : natOfDigits n.digits ≤ 2 ^ 53) (hpower : n.power.natAbs ≤ 22) :
    n.float? = (ofDecimal (natOfDigits n.digits) n.power).map (.float n.negative) := by
  have hfits : natOfDigits n.digits < UInt64.size := Nat.lt_of_le_of_lt hsig (by decide)
  unfold float?
  rw [parts_eq hfits]
  dsimp only
  rw [ofParts?_eq_ofDecimal hsig hpower]

/-- The number that a numeral stands for: a whole number of 64 bits, or the floating point number
nearest to the value of its digits. -/
inductive Denotes (n : Numeral) : Number → Prop where
  | integer : n.IsInteger →
    Denotes n (.integer (if n.negative then -natOfDigits n.whole else natOfDigits n.whole))
  | float {units : Nat} : ¬n.IsInteger → ofDecimal (natOfDigits n.digits) n.power = some units →
    Denotes n (.float n.negative units)

theorem ofDecimal_zero (e : Int) : ofDecimal 0 e = some 0 := by
  unfold ofDecimal
  dsimp only
  rw [if_pos (.inl rfl)]

/-- The digits of a numeral and those of the decimal that it stands for are read alike. -/
theorem ofDecimal_scientific (n : Numeral) :
    ofDecimal n.scientific.significand n.scientific.place =
      ofDecimal (natOfDigits n.digits) n.power := by
  -- zero has no significand without zeros at the end, and is read alike at any place
  rcases Nat.eq_zero_or_pos (natOfDigits n.digits) with hzero | hpos
  · have hsig : n.scientific.significand = 0 := by
      rw [scientific, hzero]
      rfl
    rw [hsig, hzero, ofDecimal_zero, ofDecimal_zero]
  · obtain ⟨-, t, hdigits, hplace⟩ := Scientific.exists_ofNat hpos n.power
    refine ofDecimal_congr ?_
    have hplace : n.scientific.place = n.power + t := hplace
    rw [hplace, ← inUnits_mul_pow]
    exact congrArg (inUnits · n.power) hdigits.symm

theorem digits_pos {units : Nat} (h : ofDecimal (natOfDigits n.digits) n.power = some units)
    (hpos : 0 < units) : 0 < natOfDigits n.digits := by
  refine Nat.pos_of_ne_zero fun hzero => ?_
  rw [hzero, ofDecimal_zero] at h
  exact hpos.ne (Option.some.inj h)

/-- A positive number is spelled in the way that it is written exactly if the numeral is laid out
that way and has the shortest digits. -/
theorem decimalNumeral_shortest_eq_iff {units : Nat} (hwell : n.WellFormed) (hpos : 0 < units)
    (hformat : Representable units ∧ units < overflow) :
    decimalNumeral n.negative (shortest units) = n ↔ n.Laid ∧ n.scientific.Shortest units := by
  obtain ⟨hrepresentable, hoverflow⟩ := hformat
  obtain ⟨hnormal, hshortest⟩ := shortest_spec hrepresentable hpos hoverflow
  constructor
  -- what is written is laid out by the layout, and its digits are the shortest by the search
  · intro heq
    obtain ⟨m, hm⟩ := exists_writes n.negative hnormal.isSignificand
    obtain rfl : m = n := (hm.eq_decimalNumeral hnormal.isSignificand).trans heq
    refine ⟨hm.laid hnormal.isSignificand, ?_⟩
    rw [hm.scientific_eq hnormal.isSignificand]
    exact hshortest
  -- a numeral laid out this way is written for its own decimal, which is the one searched for
  · rintro ⟨hlaid, hn⟩
    have hdigits := digits_pos ((ofDecimal_scientific n).symm.trans hn.reads) hpos
    obtain ⟨s, hs, hwrites⟩ := hlaid.exists_writes hwell hdigits
    have hsame : shortest units = s := by
      refine (shortest_eq_iff hs.normal hrepresentable hpos hoverflow).mpr ?_
      rwa [hwrites.scientific_eq hs] at hn
    rw [hsame, ← hwrites.eq_decimalNumeral hs]

theorem wellFormed_decimalNumeral {negative : Bool} {s : Scientific} (hs : IsSignificand s.digits) :
    (decimalNumeral negative s).WellFormed := by
  obtain ⟨m, hm⟩ := exists_writes negative hs
  exact hm.eq_decimalNumeral hs ▸ hm.wellFormed hs

/-- What is written for a decimal stands for the number nearest to the decimal. -/
theorem denotes_decimalNumeral {negative : Bool} {s : Scientific} {units : Nat}
    (hs : IsSignificand s.digits) (h : ofDecimal s.significand s.place = some units) :
    (decimalNumeral negative s).Denotes (.float negative units) := by
  obtain ⟨m, hm⟩ := exists_writes negative hs
  obtain rfl : m.negative = negative := by cases hm <;> rfl
  rw [← hm.eq_decimalNumeral hs]
  refine .float (hm.laid hs).not_isInteger ?_
  rw [← ofDecimal_scientific, hm.scientific_eq hs]
  exact h

/-! ### Zero -/

theorem wellFormed_zeroNumeral (negative : Bool) : (zeroNumeral negative).WellFormed := by
  have hdigits : IsDigits ['0'] := ⟨List.cons_ne_nil _ _, List.forall_mem_singleton.mpr rfl⟩
  refine ⟨⟨hdigits, fun _ => rfl⟩, fun ds hds => ?_, nofun⟩
  obtain rfl := Option.mem_some_iff.mp hds
  exact hdigits

theorem not_isInteger_zeroNumeral (negative : Bool) : ¬(zeroNumeral negative).IsInteger := by
  intro h
  cases h.fraction

theorem denotes_zeroNumeral (negative : Bool) :
    (zeroNumeral negative).Denotes (.float negative 0) :=
  .float (not_isInteger_zeroNumeral negative) (ofDecimal_zero _)

theorem float?_zeroNumeral (negative : Bool) :
    (zeroNumeral negative).float? = some (.float negative 0) := by
  rw [float?_of_small (Nat.zero_le _) (Nat.le_of_ble_eq_true rfl)]
  exact congrArg (Option.map (Number.float negative)) (ofDecimal_zero _)

/-! ### Both -/

/-- The numerals that are written as they are read: whole numbers of 64 bits, zero with one zero
behind the point, and the shortest digits of the number that is read, laid out like written ones. -/
inductive Kept (n : Numeral) : Prop where
  | integer : n.IsInteger → Kept n
  | zero : n = zeroNumeral n.negative → Kept n
  | shortest {units : Nat} : 0 < units → n.float? = some (.float n.negative units) → n.Laid →
    n.scientific.Shortest units → Kept n

/-- What is written for a number of a document is a numeral that stands for this number. It is the
numeral that was read exactly if that one is kept. -/
theorem numeral_of_number? (hwell : n.WellFormed) (h : n.number? = some x) :
    x.numeral.WellFormed ∧ x.numeral.Denotes x ∧ (x.numeral = n ↔ n.Kept) := by
  by_cases hint : n.IsInteger
  · obtain rfl := Option.some.inj ((number?_of_isInteger hint).symm.trans h)
    rw [hint.numeral_eq hwell]
    exact ⟨hwell, .integer hint, fun _ => .integer hint, fun _ => rfl⟩
  rw [number?_of_not_isInteger hint] at h
  obtain ⟨units, hunits, rfl⟩ := float?_eq_some_iff.mp h
  -- only one number is read, so every way of being kept speaks of that one
  have hread : ∀ {u}, n.float? = some (.float n.negative u) → u = units := fun hu =>
    (Number.float.inj (Option.some.inj (hu.symm.trans h))).2
  rcases Nat.eq_zero_or_pos units with rfl | hpos
  · rw [Number.numeral, if_pos rfl]
    refine ⟨wellFormed_zeroNumeral _, denotes_zeroNumeral _, fun heq => ?_, fun hkept => ?_⟩
    · exact .zero (heq ▸ rfl)
    · cases hkept with
      | integer hint' => exact (hint hint').elim
      | zero heq => exact heq.symm
      | shortest hpos hfloat => exact (hpos.ne' (hread hfloat)).elim
  · rw [Number.numeral, if_neg hpos.ne']
    have hformat := ofParts?_representable hunits
    obtain ⟨hnormal, hshortest⟩ := shortest_spec hformat.1 hpos hformat.2
    refine ⟨wellFormed_decimalNumeral hnormal.isSignificand,
      denotes_decimalNumeral hnormal.isSignificand hshortest.reads, fun heq => ?_, fun hkept => ?_⟩
    · obtain ⟨hlaid, hn⟩ := (decimalNumeral_shortest_eq_iff hwell hpos hformat).mp heq
      exact .shortest hpos h hlaid hn
    · cases hkept with
      | integer hint' => exact (hint hint').elim
      | zero heq => exact (hpos.ne (hread (heq ▸ float?_zeroNumeral n.negative))).elim
      | shortest _ hfloat hlaid hn =>
        obtain rfl := hread hfloat
        exact (decimalNumeral_shortest_eq_iff hwell hpos hformat).mpr ⟨hlaid, hn⟩

/-! ### Fifteen digits -/

theorem two_pow_mul_le : 2 ^ 53 * 10 ^ 22 ≤ 2 ^ unitExponent := by decide +kernel

/-- Numbers from `10 ^ -22` on are far above the bottom of the format. -/
theorem le_units_of_place {s : Scientific} {units : Nat} (hs : s.Normal) (hplace : -22 ≤ s.place)
    (h : RoundsTo (inUnits s.significand s.place) units) : 2 ^ 52 ≤ units := by
  have hvalue := le_inUnits hs.pos s.place
  have hlen := Nat.length_toDigits_pos (b := 10) (n := s.significand)
  have hpow : (10 : ℚ) ^ (-22 : Int) ≤
      10 ^ ((Nat.toDigits 10 s.significand).length + s.place - 1) :=
    zpow_le_zpow_right₀ (by norm_num) (by omega)
  have hunit : (2 ^ 53 * 10 ^ 22 : ℚ) ≤ 2 ^ unitExponent := by exact_mod_cast two_pow_mul_le
  refine h.le_of_le (le_trans ?_ hvalue)
  calc (2 : ℚ) ^ 53
      = 10 ^ (-22 : Int) * (2 ^ 53 * 10 ^ 22) := by norm_num
    _ ≤ 10 ^ ((Nat.toDigits 10 s.significand).length + s.place - 1) * 2 ^ unitExponent := by gcongr

/-- A numeral of few digits and a small power, with at most 15 digits besides the zeros around them,
is kept if it is laid out like a written one. -/
theorem Kept.of_small (hwell : n.WellFormed) (hlaid : n.Laid) (hsig : natOfDigits n.digits ≤ 2 ^ 53)
    (hpower : n.power.natAbs ≤ 22) (hlen : n.scientific.digits.length ≤ 15)
    (h : n.number? = some x) : n.Kept := by
  rw [number?_of_not_isInteger hlaid.not_isInteger] at h
  have hread := h
  rw [float?_of_small hsig hpower, Option.map_eq_some_iff] at hread
  obtain ⟨units, hunits, rfl⟩ := hread
  rcases Nat.eq_zero_or_pos (natOfDigits n.digits) with hzero | hpos
  · exact .zero (hlaid.eq_zeroNumeral hwell hzero)
  · -- The number read is the nearest one, and of this one 15 digits are always the shortest.
    obtain ⟨hnormal, t, -, hplace⟩ := Scientific.exists_ofNat hpos n.power
    rw [← ofDecimal_scientific] at hunits
    have hround := (ofDecimal_eq_some_iff.mp hunits).1
    have hplace : n.scientific.place = n.power + t := hplace
    have hlarge := le_units_of_place hnormal (by omega) hround
    exact .shortest (by omega) h hlaid (.of_fifteen hnormal hlen hlarge hunits)

end Numeral

/-! ### Literals -/

namespace Literal

variable {l m : Literal}

/-- The value of a literal. -/
def value? : Literal → Option Value
  | bool b => some (.bool b)
  | numeral n => n.number?.map .number

/-- The literals that are written as they are read. -/
def Kept : Literal → Prop
  | bool _ => True
  | numeral n => n.Kept

theorem valueWithin?_tree (depth : Nat) (l : Literal) : l.tree.valueWithin? depth = l.value? := by
  cases l with
  | bool b => rw [tree, Tree.valueWithin?, value?]
  | numeral n => rw [tree, Tree.valueWithin?, value?]

theorem mem_literals_tree (l : Literal) : l ∈ l.tree.literals := by
  cases l <;> exact List.mem_singleton.mpr rfl

/-- Numerals begin with a sign or a digit, so they are not spelled like booleans. -/
theorem head?_numeral {n : Numeral} (h : n.WellFormed) :
    ∃ c ∈ n.spelling.head?, c = '-' ∨ c.isDigit = true := by
  obtain ⟨d, ds, hd⟩ := List.exists_cons_of_ne_nil h.whole.1.1
  have hdigit := h.whole.1.2 d (hd ▸ List.mem_cons_self)
  rw [n.spelling_eq, Numeral.unsigned, hd]
  cases n.negative
  · exact ⟨d, rfl, .inr hdigit⟩
  · exact ⟨'-', rfl, .inl rfl⟩

theorem spelling_injective (hl : l.WellFormed) (hm : m.WellFormed) (h : l.spelling = m.spelling) :
    l = m := by
  have hmixed : ∀ {b n}, n.WellFormed → (bool b).spelling ≠ (numeral n).spelling := by
    intro b n hn heq
    obtain ⟨c, hc, hhead⟩ := head?_numeral hn
    have heq : (bool b).spelling = n.spelling := heq
    rw [← heq] at hc
    cases b <;> cases hc <;> revert hhead <;> decide
  cases l with
  | bool b =>
    cases m with
    | bool b' => cases b <;> cases b' <;> first | rfl | cases h
    | numeral n => exact (hmixed hm h).elim
  | numeral n =>
    cases m with
    | bool b => exact (hmixed hl h.symm).elim
    | numeral n' => exact congrArg numeral (Numeral.spelling_injective hl hm h)

/-- The value that a literal stands for. -/
inductive Denotes : Literal → Value → Prop where
  | bool (b : Bool) : Denotes (bool b) (.bool b)
  | number {n : Numeral} {x : Number} : n.Denotes x → Denotes (numeral n) (.number x)

/-- What is written for the value of a literal is a literal that stands for this value. It is the
literal that was read exactly if that one is kept. -/
theorem exists_written {v : Value} (hl : l.WellFormed) (h : l.value? = some v) :
    ∃ m : Literal, m.WellFormed ∧ m.Denotes v ∧ v.toString = .ofList m.spelling ∧
      (m = l ↔ l.Kept) := by
  cases l with
  | bool b =>
    obtain rfl := Option.some.inj h
    refine ⟨bool b, trivial, .bool b, ?_, fun _ => trivial, fun _ => rfl⟩
    cases b <;> rfl
  | numeral n =>
    obtain ⟨x, hx, rfl⟩ := Option.map_eq_some_iff.mp h
    obtain ⟨hwell, hdenotes, hkept⟩ := Numeral.numeral_of_number? hl hx
    refine ⟨numeral x.numeral, hwell, .number hdenotes, ?_, ?_⟩
    · exact congrArg String.ofList x.spelling_numeral.symm
    · rw [numeral.injEq]
      exact hkept

/-- Literals as they mostly are: booleans, whole numbers of 64 bits, and numbers with the point or
the exponent where a written number has it, of at most 15 digits besides the zeros around them. With
these zeros and without the point the digits count at most `2 ^ 53`, and the last of them counts a
power of ten between the 22nd and its reciprocal. -/
inductive Ordinary : Literal → Prop where
  | bool (b : Bool) : Ordinary (bool b)
  | integer {n : Numeral} : n.IsInteger → Ordinary (numeral n)
  | small {n : Numeral} : n.Laid → natOfDigits n.digits ≤ 2 ^ 53 → n.power.natAbs ≤ 22 →
    n.scientific.digits.length ≤ 15 → Ordinary (numeral n)

theorem Ordinary.kept {v : Value} (h : l.Ordinary) (hl : l.WellFormed) (hv : l.value? = some v) :
    l.Kept := by
  cases h with
  | bool b => trivial
  | integer hint => exact Numeral.Kept.integer hint
  | small hlaid hsig hpower hlen =>
    obtain ⟨x, hx, -⟩ := Option.map_eq_some_iff.mp hv
    exact Numeral.Kept.of_small hl hlaid hsig hpower hlen hx

end Literal

end CellQuery.Json
