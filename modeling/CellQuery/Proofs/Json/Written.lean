import CellQuery.Proofs.Decimal.Shortest
import CellQuery.Proofs.Json.Numeral

/-!
# Numerals that are written

Writing a number spells a numeral (`Number.spelling_numeral`). For a decimal it is one of four kinds
(`Numeral.Writes`), and which numerals are written at all can be seen from how they are laid out
(`Numeral.Laid`): where their point and their exponent are, and which zeros they have.
-/

namespace CellQuery.Json

open Decimal

/-! ### The numeral of a number -/

/-- The exponent that is written. -/
def signedExponent (e : Int) : Exponent :=
  ⟨'e', some (if e < 0 then '-' else '+'), Nat.toDigits 10 e.natAbs⟩

/-- The numeral that is written for a decimal. -/
def decimalNumeral (negative : Bool) (s : Scientific) : Numeral :=
  let rest := s.digits.drop 1
  let point := (s.exponent + 1).toNat
  let fraction := s.digits.drop point
  if s.exponent < -5 ∨ 15 < s.exponent then
    ⟨negative, s.digits.take 1, if rest.isEmpty then none else some rest,
      some (signedExponent s.exponent)⟩
  else if s.exponent < 0 then
    ⟨negative, ['0'], some (List.replicate (-s.exponent - 1).toNat '0' ++ s.digits), none⟩
  else
    ⟨negative, s.digits.take point ++ List.replicate (point - s.digits.length) '0',
      some (if fraction.isEmpty then ['0'] else fraction), none⟩

/-- The numeral that is written for zero, or for minus zero. -/
def zeroNumeral (negative : Bool) : Numeral :=
  ⟨negative, ['0'], some ['0'], none⟩

/-- The numeral that is written for a number. -/
def Number.numeral : Number → Numeral
  | .integer n => ⟨n < 0, Nat.toDigits 10 n.natAbs, none, none⟩
  | .float negative n => if n = 0 then zeroNumeral negative else decimalNumeral negative (shortest n)

theorem spelling_signedExponent (e : Int) :
    (signedExponent e).spelling = 'e' :: (if e < 0 then ['-'] else ['+']) ++ Nat.toDigits 10 e.natAbs := by
  simp only [Exponent.spelling, signedExponent, Option.toList_some]
  split <;> rfl

theorem spelling_decimalNumeral (negative : Bool) (s : Scientific) :
    (decimalNumeral negative s).spelling =
      (if negative then ['-'] else []) ++ Layout.cell.write s := by
  unfold decimalNumeral Layout.write
  simp only [Layout.cell]
  split
  · simp only [Numeral.spelling, Layout.scientific, Option.map_some, Option.getD_some,
      spelling_signedExponent]
    split <;> split <;> simp
  · split
    · simp [Numeral.spelling]
    · simp [Numeral.spelling, Layout.plain]

theorem spelling_zeroNumeral (negative : Bool) :
    (zeroNumeral negative).spelling = (if negative then ['-'] else []) ++ ['0', '.', '0'] := by
  cases negative <;> rfl

theorem Number.spelling_numeral (x : Number) : x.numeral.spelling = x.write := by
  cases x with
  | integer n => simp [numeral, write, Numeral.spelling]
  | float negative n =>
    rw [numeral, write, Layout.writeUnits]
    split
    · exact spelling_zeroNumeral negative
    · exact spelling_decimalNumeral negative _

/-! ### Exponents -/

/-- How an exponent is laid out that is written: it has a sign and no zero in front, and it is one
that a plain numeral does without. -/
structure Exponent.Laid (e : Exponent) : Prop where
  mark : e.mark = 'e'
  sign : e.sign.isSome = true
  digits : e.digits.head? ≠ some '0'
  large : e.value < -5 ∨ 15 < e.value

theorem value_signedExponent (e : Int) : (signedExponent e).value = e := by
  have hdigits : natOfDigits (signedExponent e).digits = e.natAbs :=
    Nat.ofDigitChars_toDigits (by omega) (by omega)
  rw [Exponent.value, hdigits, signedExponent]
  dsimp only
  split
  · rw [if_pos rfl]
    omega
  · rw [if_neg (by decide)]
    omega

theorem laid_signedExponent {e : Int} (h : e < -5 ∨ 15 < e) :
    (signedExponent e).WellFormed ∧ (signedExponent e).Laid := by
  refine ⟨⟨.inl rfl, fun c hc => ?_, Nat.toDigits_ne_nil, fun c hc => ?_⟩, rfl, rfl, ?_, ?_⟩
  · obtain rfl := Option.mem_some_iff.mp hc
    split
    · exact .inr rfl
    · exact .inl rfl
  · exact Nat.isDigit_of_mem_toDigits (by omega) (by omega) hc
  · exact head?_toDigits (by omega)
  · rwa [value_signedExponent]

theorem Exponent.Laid.eq {e : Exponent} (h : e.Laid) (hwell : e.WellFormed) :
    e = signedExponent e.value := by
  obtain ⟨sign, hsign⟩ := Option.isSome_iff_exists.mp h.sign
  have hlarge := h.large
  -- an exponent is never written as zero, so its digits have no zero in front
  have hdigits : Nat.toDigits 10 (natOfDigits e.digits) = e.digits :=
    toDigits_ofDigitChars hwell.digits.1 hwell.digits.2 fun hzero => (h.digits hzero).elim
  rcases hwell.sign sign hsign with rfl | rfl
  · have hvalue : e.value = natOfDigits e.digits := by
      rw [value, hsign, if_neg (by decide)]
    rw [hvalue] at hlarge ⊢
    rw [signedExponent, if_neg (by omega), Int.natAbs_natCast, hdigits, ← h.mark, ← hsign]
  · have hvalue : e.value = -natOfDigits e.digits := by
      rw [value, hsign, if_pos rfl]
    rw [hvalue] at hlarge ⊢
    rw [signedExponent, if_pos (by omega), Int.natAbs_neg, Int.natAbs_natCast, hdigits, ← h.mark,
      ← hsign]

/-! ### Layout -/

namespace Numeral

/-- All digits of a numeral, those before the point and those behind it. -/
def digits (n : Numeral) : List Char :=
  n.whole ++ n.fraction.getD []

/-- The power of ten that the last digit counts. -/
def power (n : Numeral) : Int :=
  (n.exponent.map Exponent.value).getD 0 - (n.fraction.getD []).length

/-- The decimal that a numeral stands for, before it is rounded. -/
def scientific (n : Numeral) : Scientific :=
  .ofNat (natOfDigits n.digits) n.power

theorem scientific_eq {n : Numeral} {ds : List Char} {z t : Nat} (h : IsSignificand ds)
    (hdigits : n.digits = List.replicate z '0' ++ (ds ++ List.replicate t '0')) :
    n.scientific = ⟨ds, n.power + t + ds.length - 1⟩ := by
  rw [scientific, hdigits]
  exact h.ofNat_padded z t n.power

/-- How a numeral is laid out that is written. Either it has no exponent, at most 16 digits before
the point, and behind it no more than four zeros in front of the first digit and none at the end; or
it has an exponent, and one digit before the point. -/
inductive Laid : Numeral → Prop where
  | plain {negative : Bool} {whole fraction : List Char} : whole.length ≤ 16 →
    (whole = ['0'] → (fraction.takeWhile (· == '0')).length ≤ 4) →
    (fraction = ['0'] ∨ fraction.getLast? ≠ some '0') → Laid ⟨negative, whole, some fraction, none⟩
  | scientific {negative : Bool} {digit : Char} {fraction : Option (List Char)}
    {exponent : Exponent} : digit ≠ '0' → (∀ ds ∈ fraction, ds.getLast? ≠ some '0') →
    exponent.Laid → Laid ⟨negative, [digit], fraction, some exponent⟩

/-- The ways to write a decimal, with the zeros that they take: with an exponent, with a zero before
the point, with only a zero behind it, and with digits on both sides. -/
inductive Writes (negative : Bool) : Scientific → Numeral → Prop where
  | scientific {digit : Char} {rest : List Char} {e : Int} : e < -5 ∨ 15 < e →
    Writes negative ⟨digit :: rest, e⟩
      ⟨negative, [digit], if rest.isEmpty then none else some rest, some (signedExponent e)⟩
  | small {ds : List Char} {z : Nat} : z ≤ 4 →
    Writes negative ⟨ds, -(z + 1 : Nat)⟩ ⟨negative, ['0'], some (List.replicate z '0' ++ ds), none⟩
  | whole {ds : List Char} {t : Nat} : ds.length + t ≤ 16 →
    Writes negative ⟨ds, (ds.length + t : Nat) - 1⟩
      ⟨negative, ds ++ List.replicate t '0', some ['0'], none⟩
  | mixed {ds fraction : List Char} : ds ≠ [] → fraction ≠ [] → ds.length ≤ 16 →
    Writes negative ⟨ds ++ fraction, ds.length - 1⟩ ⟨negative, ds, some fraction, none⟩

theorem exists_zeros_append (cs : List Char) : ∃ ds,
    cs = List.replicate (cs.takeWhile (· == '0')).length '0' ++ ds ∧ ds.head? ≠ some '0' := by
  refine ⟨cs.dropWhile (· == '0'), ?_, fun h => ?_⟩
  · have hzeros : cs.takeWhile (· == '0') = List.replicate (cs.takeWhile (· == '0')).length '0' :=
      List.eq_replicate_of_mem fun c hc => eq_of_beq (List.mem_takeWhile_imp (p := (· == '0')) hc)
    rw [← hzeros, List.takeWhile_append_dropWhile]
  · have hhead := List.head?_dropWhile_not (· == '0') cs
    rw [h] at hhead
    cases hhead

theorem exists_append_zeros (cs : List Char) : ∃ ds t,
    cs = ds ++ List.replicate t '0' ∧ ds.getLast? ≠ some '0' := by
  obtain ⟨ds, hds, hhead⟩ := exists_zeros_append cs.reverse
  generalize (cs.reverse.takeWhile (· == '0')).length = t at hds
  refine ⟨ds.reverse, t, ?_, by rwa [List.getLast?_reverse]⟩
  rw [← List.reverse_reverse cs, hds, List.reverse_append, List.reverse_replicate]

variable {negative : Bool} {s : Scientific} {n : Numeral}

theorem exists_writes (negative : Bool) (hs : IsSignificand s.digits) :
    ∃ n, Writes negative s n := by
  obtain ⟨digits, e⟩ := s
  -- the range of the exponent decides, in the order in which the layout asks for it
  by_cases hlarge : e < -5 ∨ 15 < e
  · obtain ⟨digit, rest, rfl⟩ := List.exists_cons_of_ne_nil hs.ne_nil
    exact ⟨_, .scientific hlarge⟩
  by_cases hneg : e < 0
  · obtain ⟨z, rfl⟩ : ∃ z : Nat, e = -(z + 1 : Nat) := ⟨(-e - 1).toNat, by omega⟩
    exact ⟨_, .small (by omega)⟩
  by_cases hlen : digits.length ≤ (e + 1).toNat
  · obtain ⟨t, rfl⟩ : ∃ t : Nat, e = (digits.length + t : Nat) - 1 :=
      ⟨(e + 1).toNat - digits.length, by omega⟩
    exact ⟨_, .whole (by omega)⟩
  -- the point stands among the digits, so both sides have some
  · have hsplit := List.take_append_drop (e + 1).toNat digits
    have htake : (digits.take (e + 1).toNat).length = (e + 1).toNat := by
      rw [List.length_take]
      omega
    have hdrop : (digits.drop (e + 1).toNat).length ≠ 0 := by
      rw [List.length_drop]
      omega
    generalize digits.take (e + 1).toNat = ds at hsplit htake
    generalize digits.drop (e + 1).toNat = fraction at hsplit hdrop
    subst hsplit
    obtain rfl : e = ds.length - 1 := by omega
    refine ⟨_, .mixed ?_ (by rintro rfl; exact hdrop rfl) (by omega)⟩
    rintro rfl
    exact hneg (by decide)

theorem Writes.eq_decimalNumeral (h : Writes negative s n) (hs : IsSignificand s.digits) :
    n = decimalNumeral negative s := by
  cases h with
  | scientific hlarge =>
    unfold decimalNumeral
    dsimp only
    rw [if_pos hlarge]
    rfl
  | @small ds z hz =>
    have hpoint : (-(-((z + 1 : Nat) : Int)) - 1).toNat = z := by omega
    unfold decimalNumeral
    dsimp only
    rw [if_neg (by omega), if_pos (by omega), hpoint]
  | @whole ds t ht =>
    have hpoint : (((ds.length + t : Nat) : Int) - 1 + 1).toNat = ds.length + t := by omega
    have hdrop : ds.drop (ds.length + t) = [] := List.drop_eq_nil_of_le (by omega)
    have hpos := List.length_pos_iff.mpr hs.ne_nil
    dsimp only at hpos
    unfold decimalNumeral
    dsimp only
    rw [if_neg (by omega), if_neg (by omega), hpoint, hdrop, List.take_of_length_le (by omega),
      Nat.add_sub_cancel_left]
    rfl
  | @mixed ds fraction hds hfraction hlen =>
    have hpoint : ((ds.length : Int) - 1 + 1).toNat = ds.length := by omega
    have hpos := List.length_pos_iff.mpr hds
    have hempty : fraction.isEmpty = false := List.isEmpty_eq_false_iff.mpr hfraction
    unfold decimalNumeral
    dsimp only
    rw [if_neg (by omega), if_neg (by omega), hpoint, List.take_left, List.drop_left, hempty,
      List.length_append, Nat.sub_eq_zero_of_le (by omega), List.replicate_zero, List.append_nil]
    rfl

theorem Writes.wellFormed (h : Writes negative s n) (hs : IsSignificand s.digits) : n.WellFormed := by
  have hdigit : '0'.isDigit = true := rfl
  cases h with
  | @scientific digit rest e hlarge =>
    have hdigits := List.forall_mem_cons.mp hs.digits
    refine ⟨⟨⟨List.cons_ne_nil _ _, ?_⟩, fun hzero => (hs.head hzero).elim⟩, fun ds hds => ?_,
      fun e he => ?_⟩
    · exact List.forall_mem_singleton.mpr hdigits.1
    · split at hds
      · cases hds
      · next hrest =>
        obtain rfl := Option.mem_some_iff.mp hds
        exact ⟨fun h => hrest (List.isEmpty_iff.mpr h), hdigits.2⟩
    · obtain rfl := Option.mem_some_iff.mp he
      exact (laid_signedExponent hlarge).1
  | @small ds z hz =>
    refine ⟨⟨⟨List.cons_ne_nil _ _, List.forall_mem_singleton.mpr hdigit⟩, fun _ => rfl⟩,
      fun fraction hfraction => ?_, nofun⟩
    obtain rfl := Option.mem_some_iff.mp hfraction
    refine ⟨List.append_ne_nil_of_right_ne_nil _ hs.ne_nil, List.forall_mem_append.mpr ⟨?_, hs.digits⟩⟩
    intro c hc
    rw [List.eq_of_mem_replicate hc]
    exact hdigit
  | @whole ds t ht =>
    refine ⟨⟨⟨List.append_ne_nil_of_left_ne_nil hs.ne_nil _, List.forall_mem_append.mpr ⟨hs.digits, ?_⟩⟩,
      fun hzero => ?_⟩, fun fraction hfraction => ?_, nofun⟩
    · intro c hc
      rw [List.eq_of_mem_replicate hc]
      exact hdigit
    · rw [List.head?_append_of_ne_nil _ hs.ne_nil] at hzero
      exact (hs.head hzero).elim
    · obtain rfl := Option.mem_some_iff.mp hfraction
      exact ⟨List.cons_ne_nil _ _, List.forall_mem_singleton.mpr hdigit⟩
  | @mixed ds fraction hds hfraction hlen =>
    have hdigits := List.forall_mem_append.mp hs.digits
    refine ⟨⟨⟨hds, hdigits.1⟩, fun hzero => ?_⟩, fun fraction hfraction' => ?_, nofun⟩
    · have hhead : (ds ++ fraction).head? = ds.head? := List.head?_append_of_ne_nil _ hds
      exact (hs.head (hhead.trans hzero)).elim
    · obtain rfl := Option.mem_some_iff.mp hfraction'
      exact ⟨hfraction, hdigits.2⟩

theorem Writes.laid (h : Writes negative s n) (hs : IsSignificand s.digits) : n.Laid := by
  cases h with
  | @scientific digit rest e hlarge =>
    refine .scientific (fun hzero => hs.head (congrArg some hzero)) (fun ds hds hlast => ?_)
      (laid_signedExponent hlarge).2
    split at hds
    · cases hds
    · next hrest =>
      obtain rfl := Option.mem_some_iff.mp hds
      refine hs.last ?_
      rw [List.getLast?_cons, hlast]
      rfl
  | @small ds z hz =>
    refine .plain (by decide) (fun _ => ?_) (.inr ?_)
    · obtain ⟨d, rest, hd⟩ := List.exists_cons_of_ne_nil hs.ne_nil
      have hd : ds = d :: rest := hd
      have hne : ¬(d == '0') = true := fun heq => hs.head (by rw [hd, eq_of_beq heq]; rfl)
      rw [List.takeWhile_append_of_pos (by simp), hd, List.takeWhile_cons_of_neg (p := (· == '0')) hne,
        List.append_nil, List.length_replicate]
      exact hz
    · rw [List.getLast?_append_of_ne_nil _ hs.ne_nil]
      exact hs.last
  | @whole ds t ht =>
    refine .plain (by simpa using ht) (fun hzero => ?_) (.inl rfl)
    have hhead := congrArg List.head? hzero
    rw [List.head?_append_of_ne_nil _ hs.ne_nil] at hhead
    exact (hs.head hhead).elim
  | @mixed ds fraction hds hfraction hlen =>
    refine .plain hlen (fun hzero => (hs.head ?_).elim) (.inr fun hlast => hs.last ?_)
    · rw [hzero]
      rfl
    · rw [List.getLast?_append_of_ne_nil _ hfraction, hlast]

theorem Writes.scientific_eq (h : Writes negative s n) (hs : IsSignificand s.digits) :
    n.scientific = s := by
  cases h with
  | @scientific digit rest e hlarge =>
    -- a missing fraction and an empty one have the same digits
    have hrest : (if rest.isEmpty then none else some rest : Option (List Char)).getD [] = rest := by
      split
      · next hempty => exact (List.isEmpty_iff.mp hempty).symm
      · rfl
    have hdigits : Numeral.digits ⟨negative, [digit], if rest.isEmpty then none else some rest,
        some (signedExponent e)⟩ = digit :: rest := by
      rw [digits, hrest]
      rfl
    rw [Numeral.scientific_eq (z := 0) (t := 0) hs (by rw [hdigits]; simp)]
    congr 1
    simp only [power, hrest, Option.map_some, Option.getD_some, value_signedExponent, List.length_cons]
    omega
  | @small ds z hz =>
    rw [Numeral.scientific_eq (z := z + 1) (t := 0) hs (by simp [digits, List.replicate_succ])]
    congr 1
    simp only [power, Option.map_none, Option.getD_none, Option.getD_some, List.length_append,
      List.length_replicate]
    omega
  | @whole ds t ht =>
    rw [Numeral.scientific_eq (z := 0) (t := t + 1) hs (by simp [digits, List.replicate_succ'])]
    congr 1
    simp only [power, Option.map_none, Option.getD_none, Option.getD_some, List.length_singleton]
    omega
  | @mixed ds fraction hds hfraction hlen =>
    rw [Numeral.scientific_eq (z := 0) (t := 0) hs (by simp [digits])]
    congr 1
    simp only [power, Option.map_none, Option.getD_none, Option.getD_some, List.length_append]
    omega

section Laid

variable {whole fraction : List Char}

theorem exists_writes_of_small (hfraction : IsDigits fraction)
    (hsmall : (fraction.takeWhile (· == '0')).length ≤ 4)
    (hlast : fraction = ['0'] ∨ fraction.getLast? ≠ some '0')
    (hpos : 0 < natOfDigits ('0' :: fraction)) :
    ∃ s, IsSignificand s.digits ∧ Writes negative s ⟨negative, ['0'], some fraction, none⟩ := by
  obtain ⟨ds, hds, hhead⟩ := exists_zeros_append fraction
  generalize (fraction.takeWhile (· == '0')).length = z at hds hsmall
  subst hds
  have hne : ds ≠ [] := by
    rintro rfl
    have hzeros : natOfDigits ('0' :: (List.replicate z '0' ++ [])) = 0 := by
      rw [List.append_nil, ← List.replicate_succ]
      exact Nat.ofDigitChars_replicate_zero
    exact Nat.ne_of_gt hpos hzeros
  refine ⟨⟨ds, -(z + 1 : Nat)⟩, ⟨hne, ?_, hhead, ?_⟩, .small hsmall⟩
  · exact (List.forall_mem_append.mp hfraction.2).2
  · rw [← List.getLast?_append_of_ne_nil (List.replicate z '0') hne]
    refine hlast.resolve_left fun hone => ?_
    cases z with
    | zero =>
      rw [List.replicate_zero, List.nil_append] at hone
      exact hhead (hone ▸ rfl)
    | succ z => exact hne (List.append_eq_nil_iff.mp (List.cons.inj hone).2).2

theorem exists_writes_of_whole (hwhole : IsDigits whole) (hhead : whole.head? ≠ some '0')
    (hlen : whole.length ≤ 16) (hfraction : IsDigits fraction)
    (hlast : fraction = ['0'] ∨ fraction.getLast? ≠ some '0') :
    ∃ s, IsSignificand s.digits ∧ Writes negative s ⟨negative, whole, some fraction, none⟩ := by
  -- behind the point there is a single zero, and the whole part may end with more, or there are
  -- digits that count
  rcases hlast with rfl | hlast
  · obtain ⟨ds, t, rfl, hlast⟩ := exists_append_zeros whole
    have hne : ds ≠ [] := by
      rintro rfl
      cases t with
      | zero => exact hwhole.1 rfl
      | succ t => exact hhead rfl
    rw [List.head?_append_of_ne_nil _ hne] at hhead
    rw [List.length_append, List.length_replicate] at hlen
    exact ⟨⟨ds, (ds.length + t : Nat) - 1⟩,
      ⟨hne, (List.forall_mem_append.mp hwhole.2).1, hhead, hlast⟩, .whole hlen⟩
  · refine ⟨⟨whole ++ fraction, whole.length - 1⟩, ⟨?_, ?_, ?_, ?_⟩,
      .mixed hwhole.1 hfraction.1 hlen⟩
    · exact List.append_ne_nil_of_left_ne_nil hwhole.1 _
    · exact List.forall_mem_append.mpr ⟨hwhole.2, hfraction.2⟩
    · rw [List.head?_append_of_ne_nil _ hwhole.1]
      exact hhead
    · rw [List.getLast?_append_of_ne_nil _ hfraction.1]
      exact hlast

theorem exists_writes_of_exponent {digit : Char} {rest : List Char} {e : Int} (he : e < -5 ∨ 15 < e)
    (hdigits : ∀ c ∈ digit :: rest, c.isDigit = true) (hhead : digit ≠ '0')
    (hlast : rest.getLast? ≠ some '0') : ∃ s, IsSignificand s.digits ∧ Writes negative s
      ⟨negative, [digit], if rest.isEmpty then none else some rest, some (signedExponent e)⟩ := by
  refine ⟨⟨digit :: rest, e⟩, ⟨List.cons_ne_nil _ _, hdigits, ?_, ?_⟩, .scientific he⟩
  · exact fun h => hhead (Option.some.inj h)
  · cases rest with
    | nil => exact fun h => hhead (Option.some.inj h)
    | cons c rest =>
      have hsplit : (digit :: c :: rest).getLast? = (c :: rest).getLast? :=
        List.getLast?_append_of_ne_nil [digit] (List.cons_ne_nil c rest)
      exact hsplit ▸ hlast

theorem Laid.exists_writes (h : n.Laid) (hwell : n.WellFormed) (hpos : 0 < natOfDigits n.digits) :
    ∃ s, IsSignificand s.digits ∧ Writes n.negative s n := by
  cases h with
  | @plain negative whole fraction hlen hsmall hlast =>
    have hfraction := hwell.fraction fraction rfl
    -- a single zero before the point, or a digit that is no zero in front
    by_cases hzero : whole = ['0']
    · subst hzero
      exact exists_writes_of_small hfraction (hsmall rfl) hlast hpos
    · have hhead : whole.head? ≠ some '0' := fun h => hzero (hwell.whole.2 h)
      exact exists_writes_of_whole hwell.whole.1 hhead hlen hfraction hlast
  | @scientific negative digit fraction exponent hdigit hlast hexp =>
    have hdigits := hwell.whole.1.2 digit (List.mem_singleton.mpr rfl)
    rw [hexp.eq (hwell.exponent exponent rfl)]
    cases fraction with
    | none =>
      have hlast : ([] : List Char).getLast? ≠ some '0' := nofun
      exact exists_writes_of_exponent hexp.large (List.forall_mem_singleton.mpr hdigits) hdigit hlast
    | some rest =>
      obtain ⟨hne, hrest⟩ := hwell.fraction rest rfl
      have hempty : some rest = if rest.isEmpty then none else some rest :=
        (if_neg fun h => hne (List.isEmpty_iff.mp h)).symm
      rw [hempty]
      exact exists_writes_of_exponent hexp.large (List.forall_mem_cons.mpr ⟨hdigits, hrest⟩) hdigit
        (hlast rest rfl)

end Laid

theorem eq_zero_of_natOfDigits {ds : List Char} (hds : ∀ c ∈ ds, c.isDigit = true)
    (hzero : natOfDigits ds = 0) : ∀ c ∈ ds, c = '0' := by
  obtain ⟨rest, hrest, hhead⟩ := exists_zeros_append ds
  generalize (ds.takeWhile (· == '0')).length = z at hrest
  subst hrest
  have hvalue : natOfDigits rest = 0 := by
    have hsplit : natOfDigits (List.replicate z '0' ++ rest) =
        Nat.ofDigitChars 10 rest (Nat.ofDigitChars 10 (List.replicate z '0') 0) :=
      Nat.ofDigitChars_append 0
    rwa [hzero, Nat.ofDigitChars_replicate_zero, Nat.mul_zero, eq_comm] at hsplit
  -- what is left behind the zeros would be written as a number above zero
  have hnil : rest = [] := by
    by_contra hne
    have hdigits : Nat.toDigits 10 (natOfDigits rest) = rest :=
      toDigits_ofDigitChars hne (List.forall_mem_append.mp hds).2 fun h => (hhead h).elim
    rw [hvalue] at hdigits
    exact hhead (hdigits ▸ rfl)
  rw [hnil, List.append_nil]
  exact fun c hc => List.eq_of_mem_replicate hc

/-- Zero is laid out in one way. -/
theorem Laid.eq_zeroNumeral (h : n.Laid) (hwell : n.WellFormed) (hzero : natOfDigits n.digits = 0) :
    n = zeroNumeral n.negative := by
  cases h with
  | @plain negative whole fraction hwhole hsmall hlast =>
    have hfraction := hwell.fraction fraction rfl
    have hzeros : ∀ c ∈ whole ++ fraction, c = '0' :=
      eq_zero_of_natOfDigits (List.forall_mem_append.mpr ⟨hwell.whole.1.2, hfraction.2⟩) hzero
    obtain ⟨hwhole', hfraction'⟩ := List.forall_mem_append.mp hzeros
    have hhead : whole.head? = some '0' := by
      rw [List.head?_eq_some_head hwell.whole.1.1, hwhole' _ (List.head_mem _)]
    have hend : fraction.getLast? = some '0' := by
      rw [List.getLast?_eq_some_getLast hfraction.1, hfraction' _ (List.getLast_mem _)]
    obtain rfl : whole = ['0'] := hwell.whole.2 hhead
    obtain rfl := hlast.resolve_right fun hne => hne hend
    rfl
  | @scientific negative digit fraction exponent hdigit =>
    have hdigits : ∀ c ∈ digit :: fraction.getD [], c.isDigit = true := by
      refine List.forall_mem_cons.mpr ⟨hwell.whole.1.2 digit List.mem_cons_self, ?_⟩
      cases fraction with
      | none => nofun
      | some ds => exact (hwell.fraction ds rfl).2
    exact (hdigit (eq_zero_of_natOfDigits hdigits hzero digit List.mem_cons_self)).elim

end Numeral

end CellQuery.Json
